import YohdaOS.Buddy.Core

/-!
# Setting up the buddy
-/

namespace YohdaOS

open ByteMem

def MM_HEAP_MIN_SIZE : ℤ := 0x20000

def BITMAP_DEF_BIT : ℕ := 32

def BITMAP_DEF_BYTE : ℕ := BITMAP_DEF_BIT / 8

/-- A region of the address space handed out as heap: its size is an `int` and its end is an
address. -/
structure Heap where
  base : ℕ
  size : ℕ
  size_lt : size < 2147483648
  fits : base + size < 4294967296

/-- The loop of `bud_get_real_size` over the orders that remain: the bytes of each bitmap leave
`size`. -/
def budGetRealSizeLoop (bitmapSize : ℕ) (_size : ℤ) : ℕ → ℤ → ℤ → ℤ
  | 0, _, size => size
  | dep + 1, ll, size =>
    let num := (_size / ll + (bitmapSize - 1)) / bitmapSize * BITMAP_DEF_BYTE
    budGetRealSizeLoop bitmapSize _size dep (toInt (ll * 2)) (toInt (size - num))

/-- `bud_get_real_size`; `bm.ll` and `bm.bitmap_size`, which it reads, are parameters. -/
def budGetRealSize (bmLl bitmapSize : ℕ) (_size _ll : ℤ) : ℤ :=
  if _ll < 1 ∨ _size < 1 then -1
  else
    let dep := budGetDep _size bmLl
    if dep < 0 then -4
    else
      let size := toInt (_size - sizeofBitmaps * dep)
      let size := budGetRealSizeLoop bitmapSize _size dep.toNat _ll size
      let size := toInt (size - _size / bmLl)
      if size < 0 then -8 else size

/-- One round of the loop of `_bud_init`: the descriptor of order `i`, whose bitmap starts at
`bmpBase`, its bitmap cleared and the bits past the last block set. -/
def budInitOrder (s : Mm) (dataSize ll i bmpBase : ℕ) : Mm :=
  let bit := s.bm.bitmapSize
  let num := (dataSize / ll + (bit - 1)) / bit
  let bmp : Bitmap := ⟨bmpBase, bit, num⟩
  let mem := fill s.mem bmpBase 0 (num * (bit / 8))
  let j := dataSize / ll % bit
  { s with
    bud := Function.update s.bud i ⟨dataSize / ll, dataSize / ll, bmp⟩
    mem := (List.range (bit - j)).foldl
      (fun m d => (bitmapSet m bmp ((num - 1) * bit + (j + d)) true).2) mem }

/-- The loop of `_bud_init` over the orders that remain, from order `i` on; it returns `size`, the
bytes all bitmaps take. -/
def budInitLoop (dataSize : ℕ) : ℕ → ℕ → ℕ → ℕ → ℕ → Mm → ℕ × Mm
  | 0, _, _, _, size, s => (size, s)
  | dep + 1, i, ll, bmpBase, size, s =>
    let s := budInitOrder s dataSize ll i bmpBase
    let bytes := (s.bud i).bmp.size * ((s.bud i).bmp.bit / 8)
    budInitLoop dataSize dep (i + 1) (u32 (ll * 2)) (bmpBase + bytes) (size + bytes) s

def _budInit (s : Mm) (base : ℕ) (heapSize llc : ℤ) : ℤ × Mm :=
  if base = 0 then (-1, s)
  else if heapSize < MM_HEAP_MIN_SIZE then (-4, s)
  else if llc < 1 then (-8, s)
  else
    let bm := { s.bm with
      orgSize := heapSize, heapMetaBase := base, ll := toU32 llc, bitmapSize := BITMAP_DEF_BIT }
    let dataSize := budGetRealSize bm.ll bm.bitmapSize heapSize bm.ll
    if dataSize < 0 then (-4, { s with bm })
    else
      let dataSize := dataSize.toNat
      -- `bm.dep` is unsigned, so the test `bm.dep < 0` that follows never holds
      let dep := toU32 (budGetDep dataSize bm.ll)
      let ul := u32 (bm.ll * power 2 (toInt (u32 (dep + 4294967295))))
      let bm := { bm with heapSize := dataSize, dep, ul }
      let r := budInitLoop dataSize dep 0 bm.ll (base + sizeofBitmaps * dep) 0 { s with bm }
      let s := r.2
      let hdrBase := (s.bud 0).bmp.base + r.1
      let hdrSize := dataSize / bm.ll
      let heapBase := u32 (hdrBase + hdrSize)
      let heapMetaSize := toInt ((heapBase : ℤ) - base)
      let rmdSize := toInt (heapSize - (dataSize + heapMetaSize))
      let batch := min (dataSize / MM_PAGE_SIZE - 1) 31
      (rmdSize, { s with
        bm := { bm with hdrBase, hdrSize, heapBase, heapMetaSize, rmdSize }
        lazy := { s.lazy with batch, wmk := batch * 6 }
        links := listInitHead (listInitHead s.links s.lazy.frees) s.lazy.inuses })

/-- `bud_init` ends without a `return`: its caller finds the result of `_bud_init` where it expects
the returned value. -/
def budInit (s : Mm) (base : ℕ) (heapSize : ℤ) : ℤ × Mm := _budInit s base heapSize 2048

end YohdaOS

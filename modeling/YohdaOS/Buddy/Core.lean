import YohdaOS.Chunks
import YohdaOS.State

/-!
# The buddy core of buddy.c

`archtecture/x86/p32/buddy.c` and `mm/buddy.c` contain the same functions.  Diagnostics printed on
the way are left out; the order whose `struct bitmaps` the C code passes by address is passed by
its index.
-/

namespace YohdaOS

open ByteMem

def MM_PAGE_SIZE : ℤ := 2048

def BUD_MAX_ORD : ℕ := 11

def BUD_MIN_CHUNK : ℤ := 8

/-- `sizeof(struct bitmaps)`; a `struct bud_blk_hdr` is one byte. -/
def sizeofBitmaps : ℕ := 24

/-! ## Sizes, chunks and orders -/

def budGetChunk (s : Mm) (_dep : ℤ) : ℤ :=
  if _dep < 0 then -1
  else toInt (((fun chunk => u32 (chunk * 2))^[_dep.toNat] s.bm.ll : ℕ) : ℤ)

/-- The loop of `bud_get_dep`, entered at order `BUD_MAX_ORD - fuel`: at order `BUD_MAX_ORD` it
returns whatever the sizes are. -/
def budGetDepLoop (heapSize : ℤ) : ℕ → ℤ → ℤ
  | 0, _ => BUD_MAX_ORD
  | fuel + 1, ll =>
    let i : ℤ := BUD_MAX_ORD - (fuel + 1)
    if ll ≤ heapSize then
      if heapSize / ll < BUD_MIN_CHUNK then i else budGetDepLoop heapSize fuel (toInt (ll * 2))
    else i

def budGetDep (heapSize _ll : ℤ) : ℤ :=
  if heapSize < 1 ∨ _ll < 1 then -EINVAL
  else if heapSize ≤ _ll then -1
  else budGetDepLoop heapSize BUD_MAX_ORD _ll

def budRndup (s : Mm) (size : ℤ) : ℤ :=
  if size < 1 ∨ size > s.bm.heapSize then -EINVAL
  else chunkLoop size s.bm.dep s.bm.ll

/-- The loop of `bud_get_ord` from order `i` on. -/
def budGetOrdLoop (chunk : ℕ) : ℕ → ℕ → ℕ → ℤ
  | 0, _, _ => 0
  | fuel + 1, i, size =>
    if chunk = size then i else budGetOrdLoop chunk fuel (i + 1) (u32 (size * 2))

def budGetOrd (s : Mm) (chunk : ℕ) : ℤ :=
  if chunk < s.bm.ll ∨ chunk > s.bm.ul then -EINVAL
  else budGetOrdLoop chunk s.bm.dep 0 s.bm.ll

/-! ## Marking blocks -/

def budSetBit (s : Mm) (i : ℕ) (ost : ℤ) (f : Bool) : ℤ × Mm :=
  if ost < 0 then (-EINVAL, s)
  else
    let err := bitmapGet s.mem (s.bud i).bmp ost
    if err < 0 then (-1, s)
    else if err = f.toInt then (0, s)
    else
      let b := s.bud i
      let b := { b with frees := if f then u32 (b.frees + 4294967295) else u32 (b.frees + 1) }
      let r := bitmapSet s.mem b.bmp ost.toNat f
      let s := { s with bud := Function.update s.bud i b, mem := r.2 }
      if r.1 < 0 then (r.1, s) else (0, s)

def budIsBudUsed (s : Mm) (ord ost : ℕ) : Bool :=
  let budOst := u32 (ost + if ost % 2 = 1 then 4294967295 else 1)
  bitmapGet s.mem (s.bud ord).bmp (toInt budOst) ≠ 0

def budMerge (s : Mm) (ord ost : ℕ) (f : Bool) : Bool × Mm :=
  let s := (budSetBit s ord (toInt ost) f).2
  if ord = u32 (s.bm.dep + 4294967295) then (false, s)
  else if budIsBudUsed s ord ost then (true, s)
  else (false, s)

def budSearch (s : Mm) (ord ost : ℕ) (f : Bool) : Bool × Mm :=
  if bitmapGet s.mem (s.bud ord).bmp (toInt ost) ≠ 0 then (true, s)
  else (false, (budSetBit s ord (toInt ost) f).2)

/-- The loop of `bud_chk_parent` over the orders that remain, from order `i` on. -/
def budChkParentLoop (budIsStop : Mm → ℕ → ℕ → Bool → Bool × Mm) (f : Bool) :
    ℕ → ℕ → ℕ → Mm → Mm
  | 0, _, _, s => s
  | fuel + 1, i, n, s =>
    let r := budIsStop s (u8 i) n f
    if r.1 then r.2 else budChkParentLoop budIsStop f fuel (i + 1) (n / 2) r.2

def budChkParent (s : Mm) (ord ost : ℕ) (f : Bool)
    (budIsStop : Mm → ℕ → ℕ → Bool → Bool × Mm) : ℤ × Mm :=
  if ord ≥ s.bm.dep then (-EINVAL, s)
  else (0, budChkParentLoop budIsStop f (s.bm.dep - (ord + 1)) (ord + 1) (ost / 2) s)

/-- The loop of `bud_chk_childs`, downwards from order `i - 1`; `n` and `k` are the first block
and the number of blocks of the order above. -/
def budChkChildsLoop (f : Bool) : ℕ → ℕ → ℕ → Mm → Mm
  | 0, _, _, s => s
  | i + 1, n, k, s =>
    let n := n * 2
    let k := k * 2
    let s := (List.range k).foldl (fun s j => (budSetBit s i (n + j : ℕ) f).2) s
    budChkChildsLoop f i n k s

def budChkChilds (s : Mm) (ord ost : ℕ) (f : Bool) : ℤ × Mm :=
  if ord ≥ s.bm.dep then (-EINVAL, s) else (0, budChkChildsLoop f ord ost 1 s)

def budFindFree (s : Mm) (ord : ℤ) : ℤ × Mm :=
  if ord < 0 then (-EINVAL, s)
  else
    let ord := ord.toNat
    let ost := bitmapGetFree s.mem (s.bud ord).bmp
    if ost < 0 then (-4, s)
    else
      let s := (budSetBit s ord ost true).2
      let s := (budChkChilds s ord ost.toNat true).2
      let s := (budChkParent s ord ost.toNat true budSearch).2
      (ost, s)

/-! ## Allocation and release -/

def budEncode (s : Mm) (chunk ost dep : ℕ) : Ptr × Mm :=
  let addr := u32 (s.bm.heapBase + u32 (chunk * ost))
  let hdr := u32 (s.bm.hdrBase + u32 (chunk * ost) / s.bm.ll)
  let s := { s with mem := store8 s.mem hdr dep }
  if u32 (addr + chunk) > u32 (s.bm.heapBase + s.bm.heapSize) then (.code 0, s) else (.addr addr, s)

def _budAlloc (s : Mm) (size : ℤ) : Ptr × Mm :=
  if size < 1 then (.code 0, s)
  else
    let chunk := budRndup s size
    if chunk < 0 then (.code 0, s)
    else
      let ord := budGetOrd s (toU32 chunk)
      if ord < 0 then (.code 0, s)
      else
        let r := budFindFree s ord
        -- a negative offset is only reported: the call goes on with it
        let r := budEncode r.2 (toU32 chunk) (toU32 r.1) (u8 (toU32 ord))
        if r.1.val = 0 then (.code 0, r.2) else r

/-- `bud_decode` returns the address of a block header. -/
def budDecode (s : Mm) (addr : ℕ) : ℕ :=
  let chunkOst := toU32 ((addr : ℤ) - s.bm.heapBase)
  s.bm.hdrBase + chunkOst / s.bm.ll

def _budFree (s : Mm) (addr : ℕ) : Mm :=
  if addr = 0 ∨ s.bm.heapBase > addr then s
  else
    let ord := load8 s.mem (budDecode s addr)
    let chunk := budGetChunk s ord
    if chunk < 0 then s
    else
      let chunkOst := toInt ((addr : ℤ) - s.bm.heapBase)
      let ost := chunkOst.tdiv chunk
      let s := (budSetBit s ord ost false).2
      let s := (budChkChilds s ord (toU32 ost) false).2
      if budIsBudUsed s ord (toU32 ost) then s
      else (budChkParent s ord (toU32 ost) false budMerge).2

end YohdaOS

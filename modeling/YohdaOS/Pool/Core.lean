import YohdaOS.Chunks
import YohdaOS.State

/-!
# The pools of pool.c

`mm/pool.c` and `archtecture/x86/p32/pool.c` are the same text.  A `struct pool_header` is the one
word in front of a chunk.
-/

namespace YohdaOS

open ByteMem

def POOL_HEADER_SIZE : ℕ := 4

def POOL_CHUNK_LL_NUM : ℤ := 128

/-- `sizeof(struct pool)` -/
def sizeofPool : ℤ := 24

/-- `MM_SEC_CHUNK_LLC` -/
def mmGetSecLlc : ℤ := 16

/-- `MM_SEC_CHUNK_ULC` -/
def mmGetSecUlc : ℤ := 1024

/-- `mm_set_sec_size` takes an `int`. -/
def mmSetSecSize (s : Mm) (size : ℤ) : Mm :=
  if size < 1 then s else { s with secSize := size }

def mmSetSecBase (s : Mm) (base : ℕ) : Mm :=
  if base = 0 then s else { s with secBase := base }

/-! ## Classes -/

/-- The loop of `pool_calc_size` from round `i` on: the data goes to the pools in turn. -/
def poolCalcSizeLoop (num : ℕ) : ℕ → ℕ → ℤ → (ℕ → Pool) → ℤ × (ℕ → Pool)
  | 0, _, rmd, pools => (rmd, pools)
  | fuel + 1, i, rmd, pools =>
    if rmd ≥ (pools 0).ll then
      let p := pools (i % num)
      if rmd - p.ll ≥ 0 then
        poolCalcSizeLoop num fuel (i + 1) (rmd - p.ll)
          (Function.update pools (i % num) { p with size := u32 (p.size + toU32 p.ll) })
      else poolCalcSizeLoop num fuel (i + 1) rmd pools
    else (rmd, pools)

/-- In every `pmm.num` rounds the first pool takes its share, so `pmm.num * (size + 1)` rounds are
enough. -/
def poolCalcSize (s : Mm) (size : ℤ) : ℤ × Mm :=
  if size < 1 then (-1, s)
  else
    let r := poolCalcSizeLoop s.pmm.num.toNat (s.pmm.num.toNat * (size.toNat + 1)) 0 size s.pools
    (toInt r.1, { s with pools := r.2 })

/-- The loop of `pool_get_ord` from class `i` on. -/
def poolGetOrdLoop (chunk : ℕ) : ℕ → ℕ → ℤ → ℤ
  | 0, _, _ => 0
  | fuel + 1, i, size =>
    if chunk = toU32 size then i else poolGetOrdLoop chunk fuel (i + 1) (toInt (size * 2))

def poolGetOrd (s : Mm) (chunk : ℕ) : ℤ :=
  if chunk < toU32 s.pmm.llc ∨ chunk > toU32 s.pmm.ulc then -EINVAL
  else poolGetOrdLoop chunk s.pmm.num.toNat 0 s.pmm.llc

def poolGetId (s : Mm) (addr : ℕ) : ℤ :=
  match (List.range s.pmm.num.toNat).find? fun i =>
    decide (toU32 ((addr : ℤ) - (s.pools i).base) < (s.pools i).size) with
  | some i => i
  | none => -1

def plGetChunk (s : Mm) (size : ℤ) : ℤ :=
  if size < 1 then -EINVAL
  else chunkLoop size s.pmm.num.toNat (s.pools 0).chunk

/-! ## Allocation and release -/

def plAlloc (s : Mm) (size : ℤ) : Ptr × Mm :=
  if size < 1 then (.code (-1), s)
  else
    let chunk := plGetChunk s size
    if chunk < 0 then (.code chunk, s)
    else
      let id := poolGetOrd s (toU32 chunk)
      if id < 0 then (.code id, s)
      else
        let id := id.toNat
        let p := s.pools id
        let addr := u32 (p.head + POOL_HEADER_SIZE)
        let next := load32 s.mem p.head
        let head := if next = 0 then u32 (p.head + (p.chunk + POOL_HEADER_SIZE)) else next
        (.addr addr, { s with
          pools := Function.update s.pools id { p with head, frees := u32 (p.frees + 4294967295) } })

def plFree (s : Mm) (addr : ℕ) : Mm :=
  if addr = 0 then s
  else
    let hdr := toU32 ((addr : ℤ) - POOL_HEADER_SIZE)
    let id := poolGetId s hdr
    if id < 0 then s
    else
      let id := id.toNat
      let p := s.pools id
      { s with
        mem := store32 s.mem hdr p.head
        pools := Function.update s.pools id { p with head := hdr, frees := u32 (p.frees + 1) } }

/-! ## Setting up -/

def plGetDataSize (s : Mm) (size : ℤ) : ℤ :=
  if size < 1 then -1
  else if s.pmm.num < 1 then -4
  else toInt (size - sizeofPool * s.pmm.num)

/-- The loop of `pl_get_init_size` over the classes that remain. -/
def plGetInitSizeLoop : ℕ → ℤ → ℤ → ℤ
  | 0, _, size => size
  | num + 1, llc, size =>
    plGetInitSizeLoop num (toInt (llc * 2)) (size + (POOL_HEADER_SIZE + llc) * POOL_CHUNK_LL_NUM)

def plGetInitSize : ℤ :=
  let llc := mmGetSecLlc
  let ulc := mmGetSecUlc
  let num := log 2 (toU32 ulc) - log 2 (toU32 llc) + 1
  plGetInitSizeLoop num.toNat llc (sizeofPool * num)

/-- The first loop of `pl_init` from class `i` on: chunks and shares, everything else zero. -/
def plInitChunks : ℕ → ℕ → ℤ → (ℕ → Pool) → ℕ → Pool
  | 0, _, _, pools => pools
  | fuel + 1, i, llc, pools =>
    plInitChunks fuel (i + 1) (toInt (llc * 2)) (Function.update pools i
      ⟨0, 0, 0, 0, toU32 llc, toInt ((POOL_HEADER_SIZE + llc) * POOL_CHUNK_LL_NUM)⟩)

/-- The second loop of `pl_init` from class `i` on, whose area starts at `dataAddr`. -/
def plInitAreas : ℕ → ℕ → ℕ → Mm → Mm
  | 0, _, _, s => s
  | fuel + 1, i, dataAddr, s =>
    let p := s.pools i
    plInitAreas fuel (i + 1) (dataAddr + p.size) { s with
      pools := Function.update s.pools i
        { p with base := dataAddr, head := dataAddr, frees := p.size / (p.chunk + POOL_HEADER_SIZE) }
      mem := fill s.mem dataAddr 0 p.size }

/-- The part of `pl_init` that fills in the limits and tells mm.c where the pools lie. -/
def plSetLimits (s : Mm) (base : ℕ) (size : ℤ) : Mm :=
  let llc := mmGetSecLlc
  let ulc := mmGetSecUlc
  let num := log 2 (toU32 ulc) - log 2 (toU32 llc) + 1
  let s := { s with pmm := { s.pmm with base, size, llc, ulc, num } }
  mmSetSecSize (mmSetSecBase s base) (toInt size)

def plInit (s : Mm) (base : ℕ) (size : ℤ) : ℤ × Mm :=
  if base = 0 then (-1, s)
  else if size < 1 then (-4, s)
  else
    let s := plSetLimits s base size
    let dataSize := plGetDataSize s size
    if dataSize < 0 then (-6, s)
    else
      let num := s.pmm.num.toNat
      let s := { s with
        pmm := { s.pmm with dataSize }
        pools := plInitChunks num 0 s.pmm.llc s.pools }
      -- a negative remainder is only reported
      let r := poolCalcSize s dataSize
      (r.1, plInitAreas num 0 (base + sizeofPool.toNat * num) r.2)

end YohdaOS

import YohdaOS.Mmi.Core
import YohdaOS.Text

/-!
# mp.c

The tables that describe the processors are read from memory as they are.  `none` stands for what
C leaves undefined: a string so long that the counter of `strlen` overflows, and the table behind
the NULL pointer with which `mp_init` goes on.  `err_dbg` only prints.
-/

namespace YohdaOS.Mp

open ByteMem

/-- What a pointer to bytes points to; an address has 32 bits. -/
def bytesAt (m : Mem) (p i : ℕ) : BitVec 8 := m.byte (u32 (p + i))

/-- A string literal. -/
def literal (s : List (BitVec 8)) (i : ℕ) : BitVec 8 := s.getD i 0

def field16 (p : ℕ → BitVec 8) (off : ℕ) : ℕ := (p off).toNat + 256 * (p (off + 1)).toNat

def field32 (p : ℕ → BitVec 8) (off : ℕ) : ℕ := field16 p off + 65536 * field16 p (off + 2)

/-! ## string.c -/

/-- The loop of `strlen`. -/
def strlenLoop (str : ℕ → BitVec 8) : ℕ → ℕ → Option ℕ
  | 0, _ => none
  | fuel + 1, n => if str n = 0 then some n else strlenLoop str fuel (n + 1)

def strlen (str : ℕ → BitVec 8) : Option ℕ :=
  (strlenLoop str (Text.INT_MAX + 1) 0).map fun n => if n ≠ Text.INT_MAX then n else 0

/-- The loop of `strncmp`; a `char` is signed. -/
def strncmpLoop (s₁ s₂ : ℕ → BitVec 8) : ℕ → ℕ → ℤ
  | 0, _ => 0
  | num + 1, i =>
    let s := (s₁ i).toInt - (s₂ i).toInt
    if s ≠ 0 then s else strncmpLoop s₁ s₂ num (i + 1)

def strncmp (s₁ s₂ : ℕ → BitVec 8) (num : ℕ) : ℤ := strncmpLoop s₁ s₂ num 0

def strcmp (s₁ s₂ : ℕ → BitVec 8) : Option ℤ := do
  let n₁ ← strlen s₁
  let n₂ ← strlen s₂
  let len := Nat.min n₁ n₂
  return if len = 0 then (s₁ 0).toInt - (s₂ 0).toInt else strncmp s₁ s₂ len

/-! ## Finding the tables -/

/-- "_MP_" -/
def MP_FPS_SIG : List (BitVec 8) := [0x5F, 0x4D, 0x50, 0x5F]

/-- "PCMP" -/
def MP_CONF_TAB_SIG : List (BitVec 8) := [0x50, 0x43, 0x4D, 0x50]

def sizeofMpFps : ℕ := 16

def sizeofMpConfTab : ℕ := 44

def MP_UNITS : ℕ := sizeofMpFps

def MP_BDA_BASE_ADDR : ℕ := 0x400

def MP_BDA_EBDA_ADDR_OFFSET : ℕ := 0x0E

def MP_BDA_MEM_SIZE_OFFSET : ℕ := 0x13

def MP_BIOS_ROM_BASE_ADDR : ℕ := 0xF0000

def mpChecksum (fps : ℕ → BitVec 8) (len : ℕ) : ℕ :=
  u8 ((List.range len).map fun i => (fps i).toNat).sum

/-- The length that the structure at `mp` announces. -/
def mpLen (sig : List (BitVec 8)) (mp : ℕ → BitVec 8) : ℕ :=
  if literal sig 0 = 0x50 then field16 mp 4 else (mp 8).toNat * MP_UNITS

def mpValidate (sig : List (BitVec 8)) (mp : ℕ → BitVec 8) : Option ℤ := do
  let diff ← strcmp mp (literal sig)
  return if diff ≠ 0 then -1 else if mpChecksum mp (mpLen sig mp) ≠ 0 then -2 else 0

/-- The loop of `mp_parse`, `stop` being the end of the bytes. -/
def mpParseLoop (m : Mem) (stop : ℕ) : ℕ → ℕ → Option (Option ℕ)
  | 0, _ => some none
  | fuel + 1, p =>
    if p < stop then do
      let r ← mpValidate MP_FPS_SIG (bytesAt m p)
      if r = 0 then some (some p) else mpParseLoop m stop fuel (p + sizeofMpFps)
    else some none

/-- `mp_parse`: the place of the structure, or `none` for NULL. -/
def mpParse (m : Mem) (base size : ℕ) : Option (Option ℕ) :=
  let fps := vmmPhyToVirt base
  mpParseLoop m (fps + size) size fps

def vmmGetUint16 (m : Mem) (phy : ℕ) : ℕ := field16 (bytesAt m (vmmPhyToVirt phy)) 0

def mpSearch (m : Mem) : Option (Option ℕ) := do
  let p := vmmGetUint16 m (MP_BDA_BASE_ADDR + MP_BDA_EBDA_ADDR_OFFSET) * 16
  match ← mpParse m p 1024 with
  | some mp => return some mp
  | none =>
    let p := vmmGetUint16 m (MP_BDA_BASE_ADDR + MP_BDA_MEM_SIZE_OFFSET) * 1024
    match ← mpParse m (toU32 (p - 1024)) 1024 with
    | some mp => return some mp
    | none => mpParse m MP_BIOS_ROM_BASE_ADDR 0x10000

/-- `mp_config`: the floating pointer structure and the configuration table. -/
def mpConfig (m : Mem) : Option (Option (ℕ × ℕ)) := do
  match ← mpSearch m with
  | none => return none
  | some mpFps =>
    let phyAddr := field32 (bytesAt m mpFps) 4
    if phyAddr = 0 then return none
    else
      let conf := vmmPhyToVirt phyAddr
      let r ← mpValidate MP_CONF_TAB_SIG (bytesAt m conf)
      if r ≠ 0 then return none else return some (mpFps, conf)

/-! ## mp_init -/

def SYS_MAX_CPU : ℕ := 4

def MP_ENTRY_PROC : BitVec 8 := 0

def MP_ENTRY_BUS : BitVec 8 := 1

def MP_ENTRY_IOAPIC : BitVec 8 := 2

def MP_ENTRY_IOINTR : BitVec 8 := 3

def MP_ENTRY_LOCAL_INTR : BitVec 8 := 4

def MP_ENTRY_SIZE : ℕ := 8

def sizeofMpProcEntry : ℕ := 20

def sizeofMpIoapicEntry : ℕ := 8

/-- `cpus`; `id` is the field of that name in the array. -/
structure CpuMgr where
  ioapic : ℕ
  lapicAddr : ℕ
  ncpu : ℕ
  id : ℕ → BitVec 8

/-- The walk of `mp_init`, with the entries that it has visited. -/
structure Walk where
  p : ℕ
  cpus : CpuMgr
  visited : List ℕ

def CpuMgr.addCpu (cpus : CpuMgr) (id : BitVec 8) : CpuMgr :=
  if cpus.ncpu < SYS_MAX_CPU then
    { cpus with
      id := Function.update cpus.id cpus.ncpu id
      ncpu := cpus.ncpu + 1 }
  else cpus

/-- The body of the loop of `mp_init`.  An entry of another type is not left. -/
def mpStep (m : Mem) (w : Walk) : Walk :=
  let w := { w with visited := w.visited ++ [w.p] }
  let type := bytesAt m w.p 0
  if type = MP_ENTRY_PROC then
    { w with
      cpus := w.cpus.addCpu (bytesAt m w.p 1)
      p := u32 (w.p + sizeofMpProcEntry) }
  else if type = MP_ENTRY_IOAPIC then
    { w with
      cpus := { w.cpus with ioapic := w.p }
      p := u32 (w.p + sizeofMpIoapicEntry) }
  else if type = MP_ENTRY_BUS ∨ type = MP_ENTRY_IOINTR ∨ type = MP_ENTRY_LOCAL_INTR then
    { w with p := u32 (w.p + MP_ENTRY_SIZE) }
  else w

/-- The loop of `mp_init` over `n` entries. -/
def mpLoop (m : Mem) : ℕ → Walk → Walk
  | 0, w => w
  | n + 1, w => mpLoop m n (mpStep m w)

/-- What `mp_init` leaves: the walk, and the bytes that it writes to ports. -/
structure MpResult where
  walk : Walk
  outs : List (ℕ × BitVec 8)

/-- `mp_init`, where reading a port gives `inb`. -/
def mpInit (m : Mem) (inb : ℕ → BitVec 8) (cpus : CpuMgr) : Option MpResult := do
  match ← mpConfig m with
  | none => none
  | some (mpFps, mpConf) =>
    let cpus := { cpus with lapicAddr := field32 (bytesAt m mpConf) 36 }
    let entCnt := field16 (bytesAt m mpConf) 34
    let walk := mpLoop m entCnt ⟨u32 (mpConf + sizeofMpConfTab), cpus, []⟩
    let outs := if bytesAt m mpFps 12 ≠ 0 then [(0x22, 0x70), (0x23, inb 0x23 ||| 1)] else []
    return ⟨walk, outs⟩

end YohdaOS.Mp

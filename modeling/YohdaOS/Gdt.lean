import YohdaOS.Lib.Memory

/-!
# gdt.c

A descriptor has its base and its limit in several places.  `gdt_crt32` puts the two dwords of a
descriptor at the cursor and moves it, `gdt_crt64` then writes at the cursor that has moved.
-/

namespace YohdaOS.Gdt

open ByteMem

def GDT_TYPE_CODE_READABLE : BitVec 32 := 0x01 <<< 9

def GDT_TYPE_CODE_PRIV_ALLOW : BitVec 32 := 0x01 <<< 10

def GDT_TYPE_DATA_WRITEABLE : BitVec 32 := 0x01 <<< 9

def GDT_TYPE_EXE_DATA : BitVec 32 := 0x00 <<< 11

def GDT_TYPE_EXE_CODE : BitVec 32 := 0x01 <<< 11

def GDT_S_CD : BitVec 32 := 0x01 <<< 12

def GDT_DPL_KERN : BitVec 32 := 0x00 <<< 13

def GDT_PRE_VALID : BitVec 32 := 0x01 <<< 15

def GDT_32BIT : BitVec 32 := 0x00 <<< 21

def GDT_64BIT : BitVec 32 := 0x01 <<< 21

def GDT_G_PAGE : BitVec 32 := 0x01 <<< 23

def GDT_BASE_ADDR : ℕ := 0x200000

def GDT_MAX_NUM : ℕ := 8192

def GDT_MAX_LIMIT : BitVec 32 := 0x000FFFFF

def GDT_64CODE_KERN_READABLE : BitVec 32 :=
  GDT_TYPE_CODE_READABLE ||| GDT_TYPE_CODE_PRIV_ALLOW ||| GDT_TYPE_EXE_CODE ||| GDT_S_CD |||
    GDT_DPL_KERN ||| GDT_PRE_VALID ||| GDT_64BIT ||| GDT_G_PAGE

def GDT_32CODE_KERN_READABLE : BitVec 32 :=
  GDT_TYPE_CODE_READABLE ||| GDT_TYPE_CODE_PRIV_ALLOW ||| GDT_TYPE_EXE_CODE ||| GDT_S_CD |||
    GDT_DPL_KERN ||| GDT_PRE_VALID ||| GDT_32BIT ||| GDT_G_PAGE

def GDT_64DATA_KERN_WRITEABLE : BitVec 32 :=
  GDT_TYPE_DATA_WRITEABLE ||| GDT_TYPE_EXE_DATA ||| GDT_S_CD ||| GDT_DPL_KERN |||
    GDT_PRE_VALID ||| GDT_64BIT ||| GDT_G_PAGE

def GDT_32DATA_KERN_WRITEABLE : BitVec 32 :=
  GDT_TYPE_DATA_WRITEABLE ||| GDT_TYPE_EXE_DATA ||| GDT_S_CD ||| GDT_DPL_KERN |||
    GDT_PRE_VALID ||| GDT_32BIT ||| GDT_G_PAGE

/-! ## Dwords -/

/-- The dword at `a`. -/
def dword (m : Mem) (a : ℕ) : BitVec 32 := BitVec.ofNat 32 (load32 m a)

/-- `*a = v` -/
def setDword (m : Mem) (a : ℕ) (v : BitVec 32) : Mem := store32 m a v.toNat

/-- `*a |= v` -/
def orDword (m : Mem) (a : ℕ) (v : BitVec 32) : Mem := setDword m a (dword m a ||| v)

@[simp] theorem dword_setDword (m : Mem) (a : ℕ) (v : BitVec 32) :
    dword (setDword m a v) a = v := by
  rw [dword, setDword, load32_store32 m a v.isLt, BitVec.ofNat_toNat, BitVec.setWidth_eq]

@[simp] theorem dword_orDword (m : Mem) (a : ℕ) (v : BitVec 32) :
    dword (orDword m a v) a = dword m a ||| v :=
  dword_setDword m a _

theorem frame_setDword (m : Mem) (a : ℕ) (v : BitVec 32) : Frame a (a + 4) m (setDword m a v) :=
  frame_store32 m a _

theorem frame_orDword (m : Mem) (a : ℕ) (v : BitVec 32) : Frame a (a + 4) m (orDword m a v) :=
  frame_store32 m a _

theorem dword_of_frame {lo hi a : ℕ} {m m' : Mem} (h : Frame lo hi m m')
    (ha : a + 4 ≤ lo ∨ hi ≤ a) : dword m' a = dword m a := by
  rw [dword, dword, h.load32 ha]

/-! ## The functions -/

/-- `struct gdt_mgr`, with the memory that the table is in. -/
structure GdtMgr where
  bp : ℕ
  cp : ℕ
  num : ℕ
  mem : Mem

/-- `gdt_init`: the count of the entries is left as it is. -/
def gdtInit (gmt : GdtMgr) : GdtMgr := { gmt with bp := GDT_BASE_ADDR, cp := GDT_BASE_ADDR }

/-- `gdt_crt32` -/
def gdtCrt32 (gmt : GdtMgr) (base limit : BitVec 32) (flag : BitVec 16) : GdtMgr × Option ℕ :=
  let desc := gmt.cp
  if gmt.num > GDT_MAX_NUM then (gmt, none)
  else
    let m := setDword gmt.mem desc (limit ||| 0x0000FFFF)
    let m := orDword m desc ((base ||| 0x0000FFFF) <<< 16)
    let desc := desc + 4
    let m := setDword m desc ((base ||| 0x00FF0000) >>> 16)
    let m := orDword m desc (flag.setWidth 32)
    let m := orDword m desc (limit ||| 0x000F0000)
    let m := orDword m desc (base ||| 0xFF000000)
    let desc := desc + 4
    ({ gmt with cp := desc, num := gmt.num + 1, mem := m }, some desc)

/-- `gdt_crt64` -/
def gdtCrt64 (gmt : GdtMgr) (base : BitVec 64) (limit : BitVec 32) (flag : BitVec 16) :
    GdtMgr × Option ℕ :=
  if limit < 1 ∨ limit > GDT_MAX_LIMIT then (gmt, none)
  else if base < 0 then (gmt, none)
  else
    match gdtCrt32 gmt (base.setWidth 32) limit flag with
    | (gmt, none) => (gmt, none)
    | (gmt, some desc) =>
      let m := orDword gmt.mem desc ((base >>> 32).setWidth 32)
      ({ gmt with cp := desc, mem := m }, some desc)

/-- The functions that make a descriptor, with their arguments. -/
inductive GdtCall where
  | kern32Code (base limit : BitVec 32)
  | kern32Data (base limit : BitVec 32)
  | kern64Code (base : BitVec 64) (limit : BitVec 32)
  | kern64Data (base : BitVec 64) (limit : BitVec 32)
deriving DecidableEq, Repr

namespace GdtCall

/-- `gdt_crt_kern32_code` -/
def gdtCrtKern32Code (gmt : GdtMgr) (base limit : BitVec 32) : GdtMgr :=
  (gdtCrt32 gmt base limit (GDT_32CODE_KERN_READABLE.setWidth 16)).1

/-- `get_crt_kern32_data` -/
def getCrtKern32Data (gmt : GdtMgr) (base limit : BitVec 32) : GdtMgr :=
  (gdtCrt32 gmt base limit (GDT_32DATA_KERN_WRITEABLE.setWidth 16)).1

/-- `gdt_crt_kern64_code` -/
def gdtCrtKern64Code (gmt : GdtMgr) (base : BitVec 64) (limit : BitVec 32) : GdtMgr × ℤ :=
  match gdtCrt64 gmt base limit (GDT_64CODE_KERN_READABLE.setWidth 16) with
  | (gmt, none) => (gmt, -1)
  | (gmt, some _) => (gmt, 0)

/-- `get_crt_kern64_data` -/
def getCrtKern64Data (gmt : GdtMgr) (base : BitVec 64) (limit : BitVec 32) : GdtMgr × ℤ :=
  match gdtCrt64 gmt base limit (GDT_64DATA_KERN_WRITEABLE.setWidth 16) with
  | (gmt, none) => (gmt, -1)
  | (gmt, some _) => (gmt, 0)

def step (gmt : GdtMgr) : GdtCall → GdtMgr
  | kern32Code base limit => gdtCrtKern32Code gmt base limit
  | kern32Data base limit => getCrtKern32Data gmt base limit
  | kern64Code base limit => (gdtCrtKern64Code gmt base limit).1
  | kern64Data base limit => (getCrtKern64Data gmt base limit).1

def run (gmt : GdtMgr) (calls : List GdtCall) : GdtMgr := calls.foldl step gmt

def base : GdtCall → BitVec 64
  | kern32Code base _ => base.setWidth 64
  | kern32Data base _ => base.setWidth 64
  | kern64Code base _ => base
  | kern64Data base _ => base

def limit : GdtCall → BitVec 32
  | kern32Code _ limit => limit
  | kern32Data _ limit => limit
  | kern64Code _ limit => limit
  | kern64Data _ limit => limit

/-- The macro that the function passes on. -/
def flags : GdtCall → BitVec 32
  | kern32Code _ _ => GDT_32CODE_KERN_READABLE
  | kern32Data _ _ => GDT_32DATA_KERN_WRITEABLE
  | kern64Code _ _ => GDT_64CODE_KERN_READABLE
  | kern64Data _ _ => GDT_64DATA_KERN_WRITEABLE

end GdtCall

/-! ## What the processor reads -/

/-- A segment descriptor. -/
structure Descriptor where
  base : BitVec 64
  limit : BitVec 32
  type : BitVec 4
  s : Bool
  dpl : BitVec 2
  p : Bool
  l : Bool
  d : Bool
  g : Bool
deriving DecidableEq, Repr

/-- The descriptor in the dwords `lo` and `hi`. -/
def decode (lo hi : BitVec 32) : Descriptor where
  base := (hi.extractLsb' 24 8 ++ hi.extractLsb' 0 8 ++ lo.extractLsb' 16 16).setWidth 64
  limit := (hi.extractLsb' 16 4 ++ lo.extractLsb' 0 16).setWidth 32
  type := hi.extractLsb' 8 4
  s := hi.getLsbD 12
  dpl := hi.extractLsb' 13 2
  p := hi.getLsbD 15
  l := hi.getLsbD 21
  d := hi.getLsbD 22
  g := hi.getLsbD 23

/-- Entry `i` of the table. -/
def descriptorAt (m : Mem) (i : ℕ) : Descriptor :=
  decode (dword m (GDT_BASE_ADDR + 8 * i)) (dword m (GDT_BASE_ADDR + 8 * i + 4))

/-- The descriptor that the call asks for: the flags are in their places in the macro. -/
def GdtCall.descriptor (c : GdtCall) : Descriptor where
  base := c.base
  limit := c.limit
  type := c.flags.extractLsb' 8 4
  s := c.flags.getLsbD 12
  dpl := c.flags.extractLsb' 13 2
  p := c.flags.getLsbD 15
  l := c.flags.getLsbD 21
  d := c.flags.getLsbD 22
  g := c.flags.getLsbD 23

/-- The table has an entry for each call, which says what the call asked for, and no call changes
the entries before its own. -/
structure Table (gmt : GdtMgr) (calls : List GdtCall) : Prop where
  size : (GdtCall.run (gdtInit gmt) calls).cp = GDT_BASE_ADDR + 8 * calls.length
  encodes : ∀ i c, calls[i]? = some c →
    descriptorAt (GdtCall.run (gdtInit gmt) calls).mem i = c.descriptor
  kept : ∀ pre c post, calls = pre ++ c :: post →
    ∀ a, GDT_BASE_ADDR ≤ a → a < GDT_BASE_ADDR + 8 * pre.length →
      (GdtCall.run (gdtInit gmt) (pre ++ [c])).mem.byte a =
        (GdtCall.run (gdtInit gmt) pre).mem.byte a

variable {gmt : GdtMgr}

/-- The dwords that `gdt_crt32` makes. -/
def descLow (base limit : BitVec 32) : BitVec 32 :=
  limit ||| 0x0000FFFF ||| (base ||| 0x0000FFFF) <<< 16

def descHigh (base limit : BitVec 32) (flag : BitVec 16) : BitVec 32 :=
  (base ||| 0x00FF0000) >>> 16 ||| flag.setWidth 32 ||| (limit ||| 0x000F0000) |||
    (base ||| 0xFF000000)

/-- The descriptor is at the cursor, the cursor is behind it, and besides at most the dword behind
it has changed. -/
structure Put (gmt gmt' : GdtMgr) (base limit : BitVec 32) (flag : BitVec 16) : Prop where
  cp : gmt'.cp = gmt.cp + 8
  low : dword gmt'.mem gmt.cp = descLow base limit
  high : dword gmt'.mem (gmt.cp + 4) = descHigh base limit flag
  frame : Frame gmt.cp (gmt.cp + 12) gmt.mem gmt'.mem

theorem gdtCrt32_cases (gmt : GdtMgr) (base limit : BitVec 32) (flag : BitVec 16) :
    gdtCrt32 gmt base limit flag = (gmt, none) ∨
      ∃ gmt', gdtCrt32 gmt base limit flag = (gmt', some (gmt.cp + 8)) ∧
        Put gmt gmt' base limit flag := by
  by_cases hnum : gmt.num > GDT_MAX_NUM
  · exact Or.inl (by rw [gdtCrt32, if_pos hnum])
  right
  refine ⟨_, by rw [gdtCrt32, if_neg hnum], ?_⟩
  have hlow := (frame_setDword gmt.mem gmt.cp (limit ||| 0x0000FFFF)).trans
    (frame_orDword _ gmt.cp ((base ||| 0x0000FFFF) <<< 16))
  have hlowDword := dword_orDword (setDword gmt.mem gmt.cp (limit ||| 0x0000FFFF)) gmt.cp
    ((base ||| 0x0000FFFF) <<< 16)
  rw [dword_setDword] at hlowDword
  generalize orDword (setDword gmt.mem gmt.cp _) gmt.cp _ = m at hlow hlowDword
  have hhigh := (((frame_setDword m (gmt.cp + 4) ((base ||| 0x00FF0000) >>> 16)).trans
    (frame_orDword _ (gmt.cp + 4) (flag.setWidth 32))).trans
      (frame_orDword _ (gmt.cp + 4) (limit ||| 0x000F0000))).trans
        (frame_orDword _ (gmt.cp + 4) (base ||| 0xFF000000))
  constructor
  · rfl
  · exact (dword_of_frame hhigh (Or.inl le_rfl)).trans hlowDword
  · simp only [dword_orDword, dword_setDword, descHigh]
  · exact (hlow.mono le_rfl (by omega)).trans (hhigh.mono (by omega) (by omega))

theorem gdtCrt64_cases (gmt : GdtMgr) (base : BitVec 64) (limit : BitVec 32) (flag : BitVec 16) :
    gdtCrt64 gmt base limit flag = (gmt, none) ∨
      ∃ gmt', gdtCrt64 gmt base limit flag = (gmt', some (gmt.cp + 8)) ∧
        Put gmt gmt' (base.setWidth 32) limit flag := by
  by_cases hlimit : limit < 1 ∨ limit > GDT_MAX_LIMIT
  · exact Or.inl (by rw [gdtCrt64, if_pos hlimit])
  have hbase : ¬base < 0 := BitVec.not_lt_zero
  rw [gdtCrt64, if_neg hlimit, if_neg hbase]
  obtain h | ⟨gmt', h, hput⟩ := gdtCrt32_cases gmt (base.setWidth 32) limit flag
  · rw [h]
    exact Or.inl rfl
  · rw [h]
    refine Or.inr ⟨_, rfl, ?_⟩
    have hframe := frame_orDword gmt'.mem (gmt.cp + 8) ((base >>> 32).setWidth 32)
    constructor
    · rfl
    · exact (dword_of_frame hframe (Or.inl (by omega))).trans hput.low
    · exact (dword_of_frame hframe (Or.inl (by omega))).trans hput.high
    · exact hput.frame.trans (hframe.mono (by omega) le_rfl)

/-- What the two results of a call have in common. -/
theorem same_or_put {r : GdtMgr × Option ℕ} {base limit : BitVec 32} {flag : BitVec 16}
    (h : r = (gmt, none) ∨ ∃ gmt', r = (gmt', some (gmt.cp + 8)) ∧ Put gmt gmt' base limit flag) :
    r.1 = gmt ∨ Put gmt r.1 base limit flag := by
  obtain rfl | ⟨gmt', rfl, hput⟩ := h
  · exact Or.inl rfl
  · exact Or.inr hput

namespace GdtCall

theorem setWidth_setWidth (base : BitVec 32) : (base.setWidth 64).setWidth 32 = base := by simp

theorem gdtCrtKern64Code_fst (gmt : GdtMgr) (base : BitVec 64) (limit : BitVec 32) :
    (gdtCrtKern64Code gmt base limit).1 =
      (gdtCrt64 gmt base limit (GDT_64CODE_KERN_READABLE.setWidth 16)).1 := by
  rw [gdtCrtKern64Code]
  split <;> simp_all

theorem getCrtKern64Data_fst (gmt : GdtMgr) (base : BitVec 64) (limit : BitVec 32) :
    (getCrtKern64Data gmt base limit).1 =
      (gdtCrt64 gmt base limit (GDT_64DATA_KERN_WRITEABLE.setWidth 16)).1 := by
  rw [getCrtKern64Data]
  split <;> simp_all

/-- A call changes nothing or makes a descriptor with its own base, limit and flags. -/
theorem step_cases (gmt : GdtMgr) (c : GdtCall) :
    step gmt c = gmt ∨
      Put gmt (step gmt c) (c.base.setWidth 32) c.limit (c.flags.setWidth 16) := by
  cases c with
  | kern32Code base limit =>
    rw [GdtCall.base, setWidth_setWidth]
    exact same_or_put (gdtCrt32_cases gmt base limit _)
  | kern32Data base limit =>
    rw [GdtCall.base, setWidth_setWidth]
    exact same_or_put (gdtCrt32_cases gmt base limit _)
  | kern64Code base limit =>
    rw [step, gdtCrtKern64Code_fst]
    exact same_or_put (gdtCrt64_cases gmt base limit _)
  | kern64Data base limit =>
    rw [step, getCrtKern64Data_fst]
    exact same_or_put (gdtCrt64_cases gmt base limit _)

/-- The cursor moves by one descriptor at most. -/
theorem step_cp (gmt : GdtMgr) (c : GdtCall) :
    gmt.cp ≤ (step gmt c).cp ∧ (step gmt c).cp ≤ gmt.cp + 8 := by
  obtain h | hput := step_cases gmt c
  · rw [h]
    omega
  · rw [hput.cp]
    omega

theorem run_cp (gmt : GdtMgr) (calls : List GdtCall) :
    gmt.cp ≤ (run gmt calls).cp ∧ (run gmt calls).cp ≤ gmt.cp + 8 * calls.length := by
  induction calls generalizing gmt with
  | nil => exact ⟨le_rfl, le_rfl⟩
  | cons c calls ih =>
    have hstep := step_cp gmt c
    have hrun := ih (step gmt c)
    rw [run, List.foldl_cons, List.length_cons]
    rw [run] at hrun
    omega

/-- What is before the cursor is left as it is. -/
theorem step_kept (gmt : GdtMgr) (c : GdtCall) {a : ℕ} (ha : a < gmt.cp) :
    (step gmt c).mem.byte a = gmt.mem.byte a := by
  obtain h | hput := step_cases gmt c
  · rw [h]
  · exact hput.frame a (Or.inl ha)

theorem run_kept (gmt : GdtMgr) (calls : List GdtCall) {a : ℕ} (ha : a < gmt.cp) :
    (run gmt calls).mem.byte a = gmt.mem.byte a := by
  induction calls generalizing gmt with
  | nil => rfl
  | cons c calls ih =>
    have hstep := (step_cp gmt c).1
    exact (ih (step gmt c) (by omega)).trans (step_kept gmt c ha)

theorem dword_run (gmt : GdtMgr) (calls : List GdtCall) {a : ℕ} (ha : a + 4 ≤ gmt.cp) :
    dword (run gmt calls).mem a = dword gmt.mem a := by
  rw [dword, dword, load32_congr fun x _ hx => run_kept gmt calls (by omega)]

end GdtCall

/-- Bit 29 of the low dword, which is bit 13 of the base, is always set. -/
theorem getLsbD_descLow (base limit : BitVec 32) : (descLow base limit).getLsbD 29 = true := by
  simp [descLow]

/-- Bit 13 of the base is put into the DPL as well. -/
theorem getLsbD_descHigh (base limit : BitVec 32) (flag : BitVec 16)
    (h : base.getLsbD 13 = true) : (descHigh base limit flag).getLsbD 13 = true := by
  simp [descHigh, h]

theorem base_decode (lo hi : BitVec 32) : (decode lo hi).base.getLsbD 13 = lo.getLsbD 29 := by
  rw [decode, BitVec.getLsbD_setWidth, BitVec.getLsbD_append, BitVec.getLsbD_extractLsb']
  simp

theorem dpl_decode (lo hi : BitVec 32) : (decode lo hi).dpl.getLsbD 0 = hi.getLsbD 13 := by
  simp [decode]

theorem dpl_descriptor (c : GdtCall) : c.descriptor.dpl.getLsbD 0 = false := by
  have hflags : c.flags.getLsbD 13 = false := by
    cases c <;> rw [GdtCall.flags] <;> decide
  rw [GdtCall.descriptor, BitVec.getLsbD_extractLsb', hflags]
  rfl

/-- No descriptor says what was asked for: its base has bit 13, and then its DPL is not 0. -/
theorem decode_ne_descriptor (c : GdtCall) (flag : BitVec 16) :
    decode (descLow (c.base.setWidth 32) c.limit)
      (descHigh (c.base.setWidth 32) c.limit flag) ≠ c.descriptor := by
  intro h
  have hbase : c.base.getLsbD 13 = true := by
    rw [show c.base = c.descriptor.base from rfl, ← h, base_decode, getLsbD_descLow]
  have hdpl := dpl_descriptor c
  rw [← h, dpl_decode, getLsbD_descHigh] at hdpl
  · cases hdpl
  · rw [BitVec.getLsbD_setWidth, hbase]
    rfl

theorem not_table_cons (gmt : GdtMgr) (c : GdtCall) (calls : List GdtCall) :
    ¬Table gmt (c :: calls) := by
  intro h
  obtain hsame | hput := GdtCall.step_cases (gdtInit gmt) c
  · have hcp := (GdtCall.run_cp (gdtInit gmt) calls).2
    have hsize := h.size
    rw [GdtCall.run, List.foldl_cons, hsame] at hsize
    rw [GdtCall.run] at hcp
    simp only [gdtInit, List.length_cons] at hsize hcp
    omega
  · apply decode_ne_descriptor c (c.flags.setWidth 16)
    rw [← h.encodes 0 c rfl, descriptorAt, ← hput.low, ← hput.high]
    have hcp : (GdtCall.step (gdtInit gmt) c).cp = GDT_BASE_ADDR + 8 := hput.cp
    have hlow := GdtCall.dword_run (GdtCall.step (gdtInit gmt) c) calls
      (show GDT_BASE_ADDR + 4 ≤ _ by omega)
    have hhigh := GdtCall.dword_run (GdtCall.step (gdtInit gmt) c) calls
      (show GDT_BASE_ADDR + 4 + 4 ≤ _ by omega)
    exact (congrArg₂ decode hlow hhigh).symm

/-- The table is right only while it is empty. -/
theorem gdt_table_iff (gmt : GdtMgr) (calls : List GdtCall) : Table gmt calls ↔ calls = [] := by
  constructor
  · intro h
    cases calls with
    | nil => rfl
    | cons c calls => exact absurd h (not_table_cons gmt c calls)
  · rintro rfl
    refine ⟨rfl, fun i c hc => ?_, fun pre c post h => ?_⟩
    · cases hc
    · simp at h

/-- The code segment of the kernel, with the base 0 and the greatest limit. -/
theorem gdt_table_fails : ¬∀ (gmt : GdtMgr) (calls : List GdtCall), gmt.num = 0 →
    calls.length ≤ 8192 → (∀ c ∈ calls, c.limit < 0x100000 ∧ c.base < 0x100000000) →
    Table gmt calls := by
  intro hall
  apply not_table_cons ⟨0, 0, 0, ⟨fun _ => 0⟩⟩ (.kern32Code 0 0xFFFFF) []
  exact hall _ _ rfl (by decide) (by decide)

end YohdaOS.Gdt

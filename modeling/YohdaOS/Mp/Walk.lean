import YohdaOS.Mp.Core

/-!
# The walk over the configuration table

The entries of the table are packed one behind another, and their lengths differ.  The walk comes to
each of them in turn, as long as it takes every entry for as long as it is.
-/

namespace YohdaOS.Mp

open ByteMem

/-! ## Entries -/

inductive EntryKind where
  | proc
  | bus
  | ioapic
  | iointr
  | localIntr
deriving DecidableEq, Repr

/-- The first byte of an entry. -/
def EntryKind.type : EntryKind → BitVec 8
  | .proc => MP_ENTRY_PROC
  | .bus => MP_ENTRY_BUS
  | .ioapic => MP_ENTRY_IOAPIC
  | .iointr => MP_ENTRY_IOINTR
  | .localIntr => MP_ENTRY_LOCAL_INTR

def EntryKind.size : EntryKind → ℕ
  | .proc => sizeofMpProcEntry
  | .ioapic => sizeofMpIoapicEntry
  | _ => MP_ENTRY_SIZE

/-- An entry, with the bytes behind its type. -/
structure MpEntry where
  kind : EntryKind
  rest : List (BitVec 8)
  length_rest : rest.length + 1 = kind.size

namespace MpEntry

def bytes (e : MpEntry) : List (BitVec 8) := e.kind.type :: e.rest

/-- The APIC id of a processor. -/
def id (e : MpEntry) : BitVec 8 := e.rest.getD 0 0

def IsProc (e : MpEntry) : Prop := e.kind = .proc

def IsIoapic (e : MpEntry) : Prop := e.kind = .ioapic

instance (e : MpEntry) : Decidable e.IsProc := inferInstanceAs (Decidable (_ = _))

instance (e : MpEntry) : Decidable e.IsIoapic := inferInstanceAs (Decidable (_ = _))

/-- What `mp_init` records of an entry at `place`. -/
def visit (e : MpEntry) (place : ℕ) (cpus : CpuMgr) : CpuMgr :=
  match e.kind with
  | .proc => cpus.addCpu e.id
  | .ioapic => { cpus with ioapic := place }
  | _ => cpus

end MpEntry

/-- The entries packed. -/
def image (es : List MpEntry) : List (BitVec 8) := es.flatMap MpEntry.bytes

/-- The entries with the places that they have when they are packed from `p` on. -/
def placed : ℕ → List MpEntry → List (ℕ × MpEntry)
  | _, [] => []
  | p, e :: es => (u32 p, e) :: placed (p + e.bytes.length) es

/-- The APIC ids of the processors among the entries. -/
def procIds (es : List MpEntry) : List (BitVec 8) := (es.filter fun e => e.IsProc).map MpEntry.id

/-- The places of the I/O APICs. -/
def ioapics (p : ℕ) (es : List MpEntry) : List ℕ :=
  ((placed p es).filter fun pe => pe.2.IsIoapic).map Prod.fst

/-- The memory holds the bytes from `p` on. -/
def Holds (m : Mem) (p : ℕ) (bytes : List (BitVec 8)) : Prop :=
  ∀ i < bytes.length, bytesAt m p i = bytes.getD i 0

variable {m : Mem} {e : MpEntry} {es : List MpEntry} {cpus : CpuMgr} {visited : List ℕ}
  {as bs : List (BitVec 8)} {i p : ℕ}

theorem MpEntry.length_bytes (e : MpEntry) : e.bytes.length = e.kind.size := e.length_rest

theorem EntryKind.one_lt_size (k : EntryKind) : 1 < k.size := by
  cases k <;> decide

theorem bytesAt_u32 (m : Mem) (p i : ℕ) : bytesAt m (u32 p) i = bytesAt m p i := by
  unfold bytesAt u32
  rw [Nat.mod_add_mod]

theorem u32_u32_add (p n : ℕ) : u32 (u32 p + n) = u32 (p + n) := Nat.mod_add_mod p _ n

theorem Holds.left (h : Holds m p (as ++ bs)) : Holds m p as := by
  intro i hi
  rw [h i (by rw [List.length_append]; omega), List.getD_append _ _ _ _ hi]

theorem Holds.right (h : Holds m p (as ++ bs)) : Holds m (p + as.length) bs := by
  intro i hi
  have hat : bytesAt m (p + as.length) i = bytesAt m p (as.length + i) := by
    rw [bytesAt, bytesAt, Nat.add_assoc]
  rw [hat, h _ (by rw [List.length_append]; omega),
    List.getD_append_right _ _ _ _ (Nat.le_add_right _ _), Nat.add_sub_cancel_left]

/-! ## The loop -/

/-- One round of the loop leaves an entry behind. -/
theorem mpStep_of_holds (h : Holds m p e.bytes) :
    mpStep m ⟨u32 p, cpus, visited⟩ =
      ⟨u32 (p + e.bytes.length), e.visit (u32 p) cpus, visited ++ [u32 p]⟩ := by
  have hlen := e.length_bytes
  have htype : bytesAt m (u32 p) 0 = e.kind.type := by
    rw [bytesAt_u32, h 0 (by rw [hlen]; exact Nat.zero_lt_of_lt e.kind.one_lt_size)]
    rfl
  have hid : bytesAt m (u32 p) 1 = e.id := by
    rw [bytesAt_u32, h 1 (by rw [hlen]; exact e.kind.one_lt_size)]
    rfl
  unfold mpStep MpEntry.visit
  simp only [htype, hid, u32_u32_add, hlen]
  cases e.kind <;> rfl

/-- The loop visits the entries in turn. -/
theorem mpLoop_of_holds (h : Holds m p (image es)) :
    mpLoop m es.length ⟨u32 p, cpus, visited⟩ =
      ⟨u32 (p + (image es).length), (placed p es).foldl (fun c pe => pe.2.visit pe.1 c) cpus,
        visited ++ (placed p es).map Prod.fst⟩ := by
  induction es generalizing p cpus visited with
  | nil =>
    rw [placed, List.map_nil, List.append_nil]
    rfl
  | cons e es ih =>
    have himage : image (e :: es) = e.bytes ++ image es := List.flatMap_cons
    rw [himage] at h ⊢
    rw [List.length_cons, mpLoop, mpStep_of_holds h.left, ih h.right, List.length_append,
      Nat.add_assoc, List.append_assoc]
    rfl

/-! ## What is recorded -/

/-- The identities `ids` were recorded from `cpus` on, as long as there was room. -/
structure Recorded (ids : List (BitVec 8)) (cpus c : CpuMgr) : Prop where
  ncpu : c.ncpu = Nat.min SYS_MAX_CPU (cpus.ncpu + ids.length)
  kept : ∀ j < cpus.ncpu, c.id j = cpus.id j
  id : ∀ j < ids.length, cpus.ncpu + j < c.ncpu → c.id (cpus.ncpu + j) = ids.getD j 0

variable {c : CpuMgr} {ids : List (BitVec 8)} {id : BitVec 8}

theorem natMin_eq (a b : ℕ) : Nat.min a b = if a ≤ b then a else b := rfl

theorem Recorded.nil (hroom : cpus.ncpu ≤ SYS_MAX_CPU) : Recorded [] cpus cpus where
  ncpu := (Nat.min_eq_right hroom).symm
  kept _ _ := rfl
  id _ hj := absurd hj (Nat.not_lt_zero _)

theorem addCpu_of_full (h : cpus.ncpu = SYS_MAX_CPU) : cpus.addCpu id = cpus :=
  if_neg h.not_lt

theorem addCpu_of_room (h : cpus.ncpu < SYS_MAX_CPU) :
    cpus.addCpu id =
      { cpus with
        id := Function.update cpus.id cpus.ncpu id
        ncpu := cpus.ncpu + 1 } :=
  if_pos h

theorem ncpu_addCpu_le (h : cpus.ncpu ≤ SYS_MAX_CPU) (id : BitVec 8) :
    (cpus.addCpu id).ncpu ≤ SYS_MAX_CPU := by
  obtain hfull | hroom := h.eq_or_lt
  · rw [addCpu_of_full hfull]
    exact h
  · rw [addCpu_of_room hroom]
    exact hroom

theorem Recorded.cons (hle : cpus.ncpu ≤ SYS_MAX_CPU) (h : Recorded ids (cpus.addCpu id) c) :
    Recorded (id :: ids) cpus c := by
  obtain hfull | hroom := hle.eq_or_lt
  · rw [addCpu_of_full hfull] at h
    have hc : c.ncpu = SYS_MAX_CPU := by
      rw [h.ncpu, hfull, natMin_eq, if_pos (Nat.le_add_right _ _)]
    constructor
    case ncpu => rw [hc, hfull, natMin_eq, if_pos (Nat.le_add_right _ _)]
    case kept => exact h.kept
    case id =>
      intro j _ hj
      omega
  · rw [addCpu_of_room hroom] at h
    constructor
    case ncpu =>
      rw [h.ncpu, List.length_cons, Nat.add_assoc, Nat.add_comm 1]
    case kept =>
      intro j hj
      rw [h.kept j (Nat.lt_succ_of_lt hj)]
      exact Function.update_of_ne hj.ne _ _
    case id =>
      intro j hj hlt
      cases j with
      | zero =>
        rw [Nat.add_zero, h.kept cpus.ncpu (Nat.lt_succ_self _)]
        exact Function.update_self _ _ _
      | succ j =>
        have hat : cpus.ncpu + (j + 1) = cpus.ncpu + 1 + j := by omega
        rw [hat] at hlt ⊢
        exact h.id j (Nat.lt_of_succ_lt_succ hj) hlt

theorem Recorded.congr {c₀ : CpuMgr} (h : Recorded ids c₀ c) (hncpu : c₀.ncpu = cpus.ncpu)
    (hid : c₀.id = cpus.id) : Recorded ids cpus c where
  ncpu := hncpu ▸ h.ncpu
  kept := hncpu ▸ hid ▸ h.kept
  id := hncpu ▸ h.id

/-- Only a processor changes the table of the processors. -/
theorem visit_of_not_isProc (h : ¬e.IsProc) (place : ℕ) (cpus : CpuMgr) :
    (e.visit place cpus).ncpu = cpus.ncpu ∧ (e.visit place cpus).id = cpus.id := by
  unfold MpEntry.IsProc at h
  unfold MpEntry.visit
  cases hkind : e.kind with
  | proc => exact absurd hkind h
  | _ => exact ⟨rfl, rfl⟩

theorem visit_of_isIoapic (h : e.IsIoapic) (place : ℕ) (cpus : CpuMgr) :
    (e.visit place cpus).ioapic = place := by
  unfold MpEntry.visit
  rw [show e.kind = .ioapic from h]

theorem visit_of_not_isIoapic (h : ¬e.IsIoapic) (place : ℕ) (cpus : CpuMgr) :
    (e.visit place cpus).ioapic = cpus.ioapic := by
  unfold MpEntry.IsIoapic at h
  unfold MpEntry.visit CpuMgr.addCpu
  cases hkind : e.kind with
  | ioapic => exact absurd hkind h
  | proc =>
    simp only
    split_ifs <;> rfl
  | _ => rfl

/-- The processors are recorded in order as long as there is room. -/
theorem foldl_visit_cpu (cpus : CpuMgr) (pes : List (ℕ × MpEntry)) (hroom : cpus.ncpu ≤ SYS_MAX_CPU) :
    Recorded (procIds (pes.map Prod.snd)) cpus (pes.foldl (fun c pe => pe.2.visit pe.1 c) cpus) := by
  induction pes generalizing cpus with
  | nil => exact .nil hroom
  | cons pe pes ih =>
    rw [List.map_cons, List.foldl_cons]
    by_cases hproc : pe.2.IsProc
    · have hvisit : pe.2.visit pe.1 cpus = cpus.addCpu pe.2.id := by
        unfold MpEntry.visit
        rw [show pe.2.kind = .proc from hproc]
      have hids : procIds (pe.2 :: pes.map Prod.snd) = pe.2.id :: procIds (pes.map Prod.snd) := by
        simp only [procIds, List.filter_cons, hproc, decide_true, if_true, List.map_cons]
      rw [hvisit, hids]
      exact .cons hroom (ih _ (ncpu_addCpu_le hroom _))
    · obtain ⟨hncpu, hid⟩ := visit_of_not_isProc hproc pe.1 cpus
      have hids : procIds (pe.2 :: pes.map Prod.snd) = procIds (pes.map Prod.snd) := by
        simp only [procIds, List.filter_cons, hproc, decide_false, Bool.false_eq_true, if_false]
      rw [hids]
      exact (ih _ (hncpu.le.trans hroom)).congr hncpu hid

/-- The last I/O APIC is recorded. -/
theorem foldl_visit_ioapic (cpus : CpuMgr) (pes : List (ℕ × MpEntry)) :
    (pes.foldl (fun c pe => pe.2.visit pe.1 c) cpus).ioapic =
      (((pes.filter fun pe => pe.2.IsIoapic).map Prod.fst).getLast?).getD cpus.ioapic := by
  induction pes generalizing cpus with
  | nil => rfl
  | cons pe pes ih =>
    rw [List.foldl_cons, ih]
    by_cases hioapic : pe.2.IsIoapic
    · simp only [visit_of_isIoapic hioapic, List.filter_cons, hioapic, decide_true, if_true,
        List.map_cons, List.getLast?_cons, Option.getD_some]
    · simp only [visit_of_not_isIoapic hioapic, List.filter_cons, hioapic, decide_false,
        Bool.false_eq_true, if_false]

theorem map_snd_placed (p : ℕ) (es : List MpEntry) : (placed p es).map Prod.snd = es := by
  induction es generalizing p with
  | nil => rfl
  | cons e es ih => rw [placed, List.map_cons, ih]

/-- `mp_init` visits the entries of the table one after another, and records the identities of the
first processors and the last I/O APIC. -/
theorem mp_init_walk_ok (m : Mem) (inb : ℕ → BitVec 8) (cpus : CpuMgr) (mpFps mpConf : ℕ)
    (es : List MpEntry) (hconf : mpConfig m = some (some (mpFps, mpConf)))
    (hcnt : field16 (bytesAt m mpConf) 34 = es.length)
    (hes : Holds m (mpConf + sizeofMpConfTab) (image es)) :
    ∃ r, mpInit m inb cpus = some r ∧
      r.walk.visited = (placed (mpConf + sizeofMpConfTab) es).map Prod.fst ∧
      r.walk.cpus.ioapic = (ioapics (mpConf + sizeofMpConfTab) es).getLast?.getD cpus.ioapic ∧
      (cpus.ncpu = 0 →
        r.walk.cpus.ncpu = Min.min 4 (procIds es).length ∧
        ∀ j < r.walk.cpus.ncpu, r.walk.cpus.id j = (procIds es).getD j 0) := by
  set cpus' := { cpus with lapicAddr := field32 (bytesAt m mpConf) 36 } with hcpus
  have hrun : mpLoop m es.length ⟨u32 (mpConf + sizeofMpConfTab), cpus', []⟩ = _ :=
    mpLoop_of_holds hes
  have hinit : ∃ r, mpInit m inb cpus = some r ∧
      r.walk = mpLoop m es.length ⟨u32 (mpConf + sizeofMpConfTab), cpus', []⟩ := by
    rw [mpInit, hconf, ← hcnt]
    exact ⟨_, rfl, rfl⟩
  obtain ⟨r, hr, hwalk⟩ := hinit
  rw [hrun] at hwalk
  refine ⟨r, hr, ?_, ?_, fun hzero => ?_⟩
  · rw [hwalk]
    rfl
  · rw [hwalk]
    exact foldl_visit_ioapic _ _
  · have hrec := foldl_visit_cpu cpus' (placed (mpConf + sizeofMpConfTab) es)
      (hzero.le.trans (Nat.zero_le _))
    rw [map_snd_placed] at hrec
    have hzero' : cpus'.ncpu = 0 := hzero
    have hncpu : r.walk.cpus.ncpu = Min.min 4 (procIds es).length := by
      rw [hwalk]
      simp only [hrec.ncpu, hzero', Nat.zero_add]
      rfl
    refine ⟨hncpu, fun j hj => ?_⟩
    have hjlen : j < (procIds es).length := by
      rw [hncpu, lt_min_iff] at hj
      exact hj.2
    rw [hwalk] at hj ⊢
    have hid := hrec.id j hjlen
    rw [hzero', Nat.zero_add] at hid
    exact hid hj

/-- A processor, an I/O APIC and another processor. -/
def twoProcessors : List MpEntry :=
  [⟨.proc, [7, 0x14, 3] ++ List.replicate 16 0, rfl⟩,
    ⟨.ioapic, [8, 0x11, 1, 0, 0, 0xC0, 0xFE], rfl⟩,
    ⟨.proc, [9, 0x14, 1] ++ List.replicate 16 0, rfl⟩]

/-- Their table, with a floating pointer structure in the extended BIOS data area. -/
def twoProcessorTable : Mem where
  byte a :=
    if a < 0xC000040E then 0
    else if a < 0xC0000410 then [0xC0, 0x9F].getD (a - 0xC000040E) 0
    else if a < 0xC009FC00 then 0
    else if a < 0xC009FD00 then
      (MP_FPS_SIG ++ [0, 0xFD, 9, 0, 1, 4, 0x9A, 0, 0, 0, 0, 0]).getD (a - 0xC009FC00) 0
    else if a < 0xC009FD2C then
      (MP_CONF_TAB_SIG ++ [0x5C, 0, 4, 0x79] ++ List.replicate 26 0 ++
        [3, 0, 0, 0, 0xE0, 0xFE, 0, 0, 0, 0]).getD (a - 0xC009FD00) 0
    else (image twoProcessors).getD (a - 0xC009FD2C) 0

theorem mp_init_walk_ok_two :
    ∃ r, mpInit twoProcessorTable (fun _ => 0) ⟨0, 0, 0, fun _ => 0⟩ = some r ∧
      r.walk.visited = [0xC009FD2C, 0xC009FD40, 0xC009FD48] ∧
      r.walk.cpus.ioapic = 0xC009FD40 ∧
      ((0 : ℕ) = 0 → r.walk.cpus.ncpu = 2 ∧
        ∀ j < r.walk.cpus.ncpu, r.walk.cpus.id j = ([7, 9] : List (BitVec 8)).getD j 0) :=
  mp_init_walk_ok twoProcessorTable (fun _ => 0) ⟨0, 0, 0, fun _ => 0⟩ 0xC009FC00 0xC009FD00
    twoProcessors (by decide +kernel) (by decide +kernel) (by unfold Holds; decide +kernel)

end YohdaOS.Mp

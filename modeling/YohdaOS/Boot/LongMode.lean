import YohdaOS.Lib.Paging

/-!
# The first page tables of the 64-bit kernel

p64/lbl.asm: the tables of `.data.page64`, one after the other from `page_pml4` on, and `_start_64`,
which links them and enters long mode.
-/

namespace YohdaOS.P64

open ByteMem Paging

/-- The tables of long mode: pages of 1 GiB and 2 MiB are allowed. -/
def format : Format where
  width := 8
  fanout := 512
  load := load64
  bits := 52
  large := fun s => s == 30 || s == 21

structure Cpu where
  cr0 : ℕ
  cr3 : ℕ
  cr4 : ℕ
  efer : ℕ
  mem : Mem

/-- Four-level paging: `PAE` is set and `LA57`, bit 12 of `cr4`, is clear while `EFER.LME` is set. -/
def Cpu.LongMode (s : Cpu) : Prop :=
  s.cr0.testBit 31 = true ∧ s.cr4.testBit 5 = true ∧ s.cr4.testBit 12 = false ∧
    s.efer.testBit 8 = true

/-- Bits 63 to 47 of an address are equal. -/
def Canonical (v : ℕ) : Prop := v < 2 ^ 47 ∨ (2 ^ 64 - 2 ^ 47 ≤ v ∧ v < 2 ^ 64)

def Cpu.walk (s : Cpu) (v : ℕ) : Option ℕ :=
  format.walk s.mem (s.cr3 / 4096 * 4096) v [39, 30, 21, 12]

/-! ## The tables -/

section Labels

variable (pml4 : ℕ)

def pagePdpt : ℕ := pml4 + 0x1000

def pagePd : ℕ := pml4 + 0x2000

def pageTempPdtp : ℕ := pml4 + 0x3000

def pageTempPd : ℕ := pml4 + 0x4000

def pageHighPdtp : ℕ := pml4 + 0x5000

def pageFhighPd : ℕ := pml4 + 0x6000

def pagePd1 : ℕ := pml4 + 0x7000

def pagePd2 : ℕ := pml4 + 0x8000

end Labels

/-- The table at `t` has the entries `e`, whose upper words are zero. -/
def Table (m : Mem) (t : ℕ) (e : ℕ → ℕ) : Prop :=
  ∀ i < 512, load32 m (t + i * 8) = e i ∧ load32 m (t + i * 8 + 4) = 0

/-- Entry `i` of table `j` of `.data.page64` as it is assembled. -/
def assembledEntry (j i : ℕ) : ℕ :=
  match j with
  | 0 => if i = 0 ∨ i = 511 then 3 else 0
  | 1 => if 510 ≤ i then 3 else 0
  | 2 => 0x83 + i * 0x200000
  | 7 => 0x83 + i * 0x200000
  | 8 => 0x83 + i * 0x200000
  | _ => 0

/-- The words of `.data.page64`: an entry has two. -/
def dataPage64 (k : ℕ) : ℕ := if k % 2 = 1 then 0 else assembledEntry (k / 1024) (k % 1024 / 2)

/-- The tables are loaded at `pml4`. -/
def Assembled (m : Mem) (pml4 : ℕ) : Prop := ∀ k < 0x2400, load32 m (pml4 + 4 * k) = dataPage64 k

/-- `_start_64` -/
def _start64 (pml4 : ℕ) (s : Cpu) : Cpu :=
  let s := { s with cr0 := s.cr0 &&& (4294967295 ^^^ (1 <<< 31)) }
  let s := { s with cr4 := s.cr4 ||| 1 <<< 5 }
  let s := { s with mem := store32 s.mem pml4 (pageTempPdtp pml4 + 3) }
  let s := { s with mem := store32 s.mem (pageTempPdtp pml4) (pageTempPd pml4 + 3) }
  let s := { s with mem := store32 s.mem (pageTempPd pml4) 0x83 }
  let s := { s with mem := store32 s.mem (pageTempPd pml4 + 8) 0x200083 }
  let s := { s with mem := store32 s.mem (pageHighPdtp pml4 + 510 * 8) (pagePd1 pml4 + 3) }
  let s := { s with mem := store32 s.mem (pageHighPdtp pml4 + 511 * 8) (pagePd2 pml4 + 3) }
  let s := { s with mem := store32 s.mem (pml4 + 511 * 8) (pageHighPdtp pml4 + 3) }
  let s := { s with cr3 := pml4 }
  let s := { s with efer := s.efer ||| 1 <<< 8 }
  { s with cr0 := s.cr0 ||| 1 <<< 31 }

/-! ## What `_start_64` links -/

section Table

variable {m : Mem} {t : ℕ} {e : ℕ → ℕ} (h : Table m t e)

include h

/-- Write the lower word of an entry. -/
theorem Table.link (k : ℕ) {v : ℕ} (hv : v < 4294967296) :
    Table (store32 m (t + k * 8) v) t (Function.update e k v) := by
  intro i hi
  obtain ⟨hlo, hhi⟩ := h i hi
  constructor
  · rw [load32_store32_of_mod m hv (by omega), Function.update_apply]
    have hiff : t + i * 8 = t + k * 8 ↔ i = k := by omega
    simp only [hiff, hlo]
  · rw [load32_store32_of_disjoint m v (by omega)]
    exact hhi

/-- Write outside the table. -/
theorem Table.other {a : ℕ} (v : ℕ) (ha : a + 4 ≤ t ∨ t + 4096 ≤ a) : Table (store32 m a v) t e := by
  intro i hi
  rw [load32_store32_of_disjoint m v (by omega), load32_store32_of_disjoint m v (by omega)]
  exact h i hi

theorem Table.congr {e' : ℕ → ℕ} (he : ∀ i, e i = e' i) : Table m t e' := by
  intro i hi
  rw [← he i]
  exact h i hi

end Table

section Assembled

variable {m : Mem} {pml4 : ℕ} (h : Assembled m pml4)

include h

theorem Assembled.table (j : ℕ) (hj : j < 9) :
    Table m (pml4 + j * 0x1000) (assembledEntry j) := by
  intro i hi
  have hlo := h (j * 1024 + 2 * i) (by omega)
  have hhi := h (j * 1024 + 2 * i + 1) (by omega)
  have hj' : (j * 1024 + 2 * i) / 1024 = j := by omega
  have hi' : (j * 1024 + 2 * i) % 1024 / 2 = i := by omega
  rw [dataPage64, if_neg (by omega), hj', hi'] at hlo
  rw [dataPage64, if_pos (by omega)] at hhi
  rw [← hlo, ← hhi]
  exact ⟨congrArg _ (by omega), congrArg _ (by omega)⟩

theorem Assembled.pagePml4 : Table m pml4 fun i => if i = 0 ∨ i = 511 then 3 else 0 := by
  have ht := h.table 0 (by decide)
  rw [Nat.zero_mul] at ht
  exact ht

theorem Assembled.pageTempPdtp : Table m (pageTempPdtp pml4) fun _ => 0 := h.table 3 (by decide)

theorem Assembled.pageTempPd : Table m (pageTempPd pml4) fun _ => 0 := h.table 4 (by decide)

theorem Assembled.pageHighPdtp : Table m (pageHighPdtp pml4) fun _ => 0 := h.table 5 (by decide)

theorem Assembled.pagePd1 : Table m (pagePd1 pml4) fun i => 0x83 + i * 0x200000 :=
  h.table 7 (by decide)

theorem Assembled.pagePd2 : Table m (pagePd2 pml4) fun i => 0x83 + i * 0x200000 :=
  h.table 8 (by decide)

end Assembled

theorem assembled_ofWords (pml4 : ℕ) : Assembled (ofWords pml4 dataPage64) pml4 := by
  intro k hk
  refine load32_ofWords pml4 ?_
  unfold dataPage64 assembledEntry
  split
  · decide
  · split <;> (try split_ifs) <;> omega

theorem _start64_mode (pml4 : ℕ) {s : Cpu} (hla57 : s.cr4.testBit 12 = false) :
    (_start64 pml4 s).LongMode := by
  have hbit (x n : ℕ) : (x ||| 1 <<< n).testBit n = true := by
    rw [Nat.testBit_or, Nat.one_shiftLeft, Nat.testBit_two_pow_self, Bool.or_true]
  have hclear : (s.cr4 ||| 1 <<< 5).testBit 12 = false := by
    rw [Nat.testBit_or, hla57]
    decide
  exact ⟨hbit (s.cr0 &&& (4294967295 ^^^ (1 <<< 31))) 31, hbit s.cr4 5, hclear, hbit s.efer 8⟩

/-- The memory that `_start_64` leaves, its stores in order. -/
def linked (m : Mem) (pml4 : ℕ) : Mem :=
  let m := store32 m (pml4 + 0 * 8) (pageTempPdtp pml4 + 3)
  let m := store32 m (pageTempPdtp pml4 + 0 * 8) (pageTempPd pml4 + 3)
  let m := store32 m (pageTempPd pml4 + 0 * 8) 0x83
  let m := store32 m (pageTempPd pml4 + 1 * 8) 0x200083
  let m := store32 m (pageHighPdtp pml4 + 510 * 8) (pagePd1 pml4 + 3)
  let m := store32 m (pageHighPdtp pml4 + 511 * 8) (pagePd2 pml4 + 3)
  store32 m (pml4 + 511 * 8) (pageHighPdtp pml4 + 3)

theorem _start64_mem (pml4 : ℕ) (s : Cpu) : (_start64 pml4 s).mem = linked s.mem pml4 := by
  simp only [linked, Nat.zero_mul, Nat.add_zero, Nat.one_mul]
  rfl

theorem labels_eq (pml4 : ℕ) : pageTempPdtp pml4 = pml4 + 0x3000 ∧
    pageTempPd pml4 = pml4 + 0x4000 ∧ pageHighPdtp pml4 = pml4 + 0x5000 ∧
    pagePd1 pml4 = pml4 + 0x7000 ∧ pagePd2 pml4 = pml4 + 0x8000 :=
  ⟨rfl, rfl, rfl, rfl, rfl⟩

section Linked

variable {m : Mem} {pml4 : ℕ} (h : Assembled m pml4) (hfits : pml4 + 0x9000 ≤ 4294967296)

include h hfits

theorem linked_pml4 : Table (linked m pml4) pml4 fun i =>
    if i = 511 then pageHighPdtp pml4 + 3 else if i = 0 then pageTempPdtp pml4 + 3 else 0 := by
  obtain ⟨h₁, h₂, h₃, h₄, h₅⟩ := labels_eq pml4
  have hfirst := h.pagePml4.link 0 (v := pageTempPdtp pml4 + 3) (by omega)
  refine ((((((hfirst.other _ ?_).other _ ?_).other _ ?_).other _ ?_).other _ ?_).link 511 ?_).congr
    fun i => ?_
  case refine_7 =>
    simp only [Function.update_apply]
    split_ifs with h511 h0 hor
    · rfl
    · rfl
    · omega
    · rfl
  all_goals omega

theorem linked_tempPdtp : Table (linked m pml4) (pageTempPdtp pml4) fun i =>
    if i = 0 then pageTempPd pml4 + 3 else 0 := by
  obtain ⟨h₁, h₂, h₃, h₄, h₅⟩ := labels_eq pml4
  have hother := h.pageTempPdtp.other (a := pml4 + 0 * 8) (pageTempPdtp pml4 + 3) (by omega)
  refine ((((((hother.link 0 ?_).other _ ?_).other _ ?_).other _ ?_).other _ ?_).other _ ?_).congr
    fun i => ?_
  case refine_7 => rw [Function.update_apply]
  all_goals omega

omit hfits in
theorem linked_tempPd : Table (linked m pml4) (pageTempPd pml4) fun i =>
    if i = 1 then 0x200083 else if i = 0 then 0x83 else 0 := by
  obtain ⟨h₁, h₂, h₃, h₄, h₅⟩ := labels_eq pml4
  have hother := h.pageTempPd.other (a := pml4 + 0 * 8) (pageTempPdtp pml4 + 3) (by omega)
  refine ((((((hother.other _ ?_).link 0 ?_).link 1 ?_).other _ ?_).other _ ?_).other _ ?_).congr
    fun i => ?_
  case refine_7 => rw [Function.update_apply, Function.update_apply]
  all_goals omega

theorem linked_highPdtp : Table (linked m pml4) (pageHighPdtp pml4) fun i =>
    if i = 511 then pagePd2 pml4 + 3 else if i = 510 then pagePd1 pml4 + 3 else 0 := by
  obtain ⟨h₁, h₂, h₃, h₄, h₅⟩ := labels_eq pml4
  have hother := h.pageHighPdtp.other (a := pml4 + 0 * 8) (pageTempPdtp pml4 + 3) (by omega)
  refine ((((((hother.other _ ?_).other _ ?_).other _ ?_).link 510 ?_).link 511 ?_).other _ ?_).congr
    fun i => ?_
  case refine_7 => rw [Function.update_apply, Function.update_apply]
  all_goals omega

omit h hfits in
/-- A table that it does not write. -/
theorem linked_other {t : ℕ} {e : ℕ → ℕ} (ht : Table m t e) (hge : pml4 + 0x6000 ≤ t) :
    Table (linked m pml4) t e := by
  obtain ⟨h₁, h₂, h₃, h₄, h₅⟩ := labels_eq pml4
  refine (((((((ht.other _ ?_).other _ ?_).other _ ?_).other _ ?_).other _ ?_).other _ ?_).other _ ?_)
  all_goals omega

end Linked

/-- The tables once they are linked. -/
structure Linked (s : Cpu) (pml4 : ℕ) : Prop where
  mode : s.LongMode
  cr3 : s.cr3 = pml4
  top : Table s.mem pml4 fun i =>
    if i = 511 then pageHighPdtp pml4 + 3 else if i = 0 then pageTempPdtp pml4 + 3 else 0
  tempPdtp : Table s.mem (pageTempPdtp pml4) fun i => if i = 0 then pageTempPd pml4 + 3 else 0
  tempPd : Table s.mem (pageTempPd pml4) fun i =>
    if i = 1 then 0x200083 else if i = 0 then 0x83 else 0
  highPdtp : Table s.mem (pageHighPdtp pml4) fun i =>
    if i = 511 then pagePd2 pml4 + 3 else if i = 510 then pagePd1 pml4 + 3 else 0
  pd1 : Table s.mem (pagePd1 pml4) fun i => 0x83 + i * 0x200000
  pd2 : Table s.mem (pagePd2 pml4) fun i => 0x83 + i * 0x200000

theorem _start64_linked {s : Cpu} {pml4 : ℕ} (hla57 : s.cr4.testBit 12 = false)
    (hfits : pml4 + 0x9000 ≤ 4294967296) (h : Assembled s.mem pml4) : Linked (_start64 pml4 s) pml4 := by
  have hmem := _start64_mem pml4 s
  refine ⟨_start64_mode pml4 hla57, rfl, ?_, ?_, ?_, ?_, ?_, ?_⟩
  all_goals rw [hmem]
  · exact linked_pml4 h hfits
  · exact linked_tempPdtp h hfits
  · exact linked_tempPd h
  · exact linked_highPdtp h hfits
  · exact linked_other h.pagePd1 (by unfold pagePd1; omega)
  · exact linked_other h.pagePd2 (by unfold pagePd2; omega)

/-! ## What they map -/

/-- The first 4 MiB where they are, and the first gigabyte twice at the top. -/
def kernelMap (v : ℕ) : Option ℕ :=
  if v < 0x400000 then some v
  else if 0xFFFFFFFF80000000 ≤ v then some (v % 0x40000000)
  else none

theorem Table.entry_eq {m : Mem} {t : ℕ} {e : ℕ → ℕ} (h : Table m t e) (s v : ℕ) :
    format.entry m t s v = e (v / 2 ^ s % 512) := by
  obtain ⟨hlo, hhi⟩ := h (v / 2 ^ s % 512) (Nat.mod_lt _ (by decide))
  show load64 m (t + 8 * (v / 2 ^ s % 512)) = _
  rw [Nat.mul_comm 8, load64, hlo, hhi, Nat.mul_zero, Nat.add_zero]

/-- An entry that names the table at `t`. -/
theorem walk_link {m : Mem} {table t v s : ℕ} {ss : List ℕ} (hss : ss ≠ [])
    (he : format.entry m table s v = t + 3) (ht : 4096 ∣ t) (hlt : t < 4294967296) :
    format.walk m table v (s :: ss) = format.walk m t v ss := by
  have hbase : format.base (t + 3) 12 = t :=
    base_of_lt (show t + 3 < 4503599627370496 by omega) (show (t + 3) / 4096 * 4096 = t by omega)
  rw [walk_table hss he (by omega) (by omega), hbase]

/-- An entry that names the page of 2 MiB at `p`. -/
theorem walk_page {m : Mem} {table p v : ℕ} {ss : List ℕ}
    (he : format.entry m table 21 v = 0x83 + p) (hp : 0x200000 ∣ p) (hlt : p < 4294967296) :
    format.walk m table v (21 :: ss) = some (p + v % 0x200000) := by
  have hbase : format.base (0x83 + p) 21 = p :=
    base_of_lt (show 0x83 + p < 4503599627370496 by omega)
      (show (0x83 + p) / 2097152 * 2097152 = p by omega)
  rw [walk_large rfl he (by omega) (by omega), hbase]
  rfl

section Walk

variable {s : Cpu} {pml4 : ℕ} (h : Linked s pml4) (halign : 4096 ∣ pml4)
  (hfits : pml4 + 0x9000 ≤ 4294967296)

include h halign hfits

theorem Linked.walk_low {v : ℕ} (hv : v < 2 ^ 39) :
    s.walk v = if v < 0x400000 then some v else none := by
  obtain ⟨h₁, h₂, h₃, h₄, h₅⟩ := labels_eq pml4
  have e39 := h.top.entry_eq 39 v
  have e30 := h.tempPdtp.entry_eq 30 v
  have e21 := h.tempPd.entry_eq 21 v
  simp only [Nat.reducePow] at hv e39 e30 e21
  rw [if_neg (by omega), if_pos (by omega)] at e39
  rw [Cpu.walk, h.cr3, Nat.div_mul_cancel halign, walk_link (List.cons_ne_nil _ _) e39 (by omega)
    (by omega)]
  by_cases h30 : v / 1073741824 % 512 = 0
  · rw [if_pos h30] at e30
    rw [walk_link (List.cons_ne_nil _ _) e30 (by omega) (by omega)]
    by_cases hlt : v < 0x400000
    · have hpage : format.entry s.mem (pageTempPd pml4) 21 v = 0x83 + v / 2097152 * 2097152 := by
        rw [e21]
        split_ifs <;> omega
      rw [walk_page hpage (Nat.dvd_mul_left _ _) (by omega), if_pos hlt]
      exact congrArg some (by omega)
    · rw [if_neg (by omega), if_neg (by omega)] at e21
      rw [walk_absent (by rw [e21]), if_neg hlt]
  · rw [if_neg h30] at e30
    rw [walk_absent (by rw [e30]), if_neg (by omega)]

theorem Linked.walk_high {v : ℕ} (hlo : 0xFFFFFF8000000000 ≤ v) (hv : v < 2 ^ 64) :
    s.walk v = if 0xFFFFFFFF80000000 ≤ v then some (v % 0x40000000) else none := by
  obtain ⟨h₁, h₂, h₃, h₄, h₅⟩ := labels_eq pml4
  have e39 := h.top.entry_eq 39 v
  have e30 := h.highPdtp.entry_eq 30 v
  simp only [Nat.reducePow] at hv e39 e30
  rw [if_pos (by omega)] at e39
  rw [Cpu.walk, h.cr3, Nat.div_mul_cancel halign, walk_link (List.cons_ne_nil _ _) e39 (by omega)
    (by omega)]
  -- the two directories have the same entries
  have hdir {t : ℕ} (ht : Table s.mem t fun i => 0x83 + i * 0x200000) :
      format.walk s.mem t v [21, 12] = some (v % 0x40000000) := by
    have e21 := ht.entry_eq 21 v
    simp only [Nat.reducePow] at e21
    rw [walk_page e21 (Nat.dvd_mul_left _ _) (by omega)]
    exact congrArg some (by omega)
  by_cases hge : 0xFFFFFFFF80000000 ≤ v
  · rw [if_pos hge]
    by_cases h30 : v / 1073741824 % 512 = 511
    · rw [if_pos h30] at e30
      rw [walk_link (List.cons_ne_nil _ _) e30 (by omega) (by omega)]
      exact hdir h.pd2
    · rw [if_neg h30, if_pos (by omega)] at e30
      rw [walk_link (List.cons_ne_nil _ _) e30 (by omega) (by omega)]
      exact hdir h.pd1
  · rw [if_neg (by omega), if_neg (by omega)] at e30
    rw [walk_absent (by rw [e30]), if_neg hge]

theorem Linked.walk_eq {v : ℕ} (hv : Canonical v) : s.walk v = kernelMap v := by
  unfold Canonical at hv
  simp only [Nat.reducePow] at hv
  unfold kernelMap
  by_cases hlow : v < 549755813888
  · rw [h.walk_low halign hfits hlow, if_neg (c := 0xFFFFFFFF80000000 ≤ v) (by omega)]
  by_cases hhigh : 0xFFFFFF8000000000 ≤ v
  · rw [h.walk_high halign hfits hhigh (by omega), if_neg (c := v < 0x400000) (by omega)]
  · have e39 := h.top.entry_eq 39 v
    simp only [Nat.reducePow] at e39
    rw [if_neg (by omega), if_neg (by omega)] at e39
    rw [Cpu.walk, h.cr3, Nat.div_mul_cancel halign, walk_absent (by rw [e39]), if_neg (by omega),
      if_neg (by omega)]

end Walk

theorem linked_frame (m : Mem) (pml4 : ℕ) : Frame pml4 (pml4 + 0x6000) m (linked m pml4) := by
  have hstore (m : Mem) {a : ℕ} (v : ℕ) (hlo : pml4 ≤ a) (hhi : a + 4 ≤ pml4 + 0x6000) :
      Frame pml4 (pml4 + 0x6000) m (store32 m a v) :=
    (frame_store32 m a v).mono hlo hhi
  obtain ⟨h₁, h₂, h₃, h₄, h₅⟩ := labels_eq pml4
  refine ((((((hstore _ _ ?_ ?_).trans (hstore _ _ ?_ ?_)).trans (hstore _ _ ?_ ?_)).trans
    (hstore _ _ ?_ ?_)).trans (hstore _ _ ?_ ?_)).trans (hstore _ _ ?_ ?_)).trans (hstore _ _ ?_ ?_)
  all_goals omega

/-- `_start_64` enters long mode with the first 4 MiB mapped where they are and the first gigabyte
mapped twice below the top of the addresses, and maps nothing else. -/
theorem start64_maps (s : Cpu) (pml4 : ℕ) (hla57 : s.cr4.testBit 12 = false) (halign : 4096 ∣ pml4)
    (hfits : pml4 + 0x9000 ≤ 4294967296) (h : Assembled s.mem pml4) :
    (_start64 pml4 s).LongMode ∧ (∀ v, Canonical v → (_start64 pml4 s).walk v = kernelMap v) ∧
      Frame pml4 (pml4 + 0x6000) s.mem (_start64 pml4 s).mem := by
  have hlinked := _start64_linked hla57 hfits h
  refine ⟨hlinked.mode, fun v hv => hlinked.walk_eq halign hfits hv, ?_⟩
  rw [_start64_mem]
  exact linked_frame s.mem pml4

theorem start64_maps_main : (_start64 0x101000 ⟨0, 0, 0, 0, ofWords 0x101000 dataPage64⟩).LongMode ∧
    (∀ v, Canonical v →
      (_start64 0x101000 ⟨0, 0, 0, 0, ofWords 0x101000 dataPage64⟩).walk v = kernelMap v) ∧
    Frame 0x101000 (0x101000 + 0x6000) (ofWords 0x101000 dataPage64)
      (_start64 0x101000 ⟨0, 0, 0, 0, ofWords 0x101000 dataPage64⟩).mem :=
  start64_maps _ _ (by decide) (by decide) (by decide) (assembled_ofWords 0x101000)

end YohdaOS.P64

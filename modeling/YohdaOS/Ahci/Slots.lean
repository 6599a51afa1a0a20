import YohdaOS.Ahci

/-!
# Slots and their tables

A command is put into the first slot that is free in both registers, and its scatter list into the
table of that slot, which is 256 bytes long like those before and behind it.
-/

namespace YohdaOS.Ahci

namespace AhciPort

/-! ## The free slot -/

/-- The field NCS of CAP, which is one less than the number of slots. -/
def ncs (p : AhciPort) : ℕ := p.cap / 256 % 32

/-- The slot is free: its bit is clear in PxSACT and in PxCI. -/
def Free (p : AhciPort) (k : ℕ) : Prop := p.sact.testBit k = false ∧ (p.ci 0).testBit k = false

/-- The first free slot among those of the controller is found, and all are busy exactly where none
is. -/
structure FindsSlot (p : AhciPort) : Prop where
  least : ∀ k < p.ncs + 1, p.Free k → (∀ j < k, ¬p.Free j) → p.ahciFindEmptyCmdSlot = k
  busy : p.ahciFindEmptyCmdSlot = -EBUSY ↔ ∀ k < p.ncs + 1, ¬p.Free k

variable {p : AhciPort} {slot n i k : ℕ}

theorem and_one_eq_zero_iff (slot i : ℕ) : slot >>> i &&& 1 = 0 ↔ slot.testBit i = false := by
  rw [Nat.testBit, Nat.and_comm]
  simp

/-- The loop returns the first slot whose bit is clear. -/
theorem findSlotLoop_of_clear (hi : i ≤ k) (hk : k < i + n) (hclear : slot.testBit k = false)
    (hset : ∀ j, i ≤ j → j < k → slot.testBit j = true) :
    findSlotLoop n i (slot >>> i) = k := by
  induction n generalizing i with
  | zero => omega
  | succ n ih =>
    rw [findSlotLoop]
    simp only [and_one_eq_zero_iff, ← Nat.shiftRight_add]
    obtain rfl | hlt := eq_or_lt_of_le hi
    · rw [if_pos hclear]
    · rw [if_neg (by rw [hset i le_rfl hlt]; decide)]
      exact ih hlt (by omega) fun j hj => hset j (by omega)

theorem findSlotLoop_of_set (hset : ∀ j, i ≤ j → j < i + n → slot.testBit j = true) :
    findSlotLoop n i (slot >>> i) = -EBUSY := by
  induction n generalizing i with
  | zero => rfl
  | succ n ih =>
    rw [findSlotLoop]
    simp only [and_one_eq_zero_iff, ← Nat.shiftRight_add]
    rw [if_neg (by rw [hset i le_rfl (by omega)]; decide)]
    exact ih fun j hj hlt => hset j (by omega) (by omega)

theorem free_iff : p.Free k ↔ (p.sact ||| p.ci 0).testBit k = false := by
  rw [Nat.testBit_or, Bool.or_eq_false_iff]
  rfl

theorem not_free_iff : ¬p.Free k ↔ (p.sact ||| p.ci 0).testBit k = true := by
  rw [free_iff, Bool.not_eq_false]

theorem ahciFindEmptyCmdSlot_eq (p : AhciPort) :
    p.ahciFindEmptyCmdSlot = findSlotLoop p.ncs 0 ((p.sact ||| p.ci 0) >>> 0) := by
  have hncs : (p.cap &&& 0x1f00) >>> 8 = p.ncs := by
    rw [Nat.shiftRight_and_distrib, ncs, Nat.shiftRight_eq_div_pow]
    exact Nat.and_two_pow_sub_one_eq_mod _ 5
  rw [ahciFindEmptyCmdSlot, hncs, Nat.shiftRight_zero]

theorem ahciFindEmptyCmdSlot_of_free (hk : k < p.ncs) (hfree : p.Free k)
    (hleast : ∀ j < k, ¬p.Free j) : p.ahciFindEmptyCmdSlot = k := by
  rw [ahciFindEmptyCmdSlot_eq]
  apply findSlotLoop_of_clear (Nat.zero_le k) (by omega) (free_iff.1 hfree)
  exact fun j _ hj => not_free_iff.1 (hleast j hj)

theorem ahciFindEmptyCmdSlot_of_busy (hbusy : ∀ k < p.ncs, ¬p.Free k) :
    p.ahciFindEmptyCmdSlot = -EBUSY := by
  rw [ahciFindEmptyCmdSlot_eq]
  apply findSlotLoop_of_set
  exact fun j _ hj => not_free_iff.1 (hbusy j (by omega))

theorem neg_EBUSY_ne (k : ℕ) : (k : ℤ) ≠ -EBUSY := by
  simp only [EBUSY]
  omega

/-- The least free slot, where one below `n` is free. -/
theorem exists_least_free (h : ∃ k < n, p.Free k) :
    ∃ k < n, p.Free k ∧ ∀ j < k, ¬p.Free j := by
  classical
  obtain ⟨k, hk, hfree⟩ := h
  have hex : ∃ k, p.Free k := ⟨k, hfree⟩
  refine ⟨Nat.find hex, lt_of_le_of_lt (Nat.find_le hfree) hk, Nat.find_spec hex, ?_⟩
  exact fun j hj => Nat.find_min hex hj

/-- The search is right exactly when it need not look at the last slot, the one with the number NCS:
a slot before it is free, or it is busy. -/
theorem ahci_find_slot_iff (p : AhciPort) :
    p.FindsSlot ↔ (∃ k < p.ncs, p.Free k) ∨ ¬p.Free p.ncs := by
  constructor
  · intro h
    by_contra hcon
    obtain ⟨hnone, hlast⟩ := not_or.1 hcon
    have hbusy : ∀ k < p.ncs, ¬p.Free k := fun k hk hfree => hnone ⟨k, hk, hfree⟩
    have hfound := h.least p.ncs (Nat.lt_succ_self _) (not_not.1 hlast) hbusy
    exact neg_EBUSY_ne _ (hfound.symm.trans (ahciFindEmptyCmdSlot_of_busy hbusy))
  · intro h
    by_cases hex : ∃ k < p.ncs, p.Free k
    · obtain ⟨k, hk, hfree, hleast⟩ := exists_least_free hex
      have hfound := ahciFindEmptyCmdSlot_of_free hk hfree hleast
      constructor
      · intro j _ hj hjleast
        obtain hlt | rfl | hgt := lt_trichotomy j k
        · exact absurd hj (hleast j hlt)
        · exact hfound
        · exact absurd hfree (hjleast k hgt)
      · apply iff_of_false
        · rw [hfound]
          exact neg_EBUSY_ne k
        · exact fun hall => hall k (by omega) hfree
    · have hbusy : ∀ k < p.ncs + 1, ¬p.Free k := by
        intro k hk hfree
        obtain hlt | rfl := Nat.lt_succ_iff_lt_or_eq.1 hk
        · exact hex ⟨k, hlt, hfree⟩
        · exact (or_iff_right hex).1 h hfree
      constructor
      · exact fun k hk hfree _ => absurd hfree (hbusy k hk)
      · apply iff_of_true (ahciFindEmptyCmdSlot_of_busy ?_) hbusy
        exact fun k hk => hbusy k (by omega)

/-- A controller of one slot: it is free, and no slot is found. -/
theorem ahci_find_slot_fails : ¬∀ p : AhciPort, p.FindsSlot := by
  intro hall
  have hfound := (hall ⟨0, 0, fun _ => 0, fun _ => 0, fun _ => 0⟩).busy.1 (by decide)
  exact hfound 0 (by decide) ⟨by decide, by decide⟩

end AhciPort

/-! ## The table of the slot -/

def AHCI_BASE : ℕ := 0x10000000

def AHCI_HBA_MAX_PRDT_NUM : ℕ := 8

/-- `sizeof(struct ahci_hba_prdt_entry)` -/
def prdtEntrySize : ℕ := 16

/-- `sizeof(struct ahci_hba_cmd_tbl)`, the array `prdt_entry` included. -/
def cmdTblSize : ℕ := 64 + 16 + 48 + prdtEntrySize * AHCI_HBA_MAX_PRDT_NUM

/-- The table that `ahci_port_rebase` gives to slot `i`. -/
def ctba (portno i : ℕ) : ℕ := AHCI_BASE + (40 <<< 10) + (portno <<< 13) + (i <<< 8)

/-- The check of `ahci_read` and of `ahci_write`; both parameters are unsigned. -/
def ahciRefuses (startLba count : ℕ) : Bool := decide (startLba < 0) && decide (count < 1)

/-- The bytes that `memset` clears: its parameter is an `int`, the argument a `size_t`. -/
def AhciCmd.memsetCnt (cmd : AhciCmd) : ℕ :=
  (toInt (toU32 (cmdTblSize + ((cmd.prdtl : ℤ) - 1) * prdtEntrySize))).toNat

/-- What is written for the command stays in the table of its slot, and the header has the number of
the entries. -/
structure AhciCmd.InTable (cmd : AhciCmd) (portno slot : ℕ) : Prop where
  entries : ∀ i < cmd.prdt.length, i < AHCI_HBA_MAX_PRDT_NUM
  memset : ∀ k < cmd.memsetCnt, ctba portno slot + k < ctba portno (slot + 1)
  prdtl : cmd.prdtl = cmd.prdt.length

variable {kind : AhciKind} {startLba count buf : ℕ}

theorem prdtLoop_length (n buf count : ℕ) : (prdtLoop n buf count).1.length = n := by
  induction n generalizing buf count with
  | zero => rfl
  | succ n ih => rw [prdtLoop, List.length_cons, ih]

theorem ahciCmd_prdt_length (kind : AhciKind) (startLba count buf : ℕ) :
    (ahciCmd kind startLba count buf).prdt.length = ahciPrdtl count - 1 + 1 := by
  rw [ahciCmd, List.length_append, prdtLoop_length, List.length_singleton]

theorem ctba_succ (portno i : ℕ) : ctba portno (i + 1) = ctba portno i + cmdTblSize := by
  simp only [ctba, Nat.shiftLeft_eq, cmdTblSize, prdtEntrySize, AHCI_HBA_MAX_PRDT_NUM]
  omega

theorem ahciPrdtl_lt (count : ℕ) : ahciPrdtl count < 65536 := Nat.mod_lt _ (by decide)

/-- One entry is asked for where the count is from 1 to 16, a multiple of 2^20 apart. -/
theorem ahciPrdtl_eq_one_iff (h : count < 4294967296) :
    ahciPrdtl count = 1 ↔ 1 ≤ count % 1048576 ∧ count % 1048576 ≤ 16 := by
  rw [ahciPrdtl, toU32, Nat.shiftRight_eq_div_pow]
  omega

/-- The `memset` of more than one entry reaches the next table, and the count of none is wrong. -/
theorem inTable_iff (kind : AhciKind) (startLba count buf portno slot : ℕ) :
    (ahciCmd kind startLba count buf).InTable portno slot ↔ ahciPrdtl count = 1 := by
  have hprdtl : (ahciCmd kind startLba count buf).prdtl = ahciPrdtl count := rfl
  have hlen := ahciCmd_prdt_length kind startLba count buf
  have hlt := ahciPrdtl_lt count
  constructor
  · intro h
    have hcnt := h.memset cmdTblSize
    have hentries := h.prdtl
    rw [ctba_succ, AhciCmd.memsetCnt, hprdtl] at hcnt
    rw [hlen, hprdtl] at hentries
    simp only [cmdTblSize, prdtEntrySize, AHCI_HBA_MAX_PRDT_NUM, toU32, toInt] at hcnt
    omega
  · intro h
    refine ⟨fun i hi => ?_, fun k hk => ?_, ?_⟩
    · rw [hlen, h] at hi
      exact lt_trans hi (by decide)
    · rw [AhciCmd.memsetCnt, hprdtl, h] at hk
      rw [ctba_succ]
      exact Nat.add_lt_add_left hk _
    · rw [hprdtl, hlen, h]

theorem ahciRefuses_eq_false (startLba count : ℕ) : ahciRefuses startLba count = false := by
  simp [ahciRefuses]

/-- What `_ahci_read` and `_ahci_write` write for a count that is let through stays in the table
exactly when the count asks for one entry. -/
theorem ahci_in_table_iff (startLba count buf portno slot : ℕ) (h : count < 4294967296) :
    ((ahciRefuses startLba count = false →
        (ahciCmd kindRead startLba count buf).InTable portno slot) ↔
      1 ≤ count % 1048576 ∧ count % 1048576 ≤ 16) ∧
    ((ahciRefuses startLba count = false →
        (ahciCmd kindWrite startLba count buf).InTable portno slot) ↔
      1 ≤ count % 1048576 ∧ count % 1048576 ≤ 16) := by
  simp only [ahciRefuses_eq_false, forall_const, inTable_iff, ahciPrdtl_eq_one_iff h, and_self]

theorem ahci_in_table_iff_sector :
    ((ahciRefuses 2048 1 = false →
        (ahciCmd kindRead 2048 1 0x20000000).InTable 0 0) ↔ 1 ≤ 1 % 1048576 ∧ 1 % 1048576 ≤ 16) ∧
    ((ahciRefuses 2048 1 = false →
        (ahciCmd kindWrite 2048 1 0x20000000).InTable 0 0) ↔ 1 ≤ 1 % 1048576 ∧ 1 % 1048576 ≤ 16) :=
  ahci_in_table_iff 2048 1 0x20000000 0 0 (by decide)

/-- 17 sectors: 16 bytes of the table behind are cleared. -/
theorem ahci_in_table_fails : ¬∀ startLba count buf portno slot : ℕ, count < 4294967296 →
    ahciRefuses startLba count = false →
    (ahciCmd kindRead startLba count buf).InTable portno slot ∧
      (ahciCmd kindWrite startLba count buf).InTable portno slot := by
  intro hall
  have h := (hall 2048 17 0x20000000 0 0 (by decide) (by decide)).1
  exact absurd (h.memset 256 (by decide)) (by decide)

end YohdaOS.Ahci

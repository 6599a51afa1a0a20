import YohdaOS.Machine

/-!
# ahci.c

`_ahci_read` and `_ahci_write` fill a command with its scatter list, wait for the port, issue the
command and wait for its end.  The port registers are what the function reads from them, one value
after another.
-/

namespace YohdaOS.Ahci

def EBUSY : ℤ := 16

/-- `struct ahci_hba_prdt_entry` -/
structure PrdtEntry where
  dba : ℕ
  dbau : ℕ
  dbc : ℕ
  i : ℕ
deriving DecidableEq, Repr

/-- The fields of `struct ahci_hba_fis_reg_h2d` that are set. -/
structure FisRegH2d where
  fisType : ℕ
  c : ℕ
  command : ℕ
  device : ℕ
  lba0 : ℕ
  lba1 : ℕ
  lba2 : ℕ
  lba3 : ℕ
  lba4 : ℕ
  lba5 : ℕ
  countl : ℕ
  counth : ℕ
deriving DecidableEq, Repr

/-- The command header with the entries of its table and the FIS. -/
structure AhciCmd where
  cfl : ℕ
  w : ℕ
  prdtl : ℕ
  prdt : List PrdtEntry
  fis : FisRegH2d
deriving DecidableEq, Repr

/-- What `_ahci_read` and `_ahci_write` do not share. -/
structure AhciKind where
  w : ℕ
  command : ℕ
  /-- the interrupt bit of the last entry -/
  lastI : ℕ

def ATA_CMD_READ_DMA_EX : ℕ := 0x25

def ATA_CMD_WRITE_DMA_EX : ℕ := 0x35

def kindRead : AhciKind := ⟨0, ATA_CMD_READ_DMA_EX, 1⟩

def kindWrite : AhciKind := ⟨1, ATA_CMD_WRITE_DMA_EX, 0⟩

/-- The loop over the entries before the last: the entries, and `buf` and `count` behind it. -/
def prdtLoop : ℕ → ℕ → ℕ → List PrdtEntry × ℕ × ℕ
  | 0, buf, count => ([], buf, count)
  | n + 1, buf, count =>
    let r := prdtLoop n (u32 (buf + 2 * 1024)) (toU32 (count - 16))
    (⟨buf, 0, 8 * 1024 - 1, 1⟩ :: r.1, r.2)

/-- The `dbc` of the last entry, a field of 22 bits. -/
def lastDbc (count : ℕ) : ℕ := toU32 ((u32 (count <<< 9) : ℤ) - 1) % 4194304

/-- `(uint16_t)((count-1)>>4) + 1` in a field of 16 bits. -/
def ahciPrdtl (count : ℕ) : ℕ := (toU32 (count - 1) >>> 4 % 65536 + 1) % 65536

/-- The command that is built for `count` sectors from `startLba` on. -/
def ahciCmd (kind : AhciKind) (startLba count buf : ℕ) : AhciCmd :=
  let prdtl := ahciPrdtl count
  let r := prdtLoop (prdtl - 1) buf count
  let buf := r.2.1
  let count := r.2.2
  { cfl := 5
    w := kind.w
    prdtl := prdtl
    prdt := r.1 ++ [⟨buf, 0, lastDbc count, kind.lastI⟩]
    fis :=
      { fisType := 0x27
        c := 1
        command := kind.command
        device := 1 <<< 6
        lba0 := u8 startLba
        lba1 := u8 (startLba >>> 8)
        lba2 := u8 (startLba >>> 16)
        lba3 := u8 (startLba >>> 24)
        lba4 := u8 (startLba >>> 32)
        lba5 := u8 (startLba >>> 40)
        countl := u8 (count &&& 0xff)
        counth := u8 (count >>> 8) } }

/-! ## What the controller transfers -/

namespace PrdtEntry

/-- The first byte of the entry. -/
def addr (e : PrdtEntry) : ℕ := e.dba + 4294967296 * e.dbau

/-- `dbc` is the number of bytes less one. -/
def bytes (e : PrdtEntry) : ℕ := e.dbc + 1

end PrdtEntry

/-- The entries cover the addresses from `a` to `b`, in order. -/
def Covers : List PrdtEntry → ℕ → ℕ → Prop
  | [], a, b => a = b
  | e :: es, a, b => e.addr = a ∧ Covers es (a + e.bytes) b

/-- The command transfers `count` sectors from `startLba` on to or from the buffer. -/
structure AhciCmd.Transfers (cmd : AhciCmd) (startLba count buf : ℕ) : Prop where
  prdtl : cmd.prdtl = cmd.prdt.length
  covers : Covers cmd.prdt buf (buf + 512 * count)
  bytes : (cmd.prdt.map PrdtEntry.bytes).sum = 512 * count
  lba : cmd.fis.lba0 + 256 * cmd.fis.lba1 + 65536 * cmd.fis.lba2 + 16777216 * cmd.fis.lba3 +
    4294967296 * cmd.fis.lba4 + 1099511627776 * cmd.fis.lba5 = startLba
  count : cmd.fis.countl + 256 * cmd.fis.counth = count

variable {kind : AhciKind} {startLba count buf : ℕ}

/-- The rounds of the loop have taken their sectors from the count. -/
theorem prdtLoop_count (n buf : ℕ) (h : 16 * n ≤ count) (hlt : count < 4294967296) :
    (prdtLoop n buf count).2.2 = count - 16 * n := by
  induction n generalizing buf count with
  | zero => rfl
  | succ n ih =>
    have hsub : toU32 (count - 16) = count - 16 := by
      rw [toU32_of_nonneg (by omega) (by omega)]
      omega
    rw [prdtLoop, hsub]
    exact (ih _ (by omega) (by omega)).trans (by omega)

theorem ahciPrdtl_eq (hlo : 1 ≤ count) (hhi : count ≤ 128) :
    ahciPrdtl count = (count - 1) / 16 + 1 := by
  have hsub : toU32 (count - 1) = count - 1 := by
    rw [toU32_of_nonneg (by omega) (by omega)]
    omega
  rw [ahciPrdtl, hsub, Nat.shiftRight_eq_div_pow]
  omega

theorem fis_count (count : ℕ) (h : count < 65536) :
    u8 (count &&& 0xff) + 256 * u8 (count >>> 8) = count := by
  have hand : count &&& 0xff = count % 256 := Nat.and_two_pow_sub_one_eq_mod count 8
  rw [hand, Nat.shiftRight_eq_div_pow, u8, u8]
  omega

theorem fis_lba (h : startLba < 281474976710656) :
    u8 startLba + 256 * u8 (startLba >>> 8) + 65536 * u8 (startLba >>> 16) +
      16777216 * u8 (startLba >>> 24) + 4294967296 * u8 (startLba >>> 32) +
      1099511627776 * u8 (startLba >>> 40) = startLba := by
  simp only [Nat.shiftRight_eq_div_pow, u8]
  omega

/-- The FIS carries what the loop has left of the count. -/
theorem ahciCmd_count (kind : AhciKind) (startLba buf : ℕ) (hlo : 1 ≤ count) (hhi : count ≤ 128) :
    (ahciCmd kind startLba count buf).fis.countl +
      256 * (ahciCmd kind startLba count buf).fis.counth = count - 16 * ((count - 1) / 16) := by
  have hleft := prdtLoop_count ((count - 1) / 16) buf
    (show 16 * ((count - 1) / 16) ≤ count by omega) (by omega)
  have hfis := fis_count (count - 16 * ((count - 1) / 16)) (by omega)
  simp only [ahciCmd, ahciPrdtl_eq hlo hhi, Nat.add_sub_cancel, hleft]
  exact hfis

/-- A command of one entry. -/
theorem ahciCmd_transfers (kind : AhciKind) (hlba : startLba < 281474976710656)
    (hlo : 1 ≤ count) (hhi : count ≤ 16) :
    (ahciCmd kind startLba count buf).Transfers startLba count buf := by
  have hone : ahciPrdtl count = 1 := by
    rw [ahciPrdtl_eq hlo (by omega)]
    omega
  have hbytes : lastDbc count + 1 = 512 * count := by
    have hshift : count <<< 9 = count * 512 := Nat.shiftLeft_eq _ _
    rw [lastDbc, hshift, u32, toU32]
    omega
  have hprdt : (ahciCmd kind startLba count buf).prdt = [⟨buf, 0, lastDbc count, kind.lastI⟩] := by
    simp only [ahciCmd, hone]
    rfl
  have hfis := ahciCmd_count kind startLba buf hlo (by omega : count ≤ 128)
  refine ⟨?_, ?_, ?_, fis_lba hlba, ?_⟩
  · rw [hprdt]
    exact hone
  · rw [hprdt]
    refine ⟨rfl, ?_⟩
    rw [PrdtEntry.bytes, hbytes]
    rfl
  · rw [hprdt, List.map_singleton, List.sum_singleton]
    exact hbytes
  · rw [hfis]
    omega

theorem transfers_iff (kind : AhciKind) (hlba : startLba < 281474976710656) (hlo : 1 ≤ count)
    (hhi : count ≤ 128) :
    (ahciCmd kind startLba count buf).Transfers startLba count buf ↔ count ≤ 16 := by
  constructor
  · intro h
    have hfis := ahciCmd_count kind startLba buf hlo hhi
    rw [h.count] at hfis
    omega
  · exact ahciCmd_transfers kind hlba hlo

/-- The command that `_ahci_read` builds, and the one that `_ahci_write` builds, transfer what they
are asked for exactly when one entry is enough. -/
theorem ahci_cmd_transfers_iff (startLba count buf : ℕ) (hlba : startLba < 281474976710656)
    (hlo : 1 ≤ count) (hhi : count ≤ 128) :
    ((ahciCmd kindRead startLba count buf).Transfers startLba count buf ↔ count ≤ 16) ∧
      ((ahciCmd kindWrite startLba count buf).Transfers startLba count buf ↔ count ≤ 16) :=
  ⟨transfers_iff kindRead hlba hlo hhi, transfers_iff kindWrite hlba hlo hhi⟩

theorem ahci_cmd_transfers_iff_cluster :
    ((ahciCmd kindRead 2048 8 0x20000000).Transfers 2048 8 0x20000000 ↔ 8 ≤ 16) ∧
      ((ahciCmd kindWrite 2048 8 0x20000000).Transfers 2048 8 0x20000000 ↔ 8 ≤ 16) :=
  ahci_cmd_transfers_iff 2048 8 0x20000000 (by decide) (by decide) (by decide)

/-- 32 sectors: the second entry begins 2 KiB behind the first, and the FIS asks for 16. -/
theorem ahci_cmd_transfers_fails : ¬∀ startLba count buf : ℕ, startLba < 281474976710656 →
    1 ≤ count → count ≤ 128 → buf < 4294967296 →
    (ahciCmd kindRead startLba count buf).Transfers startLba count buf ∧
      (ahciCmd kindWrite startLba count buf).Transfers startLba count buf := by
  intro hall
  have h := (hall 0 32 0x20000000 (by decide) (by decide) (by decide) (by decide)).1
  exact absurd h.count (by decide)

/-! ## Waiting for the device -/

/-- The bit TFES of the register PxIS. -/
def HBA_PxIS_TFES : ℕ := 1 <<< 30

def ATA_DEV_BUSY : ℕ := 0x80

def ATA_DEV_DRQ : ℕ := 0x08

/-- The rounds that the port may stay busy. -/
def SPIN_MAX : ℕ := 1000000

/-- The values read from the registers: PxCI, PxTFD and PxIS are read again and again, the first
value of PxCI by the search for a slot. -/
structure AhciPort where
  cap : ℕ
  sact : ℕ
  ci : ℕ → ℕ
  tfd : ℕ → ℕ
  is : ℕ → ℕ

namespace AhciPort

variable (p : AhciPort)

/-- The loop of `ahci_find_empty_cmd_slot`, from slot `i` on. -/
def findSlotLoop : ℕ → ℕ → ℕ → ℤ
  | 0, _, _ => -EBUSY
  | n + 1, i, slot => if slot &&& 1 = 0 then i else findSlotLoop n (i + 1) (slot >>> 1)

def ahciFindEmptyCmdSlot : ℤ :=
  findSlotLoop ((p.cap &&& 0x1f00) >>> 8) 0 (p.sact ||| p.ci 0)

/-- The port is busy when PxTFD is read for the time `k`. -/
def Busy (k : ℕ) : Prop := p.tfd k &&& (ATA_DEV_BUSY ||| ATA_DEV_DRQ) ≠ 0

instance (k : ℕ) : Decidable (p.Busy k) := inferInstanceAs (Decidable (_ ≠ _))

/-- The command in the slot has not come to its end when PxCI is read for the time `k` after it was
issued. -/
def Pending (slot k : ℕ) : Prop := p.ci (k + 1) &&& (1 <<< slot) ≠ 0

instance (slot k : ℕ) : Decidable (p.Pending slot k) := inferInstanceAs (Decidable (_ ≠ _))

/-- A task file error is seen when PxIS is read for the time `k`. -/
def TaskError (k : ℕ) : Prop := p.is k &&& HBA_PxIS_TFES ≠ 0

instance (k : ℕ) : Decidable (p.TaskError k) := inferInstanceAs (Decidable (_ ≠ _))

/-- The loop before the command: the value of `spin` behind it, where `n` rounds are left. -/
def spinLoop : ℕ → ℕ → ℕ
  | 0, spin => spin
  | n + 1, spin => if p.Busy spin then spinLoop n (spin + 1) else spin

/-- How a call ended: what it returned and what it had seen. -/
structure AhciEnd where
  ret : ℤ
  /-- the command built -/
  cmd : Option AhciCmd
  /-- the command was issued -/
  issued : Bool
  /-- its bit in PxCI was seen cleared -/
  cleared : Bool
  /-- a task file error was seen -/
  taskError : Bool

/-- The loop that waits for the end of the command, and the check behind it. -/
def waitLoop (cmd : AhciCmd) (slot : ℕ) : ℕ → ℕ → Option AhciEnd
  | 0, _ => none
  | fuel + 1, k =>
    if ¬p.Pending slot k then
      if p.TaskError k then some ⟨0, some cmd, true, true, true⟩
      else some ⟨0, some cmd, true, true, false⟩
    else if p.TaskError k then some ⟨0, some cmd, true, false, true⟩
    else waitLoop cmd slot fuel (k + 1)

/-- `_ahci_read` and `_ahci_write`; `none` while the call is waiting. -/
def transfer (kind : AhciKind) (fuel startLba count buf : ℕ) : Option AhciEnd :=
  let slot := p.ahciFindEmptyCmdSlot
  if slot < 0 then some ⟨slot, none, false, false, false⟩
  else
    let cmd := ahciCmd kind startLba count buf
    if p.spinLoop SPIN_MAX 0 = SPIN_MAX then some ⟨0, some cmd, false, false, false⟩
    else p.waitLoop cmd slot.toNat fuel 0

def _ahciRead (fuel startLba count buf : ℕ) : Option AhciEnd :=
  p.transfer kindRead fuel startLba count buf

def _ahciWrite (fuel startLba count buf : ℕ) : Option AhciEnd :=
  p.transfer kindWrite fuel startLba count buf

/-- A call that returns 0 has issued the command, seen it end and seen no error. -/
def AhciEnd.Honest (r : AhciEnd) : Prop :=
  r.ret = 0 → r.issued = true ∧ r.cleared = true ∧ r.taskError = false

variable {p}

/-- The loop runs to its bound exactly when the port is busy at each round. -/
theorem spinLoop_eq_iff (n spin : ℕ) :
    p.spinLoop n spin = spin + n ↔ ∀ k < n, p.Busy (spin + k) := by
  induction n generalizing spin with
  | zero => simp [spinLoop]
  | succ n ih =>
    rw [spinLoop]
    by_cases hbusy : p.Busy spin
    · rw [if_pos hbusy, show spin + (n + 1) = spin + 1 + n by omega, ih]
      constructor
      · intro h k hk
        cases k with
        | zero => exact hbusy
        | succ k =>
          rw [show spin + (k + 1) = spin + 1 + k by omega]
          exact h k (by omega)
      · intro h k hk
        rw [show spin + 1 + k = spin + (k + 1) by omega]
        exact h (k + 1) (by omega)
    · rw [if_neg hbusy]
      apply iff_of_false
      · omega
      · exact fun h => hbusy (h 0 (by omega))

/-- No task file error is read while the command is waited for, nor when it has come to its end. -/
def NoTaskError (p : AhciPort) (slot : ℕ) : Prop :=
  ∀ k, (∀ j < k, p.Pending slot j) → ¬p.TaskError k

theorem AhciEnd.not_honest {r : AhciEnd} (hret : r.ret = 0) (herr : r.taskError = true) :
    ¬r.Honest := by
  intro h
  rw [(h hret).2.2] at herr
  cases herr

/-- An error that is read ends the wait, and the value returned hides it. -/
theorem waitLoop_of_error (cmd : AhciCmd) (slot : ℕ) {k d : ℕ}
    (hpend : ∀ j < k + d, p.Pending slot j) (herr : p.TaskError (k + d)) :
    ∃ fuel r, p.waitLoop cmd slot fuel k = some r ∧ ¬r.Honest := by
  induction d generalizing k with
  | zero =>
    rw [Nat.add_zero] at herr
    refine ⟨1, ?_⟩
    rw [waitLoop, if_pos herr, if_pos herr]
    split_ifs
    · exact ⟨_, rfl, AhciEnd.not_honest rfl rfl⟩
    · exact ⟨_, rfl, AhciEnd.not_honest rfl rfl⟩
  | succ d ih =>
    have hk : p.Pending slot k := hpend k (by omega)
    by_cases hkerr : p.TaskError k
    · refine ⟨1, ?_⟩
      rw [waitLoop, if_neg (not_not.2 hk), if_pos hkerr]
      exact ⟨_, rfl, AhciEnd.not_honest rfl rfl⟩
    · rw [show k + (d + 1) = k + 1 + d by omega] at hpend herr
      obtain ⟨fuel, r, hr, hnot⟩ := ih hpend herr
      refine ⟨fuel + 1, r, ?_, hnot⟩
      rw [waitLoop, if_neg (not_not.2 hk), if_neg hkerr]
      exact hr

/-- Without an error the wait ends well, if it ends. -/
theorem waitLoop_of_noError (cmd : AhciCmd) {slot k fuel : ℕ} {r : AhciEnd}
    (hpend : ∀ j < k, p.Pending slot j) (h : p.NoTaskError slot)
    (hr : p.waitLoop cmd slot fuel k = some r) : r.Honest := by
  induction fuel generalizing k with
  | zero => cases hr
  | succ fuel ih =>
    have hnone := h k hpend
    rw [waitLoop, if_neg hnone, if_neg hnone] at hr
    by_cases hk : p.Pending slot k
    · rw [if_neg (not_not.2 hk)] at hr
      refine ih (fun j hj => ?_) hr
      rcases Nat.lt_succ_iff_lt_or_eq.1 hj with hlt | rfl
      · exact hpend j hlt
      · exact hk
    · rw [if_pos hk] at hr
      obtain rfl := Option.some.inj hr
      exact fun _ => ⟨rfl, rfl, rfl⟩

theorem waitLoop_honest_iff (cmd : AhciCmd) (slot : ℕ) :
    (∀ fuel r, p.waitLoop cmd slot fuel 0 = some r → r.Honest) ↔ p.NoTaskError slot := by
  constructor
  · intro h n hpend herr
    rw [← Nat.zero_add n] at hpend herr
    obtain ⟨fuel, r, hr, hnot⟩ := waitLoop_of_error cmd slot hpend herr
    exact hnot (h fuel r hr)
  · intro h fuel r hr
    exact waitLoop_of_noError cmd (fun j hj => absurd hj (Nat.not_lt_zero j)) h hr

/-- The value returned tells a failed call from a good one in these cases: no slot was free, or the
port became ready and no error was read. -/
def Told (p : AhciPort) : Prop :=
  p.ahciFindEmptyCmdSlot < 0 ∨
    (∃ k < SPIN_MAX, ¬p.Busy k) ∧ p.NoTaskError p.ahciFindEmptyCmdSlot.toNat

theorem transfer_honest_iff (p : AhciPort) (kind : AhciKind) (startLba count buf : ℕ) :
    (∀ fuel r, p.transfer kind fuel startLba count buf = some r → r.Honest) ↔ p.Told := by
  rw [Told]
  by_cases hslot : p.ahciFindEmptyCmdSlot < 0
  · apply iff_of_true ?_ (Or.inl hslot)
    intro fuel r hr hret
    rw [transfer, if_pos hslot] at hr
    obtain rfl := Option.some.inj hr
    exact absurd hret (by simp only; omega)
  · rw [or_iff_right hslot]
    have hspin := spinLoop_eq_iff (p := p) SPIN_MAX 0
    simp only [Nat.zero_add] at hspin
    by_cases hhung : p.spinLoop SPIN_MAX 0 = SPIN_MAX
    · apply iff_of_false
      · intro h
        simp only [transfer, if_neg hslot, if_pos hhung] at h
        have hissued := (h 0 _ rfl rfl).1
        cases hissued
      · rintro ⟨⟨k, hk, hready⟩, -⟩
        exact hready (hspin.1 hhung k hk)
    · have hready : ∃ k < SPIN_MAX, ¬p.Busy k := by
        by_contra hnone
        apply hhung
        rw [hspin]
        intro k hk
        by_contra hk'
        exact hnone ⟨k, hk, hk'⟩
      simp only [transfer, if_neg hslot, if_neg hhung]
      rw [waitLoop_honest_iff]
      exact (and_iff_right hready).symm

/-- Neither call swallows an error exactly when no slot is free, or the port is ready in time and no
task file error is read. -/
theorem ahci_errors_told_iff (p : AhciPort) (startLba count buf : ℕ) :
    ((∀ fuel r, p._ahciRead fuel startLba count buf = some r → r.Honest) ↔ p.Told) ∧
      ((∀ fuel r, p._ahciWrite fuel startLba count buf = some r → r.Honest) ↔ p.Told) :=
  ⟨p.transfer_honest_iff kindRead startLba count buf, p.transfer_honest_iff kindWrite startLba count buf⟩

/-- The device reports a task file error at once: the call returns 0. -/
theorem ahci_errors_told_fails : ¬∀ (p : AhciPort) (startLba count buf fuel : ℕ) (r : AhciEnd),
    p._ahciRead fuel startLba count buf = some r → r.Honest := by
  intro hall
  have htold := (transfer_honest_iff ⟨0x1f00, 0, fun _ => 0, fun _ => 0, fun _ => 1 <<< 30⟩
    kindRead 0 1 0).1 (hall _ 0 1 0)
  rcases htold with h | ⟨-, h⟩
  · exact absurd h (by decide)
  · exact absurd (h 0 fun j hj => absurd hj (Nat.not_lt_zero j)) (by decide)

end AhciPort

end YohdaOS.Ahci

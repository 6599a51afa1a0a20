import YohdaOS.Ahci.Table

/-!
# The memory of the ports

`ahci_port_rebase` gives a port its command list, the area of the received FISes and one table for
each slot; `ahci_init` does so for every port with a SATA drive.
-/

namespace YohdaOS.Ahci

open ByteMem

def AHCI_MAX_PORT_NUM : ℕ := 32

def AHCI_MAX_CMD_HEADER_NUM : ℕ := 32

def AHCI_CMD_LIST_SIZE : ℕ := 32 * 32

def AHCI_RECEVIED_FIS_SIZE : ℕ := 256

def SATA_SIG_ATAPI : ℕ := 0xEB140101

def SATA_SIG_SEMB : ℕ := 0xC33C0101

def SATA_SIG_PM : ℕ := 0x96690101

def HBA_PORT_IPM_ACTIVE : ℕ := 1

def HBA_PORT_DET_PRESENT : ℕ := 3

inductive AhciDev where
  | null
  | sata
  | semb
  | pm
  | satapi
deriving DecidableEq, Repr

/-- The memory, the registers PxCLB, PxCLBU, PxFB and PxFBU of each port, and `mgr.active_port`. -/
structure AhciHba where
  mem : Mem
  clb : ℕ → ℕ
  clbu : ℕ → ℕ
  fb : ℕ → ℕ
  fbu : ℕ → ℕ
  activePort : ℕ

/-- `ahci_check_type` for the registers PxSSTS and PxSIG. -/
def ahciCheckType (ssts sig : ℕ) : AhciDev :=
  let ipm := (ssts >>> 8) &&& 0x0F
  let det := ssts &&& 0x0F
  if det ≠ HBA_PORT_DET_PRESENT then .null
  else if ipm ≠ HBA_PORT_IPM_ACTIVE then .null
  else if sig = SATA_SIG_ATAPI then .satapi
  else if sig = SATA_SIG_SEMB then .semb
  else if sig = SATA_SIG_PM then .pm
  else .sata

/-- One round of the loop of `ahci_port_rebase`: the header `i` of the list at `clb` and its table. -/
def rebaseHeader (portno clb : ℕ) (m : Mem) (i : ℕ) : Mem :=
  let hdr := clb + cmdHeaderSize * i
  let m := store16 m (hdr + 2) 8
  let m := store32 m (hdr + 8) (ctba portno i)
  let m := store32 m (hdr + 12) 0
  fill m (load32 m (hdr + 8)) 0 256

/-- `ahci_port_rebase` between `stop_cmd` and `start_cmd`. -/
def ahciPortRebase (h : AhciHba) (portno : ℕ) : AhciHba :=
  let clb := AHCI_BASE + (portno <<< 10)
  let m := fill h.mem clb 0 AHCI_CMD_LIST_SIZE
  let fb := AHCI_BASE + (AHCI_MAX_PORT_NUM <<< 10) + (portno <<< 8)
  let m := fill m fb 0 AHCI_RECEVIED_FIS_SIZE
  { h with
    mem := (List.range AHCI_MAX_CMD_HEADER_NUM).foldl (rebaseHeader portno clb) m
    clb := Function.update h.clb portno clb
    clbu := Function.update h.clbu portno 0
    fb := Function.update h.fb portno fb
    fbu := Function.update h.fbu portno 0 }

/-- The loop of `ahci_init` from port `i` on, where `n` ports are left. -/
def ahciInitLoop (ssts sig : ℕ → ℕ) : ℕ → ℕ → ℕ → AhciHba → AhciHba
  | 0, _, _, h => h
  | n + 1, i, pi, h =>
    let h :=
      if pi &&& 1 ≠ 0 ∧ ahciCheckType (ssts i) (sig i) = .sata then
        { ahciPortRebase h i with activePort := i }
      else h
    ahciInitLoop ssts sig n (i + 1) (pi >>> 1) h

/-- `ahci_init` where the controller is found; `pi` is the register PI. -/
def ahciInit (pi : ℕ) (ssts sig : ℕ → ℕ) (h : AhciHba) : AhciHba :=
  ahciInitLoop ssts sig AHCI_MAX_PORT_NUM 0 pi h

/-! ## The areas of a port -/

/-- The command list of the port. -/
def InList (portno x : ℕ) : Prop :=
  AHCI_BASE + 1024 * portno ≤ x ∧ x < AHCI_BASE + 1024 * portno + 1024

/-- The received FISes of the port. -/
def InFis (portno x : ℕ) : Prop :=
  AHCI_BASE + 32768 + 256 * portno ≤ x ∧ x < AHCI_BASE + 32768 + 256 * portno + 256

/-- The tables of the port. -/
def InTables (portno x : ℕ) : Prop :=
  AHCI_BASE + 40960 + 8192 * portno ≤ x ∧ x < AHCI_BASE + 40960 + 8192 * portno + 8192

def InPort (portno x : ℕ) : Prop := InList portno x ∨ InFis portno x ∨ InTables portno x

/-- The registers of the port name its areas, and the header of each slot its table. -/
structure AhciHba.Laid (h : AhciHba) (portno : ℕ) : Prop where
  clb : h.clb portno = AHCI_BASE + 1024 * portno
  fb : h.fb portno = AHCI_BASE + 32768 + 256 * portno
  table : ∀ i < 32, load64 h.mem (h.clb portno + cmdHeaderSize * i + 8) = ctba portno i

variable {h : AhciHba} {m : Mem} {portno q i n x : ℕ} {ssts sig : ℕ → ℕ} {pi : ℕ}

/-- The areas of two ports have nothing in common. -/
theorem not_inPort (hp : portno < 32) (hq : q < 32) (hne : portno ≠ q) (hx : InPort portno x) :
    ¬InPort q x := by
  simp only [InPort, InList, InFis, InTables] at *
  omega

theorem ctba_eq (portno i : ℕ) : ctba portno i = AHCI_BASE + 40960 + 8192 * portno + 256 * i := by
  simp only [ctba, Nat.shiftLeft_eq]
  omega

theorem list_eq (portno : ℕ) : AHCI_BASE + (portno <<< 10) = AHCI_BASE + 1024 * portno := by
  rw [Nat.shiftLeft_eq, Nat.mul_comm]

theorem fis_eq (portno : ℕ) :
    AHCI_BASE + (AHCI_MAX_PORT_NUM <<< 10) + (portno <<< 8) = AHCI_BASE + 32768 + 256 * portno := by
  rw [Nat.shiftLeft_eq, Nat.shiftLeft_eq, AHCI_MAX_PORT_NUM, Nat.mul_comm portno]

/-! ## One header -/

theorem rebaseHeader_eq (m : Mem) (hp : portno < 32) (hi : i < 32) (clb : ℕ) :
    rebaseHeader portno clb m i = fill (store32 (store32 (store16 m (clb + 32 * i + 2) 8)
      (clb + 32 * i + 8) (ctba portno i)) (clb + 32 * i + 12) 0) (ctba portno i) 0 256 := by
  have hlt : ctba portno i < 4294967296 := by
    rw [ctba_eq, AHCI_BASE]
    omega
  have hload (m : Mem) : load32 (store32 (store32 m (clb + 32 * i + 8) (ctba portno i))
      (clb + 32 * i + 12) 0) (clb + 32 * i + 8) = ctba portno i := by
    rw [load32_store32_of_disjoint _ _ (by omega), load32_store32 _ _ hlt]
  simp only [rebaseHeader, cmdHeaderSize, hload]

/-- What one round writes: its header and its table. -/
theorem byte_rebaseHeader (m : Mem) (hp : portno < 32) (hi : i < 32) {clb : ℕ}
    (hx : x < clb + 32 * i ∨ clb + 32 * i + 32 ≤ x)
    (hx' : x < ctba portno i ∨ ctba portno i + 256 ≤ x) :
    (rebaseHeader portno clb m i).byte x = m.byte x := by
  rw [rebaseHeader_eq m hp hi, frame_fill _ _ _ _ x hx', frame_store32 _ _ _ x (by omega),
    frame_store32 _ _ _ x (by omega), frame_store16 _ _ _ x (by omega)]

theorem load64_rebaseHeader (m : Mem) (hp : portno < 32) (hi : i < 32) {clb : ℕ}
    (hclb : clb = AHCI_BASE + 1024 * portno) :
    load64 (rebaseHeader portno clb m i) (clb + 32 * i + 8) = ctba portno i := by
  have hlt : ctba portno i < 4294967296 := by
    rw [ctba_eq, AHCI_BASE]
    omega
  have hbelow : clb + 32 * i + 16 ≤ ctba portno i := by
    rw [ctba_eq, hclb]
    omega
  rw [rebaseHeader_eq m hp hi,
    load64_congr fun x _ hx => frame_fill _ (ctba portno i) 0 256 x (by omega), load64,
    load32_store32_of_disjoint _ _ (by omega), load32_store32 _ _ hlt,
    show clb + 32 * i + 8 + 4 = clb + 32 * i + 12 by omega, load32_store32 _ _ (by decide)]
  rfl

/-! ## The loop -/

/-- The rounds write the command list and the tables of the port. -/
theorem byte_rebaseHeaders (m : Mem) (hp : portno < 32) (hn : n ≤ 32)
    (hx : ¬InList portno x) (hx' : ¬InTables portno x) :
    ((List.range n).foldl (rebaseHeader portno (AHCI_BASE + 1024 * portno)) m).byte x = m.byte x := by
  induction n with
  | zero => rfl
  | succ n ih =>
    rw [List.range_succ, List.foldl_concat]
    rw [byte_rebaseHeader _ hp (by omega), ih (by omega)]
    · simp only [InList] at hx
      omega
    · rw [ctba_eq]
      simp only [InTables] at hx'
      omega

theorem load64_rebaseHeaders (m : Mem) (hp : portno < 32) (hn : n ≤ 32) (hi : i < n) :
    load64 ((List.range n).foldl (rebaseHeader portno (AHCI_BASE + 1024 * portno)) m)
      (AHCI_BASE + 1024 * portno + 32 * i + 8) = ctba portno i := by
  induction n with
  | zero => omega
  | succ n ih =>
    rw [List.range_succ, List.foldl_concat]
    rcases Nat.lt_succ_iff_lt_or_eq.1 hi with hlt | rfl
    · rw [← ih (by omega) hlt]
      refine load64_congr fun x hx hx' => byte_rebaseHeader _ hp (by omega) (by omega) ?_
      rw [ctba_eq]
      omega
    · exact load64_rebaseHeader _ hp (by omega) rfl

/-! ## One port, and all of them -/

theorem ahciPortRebase_eq (h : AhciHba) (portno : ℕ) : ahciPortRebase h portno =
    { h with
      mem := (List.range 32).foldl (rebaseHeader portno (AHCI_BASE + 1024 * portno))
        (fill (fill h.mem (AHCI_BASE + 1024 * portno) 0 1024)
          (AHCI_BASE + 32768 + 256 * portno) 0 256)
      clb := Function.update h.clb portno (AHCI_BASE + 1024 * portno)
      clbu := Function.update h.clbu portno 0
      fb := Function.update h.fb portno (AHCI_BASE + 32768 + 256 * portno)
      fbu := Function.update h.fbu portno 0 } := by
  simp only [ahciPortRebase, fis_eq portno, list_eq portno, AHCI_MAX_CMD_HEADER_NUM,
    AHCI_CMD_LIST_SIZE, AHCI_RECEVIED_FIS_SIZE, Nat.reduceMul]

/-- Only the areas of the port are written. -/
theorem byte_ahciPortRebase (h : AhciHba) (hp : portno < 32) (hx : ¬InPort portno x) :
    (ahciPortRebase h portno).mem.byte x = h.mem.byte x := by
  simp only [InPort, not_or] at hx
  obtain ⟨hlist, hfis, htables⟩ := hx
  rw [ahciPortRebase_eq]
  simp only
  rw [byte_rebaseHeaders _ hp le_rfl hlist htables]
  simp only [InList] at hlist
  simp only [InFis] at hfis
  rw [frame_fill _ _ _ _ x (by omega), frame_fill _ _ _ _ x (by omega)]

theorem laid_rebase (h : AhciHba) (hp : portno < 32) : (ahciPortRebase h portno).Laid portno := by
  rw [ahciPortRebase_eq]
  refine ⟨Function.update_self _ _ _, Function.update_self _ _ _, fun i hi => ?_⟩
  simp only [Function.update_self, cmdHeaderSize]
  exact load64_rebaseHeaders _ hp le_rfl hi

theorem AhciHba.Laid.active (hl : h.Laid portno) (i : ℕ) :
    ({ h with activePort := i } : AhciHba).Laid portno := ⟨hl.clb, hl.fb, hl.table⟩

/-- A port that is laid out stays so when another one is. -/
theorem AhciHba.Laid.rebase (hl : h.Laid portno) (hp : portno < 32) (hq : q < 32)
    (hne : portno ≠ q) : (ahciPortRebase h q).Laid portno := by
  have hclb : (ahciPortRebase h q).clb portno = h.clb portno := by
    rw [ahciPortRebase_eq]
    exact Function.update_of_ne hne _ _
  have hfb : (ahciPortRebase h q).fb portno = h.fb portno := by
    rw [ahciPortRebase_eq]
    exact Function.update_of_ne hne _ _
  refine ⟨hclb.trans hl.clb, hfb.trans hl.fb, fun i hi => ?_⟩
  rw [← hl.table i hi, hclb, hl.clb, cmdHeaderSize]
  refine load64_congr fun x hx hx' => byte_ahciPortRebase h hq (not_inPort hp hq hne ?_)
  left
  simp only [InList]
  omega

/-- A port that is implemented and has a SATA drive. -/
def HasDrive (pi : ℕ) (ssts sig : ℕ → ℕ) (i : ℕ) : Prop :=
  pi.testBit i = true ∧ ahciCheckType (ssts i) (sig i) = .sata

/-- The ports before `i` that have a drive are laid out, and the active port is one of them. -/
structure LaidBelow (pi : ℕ) (ssts sig : ℕ → ℕ) (i : ℕ) (h : AhciHba) : Prop where
  laid : ∀ p < i, HasDrive pi ssts sig p → h.Laid p
  active : (∃ p < i, HasDrive pi ssts sig p) →
    h.activePort < i ∧ HasDrive pi ssts sig h.activePort

theorem LaidBelow.skip (hb : LaidBelow pi ssts sig i h) (hi : ¬HasDrive pi ssts sig i) :
    LaidBelow pi ssts sig (i + 1) h := by
  refine ⟨fun p hp hd => ?_, fun ⟨p, hp, hd⟩ => ?_⟩
  · rcases Nat.lt_succ_iff_lt_or_eq.1 hp with hlt | rfl
    · exact hb.laid p hlt hd
    · exact absurd hd hi
  · rcases Nat.lt_succ_iff_lt_or_eq.1 hp with hlt | rfl
    · obtain ⟨hlt', hd'⟩ := hb.active ⟨p, hlt, hd⟩
      exact ⟨Nat.lt_succ_of_lt hlt', hd'⟩
    · exact absurd hd hi

theorem LaidBelow.rebase (hb : LaidBelow pi ssts sig i h) (hlt : i < 32)
    (hi : HasDrive pi ssts sig i) :
    LaidBelow pi ssts sig (i + 1) { ahciPortRebase h i with activePort := i } := by
  refine ⟨fun p hp hd => ?_, fun _ => ⟨Nat.lt_succ_self i, hi⟩⟩
  have hlaid : (ahciPortRebase h i).Laid p := by
    rcases Nat.lt_succ_iff_lt_or_eq.1 hp with hlt' | rfl
    · exact (hb.laid p hlt' hd).rebase (by omega) hlt (by omega)
    · exact laid_rebase h hlt
  exact hlaid.active i

theorem laidBelow_initLoop (hn : n + i = 32) (hb : LaidBelow pi ssts sig i h) :
    LaidBelow pi ssts sig 32 (ahciInitLoop ssts sig n i (pi >>> i) h) := by
  induction n generalizing i h with
  | zero =>
    obtain rfl : i = 32 := by omega
    exact hb
  | succ n ih =>
    have hbit : pi >>> i &&& 1 ≠ 0 ↔ pi.testBit i = true := by
      rw [Ne, AhciPort.and_one_eq_zero_iff, Bool.not_eq_false]
    have hdrive : (pi >>> i &&& 1 ≠ 0 ∧ ahciCheckType (ssts i) (sig i) = .sata) ↔
        HasDrive pi ssts sig i := and_congr_left fun _ => hbit
    rw [ahciInitLoop, ← Nat.shiftRight_add]
    by_cases hi : HasDrive pi ssts sig i
    · rw [if_pos (hdrive.2 hi)]
      exact ih (by omega) (hb.rebase (by omega) hi)
    · rw [if_neg (hdrive.not.2 hi)]
      exact ih (by omega) (hb.skip hi)

theorem byte_ahciInitLoop (h : AhciHba) (hn : i + n ≤ 32) (hx : ∀ p < 32, ¬InPort p x) :
    (ahciInitLoop ssts sig n i pi h).mem.byte x = h.mem.byte x := by
  induction n generalizing i pi h with
  | zero => rfl
  | succ n ih =>
    rw [ahciInitLoop, ih _ (by omega)]
    split_ifs
    · dsimp only
      rw [byte_ahciPortRebase h (by omega) (hx i (by omega))]
    · rfl

/-- Only the areas of the ports are written. -/
theorem byte_ahciInit (h : AhciHba) (hx : ∀ p < 32, ¬InPort p x) :
    (ahciInit pi ssts sig h).mem.byte x = h.mem.byte x := byte_ahciInitLoop h le_rfl hx

/-- After `ahci_init` the active port has a drive and its areas, if any port has a drive. -/
theorem laid_ahciInit (h : AhciHba) (hdrive : ∃ p < 32, HasDrive pi ssts sig p) :
    (ahciInit pi ssts sig h).activePort < 32 ∧
      (ahciInit pi ssts sig h).Laid (ahciInit pi ssts sig h).activePort := by
  have hstart : LaidBelow pi ssts sig 0 h :=
    ⟨fun p hp => absurd hp (Nat.not_lt_zero p), fun ⟨p, hp, _⟩ => absurd hp (Nat.not_lt_zero p)⟩
  have hb := laidBelow_initLoop (n := 32) rfl hstart
  obtain ⟨hlt, hd⟩ := hb.active hdrive
  exact ⟨hlt, hb.laid _ hlt hd⟩

end YohdaOS.Ahci

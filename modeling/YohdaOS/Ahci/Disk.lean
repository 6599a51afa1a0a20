import YohdaOS.Ahci.Rebase
import YohdaOS.Lib.Drive

/-!
# The disk behind the controller

The controller fetches a command from the memory of its port and moves the sectors that the FIS names
along the scatter list.  Runs of the driver are then runs of a drive that moves, of each call, the
sectors that the FIS names.
-/

namespace YohdaOS.Ahci

open ByteMem Drive

/-- The controller with its drive. -/
structure AhciSys where
  hba : AhciHba
  disk : Mem

def dirKind : Dir → AhciKind
  | .read => kindRead
  | .write => kindWrite

/-! ## The controller -/

/-- The address of byte `j` of the data. -/
def dmaAddr : List PrdtEntry → ℕ → Option ℕ
  | [], _ => none
  | e :: es, j => if j < e.bytes then some (e.addr + j) else dmaAddr es (j - e.bytes)

namespace AhciCmd

variable (cmd : AhciCmd)

def lba : ℕ :=
  cmd.fis.lba0 + 256 * cmd.fis.lba1 + 65536 * cmd.fis.lba2 + 16777216 * cmd.fis.lba3 +
    4294967296 * cmd.fis.lba4 + 1099511627776 * cmd.fis.lba5

/-- The sectors that the FIS asks for, where 0 stands for 65536. -/
def sectors : ℕ :=
  if cmd.fis.countl + 256 * cmd.fis.counth = 0 then 65536
  else cmd.fis.countl + 256 * cmd.fis.counth

/-- A command that transfers in the direction `d`, with room for all of its data. -/
structure Asks (d : Dir) : Prop where
  cfl : cmd.cfl = 5
  fisType : cmd.fis.fisType = 0x27
  c : cmd.fis.c = 1
  device : cmd.fis.device = 1 <<< 6
  command : cmd.fis.command = (dirKind d).command
  w : cmd.w = (dirKind d).w
  room : SECTOR * cmd.sectors ≤ (cmd.prdt.map PrdtEntry.bytes).sum

/-- The byte `x` of the memory is in the scatter list. -/
def Data (x : ℕ) : Prop := ∃ j < SECTOR * cmd.sectors, dmaAddr cmd.prdt j = some x

end AhciCmd

/-- What the controller writes beside the data: a received FIS, and the count of the bytes in the
header. -/
def Own (fb hdr x : ℕ) : Prop := fb ≤ x ∧ x < fb + 256 ∨ hdr + 4 ≤ x ∧ x < hdr + 8

/-- The command has been executed in the direction `d`; `ok` tells if it came to its end without an
error. -/
structure Executed (fb hdr : ℕ) (cmd : AhciCmd) (m disk : Mem) (ok : Bool) (m' disk' : Mem) (d : Dir) :
    Prop where
  memKept : ∀ x, ¬(d = .read ∧ cmd.Data x) → ¬Own fb hdr x → m'.byte x = m.byte x
  diskKept : ∀ y, ¬(d = .write ∧ SECTOR * cmd.lba ≤ y ∧ y < SECTOR * (cmd.lba + cmd.sectors)) →
    disk'.byte y = disk.byte y
  read : d = .read → ok = true → ∀ j < SECTOR * cmd.sectors, ∀ x, dmaAddr cmd.prdt j = some x →
    m'.byte x = disk.byte (SECTOR * cmd.lba + j)
  write : d = .write → ok = true → ∀ j < SECTOR * cmd.sectors, ∀ x, dmaAddr cmd.prdt j = some x →
    disk'.byte (SECTOR * cmd.lba + j) = m.byte x

/-- What the controller does with the command in a slot.  A command that asks for no transfer may do
anything. -/
def Executes (fb clb slot : ℕ) (m disk : Mem) (ok : Bool) (m' disk' : Mem) : Prop :=
  ∀ d, (getCmd m clb slot).Asks d →
    Executed fb (clb + cmdHeaderSize * slot) (getCmd m clb slot) m disk ok m' disk' d

/-! ## The driver -/

/-- The memory of all ports, and what a `memset` may clear behind it. -/
def InArea (x : ℕ) : Prop := AHCI_BASE ≤ x ∧ x < AHCI_BASE + 40960 + 8192 * 32 + 112

/-- The sectors that a call for `count` sectors moves. -/
def moved (count : ℕ) : ℕ := (count - 1) % 16 + 1

/-- What a call makes the drive do. -/
def short : Event → Event
  | .transfer d lba count buf ok => .transfer d lba (moved count) buf ok
  | .refuse => .refuse
  | .store a v => .store a v

/-- The buffer of a call is apart from the memory of the ports. -/
structure CallOk (startLba count buf : ℕ) : Prop where
  lba : startLba < 281474976710656
  pos : 1 ≤ count
  le : count ≤ 128
  addr : buf + SECTOR * count ≤ 4294967296
  apart : ∀ x, buf ≤ x → x < buf + SECTOR * count → ¬InArea x

/-- A call of `_ahci_read` or `_ahci_write` for the active port that returns, labelled with the
sectors it was asked for, and a store of the program. -/
inductive AhciStep (s : AhciSys) : Event → AhciSys → Prop
  | refused (d : Dir) (p : AhciPort) (fuel startLba count buf : ℕ) (r : AhciPort.AhciEnd)
      (hr : p.transfer (dirKind d) fuel startLba count buf = some r) (hcmd : r.cmd = none) :
      AhciStep s .refuse s
  | hung (d : Dir) (p : AhciPort) (fuel startLba count buf : ℕ) (hok : CallOk startLba count buf)
      (r : AhciPort.AhciEnd) (hr : p.transfer (dirKind d) fuel startLba count buf = some r)
      (cmd : AhciCmd) (hcmd : r.cmd = some cmd) (hissued : r.issued = false) :
      AhciStep s .refuse { s with hba := { s.hba with
        mem := putCmd s.hba.mem (s.hba.clb s.hba.activePort) p.ahciFindEmptyCmdSlot.toNat cmd } }
  | issued (d : Dir) (p : AhciPort) (fuel startLba count buf : ℕ) (hok : CallOk startLba count buf)
      (r : AhciPort.AhciEnd) (hr : p.transfer (dirKind d) fuel startLba count buf = some r)
      (cmd : AhciCmd) (hcmd : r.cmd = some cmd) (hissued : r.issued = true) (m disk : Mem)
      (hexec : Executes (s.hba.fb s.hba.activePort) (s.hba.clb s.hba.activePort)
        p.ahciFindEmptyCmdSlot.toNat
        (putCmd s.hba.mem (s.hba.clb s.hba.activePort) p.ahciFindEmptyCmdSlot.toNat cmd) s.disk
        (!r.taskError) m disk) :
      AhciStep s (.transfer d startLba count buf (!r.taskError))
        ⟨{ s.hba with mem := m }, disk⟩
  | store (a v : ℕ) (ha : ¬InArea a) :
      AhciStep s (.store a v) { s with hba := { s.hba with mem := store8 s.hba.mem a v } }

variable {d : Dir} {startLba count buf slot x j : ℕ} {h : AhciHba} {p : AhciPort}
  {r : AhciPort.AhciEnd} {cmd : AhciCmd} {m disk m' disk' : Mem} {ok : Bool}

/-! ## The command that is built -/

theorem dirKind_fits (d : Dir) :
    (dirKind d).w < 2 ∧ (dirKind d).command < 256 ∧ (dirKind d).lastI < 2 := by
  cases d <;> decide

theorem prdtLoop_fits (n count : ℕ) (hbuf : buf < 4294967296) :
    (∀ e ∈ (prdtLoop n buf count).1, e.Fits) ∧ (prdtLoop n buf count).2.1 < 4294967296 := by
  induction n generalizing buf count with
  | zero => exact ⟨fun e he => absurd he List.not_mem_nil, hbuf⟩
  | succ n ih =>
    obtain ⟨hrest, hlast⟩ := ih (toU32 (count - 16)) (Nat.mod_lt (buf + 2 * 1024) (by decide))
    refine ⟨fun e he => ?_, hlast⟩
    rcases List.mem_cons.1 he with rfl | he
    · exact ⟨hbuf, Nat.zero_lt_succ _, (by decide : 8191 < 4194304), Nat.one_lt_two⟩
    · exact hrest e he

theorem ahciCmd_fits (d : Dir) (startLba count : ℕ) (hbuf : buf < 4294967296) :
    (ahciCmd (dirKind d) startLba count buf).Fits := by
  obtain ⟨hes, hlast⟩ := prdtLoop_fits (ahciPrdtl count - 1) count hbuf
  obtain ⟨hw, hcommand, hi⟩ := dirKind_fits d
  have hbyte (n : ℕ) : u8 n < 256 := Nat.mod_lt _ (by decide)
  refine ⟨(by decide : 5 < 32), hw, ahciPrdtl_lt count, fun e he => ?_, ?_⟩
  · rcases List.mem_append.1 he with he | he
    · exact hes e he
    · obtain rfl := List.mem_singleton.1 he
      exact ⟨hlast, Nat.zero_lt_succ _, Nat.mod_lt _ (by decide), hi⟩
  · exact ⟨(by decide : 0x27 < 256), Nat.one_lt_two, hcommand, (by decide : 1 <<< 6 < 256), hbyte _,
      hbyte _, hbyte _, hbyte _, hbyte _, hbyte _, hbyte _, hbyte _⟩

section

variable (hok : CallOk startLba count buf)

include hok

theorem CallOk.buf_lt : buf < 4294967296 := by
  have hpos := hok.pos
  have haddr := hok.addr
  rw [SECTOR] at haddr
  omega

theorem CallOk.prdtl : (ahciCmd (dirKind d) startLba count buf).prdtl = (count - 1) / 16 + 1 :=
  ahciPrdtl_eq hok.pos hok.le

theorem CallOk.length : (ahciCmd (dirKind d) startLba count buf).prdtl =
    (ahciCmd (dirKind d) startLba count buf).prdt.length := by
  rw [ahciCmd_prdt_length, hok.prdtl, ahciPrdtl_eq hok.pos hok.le]
  rfl

theorem CallOk.cmd_lba : (ahciCmd (dirKind d) startLba count buf).lba = startLba := fis_lba hok.lba

theorem CallOk.cmd_sectors : (ahciCmd (dirKind d) startLba count buf).sectors = moved count := by
  have hcount := ahciCmd_count (dirKind d) startLba buf hok.pos hok.le
  have hpos := hok.pos
  rw [AhciCmd.sectors, hcount, moved, if_neg (by omega)]
  omega

/-- All of the data is in the first entry. -/
theorem CallOk.first : ∃ e es, (ahciCmd (dirKind d) startLba count buf).prdt = e :: es ∧
    e.addr = buf ∧ SECTOR * moved count ≤ e.bytes := by
  have hpos := hok.pos
  have hprdtl := ahciPrdtl_eq hok.pos hok.le
  by_cases hone : count ≤ 16
  · have hzero : ahciPrdtl count - 1 = 0 := by omega
    refine ⟨⟨buf, 0, lastDbc count, (dirKind d).lastI⟩, [], ?_, rfl, ?_⟩
    · simp only [ahciCmd, hzero]
      rfl
    · have hshift : count <<< 9 = count * 512 := Nat.shiftLeft_eq _ _
      have hbytes : lastDbc count + 1 = 512 * count := by
        rw [lastDbc, hshift, u32, toU32]
        omega
      rw [PrdtEntry.bytes, hbytes, SECTOR, moved]
      omega
  · obtain ⟨n, hn⟩ : ∃ n, ahciPrdtl count - 1 = n + 1 := ⟨ahciPrdtl count - 2, by omega⟩
    refine ⟨⟨buf, 0, 8 * 1024 - 1, 1⟩, (ahciCmd (dirKind d) startLba count buf).prdt.tail, ?_, rfl, ?_⟩
    · simp only [ahciCmd, hn, prdtLoop, List.cons_append, List.tail_cons]
    · change SECTOR * moved count ≤ 8191 + 1
      rw [SECTOR, moved]
      omega

theorem CallOk.dmaAddr (hj : j < SECTOR * moved count) :
    dmaAddr (ahciCmd (dirKind d) startLba count buf).prdt j = some (buf + j) := by
  obtain ⟨e, es, hprdt, haddr, hbytes⟩ := hok.first (d := d)
  rw [hprdt, Ahci.dmaAddr, if_pos (by omega), haddr]

theorem CallOk.asks : (ahciCmd (dirKind d) startLba count buf).Asks d := by
  obtain ⟨e, es, hprdt, -, hbytes⟩ := hok.first (d := d)
  refine ⟨rfl, rfl, rfl, rfl, rfl, rfl, ?_⟩
  rw [hok.cmd_sectors, hprdt, List.map_cons, List.sum_cons]
  omega

theorem CallOk.data_iff : (ahciCmd (dirKind d) startLba count buf).Data x ↔
    buf ≤ x ∧ x < buf + SECTOR * moved count := by
  rw [AhciCmd.Data, hok.cmd_sectors]
  constructor
  · rintro ⟨j, hj, haddr⟩
    rw [hok.dmaAddr hj] at haddr
    have := Option.some.inj haddr
    omega
  · rintro ⟨hlo, hhi⟩
    have hj : x - buf < SECTOR * moved count := by omega
    exact ⟨x - buf, hj, by rw [hok.dmaAddr hj]; congr 1; omega⟩

theorem CallOk.moved_le : moved count ≤ count := by
  have hpos := hok.pos
  rw [moved]
  omega

theorem CallOk.moved_eq (hle : count ≤ 16) : moved count = count := by
  have hpos := hok.pos
  rw [moved]
  omega

/-- No byte of the data is in the memory of the ports. -/
theorem CallOk.not_area (hx : buf ≤ x ∧ x < buf + SECTOR * moved count) : ¬InArea x := by
  have hle := hok.moved_le
  apply hok.apart x hx.1
  rw [SECTOR] at *
  omega

end

/-! ## The slot -/

theorem findSlotLoop_lt {n i slot : ℕ} (h : ¬AhciPort.findSlotLoop n i slot < 0) :
    (AhciPort.findSlotLoop n i slot).toNat < i + n := by
  induction n generalizing i slot with
  | zero => exact absurd (by decide : -EBUSY < 0) h
  | succ n ih =>
    rw [AhciPort.findSlotLoop] at h ⊢
    split_ifs at h ⊢ with hbit
    · rw [Int.toNat_natCast]
      omega
    · have := ih h
      omega

theorem waitLoop_cmd {fuel k : ℕ} (hr : p.waitLoop cmd slot fuel k = some r) : r.cmd = some cmd := by
  induction fuel generalizing k with
  | zero => cases hr
  | succ fuel ih =>
    rw [AhciPort.waitLoop] at hr
    by_cases hpending : p.Pending slot k
    · rw [if_neg (not_not.2 hpending)] at hr
      split_ifs at hr
      · obtain rfl := Option.some.inj hr
        rfl
      · exact ih hr
    · rw [if_pos hpending] at hr
      split_ifs at hr
      · obtain rfl := Option.some.inj hr
        rfl
      · obtain rfl := Option.some.inj hr
        rfl

theorem slot_lt (h : ¬p.ahciFindEmptyCmdSlot < 0) : p.ahciFindEmptyCmdSlot.toNat < 32 := by
  have hncs : p.ncs < 32 := Nat.mod_lt _ (by decide)
  rw [AhciPort.ahciFindEmptyCmdSlot_eq] at h ⊢
  have := findSlotLoop_lt h
  omega

/-- A command has been built for a slot. -/
theorem transfer_cmd {kind : AhciKind} {fuel : ℕ} (hr : p.transfer kind fuel startLba count buf = some r)
    (hcmd : r.cmd = some cmd) :
    p.ahciFindEmptyCmdSlot.toNat < 32 ∧ cmd = ahciCmd kind startLba count buf := by
  rw [AhciPort.transfer] at hr
  by_cases hslot : p.ahciFindEmptyCmdSlot < 0
  · rw [if_pos hslot] at hr
    obtain rfl := Option.some.inj hr
    cases hcmd
  · rw [if_neg hslot] at hr
    refine ⟨slot_lt hslot, ?_⟩
    simp only at hr
    split_ifs at hr
    · obtain rfl := Option.some.inj hr
      exact (Option.some.inj hcmd).symm
    · rw [waitLoop_cmd hr] at hcmd
      exact (Option.some.inj hcmd).symm

/-! ## The memory of the ports -/

namespace AhciHba

/-- The active port has its areas. -/
structure Ready (h : AhciHba) : Prop where
  port : h.activePort < 32
  laid : h.Laid h.activePort

/-- The words with which the headers of the active port name their tables. -/
def Names (h : AhciHba) (x : ℕ) : Prop := ∃ i < 32, h.clb h.activePort + cmdHeaderSize * i + 8 ≤ x ∧
  x < h.clb h.activePort + cmdHeaderSize * i + 16

theorem Ready.of_names (hr : h.Ready) (hm : ∀ x, h.Names x → m.byte x = h.mem.byte x) :
    ({ h with mem := m } : AhciHba).Ready := by
  refine ⟨hr.port, hr.laid.clb, hr.laid.fb, fun i hi => ?_⟩
  rw [← hr.laid.table i hi]
  exact load64_congr fun x hx hx' => hm x ⟨i, hi, hx, by omega⟩

section

variable (hr : h.Ready) (hslot : slot < 32)

include hr

theorem Ready.names_area (hx : h.Names x) : InArea x := by
  obtain ⟨i, hi, hlo, hhi⟩ := hx
  have hport := hr.port
  rw [hr.laid.clb, cmdHeaderSize] at hlo hhi
  rw [InArea]
  omega

include hslot

/-- A command is written inside the area, and not where the tables are named. -/
theorem Ready.byte_putCmd (hok : CallOk startLba count buf) (hx : ¬InArea x ∨ h.Names x) :
    (putCmd h.mem (h.clb h.activePort) slot (ahciCmd (dirKind d) startLba count buf)).byte x =
      h.mem.byte x := by
  have hport := hr.port
  have htable := hr.laid.table slot hslot
  have hclb := hr.laid.clb
  have hprdtl := hok.prdtl (d := d)
  have hpos := hok.pos
  have hle := hok.le
  have hlt : ctba h.activePort slot < 4294967296 := by
    rw [ctba_eq, AHCI_BASE]
    omega
  apply Ahci.byte_putCmd hok.length (by omega) (by omega) htable hlt
  · rcases hx with hx | ⟨i, hi, hlo, hhi⟩
    · rw [hclb, cmdHeaderSize]
      rw [InArea] at hx
      omega
    · rw [cmdHeaderSize] at *
      omega
  · rw [hprdtl, ctba_eq, cmdTblSize, prdtEntrySize, AHCI_HBA_MAX_PRDT_NUM]
    rcases hx with hx | ⟨i, hi, hlo, hhi⟩
    · rw [InArea] at hx
      omega
    · rw [hclb, cmdHeaderSize] at hhi
      omega

theorem Ready.getCmd (hok : CallOk startLba count buf) :
    getCmd (putCmd h.mem (h.clb h.activePort) slot (ahciCmd (dirKind d) startLba count buf))
      (h.clb h.activePort) slot = ahciCmd (dirKind d) startLba count buf := by
  have hport := hr.port
  have hprdtl := hok.prdtl (d := d)
  have hpos := hok.pos
  have hle := hok.le
  have hlt : ctba h.activePort slot < 4294967296 := by
    rw [ctba_eq, AHCI_BASE]
    omega
  apply getCmd_putCmd hok.length (by omega) (by omega) (hr.laid.table slot hslot) hlt
    (ahciCmd_fits d startLba count hok.buf_lt)
  rw [hr.laid.clb, ctba_eq, cmdHeaderSize]
  omega

/-- What the controller writes for itself is inside the area, and not where the tables are named. -/
theorem Ready.not_own (hx : ¬InArea x ∨ h.Names x) :
    ¬Own (h.fb h.activePort) (h.clb h.activePort + cmdHeaderSize * slot) x := by
  have hport := hr.port
  rw [Own, hr.laid.fb, hr.laid.clb, cmdHeaderSize]
  rcases hx with hx | ⟨i, hi, hlo, hhi⟩
  · rw [InArea] at hx
    omega
  · rw [hr.laid.clb, cmdHeaderSize] at hlo hhi
    omega

end

end AhciHba

/-! ## One call -/

/-- The memory outside the ports and the disk are those of the drive. -/
structure Shows (s : AhciSys) (a : State) : Prop where
  ready : s.hba.Ready
  mem : ∀ x, ¬InArea x → s.hba.mem.byte x = a.mem.byte x
  disk : s.disk = a.disk

variable {s s' : AhciSys} {a a' : State} {e : Event} {tr : List Event}

/-- A command that is written and not issued. -/
theorem Shows.put (hs : Shows s a) (hslot : slot < 32) (hok : CallOk startLba count buf) :
    Shows { s with hba := { s.hba with
      mem := putCmd s.hba.mem (s.hba.clb s.hba.activePort) slot (ahciCmd (dirKind d) startLba count buf) } }
      a := by
  refine ⟨hs.ready.of_names fun x hx => ?_, fun x hx => ?_, hs.disk⟩
  · exact hs.ready.byte_putCmd hslot hok (Or.inr hx)
  · exact (hs.ready.byte_putCmd hslot hok (Or.inl hx)).trans (hs.mem x hx)

/-- A command that is issued is a transfer of the drive. -/
theorem Shows.transfer (hs : Shows s a) (hslot : slot < 32) (hcall : CallOk startLba count buf)
    (hexec : Executes (s.hba.fb s.hba.activePort) (s.hba.clb s.hba.activePort) slot
      (putCmd s.hba.mem (s.hba.clb s.hba.activePort) slot (ahciCmd (dirKind d) startLba count buf))
      s.disk ok m disk) :
    ∃ a', Step a (.transfer d startLba (moved count) buf ok) a' ∧
      Shows ⟨{ s.hba with mem := m }, disk⟩ a' := by
  have hx := hexec d (by rw [hs.ready.getCmd hslot hcall]; exact hcall.asks)
  rw [hs.ready.getCmd hslot hcall] at hx
  have hmul : SECTOR * (startLba + moved count) = SECTOR * startLba + SECTOR * moved count :=
    Nat.mul_add _ _ _
  -- what is neither data nor the controller's own is as before the call
  have hkept (x : ℕ) (harea : ¬InArea x ∨ s.hba.Names x)
      (hdata : ¬(d = .read ∧ buf ≤ x ∧ x < buf + SECTOR * moved count)) :
      m.byte x = s.hba.mem.byte x := by
    rw [hx.memKept x (by rwa [hcall.data_iff]) (hs.ready.not_own hslot harea)]
    exact hs.ready.byte_putCmd hslot hcall harea
  have hready : ({ s.hba with mem := m } : AhciHba).Ready := by
    refine hs.ready.of_names fun x hnames => hkept x (Or.inr hnames) ?_
    rintro ⟨-, hin⟩
    exact hcall.not_area hin (hs.ready.names_area hnames)
  have hdisk (y : ℕ) (hy : ¬(d = .write ∧ SECTOR * startLba ≤ y ∧
      y < SECTOR * startLba + SECTOR * moved count)) : disk.byte y = a.disk.byte y := by
    rw [hx.diskKept y (by rwa [hcall.cmd_lba, hcall.cmd_sectors, hmul]), hs.disk]
  have hread := hx.read
  have hwrite := hx.write
  rw [hcall.cmd_sectors, hcall.cmd_lba] at hread hwrite
  cases d with
  | read =>
    have hsame : disk = a.disk := Mem.ext (funext fun y => hdisk y fun hy => nomatch hy.1)
    cases ok with
    | true =>
      refine ⟨_, .read startLba (moved count) buf, hready, fun x hout => ?_, hsame⟩
      by_cases hin : buf ≤ x ∧ x < buf + SECTOR * moved count
      · obtain ⟨j, rfl⟩ := Nat.exists_eq_add_of_le hin.1
        have hj : j < SECTOR * moved count := by omega
        rw [byte_copy hj, hread rfl rfl j hj _ (hcall.dmaAddr hj), hs.disk]
      · rw [byte_copy_of_not hin, hkept x (Or.inl hout) fun h => hin h.2, hs.mem x hout]
    | false =>
      refine ⟨_, .readFailed startLba (moved count) buf (copy m buf a.mem buf (SECTOR * moved count))
        (frame_copy _ _ _ _ _), hready, fun x hout => ?_, hsame⟩
      by_cases hin : buf ≤ x ∧ x < buf + SECTOR * moved count
      · obtain ⟨j, rfl⟩ := Nat.exists_eq_add_of_le hin.1
        rw [byte_copy (by omega)]
      · rw [byte_copy_of_not hin, hkept x (Or.inl hout) fun h => hin h.2, hs.mem x hout]
  | write =>
    have hmem (x : ℕ) (hout : ¬InArea x) : m.byte x = a.mem.byte x := by
      rw [hkept x (Or.inl hout) (fun h => nomatch h.1), hs.mem x hout]
    cases ok with
    | true =>
      refine ⟨_, .write startLba (moved count) buf, hready, hmem, Mem.ext (funext fun y => ?_)⟩
      by_cases hin : SECTOR * startLba ≤ y ∧ y < SECTOR * startLba + SECTOR * moved count
      · obtain ⟨j, rfl⟩ := Nat.exists_eq_add_of_le hin.1
        have hj : j < SECTOR * moved count := by omega
        have hout : ¬InArea (buf + j) := hcall.not_area ⟨by omega, by omega⟩
        rw [byte_copy hj, hwrite rfl rfl j hj _ (hcall.dmaAddr hj),
          hs.ready.byte_putCmd hslot hcall (Or.inl hout), hs.mem _ hout]
      · rw [byte_copy_of_not hin, hdisk y fun h => hin h.2]
    | false =>
      refine ⟨_, .writeFailed startLba (moved count) buf disk fun y hy => hdisk y ?_, hready, hmem, rfl⟩
      rintro ⟨-, hlo, hhi⟩
      omega

theorem Shows.store (hs : Shows s a) {b v : ℕ} (hb : ¬InArea b) :
    Shows { s with hba := { s.hba with mem := store8 s.hba.mem b v } }
      { a with mem := store8 a.mem b v } := by
  refine ⟨hs.ready.of_names fun x hx => byte_store8_of_ne _ _ ?_, fun x hx => ?_, hs.disk⟩
  · rintro rfl
    exact hb (hs.ready.names_area hx)
  · by_cases hxb : x = b
    · rw [hxb, byte_store8_self, byte_store8_self]
    · rw [byte_store8_of_ne _ _ hxb, byte_store8_of_ne _ _ hxb, hs.mem x hx]

theorem Shows.step (hs : Shows s a) (hstep : AhciStep s e s') :
    ∃ a', Step a (short e) a' ∧ Shows s' a' := by
  cases hstep with
  | refused => exact ⟨a, .refuse, hs⟩
  | hung d p fuel startLba count buf hok r hr cmd hcmd hissued =>
    obtain ⟨hslot, rfl⟩ := transfer_cmd hr hcmd
    exact ⟨a, .refuse, hs.put hslot hok⟩
  | issued d p fuel startLba count buf hok r hr cmd hcmd hissued m disk hexec =>
    obtain ⟨hslot, rfl⟩ := transfer_cmd hr hcmd
    exact hs.transfer hslot hok hexec
  | store b v hb => exact ⟨_, .store b v, hs.store hb⟩

theorem Shows.trace (hs : Shows s a) (htr : Runs.Trace AhciStep s tr s') :
    ∃ a', Runs.Trace Step a (tr.map short) a' ∧ Shows s' a' :=
  Runs.trace_map_sim (fun _ _ _ _ hs hstep => hs.step hstep) htr hs

theorem AhciStep.callOk (hstep : AhciStep s (.transfer d startLba count buf ok) s') :
    CallOk startLba count buf := by
  generalize he : Event.transfer d startLba count buf ok = e at hstep
  cases hstep with
  | refused => cases he
  | hung => cases he
  | issued d p fuel startLba count buf hcall =>
    cases he
    exact hcall
  | store => cases he

/-- What a call has moved to the disk is read back, as long as no other one writes to those
sectors. -/
theorem Shows.read_back {s₁ s₂ s₃ s₄ : AhciSys} (hs : Shows s₁ a) {buf' : ℕ}
    (hwrite : AhciStep s₁ (.transfer .write startLba count buf true) s₂)
    (htr : Runs.Trace AhciStep s₂ tr s₃) (hspares : ∀ e ∈ tr, (short e).Spares startLba (moved count))
    (hread : AhciStep s₃ (.transfer .read startLba count buf' true) s₄)
    (hj : j < SECTOR * moved count) : s₄.hba.mem.byte (buf' + j) = s₁.hba.mem.byte (buf + j) := by
  obtain ⟨a₂, hwrite', hs₂⟩ := hs.step hwrite
  obtain ⟨a₃, htr', hs₃⟩ := hs₂.trace htr
  obtain ⟨a₄, hread', hs₄⟩ := hs₃.step hread
  have hmapped : ∀ e ∈ tr.map short, e.Spares startLba (moved count) := by
    intro e he
    obtain ⟨e', he', rfl⟩ := List.mem_map.1 he
    exact hspares e' he'
  rw [hs₄.mem _ (hread.callOk.not_area ⟨by omega, by omega⟩),
    hs.mem _ (hwrite.callOk.not_area ⟨by omega, by omega⟩)]
  exact Drive.read_back hwrite' htr' hmapped hread' hj

/-! ## A port that is ready at once -/

/-- No command is running, and none fails. -/
def idlePort : AhciPort := ⟨0x1f00, 0, fun _ => 0, fun _ => 0, fun _ => 0⟩

theorem transfer_idle (kind : AhciKind) (startLba count buf : ℕ) :
    idlePort.transfer kind 1 startLba count buf =
      some ⟨0, some (ahciCmd kind startLba count buf), true, true, false⟩ := by
  have hspin : ¬idlePort.spinLoop SPIN_MAX 0 = SPIN_MAX := by
    intro hhung
    have hbusy := (AhciPort.spinLoop_eq_iff SPIN_MAX 0).1 (hhung.trans (Nat.zero_add _).symm)
    exact absurd (hbusy 0 (by decide)) (by decide)
  have hslot : ¬idlePort.ahciFindEmptyCmdSlot < 0 := by decide
  rw [AhciPort.transfer, if_neg hslot]
  simp only
  rw [if_neg hspin, AhciPort.waitLoop, if_pos (by decide), if_neg (by decide)]

theorem dir_eq_of_asks {d' : Dir} (h : (ahciCmd (dirKind d) startLba count buf).Asks d') : d' = d := by
  have hw : (dirKind d).w = (dirKind d').w := h.w
  cases d <;> cases d'
  · rfl
  · exact absurd hw Nat.zero_ne_one
  · exact absurd hw Nat.one_ne_zero
  · rfl

/-- A controller that does what it is asked for. -/
theorem exists_transfer (hready : s.hba.Ready) (hcall : CallOk startLba count buf) (d : Dir) :
    ∃ s', AhciStep s (.transfer d startLba count buf true) s' := by
  have hslot : idlePort.ahciFindEmptyCmdSlot.toNat < 32 := by decide
  have hget := hready.getCmd (d := d) hslot hcall
  have hstep (m disk : Mem) (hexec : Executed (s.hba.fb s.hba.activePort)
      (s.hba.clb s.hba.activePort + cmdHeaderSize * idlePort.ahciFindEmptyCmdSlot.toNat)
      (ahciCmd (dirKind d) startLba count buf) (putCmd s.hba.mem (s.hba.clb s.hba.activePort)
        idlePort.ahciFindEmptyCmdSlot.toNat (ahciCmd (dirKind d) startLba count buf)) s.disk true m
      disk d) : AhciStep s (.transfer d startLba count buf true)
      ⟨{ s.hba with mem := m }, disk⟩ := by
    refine .issued d idlePort 1 startLba count buf hcall _ (transfer_idle _ _ _ _) _ rfl rfl m disk ?_
    intro d' hasks
    rw [hget] at hasks ⊢
    obtain rfl := dir_eq_of_asks hasks
    exact hexec
  generalize putCmd s.hba.mem (s.hba.clb s.hba.activePort) idlePort.ahciFindEmptyCmdSlot.toNat
    (ahciCmd (dirKind d) startLba count buf) = m₁ at hstep
  have haddr {j x : ℕ} (hj : j < SECTOR * (ahciCmd (dirKind d) startLba count buf).sectors)
      (hx : dmaAddr (ahciCmd (dirKind d) startLba count buf).prdt j = some x) :
      buf + j = x ∧ j < SECTOR * moved count := by
    rw [hcall.cmd_sectors] at hj
    rw [hcall.dmaAddr hj] at hx
    exact ⟨Option.some.inj hx, hj⟩
  cases d with
  | read =>
    refine ⟨_, hstep (copy s.disk (SECTOR * startLba) m₁ buf (SECTOR * moved count)) s.disk
      ⟨fun x hx _ => ?_, fun _ _ => rfl, fun _ _ j hj x hx => ?_, fun h => nomatch h⟩⟩
    · rw [hcall.data_iff] at hx
      exact byte_copy_of_not fun h => hx ⟨rfl, h⟩
    · obtain ⟨rfl, hlt⟩ := haddr hj hx
      rw [byte_copy hlt, hcall.cmd_lba]
  | write =>
    refine ⟨_, hstep m₁ (copy m₁ buf s.disk (SECTOR * startLba) (SECTOR * moved count))
      ⟨fun _ _ _ => rfl, fun y hy => ?_, (fun h => nomatch h), fun _ _ j hj x hx => ?_⟩⟩
    · rw [hcall.cmd_lba, hcall.cmd_sectors, Nat.mul_add] at hy
      exact byte_copy_of_not fun h => hy ⟨rfl, h⟩
    · obtain ⟨rfl, hlt⟩ := haddr hj hx
      rw [hcall.cmd_lba, byte_copy hlt]

/-! ## From ahci_init on -/

/-- The state behind `ahci_init`. -/
def ahciStart (pi : ℕ) (ssts sig : ℕ → ℕ) (h : AhciHba) (disk : Mem) : AhciSys :=
  ⟨ahciInit pi ssts sig h, disk⟩

theorem shows_start {pi : ℕ} {ssts sig : ℕ → ℕ} (h : AhciHba) (disk : Mem)
    (hdrive : ∃ i < 32, HasDrive pi ssts sig i) :
    Shows (ahciStart pi ssts sig h disk) ⟨(ahciInit pi ssts sig h).mem, disk⟩ := by
  obtain ⟨hport, hlaid⟩ := laid_ahciInit h hdrive
  exact ⟨⟨hport, hlaid⟩, fun _ _ => rfl, rfl⟩

/-- After `ahci_init` with a drive on some port, whatever the registers are read as and whichever of
the commands fail: every run of the driver is one of a drive, in which each call for `count` sectors
moves `moved count` of them.  The disk is that of the drive, and so is the memory outside the
ports. -/
theorem ahci_refines_drive (pi : ℕ) (ssts sig : ℕ → ℕ) (h : AhciHba) (disk : Mem)
    (hdrive : ∃ i < 32, HasDrive pi ssts sig i) (tr : List Event) (s : AhciSys)
    (htr : Runs.Trace AhciStep (ahciStart pi ssts sig h disk) tr s) :
    ∃ a, Runs.Trace Step ⟨(ahciInit pi ssts sig h).mem, disk⟩ (tr.map short) a ∧ s.disk = a.disk ∧
      ∀ x, ¬InArea x → s.hba.mem.byte x = a.mem.byte x := by
  obtain ⟨a, ha, hs⟩ := (shows_start h disk hdrive).trace htr
  exact ⟨a, ha, hs.disk, hs.mem⟩

/-- The registers of the ports before `ahci_init`. -/
def blankHba (mem : Mem) : AhciHba := ⟨mem, fun _ => 0, fun _ => 0, fun _ => 0, fun _ => 0, 0⟩

/-- A drive on the first port. -/
theorem hasDrive_one : ∃ i < 32, HasDrive 1 (fun _ => 0x113) (fun _ => 0x101) i :=
  ⟨0, by decide, by decide, by decide⟩

theorem callOk_low (hlba : startLba < 281474976710656) (hpos : 1 ≤ count) (hle : count ≤ 128)
    (hbuf : buf ≤ 0x300000) : CallOk startLba count buf := by
  refine ⟨hlba, hpos, hle, ?_, fun x _ hx => ?_⟩
  · rw [SECTOR]
    omega
  · rw [InArea, AHCI_BASE]
    rw [SECTOR] at hx
    omega

/-- A sector is read to 1 MiB, and then 18 sectors are written from there, of which the drive gets
two. -/
theorem ahci_refines_drive_sectors : ∃ (s : AhciSys) (a : State), Runs.Trace Step
    ⟨(ahciInit 1 (fun _ => 0x113) (fun _ => 0x101) (blankHba ⟨fun _ => 0⟩)).mem, ⟨fun _ => 0x5A⟩⟩
      [.transfer .read 7 1 0x100000 true, .transfer .write 9 2 0x100000 true] a ∧
    s.disk = a.disk ∧ ∀ x, ¬InArea x → s.hba.mem.byte x = a.mem.byte x := by
  have hs := shows_start (blankHba ⟨fun _ => 0⟩) ⟨fun _ => 0x5A⟩ hasDrive_one
  obtain ⟨s₁, hread⟩ := exists_transfer hs.ready (callOk_low (by decide : 7 < 281474976710656)
    (by decide : 1 ≤ 1) (by decide) (by decide : 0x100000 ≤ 0x300000)) .read
  obtain ⟨a₁, -, hs₁⟩ := hs.step hread
  obtain ⟨s₂, hwrite⟩ := exists_transfer hs₁.ready (callOk_low (by decide : 9 < 281474976710656)
    (by decide : 1 ≤ 18) (by decide) (by decide : 0x100000 ≤ 0x300000)) .write
  obtain ⟨a₂, ha₂⟩ := ahci_refines_drive 1 (fun _ => 0x113) (fun _ => 0x101) (blankHba ⟨fun _ => 0⟩) _
    hasDrive_one _ _ (.cons hread (.cons hwrite (.nil s₂)))
  exact ⟨s₂, a₂, ha₂⟩

end YohdaOS.Ahci

import YohdaOS.Ahci.Slots
import YohdaOS.Lib.Memory

/-!
# The command in memory

`_ahci_read` and `_ahci_write` put the header of a command into the command list of the port, its FIS
and its scatter list into the table of the slot.  The controller reads all of it back from there.
-/

namespace YohdaOS.Ahci

open ByteMem

/-- `sizeof(struct ahci_hba_cmd_header)` -/
def cmdHeaderSize : ℕ := 32

/-- The offset of `prdt_entry` in `struct ahci_hba_cmd_tbl`. -/
def offsetPrdt : ℕ := 64 + 16 + 48

/-- A bit field of `len` bits from bit `lo` on. -/
def bits (w lo len : ℕ) : ℕ := w / 2 ^ lo % 2 ^ len

def setBits (w lo len v : ℕ) : ℕ :=
  w / 2 ^ (lo + len) * 2 ^ (lo + len) + v % 2 ^ len * 2 ^ lo + w % 2 ^ lo

/-- The table that the header at `hdr` names.  The upper word is shifted out of its 32 bits. -/
def cmdTbl (m : Mem) (hdr : ℕ) : ℕ := u32 (load32 m (hdr + 12) <<< 32) ||| load32 m (hdr + 8)

/-! ## What the driver stores -/

/-- The fields `cfl`, `w` and `prdtl`. -/
def putHeader (m : Mem) (hdr : ℕ) (cmd : AhciCmd) : Mem :=
  let m := store8 m hdr (setBits (load8 m hdr) 0 5 cmd.cfl)
  let m := store8 m hdr (setBits (load8 m hdr) 6 1 cmd.w)
  store16 m (hdr + 2) cmd.prdtl

/-- An entry; where its interrupt bit is not asked for, it is left as it is. -/
def putEntry (m : Mem) (a : ℕ) (e : PrdtEntry) : Mem :=
  let m := store32 m a e.dba
  let m := store32 m (a + 4) e.dbau
  let m := store32 m (a + 12) (setBits (load32 m (a + 12)) 0 22 e.dbc)
  if e.i = 0 then m else store32 m (a + 12) (setBits (load32 m (a + 12)) 31 1 e.i)

def putEntries (m : Mem) (a : ℕ) : List PrdtEntry → Mem
  | [] => m
  | e :: es => putEntries (putEntry m a e) (a + prdtEntrySize) es

def putFis (m : Mem) (tbl : ℕ) (fis : FisRegH2d) : Mem :=
  let m := store8 m tbl fis.fisType
  let m := store8 m (tbl + 1) (setBits (load8 m (tbl + 1)) 7 1 fis.c)
  let m := store8 m (tbl + 7) fis.device
  let m := store8 m (tbl + 2) fis.command
  let m := store8 m (tbl + 4) fis.lba0
  let m := store8 m (tbl + 5) fis.lba1
  let m := store8 m (tbl + 6) fis.lba2
  let m := store8 m (tbl + 8) fis.lba3
  let m := store8 m (tbl + 9) fis.lba4
  let m := store8 m (tbl + 10) fis.lba5
  let m := store8 m (tbl + 12) fis.countl
  store8 m (tbl + 13) fis.counth

/-- The command in the slot of the command list at `clb`. -/
def putCmd (m : Mem) (clb slot : ℕ) (cmd : AhciCmd) : Mem :=
  let hdr := clb + cmdHeaderSize * slot
  let m := putHeader m hdr cmd
  let tbl := cmdTbl m hdr
  let m := fill m tbl 0 cmd.memsetCnt
  let m := putEntries m (tbl + offsetPrdt) cmd.prdt
  putFis m tbl cmd.fis

/-! ## What the controller reads -/

def getEntry (m : Mem) (a : ℕ) : PrdtEntry :=
  ⟨load32 m a, load32 m (a + 4), bits (load32 m (a + 12)) 0 22, bits (load32 m (a + 12)) 31 1⟩

def getEntries (m : Mem) (a : ℕ) : ℕ → List PrdtEntry
  | 0 => []
  | n + 1 => getEntry m a :: getEntries m (a + prdtEntrySize) n

def getFis (m : Mem) (tbl : ℕ) : FisRegH2d where
  fisType := load8 m tbl
  c := bits (load8 m (tbl + 1)) 7 1
  command := load8 m (tbl + 2)
  device := load8 m (tbl + 7)
  lba0 := load8 m (tbl + 4)
  lba1 := load8 m (tbl + 5)
  lba2 := load8 m (tbl + 6)
  lba3 := load8 m (tbl + 8)
  lba4 := load8 m (tbl + 9)
  lba5 := load8 m (tbl + 10)
  countl := load8 m (tbl + 12)
  counth := load8 m (tbl + 13)

/-- The command in the slot, as the controller reads it. -/
def getCmd (m : Mem) (clb slot : ℕ) : AhciCmd :=
  let hdr := clb + cmdHeaderSize * slot
  let tbl := load64 m (hdr + 8)
  { cfl := bits (load8 m hdr) 0 5
    w := bits (load8 m hdr) 6 1
    prdtl := load16 m (hdr + 2)
    prdt := getEntries m (tbl + offsetPrdt) (load16 m (hdr + 2))
    fis := getFis m tbl }

/-! ## The fields have room -/

structure PrdtEntry.Fits (e : PrdtEntry) : Prop where
  dba : e.dba < 4294967296
  dbau : e.dbau < 4294967296
  dbc : e.dbc < 4194304
  i : e.i < 2

structure FisRegH2d.Fits (fis : FisRegH2d) : Prop where
  fisType : fis.fisType < 256
  c : fis.c < 2
  command : fis.command < 256
  device : fis.device < 256
  lba0 : fis.lba0 < 256
  lba1 : fis.lba1 < 256
  lba2 : fis.lba2 < 256
  lba3 : fis.lba3 < 256
  lba4 : fis.lba4 < 256
  lba5 : fis.lba5 < 256
  countl : fis.countl < 256
  counth : fis.counth < 256

structure AhciCmd.Fits (cmd : AhciCmd) : Prop where
  cfl : cmd.cfl < 32
  w : cmd.w < 2
  prdtl : cmd.prdtl < 65536
  prdt : ∀ e ∈ cmd.prdt, e.Fits
  fis : cmd.fis.Fits

variable {m m' : Mem} {a hdr tbl clb slot : ℕ} {e : PrdtEntry} {es : List PrdtEntry} {cmd : AhciCmd}
  {fis : FisRegH2d}

/-! ## One entry -/

theorem frame_putEntry (m : Mem) (a : ℕ) (e : PrdtEntry) : Frame a (a + 16) m (putEntry m a e) := by
  have hdba := (frame_store32 m a e.dba).mono le_rfl (by omega : a + 4 ≤ a + 16)
  have hword (m : Mem) (v : ℕ) : Frame a (a + 16) m (store32 m (a + 12) v) :=
    (frame_store32 m (a + 12) v).mono (by omega) le_rfl
  have hdbau (m : Mem) : Frame a (a + 16) m (store32 m (a + 4) e.dbau) :=
    (frame_store32 m (a + 4) _).mono (by omega) (by omega)
  have hdbc := (hdba.trans (hdbau _)).trans (hword _
    (setBits (load32 (store32 (store32 m a e.dba) (a + 4) e.dbau) (a + 12)) 0 22 e.dbc))
  unfold putEntry
  split_ifs
  · exact hdbc
  · exact hdbc.trans (hword _ _)

/-- The entry is read back, where the word with the interrupt bit was clear. -/
theorem getEntry_putEntry (he : e.Fits) (hclear : load32 m (a + 12) = 0) :
    getEntry (putEntry m a e) a = e := by
  obtain ⟨hdba, hdbau, hdbc, hi⟩ := he
  have hzero : load32 (store32 (store32 m a e.dba) (a + 4) e.dbau) (a + 12) = 0 := by
    rw [load32_store32_of_disjoint _ _ (by omega), load32_store32_of_disjoint _ _ (by omega), hclear]
  have hdbcWord : setBits 0 0 22 e.dbc = e.dbc := by
    simp only [setBits, Nat.zero_add, Nat.reducePow]
    omega
  have hlt : e.dbc < 4294967296 := by omega
  unfold putEntry
  simp only [hzero, hdbcWord]
  by_cases hi0 : e.i = 0
  · rw [if_pos hi0]
    unfold getEntry
    rw [load32_store32 _ _ hlt, load32_store32_of_disjoint _ _ (by omega),
      load32_store32_of_disjoint _ _ (by omega), load32_store32 _ _ hdba,
      load32_store32_of_disjoint _ _ (by omega), load32_store32 _ _ hdbau]
    apply PrdtEntry.mk.injEq _ _ _ _ _ _ _ _ |>.mpr
    refine ⟨rfl, rfl, ?_, ?_⟩
    · simp only [bits, Nat.reducePow]
      omega
    · simp only [bits, Nat.reducePow]
      omega
  · rw [if_neg hi0, load32_store32 _ _ hlt]
    have hone : setBits e.dbc 31 1 e.i = e.dbc + 2147483648 := by
      simp only [setBits, Nat.reduceAdd, Nat.reducePow]
      omega
    rw [hone]
    unfold getEntry
    rw [load32_store32 _ _ (by omega), load32_store32_of_disjoint _ _ (by omega),
      load32_store32_of_disjoint _ _ (by omega), load32_store32_of_disjoint _ _ (by omega),
      load32_store32 _ _ hdba, load32_store32_of_disjoint _ _ (by omega),
      load32_store32_of_disjoint _ _ (by omega), load32_store32 _ _ hdbau]
    apply PrdtEntry.mk.injEq _ _ _ _ _ _ _ _ |>.mpr
    refine ⟨rfl, rfl, ?_, ?_⟩
    · simp only [bits, Nat.reducePow]
      omega
    · simp only [bits, Nat.reducePow]
      omega

/-! ## The scatter list -/

theorem frame_putEntries (m : Mem) (a : ℕ) (es : List PrdtEntry) :
    Frame a (a + prdtEntrySize * es.length) m (putEntries m a es) := by
  induction es generalizing m a with
  | nil => exact Frame.refl _ _ _
  | cons e es ih =>
    rw [List.length_cons, prdtEntrySize] at *
    exact ((frame_putEntry m a e).mono le_rfl (by omega)).trans
      ((ih (putEntry m a e) (a + 16)).mono (by omega) (by omega))

theorem getEntry_congr (h : ∀ x, a ≤ x → x < a + 16 → m'.byte x = m.byte x) :
    getEntry m' a = getEntry m a := by
  have hword (d : ℕ) (hd : d + 4 ≤ 16) : load32 m' (a + d) = load32 m (a + d) :=
    load32_congr fun x hx hx' => h x (by omega) (by omega)
  have hdba := hword 0 (by decide)
  rw [Nat.add_zero] at hdba
  rw [getEntry, getEntry, hdba, hword 4 (by decide), hword 12 (by decide)]

theorem getEntries_congr {n : ℕ}
    (h : ∀ x, a ≤ x → x < a + prdtEntrySize * n → m'.byte x = m.byte x) :
    getEntries m' a n = getEntries m a n := by
  induction n generalizing a with
  | zero => rfl
  | succ n ih =>
    rw [prdtEntrySize] at h ih
    rw [getEntries, getEntries, prdtEntrySize, getEntry_congr fun x hx hx' => h x hx (by omega),
      ih fun x hx hx' => h x (by omega) (by omega)]

/-- The list is read back, where its memory was clear. -/
theorem getEntries_putEntries (hes : ∀ e ∈ es, e.Fits)
    (hclear : ∀ x, a ≤ x → x < a + prdtEntrySize * es.length → m.byte x = 0) :
    getEntries (putEntries m a es) a es.length = es := by
  induction es generalizing m a with
  | nil => rfl
  | cons e es ih =>
    rw [List.length_cons, prdtEntrySize] at hclear
    rw [List.length_cons, getEntries, putEntries]
    have hentry : getEntry (putEntry m a e) a = e := by
      apply getEntry_putEntry (hes e List.mem_cons_self)
      exact load32_eq_zero fun x hx hx' => hclear x (by omega) (by omega)
    have hkeep : getEntry (putEntries (putEntry m a e) (a + prdtEntrySize) es) a = e := by
      refine (getEntry_congr fun x _ hx => ?_).trans hentry
      exact frame_putEntries _ _ _ x (Or.inl hx)
    have hrest := @ih (putEntry m a e) (a + prdtEntrySize)
      (fun e he => hes e (List.mem_cons_of_mem _ he)) fun x hx hx' => by
        rw [prdtEntrySize] at hx hx'
        rw [frame_putEntry m a e x (by omega)]
        exact hclear x (by omega) (by omega)
    rw [hkeep, hrest]

/-! ## The FIS -/

theorem frame_putFis (m : Mem) (tbl : ℕ) (fis : FisRegH2d) : Frame tbl (tbl + 14) m (putFis m tbl fis) := by
  intro x hx
  have hne (m : Mem) (d v : ℕ) (hd : d < 14) : (store8 m (tbl + d) v).byte x = m.byte x :=
    byte_store8_of_ne m v (by omega)
  have h0 (m : Mem) (v : ℕ) : (store8 m tbl v).byte x = m.byte x := hne m 0 v (by decide)
  unfold putFis
  simp only [hne _ _ _ (by decide : 1 < 14), hne _ _ _ (by decide : 2 < 14),
    hne _ _ _ (by decide : 4 < 14), hne _ _ _ (by decide : 5 < 14), hne _ _ _ (by decide : 6 < 14),
    hne _ _ _ (by decide : 7 < 14), hne _ _ _ (by decide : 8 < 14), hne _ _ _ (by decide : 9 < 14),
    hne _ _ _ (by decide : 10 < 14), hne _ _ _ (by decide : 12 < 14),
    hne _ _ _ (by decide : 13 < 14), h0]

/-- The FIS is read back; the bits beside `c` do not matter. -/
theorem getFis_putFis (hfis : fis.Fits) : getFis (putFis m tbl fis) tbl = fis := by
  have hc (w : ℕ) (hw : w < 256) : bits (setBits w 7 1 fis.c % 256) 7 1 = fis.c := by
    have hlt := hfis.c
    simp only [setBits, bits, Nat.reduceAdd, Nat.reducePow]
    omega
  have hbyte := hc _ (load8_lt m (tbl + 1))
  unfold getFis putFis
  simp (disch := omega) only [load8_store8_of_ne, load8_store8, hbyte]
  obtain ⟨h0, -, h2, h3, h4, h5, h6, h7, h8, h9, h10, h11⟩ := hfis
  simp only [Nat.mod_eq_of_lt h0, Nat.mod_eq_of_lt h2, Nat.mod_eq_of_lt h3, Nat.mod_eq_of_lt h4,
    Nat.mod_eq_of_lt h5, Nat.mod_eq_of_lt h6, Nat.mod_eq_of_lt h7, Nat.mod_eq_of_lt h8,
    Nat.mod_eq_of_lt h9, Nat.mod_eq_of_lt h10, Nat.mod_eq_of_lt h11]

/-! ## The header -/

theorem frame_putHeader (m : Mem) (hdr : ℕ) (cmd : AhciCmd) :
    Frame hdr (hdr + 4) m (putHeader m hdr cmd) := by
  have hbyte (m : Mem) (v : ℕ) : Frame hdr (hdr + 4) m (store8 m hdr v) :=
    (frame_store8 m hdr v).mono le_rfl (by omega)
  exact ((hbyte m _).trans (hbyte _ _)).trans ((frame_store16 _ (hdr + 2) _).mono (by omega) le_rfl)

/-- The first byte of the header has `cfl` and `w`, and `prdtl` is behind it. -/
theorem getHeader_putHeader (m : Mem) (hdr : ℕ) (hcfl : cmd.cfl < 32) (hw : cmd.w < 2) (hprdtl : cmd.prdtl < 65536) :
    bits (load8 (putHeader m hdr cmd) hdr) 0 5 = cmd.cfl ∧
      bits (load8 (putHeader m hdr cmd) hdr) 6 1 = cmd.w ∧
      load16 (putHeader m hdr cmd) (hdr + 2) = cmd.prdtl := by
  have hlt := load8_lt m hdr
  unfold putHeader
  refine ⟨?_, ?_, ?_⟩
  · rw [(frame_store16 _ (hdr + 2) _).load8 (by omega), load8_store8, load8_store8]
    simp only [bits, setBits, Nat.reduceAdd, Nat.reducePow]
    omega
  · rw [(frame_store16 _ (hdr + 2) _).load8 (by omega), load8_store8, load8_store8]
    simp only [bits, setBits, Nat.reduceAdd, Nat.reducePow]
    omega
  · rw [load16_store16, Nat.mod_eq_of_lt hprdtl]

/-! ## The command -/

/-- The upper word does not count. -/
theorem cmdTbl_eq (m : Mem) (hdr : ℕ) : cmdTbl m hdr = load32 m (hdr + 8) := by
  have hzero : u32 (load32 m (hdr + 12) <<< 32) = 0 := by
    rw [u32, Nat.shiftLeft_eq]
    exact Nat.mul_mod_left _ _
  rw [cmdTbl, hzero, Nat.zero_or]

/-- One entry clears its table, and each further one its size more. -/
theorem memsetCnt_eq (hpos : 1 ≤ cmd.prdtl) (hle : cmd.prdtl ≤ 8) :
    cmd.memsetCnt = cmdTblSize + prdtEntrySize * (cmd.prdtl - 1) := by
  simp only [AhciCmd.memsetCnt, cmdTblSize, prdtEntrySize, AHCI_HBA_MAX_PRDT_NUM, toU32, toInt]
  omega

section

variable (hprdtl : cmd.prdtl = cmd.prdt.length) (hpos : 1 ≤ cmd.prdtl) (hle : cmd.prdtl ≤ 8)
  (htbl : load64 m (clb + cmdHeaderSize * slot + 8) = tbl) (hlt : tbl < 4294967296)

include htbl hlt in
theorem cmdTbl_putHeader (cmd : AhciCmd) :
    cmdTbl (putHeader m (clb + cmdHeaderSize * slot) cmd) (clb + cmdHeaderSize * slot) = tbl := by
  rw [cmdTbl_eq, (frame_putHeader m _ cmd).load32 (by omega)]
  rw [load64] at htbl
  omega

include hprdtl hpos hle htbl hlt

/-- The bytes that are written for a command: the first word of its header, and what is cleared of
the tables. -/
theorem byte_putCmd {x : ℕ}
    (hx : x < clb + cmdHeaderSize * slot ∨ clb + cmdHeaderSize * slot + 4 ≤ x)
    (hx' : x < tbl ∨ tbl + (cmdTblSize + prdtEntrySize * (cmd.prdtl - 1)) ≤ x) :
    (putCmd m clb slot cmd).byte x = m.byte x := by
  have hname := cmdTbl_putHeader htbl hlt cmd
  have hcnt := memsetCnt_eq hpos hle
  simp only [putCmd, hname]
  simp only [cmdTblSize, prdtEntrySize, AHCI_HBA_MAX_PRDT_NUM, hprdtl] at hx' hcnt hpos hle
  rw [frame_putFis _ _ _ x (by omega),
    frame_putEntries _ _ _ x (by rw [offsetPrdt, prdtEntrySize]; omega),
    frame_fill _ _ _ _ x (by omega), frame_putHeader _ _ _ x hx]

/-- The controller reads the command that the driver has put there. -/
theorem getCmd_putCmd (hfits : cmd.Fits) (hapart : clb + cmdHeaderSize * (slot + 1) ≤ tbl) :
    getCmd (putCmd m clb slot cmd) clb slot = cmd := by
  have hname := cmdTbl_putHeader htbl hlt cmd
  have hcnt := memsetCnt_eq hpos hle
  have hsize : clb + cmdHeaderSize * (slot + 1) = clb + cmdHeaderSize * slot + 32 := by
    rw [Nat.mul_succ, ← Nat.add_assoc, cmdHeaderSize]
  simp only [getCmd, putCmd, hname]
  rw [hsize] at hapart
  generalize clb + cmdHeaderSize * slot = hdr at *
  obtain ⟨hcfl, hw, hbits⟩ := getHeader_putHeader m hdr hfits.cfl hfits.w hfits.prdtl
  have hfill : ∀ x, tbl + offsetPrdt ≤ x → x < tbl + offsetPrdt + prdtEntrySize * cmd.prdt.length →
      (fill (putHeader m hdr cmd) tbl 0 cmd.memsetCnt).byte x = 0 := by
    intro x hx hx'
    apply byte_fill_zero
    · omega
    · simp only [hcnt, offsetPrdt, cmdTblSize, prdtEntrySize, AHCI_HBA_MAX_PRDT_NUM] at hx' ⊢
      omega
  have hframe := frame_putEntries (fill (putHeader m hdr cmd) tbl 0 cmd.memsetCnt)
    (tbl + offsetPrdt) cmd.prdt
  have hprdt := getEntries_putEntries hfits.prdt hfill
  -- the header lies below the table, so that nothing behind `putHeader` reaches it
  have hbelow (x : ℕ) (hx : x < tbl) : (putFis (putEntries
      (fill (putHeader m hdr cmd) tbl 0 cmd.memsetCnt) (tbl + offsetPrdt) cmd.prdt) tbl cmd.fis).byte x =
      (putHeader m hdr cmd).byte x := by
    rw [frame_putFis _ _ _ x (Or.inl hx), hframe x (by omega), frame_fill _ _ _ _ x (Or.inl hx)]
  generalize putEntries (fill (putHeader m hdr cmd) tbl 0 cmd.memsetCnt) (tbl + offsetPrdt) cmd.prdt =
    filled at hbelow hprdt
  have hbyte : load8 (putFis filled tbl cmd.fis) hdr = load8 (putHeader m hdr cmd) hdr := by
    rw [load8, hbelow hdr (by omega), load8]
  have hhalf : load16 (putFis filled tbl cmd.fis) (hdr + 2) = cmd.prdtl := by
    rw [← hbits]
    exact load16_congr fun x _ hx => hbelow x (by omega)
  have hnamed : load64 (putFis filled tbl cmd.fis) (hdr + 8) = tbl := by
    refine (load64_congr fun x hx hx' => ?_).trans htbl
    rw [hbelow x (by omega), frame_putHeader m hdr cmd x (by omega)]
  have hlist : getEntries (putFis filled tbl cmd.fis) (tbl + offsetPrdt) cmd.prdtl = cmd.prdt := by
    rw [hprdtl]
    refine (getEntries_congr fun x hx _ => ?_).trans hprdt
    exact frame_putFis _ _ _ x (by rw [offsetPrdt] at hx; omega)
  rw [hbyte, hcfl, hw, hhalf, hnamed, hlist, getFis_putFis hfits.fis]

end

end YohdaOS.Ahci

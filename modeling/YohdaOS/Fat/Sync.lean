import YohdaOS.Fat.Codec
import YohdaOS.Machine

/-!
# Writing a directory and reading it back

`fat_sync` writes the files of the current directory to the first cluster of the data region, and
`fat_parse_dir` reads a directory from the sector that its own cluster number names.  The disk is the
bytes of its sectors, and a transfer moves `spc` sectors.
-/

namespace YohdaOS.Fat

abbrev Disk := ℕ → Byte

/-- `struct fat_info`: bytes per sector, sectors per cluster, and the first sector of the clusters. -/
structure FatInfo where
  bps : ℕ
  spc : ℕ
  cfs : ℕ

namespace FatInfo

variable (fat : FatInfo)

def ds : ℕ := fat.bps * fat.spc

/-- `ahci_write` of a cluster -/
def write (disk : Disk) (lba : ℕ) (buf : ℕ → Byte) : Disk := fun x =>
  if lba * fat.bps ≤ x ∧ x < (lba + fat.spc) * fat.bps then buf (x - lba * fat.bps) else disk x

/-- The sector at an offset from the clusters. -/
def sector (ost : ℕ) : ℕ := u32 (fat.cfs + ost)

def fatWriteDir (disk : Disk) (ost : ℕ) (buf : ℕ → Byte) : Disk :=
  fat.write disk (fat.sector ost) buf

/-- `fat_read_dir` into a buffer of `fat.ds` bytes. -/
def fatReadDir (disk : Disk) (ost : ℕ) : Buffer :=
  ⟨fun i => disk (fat.sector ost * fat.bps + i), fat.ds⟩

/-- The buffer of `fat_sync`, where `garbage` is what the allocated bytes hold: `memset` clears the
first quarter. -/
def syncBuffer (garbage : ℕ → Byte) : Buffer :=
  ⟨fun i => if i < fat.ds then 0 else garbage i, fat.ds * 4⟩

/-- `fat_sync` where the list of the current directory holds `files`. -/
def fatSync (garbage : ℕ → Byte) (files : List FatFile) (disk : Disk) : Except Fault (ℤ × Disk) := do
  let r ← fatSyncLoop 0 files (fat.syncBuffer garbage)
  .ok (0, fat.fatWriteDir disk 0 r.2.byte)

/-- `fat_parse_dir` on the directory whose first cluster is `clus`: the files it finds. -/
def fatParseDir (disk : Disk) (clus : ℕ) : Except Fault (List FatFile) :=
  fatParseEntry (fat.fatReadDir disk clus) FAT_LFN_MAX_LEN

/-- The sync of the directory at `clus` loses nothing: it stays inside its buffer and returns 0, the
directory read back has the files, and the clusters of the other directories are as they were. -/
def SyncKeeps (clus : ℕ) (others : List ℕ) (files : List FatFile) (garbage : ℕ → Byte)
    (disk : Disk) : Prop :=
  ∃ disk', fat.fatSync garbage files disk = .ok (0, disk') ∧
    (∃ out, fat.fatParseDir disk' clus = .ok out ∧
      out.map FatFile.key = files.map FatFile.key) ∧
    ∀ d ∈ others, ∀ i < fat.ds, (fat.fatReadDir disk' d).byte i = (fat.fatReadDir disk d).byte i

end FatInfo

/-! ## What a decoded name takes -/

section

variable {b : Buffer} {f : FatFile} {name : ℕ → Byte} {ent m n : ℕ} {files : List FatFile}

theorem ne_zero_of_lt_strlenFrom {fuel i : ℕ} (hlo : n ≤ i) (hi : i < strlenFrom name fuel n) :
    name i ≠ 0 := by
  induction fuel generalizing n with
  | zero =>
    rw [strlenFrom] at hi
    omega
  | succ fuel ih =>
    rw [strlenFrom] at hi
    split_ifs at hi with hzero
    · omega
    · rcases eq_or_lt_of_le hlo with rfl | hlt
      · exact hzero
      · exact ih hlt hi

theorem cstr_of_key {g : FatFile} (h : g.key = f.key) : cstr g.name = cstr f.name :=
  congrArg Prod.fst h

theorem fatParseClus_name (file : FatFile) (clus : ℤ) : (fatParseClus file clus).name = file.name := by
  unfold fatParseClus
  split_ifs <;> rfl

theorem fileAt_name (b : Buffer) (ent : ℕ) : (fileAt b ent).name =
    if IsLong (b.byte ent) then lfnName b ent (fatGetOst (b.byte ent)) fun _ => 0
    else fun _ => 0 :=
  fatParseClus_name _ _

/-- An entry that is read as a storable file has as many long entries as the name needs at least, and
the first piece of the name is in the last of them. -/
theorem long_of_key (hf : f.Storable) (hkey : (fileAt b ent).key = f.key) :
    IsLong (b.byte ent) ∧ fatGetLfns (strlen f.name) ≤ fatGetOst (b.byte ent) ∧
      b.byte (ent + (fatGetOst (b.byte ent) - 1) * 32 + 1) ≠ 0 := by
  obtain ⟨hlo, -⟩ := hf.strlen
  have hlen : strlen (fileAt b ent).name = strlen f.name := by
    simpa [cstr] using congrArg List.length (cstr_of_key hkey)
  have hne : ∀ i < strlen f.name, (fileAt b ent).name i ≠ 0 := by
    intro i hi
    rw [← hlen] at hi
    exact ne_zero_of_lt_strlenFrom (Nat.zero_le i) hi
  rw [fileAt_name] at hne
  by_cases hlong : IsLong (b.byte ent)
  · rw [if_pos hlong] at hne
    have hroom : strlen f.name ≤ fatGetOst (b.byte ent) * 13 := by
      by_contra hlt
      apply hne (strlen f.name - 1) (by omega)
      rw [lfnName, if_neg (by omega)]
    refine ⟨hlong, ?_, ?_⟩
    · rw [fatGetLfns, F32_LFN_LEN]
      omega
    · have hfirst := hne 0 (by omega)
      rw [lfnName, if_pos (by omega), Nat.zero_div, Nat.zero_mod, Nat.sub_zero] at hfirst
      exact hfirst
  · rw [if_neg hlong] at hne
    exact absurd rfl (hne 0 (by omega))

/-- A walk that reads the files goes over at least the bytes of their groups; there is a nonzero byte
close to the end of these, and no name needs more than 19 long entries. -/
theorem Walk.span (h : Walk b ent m) (hs : ∀ f ∈ files, f.Storable)
    (hkeys : ((liveStarts b ent m).map (fileAt b)).map FatFile.key = files.map FatFile.key) :
    ent + groupBytes files ≤ (fatNext b)^[m] ent ∧
      (files ≠ [] → ∃ x, ent + groupBytes files < x + 64 ∧ x < b.size ∧ b.byte x ≠ 0) ∧
      ∀ f ∈ files, strlen f.name ≤ 247 := by
  induction m generalizing ent files with
  | zero =>
    cases files with
    | nil => simp [groupBytes]
    | cons => cases hkeys
  | succ m ih =>
    rw [liveStarts_succ] at hkeys
    have hgt := fatNext_gt b ent
    by_cases hfree : fatFree (b.byte ent)
    · rw [if_pos hfree] at hkeys
      obtain ⟨hspan, hbyte, hnames⟩ := ih h.tail hs hkeys
      refine ⟨by rw [Function.iterate_succ_apply]; omega, fun hne => ?_, hnames⟩
      obtain ⟨x, hx, hrest⟩ := hbyte hne
      exact ⟨x, by omega, hrest⟩
    · rw [if_neg hfree] at hkeys
      cases files with
      | nil => cases hkeys
      | cons f files =>
        simp only [List.map_cons, List.cons.injEq] at hkeys
        obtain ⟨hlong, hlfns, hfirst⟩ := long_of_key (hs f List.mem_cons_self) hkeys.1
        obtain ⟨hspan, hbyte, hnames⟩ :=
          ih h.tail (fun g hg => hs g (List.mem_cons_of_mem f hg)) hkeys.2
        have host : fatGetOst (b.byte ent) ≤ 19 := h.fits 0 (by omega) hfree hlong
        have hnext : fatNext b ent = ent + (fatGetOst (b.byte ent) + 1) * 32 := rfl
        have hle := h.tail.le
        rw [groupBytes, FatFile.slots]
        refine ⟨by rw [Function.iterate_succ_apply]; omega, fun _ => ?_, ?_⟩
        · cases files with
          | nil => exact ⟨_, by rw [groupBytes]; omega, by omega, hfirst⟩
          | cons g files =>
            obtain ⟨x, hx, hrest⟩ := hbyte (List.cons_ne_nil g files)
            exact ⟨x, by omega, hrest⟩
        · intro g hg
          rcases List.mem_cons.1 hg with rfl | hg
          · rw [fatGetLfns, F32_LFN_LEN] at hlfns
            omega
          · exact hnames g hg

theorem span_of_parse {cap : ℕ} {out : List FatFile} (h : fatParseEntry b cap = .ok out)
    (hs : ∀ f ∈ files, f.Storable) (hkeys : out.map FatFile.key = files.map FatFile.key) :
    groupBytes files < b.size ∧ files.length ≤ cap ∧
      (files ≠ [] → ∃ x, groupBytes files < x + 64 ∧ x < b.size ∧ b.byte x ≠ 0) ∧
      ∀ f ∈ files, strlen f.name ≤ 247 := by
  obtain ⟨m, hwalk, hcap⟩ := walk_of_parse h (Nat.zero_le _)
  rw [List.length_nil, Nat.zero_add] at hcap
  rw [hwalk.parseEntry hcap, Except.ok.injEq] at h
  subst h
  have hlen := congrArg List.length hkeys
  simp only [List.length_map] at hlen
  obtain ⟨hspan, hbyte, hnames⟩ := hwalk.span hs hkeys
  rw [Nat.zero_add] at hspan hbyte
  exact ⟨lt_of_le_of_lt hspan hwalk.inside, by omega, hbyte, hnames⟩

/-! ## The buffer of fat_sync -/

theorem Buffer.copyEntry_eq_ok {b' : Buffer} {ost : ℕ} {e : Entry}
    (h : b.copyEntry ost e = .ok b') : ost + 32 ≤ b.size ∧ b'.size = b.size := by
  unfold Buffer.copyEntry FAT_ENTRY_SIZE at h
  split_ifs at h with hroom
  exact ⟨hroom, by rw [← Except.ok.inj h]⟩

theorem fatCombLoop_size {lfns : ℕ → Entry} {rde fuel i : ℕ} {b' : Buffer}
    (h : fatCombLoop lfns rde n fuel i b = .ok b') : b'.size = b.size := by
  induction fuel generalizing i b with
  | zero => exact congrArg Buffer.size (Except.ok.inj h).symm
  | succ fuel ih =>
    obtain ⟨b₁, hcopy, hrest⟩ := bind_eq_ok h
    exact (ih hrest).trans (Buffer.copyEntry_eq_ok hcopy).2

theorem fatConvF2e_room {de : ℕ} {r : ℕ × Buffer} (hf : f.Storable)
    (h : fatConvF2e de f b = .ok r) :
    r.1 = f.slots ∧ de + f.slots * 32 ≤ b.size ∧ r.2.size = b.size := by
  obtain ⟨clus, hclus, -, -⟩ := hf.clus
  rw [fatConvF2e_eq hf hclus] at h
  obtain ⟨b₂, hcomb, hr⟩ := bind_eq_ok h
  obtain ⟨b₁, hloop, hlast⟩ := bind_eq_ok hcomb
  obtain ⟨hroom, hsize⟩ := Buffer.copyEntry_eq_ok hlast
  rw [fatCombLoop_size hloop] at hroom hsize
  obtain rfl := Except.ok.inj hr
  refine ⟨rfl, ?_, hsize⟩
  rw [FAT_ENTRY_SIZE] at hroom
  rw [FatFile.slots]
  omega

theorem fatSyncLoop_room {de : ℕ} {r : ℕ × Buffer} (hs : ∀ f ∈ files, f.Storable)
    (h : fatSyncLoop de files b = .ok r) (hde : de ≤ b.size) :
    de + groupBytes files ≤ b.size := by
  induction files generalizing de b with
  | nil => exact hde
  | cons f files ih =>
    obtain ⟨r₁, hconv, hrest⟩ := bind_eq_ok h
    obtain ⟨hslots, hroom, hsize⟩ := fatConvF2e_room (hs f List.mem_cons_self) hconv
    rw [hslots, FAT_ENTRY_SIZE] at hrest
    have hle := ih (fun g hg => hs g (List.mem_cons_of_mem f hg)) hrest (by omega)
    rw [groupBytes]
    omega

end

/-! ## The disk -/

namespace FatInfo

variable {fat : FatInfo} {c : ℕ} {others : List ℕ} {files : List FatFile} {garbage : ℕ → Byte}
  {disk : Disk}

theorem sector_eq {d : ℕ} (h : fat.cfs + d < 4294967296) : fat.sector d = fat.cfs + d := u32_of_lt h

/-- What is read from a cluster after the write. -/
theorem byte_read_write (disk : Disk) (buf : ℕ → Byte) {d : ℕ} (hd : fat.cfs + d < 4294967296) (i : ℕ) :
    (fat.fatReadDir (fat.fatWriteDir disk 0 buf) d).byte i =
      if d * fat.bps + i < fat.ds then buf (d * fat.bps + i) else (fat.fatReadDir disk d).byte i := by
  have hzero : fat.sector 0 = fat.cfs := sector_eq (by omega)
  have hends : (fat.cfs + fat.spc) * fat.bps = fat.cfs * fat.bps + fat.ds := by
    rw [ds]
    ring
  have haddr : (fat.cfs + d) * fat.bps = fat.cfs * fat.bps + d * fat.bps := by ring
  simp only [fatReadDir, fatWriteDir, write, hzero, sector_eq hd, hends, haddr]
  by_cases hin : d * fat.bps + i < fat.ds
  · rw [if_pos hin, if_pos (by omega)]
    congr 1
    omega
  · rw [if_neg hin, if_neg (by omega)]

/-- What the buffer holds when the files are in it. -/
theorem fatSync_eq_ok {r : ℤ × Disk} (hs : ∀ f ∈ files, f.Storable)
    (h : fat.fatSync garbage files disk = .ok r) :
    ∃ b', r.2 = fat.fatWriteDir disk 0 b'.byte ∧
      fatSyncLoop 0 files (fat.syncBuffer garbage) = .ok (groupBytes files, b') ∧
      ∀ x, groupBytes files ≤ x → x < fat.ds → b'.byte x = 0 := by
  obtain ⟨r₁, hloop, hr⟩ := bind_eq_ok h
  have hroom := fatSyncLoop_room hs hloop (Nat.zero_le _)
  obtain ⟨b', hrun, -, -, hkeep⟩ := fatSyncLoop_ok _ _ hs hroom
  rw [hrun, Except.ok.injEq] at hloop
  subst hloop
  rw [Nat.zero_add] at hrun hkeep
  refine ⟨b', congrArg Prod.snd (Except.ok.inj hr).symm, hrun, fun x hx hlt => ?_⟩
  rw [hkeep x (Or.inr hx)]
  exact if_pos hlt

theorem mul_bps_lt (hbps : 0 < fat.bps) {d : ℕ} : d * fat.bps < fat.ds ↔ d < fat.spc := by
  rw [ds, Nat.mul_comm fat.bps]
  exact Nat.mul_lt_mul_right hbps

/-- What the sync of `files` has to be for the directory at `c` to be read back. -/
def Fits (fat : FatInfo) (c : ℕ) (files : List FatFile) : Prop :=
  (files = [] ∧ c < fat.spc) ∨
    (c = 0 ∧ groupBytes files < fat.ds ∧ files.length ≤ FAT_LFN_MAX_LEN ∧
      ∀ f ∈ files, strlen f.name ≤ 247)

/-- A directory whose cluster the write does not reach keeps what it had. -/
theorem read_of_le {buf : ℕ → Byte} (hbps : 0 < fat.bps) {d : ℕ}
    (hd : fat.cfs + d < 4294967296) (hle : fat.spc ≤ d) :
    fat.fatReadDir (fat.fatWriteDir disk 0 buf) d = fat.fatReadDir disk d := by
  have hnot : ¬d * fat.bps < fat.ds := by
    rw [mul_bps_lt hbps]
    omega
  have hbyte (i : ℕ) := byte_read_write disk buf hd i
  simp only [fatReadDir, Buffer.mk.injEq, and_true] at hbyte ⊢
  funext i
  rw [hbyte i, if_neg (by omega)]

theorem SyncKeeps.of_fits (hbps : 64 ≤ fat.bps) (hspc : 0 < fat.spc)
    (hfits : ∀ d ∈ c :: others, fat.cfs + d < 4294967296) (hs : ∀ f ∈ files, f.Storable)
    (hothers : ∀ d ∈ others, fat.spc ≤ d) (h : fat.Fits c files) :
    fat.SyncKeeps c others files garbage disk := by
  have hc := hfits c List.mem_cons_self
  have hpos : 0 < fat.ds := Nat.mul_pos (by omega) hspc
  have hcds : c * fat.bps < fat.ds := by
    rw [mul_bps_lt (by omega)]
    rcases h with ⟨-, hlt⟩ | ⟨rfl, -⟩
    · exact hlt
    · exact hspc
  have hbytes : groupBytes files < fat.ds := by
    rcases h with ⟨rfl, -⟩ | ⟨-, hlt, -⟩
    · exact hpos
    · exact hlt
  obtain ⟨b', hrun, -, hgroups, hkeep⟩ := fatSyncLoop_ok (fat.syncBuffer garbage) 0 hs
    (by simp only [syncBuffer]; omega)
  rw [Nat.zero_add] at hrun hkeep
  have hzero : b'.byte (groupBytes files) = 0 := (hkeep _ (Or.inr le_rfl)).trans (if_pos hbytes)
  refine ⟨fat.fatWriteDir disk 0 b'.byte, ?_, ?_, ?_⟩
  · rw [fatSync, hrun, ok_bind]
  · rcases h with ⟨rfl, -⟩ | ⟨rfl, -, hlen, hnames⟩
    · -- the cleared buffer covers the first sector of the cluster
      have hfirst : (fat.fatReadDir (fat.fatWriteDir disk 0 b'.byte) c).byte 0 = 0 := by
        rw [byte_read_write _ _ hc, if_pos (by omega), hkeep _ (Or.inr (Nat.zero_le _))]
        exact if_pos (by omega)
      have hwalk : Walk (fat.fatReadDir (fat.fatWriteDir disk 0 b'.byte) c) 0 0 :=
        ⟨hpos, hfirst, by simp, by simp⟩
      exact ⟨_, hwalk.parseEntry (Nat.zero_le _), rfl⟩
    · have hsame : ∀ x, x < fat.ds →
          (fat.fatReadDir (fat.fatWriteDir disk 0 b'.byte) 0).byte x = b'.byte x := by
        intro x hx
        rw [byte_read_write _ _ hc, Nat.zero_mul, Nat.zero_add, if_pos hx]
      obtain ⟨hwalk, hkeys⟩ := Groups.walk
        (hgroups.congr fun x _ hx => hsame x (by omega))
        (fun f hf => (hs f hf).valid (hnames f hf)) (by rw [Nat.zero_add]; exact hbytes)
        (by rw [Nat.zero_add, hsame _ hbytes, hzero])
      have hle := liveStarts_length_le (fat.fatReadDir (fat.fatWriteDir disk 0 b'.byte) 0) 0
        files.length
      exact ⟨_, hwalk.parseEntry (hle.trans hlen), hkeys⟩
  · intro d hd i _
    rw [read_of_le (by omega) (hfits d (List.mem_cons_of_mem c hd)) (hothers d hd)]

/-- The write reaches the cluster of a directory that is too close. -/
theorem SyncKeeps.le_of_mem (hbps : 64 ≤ fat.bps)
    (hfits : ∀ d ∈ c :: others, fat.cfs + d < 4294967296) (hs : ∀ f ∈ files, f.Storable)
    (h : ∀ garbage disk, fat.SyncKeeps c others files garbage disk) {d : ℕ} (hd : d ∈ others) :
    fat.spc ≤ d := by
  by_contra hlt
  have hds : d * fat.bps < fat.ds := (mul_bps_lt (by omega)).2 (by omega)
  obtain ⟨_, hrun, -⟩ := h (fun _ => 0) (fun _ => 0)
  obtain ⟨b', -, hloop, -⟩ := fatSync_eq_ok hs hrun
  -- a disk whose bytes differ from what is written there
  obtain ⟨disk', hrun', -, hsame⟩ := h (fun _ => 0) (fun _ => b'.byte (d * fat.bps) + 1)
  obtain ⟨b'', hdisk, hloop', -⟩ := fatSync_eq_ok hs hrun'
  rw [hloop, Except.ok.injEq, Prod.mk.injEq] at hloop'
  obtain ⟨-, rfl⟩ := hloop'
  have hbyte := hsame d hd 0 (by omega)
  rw [show disk' = _ from hdisk, byte_read_write _ _ (hfits d (List.mem_cons_of_mem c hd)),
    if_pos (by omega), Nat.add_zero] at hbyte
  have hne : b'.byte (d * fat.bps) ≠ b'.byte (d * fat.bps) + 1 := by
    bv_omega
  exact hne hbyte

/-- On a disk of zeros the files are read back from the first cluster only. -/
theorem SyncKeeps.eq_zero (hbps : 64 ≤ fat.bps) (hc : fat.cfs + c < 4294967296)
    (hs : ∀ f ∈ files, f.Storable) (hne : files ≠ [])
    (h : fat.SyncKeeps c others files garbage fun _ => 0) : c = 0 := by
  obtain ⟨disk', hrun, ⟨out, hparse, hkeys⟩, -⟩ := h
  obtain ⟨b', hdisk, -, hzero⟩ := fatSync_eq_ok hs hrun
  obtain rfl : disk' = _ := hdisk
  obtain ⟨-, -, hbyte, -⟩ := span_of_parse hparse hs hkeys
  obtain ⟨x, hx, -, hnz⟩ := hbyte hne
  by_contra hpos
  have hmul : 64 ≤ c * fat.bps := le_mul_of_one_le_of_le (by omega) hbps
  apply hnz
  rw [byte_read_write _ _ hc]
  split_ifs with hin
  · exact hzero _ (by omega) hin
  · rfl

end FatInfo

end YohdaOS.Fat

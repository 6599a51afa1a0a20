import YohdaOS.Ahci.Disk
import YohdaOS.Fat.Sync

/-!
# Directories through the driver

`fat_sync` encodes a directory into a buffer in memory and hands it to `ahci_write`; `fat_read_dir`
has `ahci_read` bring it back, and `fat_parse_entry` decodes the memory.
-/

namespace YohdaOS.Fat

open Ahci ByteMem Drive

/-- The `n` bytes of the memory from `a` on. -/
def bufferAt (m : Mem) (a n : ℕ) : Buffer := ⟨fun i => m.byte (a + i), n⟩

/-- The memory at `base` is what the loop of `fat_sync` leaves there for `files`. -/
def FatInfo.Encoded (fat : FatInfo) (files : List FatFile) (m : Mem) (base : ℕ) : Prop :=
  ∃ garbage n b, fatSyncLoop 0 files (fat.syncBuffer garbage) = .ok (n, b) ∧
    ∀ i < fat.ds, m.byte (base + i) = b.byte i

variable {fat : FatInfo} {files : List FatFile} {m : Mem} {base : ℕ}

/-- A buffer with the bytes of an encoded directory is decoded to its files. -/
theorem FatInfo.Encoded.parse (h : fat.Encoded files m base) (hv : ∀ f ∈ files, f.Valid)
    (hfits : groupBytes files < fat.ds) {m' : Mem} {dst : ℕ}
    (hcopy : ∀ i < fat.ds, m'.byte (dst + i) = m.byte (base + i)) :
    ∃ out, fatParseEntry (bufferAt m' dst fat.ds) (fat.ds / FAT_ENTRY_SIZE) = .ok out ∧
      out.map FatFile.key = files.map FatFile.key := by
  obtain ⟨garbage, n, b, hloop, hbytes⟩ := h
  obtain ⟨b', hrun, -, hgroups, hkeep⟩ := fatSyncLoop_ok (fat.syncBuffer garbage) 0
    (fun f hf => (hv f hf).storable) (by simp only [FatInfo.syncBuffer]; omega)
  rw [hloop, Except.ok.injEq, Prod.mk.injEq] at hrun
  obtain ⟨-, rfl⟩ := hrun
  rw [Nat.zero_add] at hkeep
  have hsame : ∀ x, x < fat.ds → (bufferAt m' dst fat.ds).byte x = b.byte x := by
    intro x hx
    exact (hcopy x hx).trans (hbytes x hx)
  have hzero : (bufferAt m' dst fat.ds).byte (0 + groupBytes files) = 0 := by
    rw [Nat.zero_add, hsame _ hfits, hkeep _ (Or.inr le_rfl)]
    exact if_pos hfits
  obtain ⟨hwalk, hkeys⟩ := Groups.walk (hgroups.congr fun x _ hx => hsame x (by omega)) hv
    (by rw [Nat.zero_add]; exact hfits) hzero
  have hcount := liveStarts_length_le (bufferAt m' dst fat.ds) 0 files.length
  have hle : 32 * files.length < fat.ds := by
    have hwalked := hwalk.le
    rw [Nat.zero_add] at hwalked
    exact hwalked
  refine ⟨_, hwalk.parseEntry ?_, hkeys⟩
  rw [FAT_ENTRY_SIZE]
  omega

/-- In every run of the driver: a directory that `fat_sync` has encoded and written to the first
cluster is what `fat_read_dir` and `fat_parse_entry` give back later, as long as no sector of the
cluster was written in between.  A larger cluster than one of 16 sectors is not moved as a whole. -/
theorem dir_through_driver (pi : ℕ) (ssts sig : ℕ → ℕ) (h : AhciHba) (disk : Mem)
    (hdrive : ∃ i < 32, HasDrive pi ssts sig i) (hbps : fat.bps = 512) (hspc : fat.spc ≤ 16)
    (hv : ∀ f ∈ files, f.Valid) (hfits : groupBytes files < fat.ds) {before between : List Event} {s₁ s₂ s₃ s₄ : AhciSys} {dst : ℕ}
    (hbefore : Runs.Trace AhciStep (ahciStart pi ssts sig h disk) before s₁)
    (hencoded : fat.Encoded files s₁.hba.mem base)
    (hwrite : AhciStep s₁ (.transfer .write (fat.sector 0) fat.spc base true) s₂)
    (hbetween : Runs.Trace AhciStep s₂ between s₃)
    (hspares : ∀ e ∈ between, (short e).Spares (fat.sector 0) fat.spc)
    (hread : AhciStep s₃ (.transfer .read (fat.sector 0) fat.spc dst true) s₄) :
    ∃ out, fatParseEntry (bufferAt s₄.hba.mem dst fat.ds) (fat.ds / FAT_ENTRY_SIZE) = .ok out ∧
      out.map FatFile.key = files.map FatFile.key := by
  obtain ⟨a, -, hs⟩ := (shows_start h disk hdrive).trace hbefore
  have hds : fat.ds = SECTOR * fat.spc := by rw [FatInfo.ds, hbps, SECTOR]
  have hmoved : moved fat.spc = fat.spc := hwrite.callOk.moved_eq hspc
  apply hencoded.parse hv hfits
  intro i hi
  rw [hds] at hi
  exact hs.read_back hwrite hbetween (by rwa [hmoved]) hread (by rwa [hmoved])

/-- A file of one letter. -/
def letterFile : FatFile := ⟨fun i => if i < 1 then 0x61 else 0, 0x20, 7, some 9⟩

theorem letterFile_valid : letterFile.Valid :=
  ⟨⟨[0x61], ⟨by decide, by decide, by decide⟩, by decide, by decide⟩, by decide, 9, rfl, by decide,
    by decide⟩

/-- A directory that is written from 2 MiB and read back to 3 MiB. -/
theorem dir_through_driver_letter : ∃ (s : AhciSys) (out : List FatFile),
    fatParseEntry (bufferAt s.hba.mem 0x300000 512) (512 / FAT_ENTRY_SIZE) = .ok out ∧
      out.map FatFile.key = [letterFile].map FatFile.key := by
  have hv : ∀ f ∈ [letterFile], f.Valid := fun f hf => List.mem_singleton.1 hf ▸ letterFile_valid
  obtain ⟨b, hrun, -⟩ := fatSyncLoop_ok ((⟨512, 1, 100⟩ : FatInfo).syncBuffer fun _ => 0) 0
    (fun f hf => (hv f hf).storable) (by decide)
  have hencoded : (⟨512, 1, 100⟩ : FatInfo).Encoded [letterFile] (ahciInit 1 (fun _ => 0x113)
      (fun _ => 0x101) (blankHba ⟨fun x => b.byte (x - 0x200000)⟩)).mem 0x200000 := by
    refine ⟨_, _, b, hrun, fun i hi => ?_⟩
    have hi : i < 512 := hi
    rw [byte_ahciInit _ fun p hp => ?_]
    · change b.byte (0x200000 + i - 0x200000) = b.byte i
      rw [Nat.add_sub_cancel_left]
    · simp only [InPort, InList, InFis, InTables, AHCI_BASE]
      omega
  have hs := shows_start (blankHba ⟨fun x => b.byte (x - 0x200000)⟩) ⟨fun _ => 0⟩ hasDrive_one
  have hlba : 100 < 281474976710656 := by decide
  obtain ⟨s₂, hwrite⟩ := exists_transfer hs.ready
    (callOk_low hlba le_rfl (by decide) (by decide : 0x200000 ≤ 0x300000)) .write
  obtain ⟨a, -, hs₂⟩ := hs.step hwrite
  obtain ⟨s₄, hread⟩ := exists_transfer hs₂.ready
    (callOk_low hlba le_rfl (by decide) (by decide : 0x300000 ≤ 0x300000)) .read
  obtain ⟨out, hout⟩ := dir_through_driver 1 (fun _ => 0x113) (fun _ => 0x101)
    (blankHba ⟨fun x => b.byte (x - 0x200000)⟩) ⟨fun _ => 0⟩ hasDrive_one rfl (by decide : 1 ≤ 16) hv
    (by decide) (.nil _) hencoded hwrite (.nil _) (fun e he => absurd he List.not_mem_nil) hread
  exact ⟨s₄, out, hout⟩

end YohdaOS.Fat

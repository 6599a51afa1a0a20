import YohdaOS.Fat.Geometry

/-!
# The arithmetic of fat_init

No field of the parameter block is checked before `fat_init` divides by it or subtracts it.  A volume
is sound when none of these subtractions wraps.
-/

namespace YohdaOS.Fat

namespace BiosParamBlk

/-- The sectors of the disk. -/
def ts (bpb : BiosParamBlk) : ℕ :=
  if bpb.f16Ts = 0 then bpb.f32Ts.toNat else bpb.f16Ts.toNat

/-- The sectors of all the FATs, a 32-bit product. -/
def fsn (bpb : BiosParamBlk) : ℕ :=
  u32 ((if bpb.fat16RegionSize = 0 then bpb.fat32RegionSize.toNat
    else bpb.fat16RegionSize.toNat) * bpb.fatNum.toNat)

/-- The block describes a disk: a FAT of at least 3 sectors, and the reserved sectors, the FATs, the
two reserved clusters and the system sector all below its end. -/
structure Describes (bpb : BiosParamBlk) : Prop where
  bps : bpb.bps ≠ 0
  spc : bpb.spc ≠ 0
  fatNum : bpb.fatNum ≠ 0
  fat : 3 ≤ bpb.fsn / bpb.fatNum.toNat
  sectors : bpb.reservedSectorCount.toNat + bpb.fsn + (bpb.spc.toNat * 2 + 1) ≤ bpb.ts

end BiosParamBlk

/-- No subtraction of `fat_init` has wrapped, and the regions and the two counts are inside the
disk. -/
structure FatVolume.Sound (vol : FatVolume) (bpb : BiosParamBlk) : Prop where
  dsn : vol.dsn + vol.dfs = vol.ts
  csn : vol.csn + (vol.spc * 2 + 1) = vol.dsn
  fsn : vol.fsn + 3 = bpb.fsn / bpb.fatNum.toNat
  ffs_fsn : vol.ffs + vol.fsn ≤ vol.dfs
  dfs_cfs : vol.dfs ≤ vol.cfs
  cfs_csn : vol.cfs + vol.csn = vol.ts
  fatNums : vol.fatNums * 4 ≤ vol.fsn * vol.bps
  clusNums : vol.clusNums * vol.spc ≤ vol.csn

namespace BiosParamBlk

variable {bpb : BiosParamBlk}

theorem ts_lt (bpb : BiosParamBlk) : bpb.ts < 4294967296 := by
  unfold ts
  have h16 := bpb.f16Ts.isLt
  have h32 := bpb.f32Ts.isLt
  split_ifs <;> omega

theorem fsn_lt (bpb : BiosParamBlk) : bpb.fsn < 4294967296 := Nat.mod_lt _ (by decide)

/-- What `fat_init` sets, with the fields of the block by their names. -/
def volume (bpb : BiosParamBlk) : FatVolume :=
  let bps := bpb.bps.toNat
  let spc := bpb.spc.toNat
  let ffs := bpb.reservedSectorCount.toNat
  let dfs := u32 (ffs + bpb.fsn)
  let dsn := toU32 (bpb.ts - dfs)
  let csn := toU32 (dsn - (spc * 2 + 1))
  let fsn := toU32 (bpb.fsn / bpb.fatNum.toNat - 3)
  { bps, spc, dfs, dsn, csn, fsn
    cfs := u32 (dfs + spc * 2 + 1)
    ts := bpb.ts
    tc := dsn / spc
    type := fatDetermineType 1 bpb.ts
    ffs := u32 (ffs + 3)
    rsn := (bpb.rootEntryCount.toNat * 32 + (bps - 1)) / bps
    clusNums := csn / spc
    fatNums := u32 (fsn * bps) / 4 }

theorem fatInit_eq (bpb : BiosParamBlk) :
    fatInit bpb =
      if bpb.bps = 0 ∨ bpb.spc = 0 ∨ bpb.fatNum = 0 then none else some bpb.volume := rfl

/-- On a disk that its block describes nothing wraps. -/
theorem Describes.sound (h : bpb.Describes) : bpb.volume.Sound bpb := by
  have hts := bpb.ts_lt
  have hfsn := bpb.fsn_lt
  have hsectors := h.sectors
  have hfat := h.fat
  have hone : bpb.fsn / bpb.fatNum.toNat ≤ bpb.fsn := Nat.div_le_self _ _
  have hdfs : bpb.volume.dfs = bpb.reservedSectorCount.toNat + bpb.fsn :=
    Nat.mod_eq_of_lt (by omega)
  have hdsn : bpb.volume.dsn = bpb.ts - bpb.volume.dfs := by
    change toU32 ((bpb.ts : ℤ) - bpb.volume.dfs) = _
    simp only [toU32]
    omega
  have hcsn : bpb.volume.csn = bpb.volume.dsn - (bpb.spc.toNat * 2 + 1) := by
    change toU32 ((bpb.volume.dsn : ℤ) - (bpb.spc.toNat * 2 + 1)) = _
    simp only [toU32]
    omega
  have hvfsn : bpb.volume.fsn = bpb.fsn / bpb.fatNum.toNat - 3 := by
    change toU32 (((bpb.fsn / bpb.fatNum.toNat : ℕ) : ℤ) - 3) = _
    simp only [toU32]
    omega
  have hffs : bpb.volume.ffs = bpb.reservedSectorCount.toNat + 3 :=
    Nat.mod_eq_of_lt (by omega)
  have hend : bpb.volume.dfs + bpb.spc.toNat * 2 + 1 < 4294967296 := by omega
  have hcfs : bpb.volume.cfs = bpb.volume.dfs + bpb.spc.toNat * 2 + 1 := Nat.mod_eq_of_lt hend
  have hspc : bpb.volume.spc = bpb.spc.toNat := rfl
  have hvts : bpb.volume.ts = bpb.ts := rfl
  exact
    { dsn := by omega
      csn := by omega
      fsn := by omega
      ffs_fsn := by omega
      dfs_cfs := by omega
      cfs_csn := by omega
      fatNums := (Nat.div_mul_le_self _ _).trans (Nat.mod_le _ _)
      clusNums := Nat.div_mul_le_self _ _ }

/-- A sound volume leaves room for its parts. -/
theorem sectors_le_of_sound (h : bpb.volume.Sound bpb) :
    bpb.reservedSectorCount.toNat + bpb.fsn + (bpb.spc.toNat * 2 + 1) ≤ bpb.ts := by
  have hfsn := bpb.fsn_lt
  have hres := bpb.reservedSectorCount.isLt
  have hffs : bpb.volume.ffs = bpb.reservedSectorCount.toNat + 3 :=
    Nat.mod_eq_of_lt (by omega)
  have hdfs : bpb.volume.dfs = (bpb.reservedSectorCount.toNat + bpb.fsn) % 4294967296 := rfl
  have hspc : bpb.volume.spc = bpb.spc.toNat := rfl
  have hvts : bpb.volume.ts = bpb.ts := rfl
  -- a sum that wraps is below the reserved sectors
  have hle := h.ffs_fsn
  have hd := h.dsn
  have hc := h.csn
  omega

/-- `fat_init` divides by no zero and sets a sound volume up exactly for the blocks that describe a
disk. -/
theorem fatInit_sound_iff (bpb : BiosParamBlk) :
    (∃ vol, fatInit bpb = some vol ∧ vol.Sound bpb) ↔ bpb.Describes := by
  rw [fatInit_eq]
  constructor
  · rintro ⟨vol, hvol, hsound⟩
    by_cases hzero : bpb.bps = 0 ∨ bpb.spc = 0 ∨ bpb.fatNum = 0
    · rw [if_pos hzero] at hvol
      cases hvol
    · rw [if_neg hzero] at hvol
      obtain rfl := Option.some.inj hvol
      simp only [not_or] at hzero
      have hfat : 3 ≤ bpb.fsn / bpb.fatNum.toNat := hsound.fsn ▸ Nat.le_add_left 3 _
      exact ⟨hzero.1, hzero.2.1, hzero.2.2, hfat, sectors_le_of_sound hsound⟩
  · intro h
    refine ⟨bpb.volume, if_neg ?_, h.sound⟩
    rintro (hzero | hzero | hzero)
    · exact h.bps hzero
    · exact h.spc hzero
    · exact h.fatNum hzero

/-- The boot sector of a disk that was never formatted: `fat_init` divides by zero. -/
theorem fatInit_sound_fails :
    ¬ ∀ bpb : BiosParamBlk, ∃ vol, fatInit bpb = some vol ∧ vol.Sound bpb := by
  intro h
  obtain ⟨vol, hvol, -⟩ := h ⟨0, 0, 0, 0, 0, 0, 0, 0, 0⟩
  cases hvol

end BiosParamBlk

end YohdaOS.Fat

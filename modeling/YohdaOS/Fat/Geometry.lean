import YohdaOS.Fat.Region
import YohdaOS.Fat.Sync

/-!
# The sectors of a cluster

`fat_init` lays the volume out from the parameter block of the disk, in 32-bit arithmetic, and makes
one region entry for every `spc` sectors of the data region.  `fat_read_dir` and `fat_write_dir`
take the number that `fat_alloc_clus` hands out as an offset in sectors.
-/

namespace YohdaOS.Fat

/-- The types `fat_determine_type` can return. -/
inductive FatType where
  | fat12
  | fat16
  | fat32
  | exfat
deriving DecidableEq, Repr

def fatDetermineType (sectorSize totalClus : ℕ) : FatType :=
  if sectorSize = 0 then .exfat
  else if totalClus < 4085 then .fat12
  else if totalClus < 65525 then .fat16
  else .fat32

/-- The fields of `struct fat_bios_param_blk` and `struct fat_ext_bios_param_blk32` that are read. -/
structure BiosParamBlk where
  bps : BitVec 16
  spc : BitVec 8
  reservedSectorCount : BitVec 16
  fatNum : BitVec 8
  rootEntryCount : BitVec 16
  f16Ts : BitVec 16
  fat16RegionSize : BitVec 16
  f32Ts : BitVec 32
  fat32RegionSize : BitVec 32

/-- What `fat_init` sets: the fields of `struct fat_info`, and the entries of the two regions. -/
structure FatVolume extends FatInfo where
  ts : ℕ
  tc : ℕ
  type : FatType
  ffs : ℕ
  fsn : ℕ
  rsn : ℕ
  dfs : ℕ
  dsn : ℕ
  csn : ℕ
  /-- `fmm.c.nums` -/
  clusNums : ℕ
  /-- `fmm.f.nums` -/
  fatNums : ℕ

/-- What `fat_init` computes from the block, of which it divides by three fields.  Not here are the
loop over `sfn_inval`, which takes its size in bytes for its length and so reads behind it, the
bitmaps, and `fat_init_rootfs`. -/
def fatInit (bpb : BiosParamBlk) : Option FatVolume :=
  if bpb.bps = 0 ∨ bpb.spc = 0 ∨ bpb.fatNum = 0 then none
  else
    let ts := if bpb.f16Ts = 0 then bpb.f32Ts.toNat else bpb.f16Ts.toNat
    let bps := bpb.bps.toNat
    let spc := bpb.spc.toNat
    let ffs := bpb.reservedSectorCount.toNat
    let region := if bpb.fat16RegionSize = 0 then bpb.fat32RegionSize.toNat
      else bpb.fat16RegionSize.toNat
    let fsn := u32 (region * bpb.fatNum.toNat)
    let dfs := u32 (ffs + fsn)
    let cfs := u32 (dfs + spc * 2 + 1)
    let dsn := toU32 (ts - dfs)
    let csn := toU32 (dsn - (spc * 2 + 1))
    -- the first FAT without its reserved sectors
    let fsn := toU32 (fsn / bpb.fatNum.toNat - 3)
    some
      { bps, spc, cfs, ts, dfs, dsn, csn, fsn
        tc := dsn / spc
        type := fatDetermineType 1 ts
        ffs := u32 (ffs + 3)
        rsn := (bpb.rootEntryCount.toNat * 32 + (bps - 1)) / bps
        clusNums := csn / spc
        fatNums := u32 (fsn * bps) / 4 }

/-- The sector is one of those `fat_read_dir` and `fat_write_dir` transfer for the offset. -/
def FatInfo.Accesses (fat : FatInfo) (ost x : ℕ) : Prop :=
  fat.sector ost ≤ x ∧ x < fat.sector ost + fat.spc

/-- The sector is in the data region. -/
def FatVolume.InData (vol : FatVolume) (x : ℕ) : Prop := vol.cfs ≤ x ∧ x < vol.cfs + vol.csn

/-- The numbers that `fat_alloc_clus` returns in the course of a run, errors left out. -/
def ClusState.handedOut (s : ClusState) : List ClusOp → List ℕ
  | [] => []
  | .allocClus file :: ops =>
    let r := fatAllocClus s file
    if r.1 < 0 then r.2.2.handedOut ops else r.1.toNat :: r.2.2.handedOut ops
  | .setClus ost :: ops => (fatSetClus s ost).2.handedOut ops

/-- Two clusters are stored apart from each other, in the data region. -/
def FatVolume.Apart (vol : FatVolume) (a b : ℕ) : Prop :=
  (∀ x, ¬(vol.Accesses a x ∧ vol.Accesses b x)) ∧
    ∀ x, vol.Accesses a x ∨ vol.Accesses b x → vol.InData x

theorem fatInit_spec {bpb : BiosParamBlk} {vol : FatVolume} (h : fatInit bpb = some vol) :
    0 < vol.spc ∧ vol.cfs < 4294967296 ∧ vol.clusNums = vol.csn / vol.spc := by
  unfold fatInit at h
  by_cases hzero : bpb.bps = 0 ∨ bpb.spc = 0 ∨ bpb.fatNum = 0
  · rw [if_pos hzero] at h
    cases h
  rw [if_neg hzero] at h
  obtain rfl := Option.some.inj h
  simp only [not_or] at hzero
  refine ⟨?_, Nat.mod_lt _ (by decide), rfl⟩
  exact Nat.pos_of_ne_zero fun h0 => hzero.2.1 (BitVec.eq_of_toNat_eq h0)

namespace ClusState

variable {s : ClusState}

/-- Every cluster that a clean run hands out is one of the region. -/
theorem lt_of_mem_handedOut (hwf : s.rgn.WellFormed) (h : s.Accounted) {ops : List ClusOp}
    (hints : ∀ ost, ClusOp.setClus ost ∈ ops → 0 ≤ ost ∧ ost < 2147483648) (hclean : s.RunClean ops)
    {a : ℕ} (ha : a ∈ s.handedOut ops) : a < s.rgn.nums := by
  induction ops generalizing s with
  | nil => cases ha
  | cons op ops ih =>
    have hint : ∀ ost, op = .setClus ost → 0 ≤ ost ∧ ost < 2147483648 := by
      rintro ost rfl
      exact hints ost List.mem_cons_self
    obtain ⟨⟨-, hok⟩, hnext, hwf'⟩ := step_of_clean hwf h hint hclean.1
    have hrest := @ih _ hwf' hnext (fun ost hmem => hints ost (List.mem_cons_of_mem op hmem))
      hclean.2
    rw [step_nums] at hrest
    cases op with
    | setClus ost => exact hrest ha
    | allocClus file =>
      simp only [handedOut] at ha
      split_ifs at ha with hneg
      · exact hrest ha
      · rcases List.mem_cons.1 ha with rfl | ha
        · exact (hok.2 _ (Int.toNat_of_nonneg (not_lt.1 hneg)).symm).1
        · exact hrest ha

/-- Allocations alone hand out the clusters one after another. -/
theorem handedOut_replicate (hwf : s.rgn.WellFormed) (h : s.Accounted) {j : ℕ} (file : FatFile)
    (hbelow : ∀ l < j, ¬s.Clear l) (habove : ∀ l, j ≤ l → l < s.rgn.nums → s.Clear l) (n : ℕ)
    (hn : j + n ≤ s.rgn.nums) :
    s.handedOut (List.replicate n (.allocClus file)) = List.range' j n := by
  induction n generalizing s j with
  | zero => rfl
  | succ n ih =>
    have hj : s.Clear j := habove j le_rfl (by omega)
    have hpos := h.frees_pos (show j < s.rgn.nums by omega) hj
    obtain ⟨k, -, hk, hleast, hrun⟩ := fatAllocClus_of_free hwf h file (by omega)
    obtain rfl : k = j := by
      apply le_antisymm
      · by_contra hlt
        exact hleast j (by omega) hj
      · by_contra hlt
        exact hbelow k (by omega) hk
    have hrest := @ih (s.mark k) (wellFormed_mark hwf k) (h.mark hwf (by omega) hk) (k + 1)
      (fun l hl => ?_) (fun l hl hnums => ?_) (by rw [mark_nums]; omega)
    · rw [List.replicate_succ, handedOut]
      simp only [hrun, hrest, Int.toNat_natCast, if_neg (not_lt.2 (Int.natCast_nonneg k))]
      rfl
    · rw [clear_mark hwf]
      rintro ⟨hne, hc⟩
      exact hbelow l (by omega) hc
    · rw [clear_mark hwf]
      exact ⟨by omega, habove l (by omega) hnums⟩

theorem runClean_replicate (s : ClusState) (file : FatFile) (n : ℕ) :
    s.RunClean (List.replicate n (.allocClus file)) := by
  induction n generalizing s with
  | zero => trivial
  | succ n ih => exact ⟨trivial, ih _⟩

/-- Every cluster of a fresh region is handed out in some clean run. -/
theorem Fresh.handedOut (hs : s.Fresh) {n : ℕ} (hn : n ≤ s.rgn.nums) :
    s.handedOut (List.replicate n (.allocClus FatFile.zero)) = List.range n := by
  have hsize := hs.wf.size
  rw [handedOut_replicate hs.wf hs.accounted (j := 0) FatFile.zero (fun l hl => by omega)
    (fun l _ hl => hs.clear l (by omega)) n (by omega), List.range_eq_range']

end ClusState

namespace FatVolume

variable {bpb : BiosParamBlk} {vol : FatVolume} {s : ClusState}

/-- Clusters of one sector that a sector number can name are apart. -/
theorem apart_of_ne (hspc : vol.spc = 1) (hend : vol.cfs + vol.csn ≤ 4294967296) {a b : ℕ}
    (ha : a < vol.csn) (hb : b < vol.csn) (hne : a ≠ b) : vol.Apart a b := by
  have hsa : vol.sector a = vol.cfs + a := FatInfo.sector_eq (by omega)
  have hsb : vol.sector b = vol.cfs + b := FatInfo.sector_eq (by omega)
  constructor
  · rintro x ⟨⟨hxa, hxa'⟩, hxb, hxb'⟩
    omega
  · rintro x (⟨hx, hx'⟩ | ⟨hx, hx'⟩)
    · exact ⟨by omega, by omega⟩
    · exact ⟨by omega, by omega⟩

/-- The first two clusters are apart on disks with one sector per cluster only. -/
theorem spc_eq_one_of_apart (hspc : 0 < vol.spc) (hcfs : vol.cfs < 4294967296)
    (h : vol.Apart 0 1) : vol.spc = 1 := by
  have hzero : vol.sector 0 = vol.cfs := FatInfo.sector_eq (by omega)
  obtain ⟨hdisj, hin⟩ := h
  have hone := (hin (vol.sector 1) (Or.inr ⟨le_rfl, by omega⟩)).1
  have hsector : vol.sector 1 = u32 (vol.cfs + 1) := rfl
  rw [u32] at hsector
  by_contra hne
  apply hdisj (vol.sector 1)
  exact ⟨⟨by omega, by omega⟩, le_rfl, by omega⟩

/-- Clusters are stored apart from each other, on a disk that `fat_init` accepts, exactly where a
cluster is one sector and the data region ends below sector 2^32, or where there are no two. -/
theorem clusters_apart_iff (bpb : BiosParamBlk) (vol : FatVolume) (hinit : fatInit bpb = some vol)
    (s : ClusState) (hs : s.Fresh) (hnums : s.rgn.nums = vol.clusNums) :
    (∀ ops : List ClusOp, (∀ ost, ClusOp.setClus ost ∈ ops → 0 ≤ ost ∧ ost < 2147483648) →
      s.RunClean ops → ∀ a ∈ s.handedOut ops, ∀ b ∈ s.handedOut ops, a ≠ b → vol.Apart a b) ↔
      vol.clusNums ≤ 1 ∨ vol.spc = 1 ∧ vol.cfs + vol.csn ≤ 4294967296 := by
  obtain ⟨hspc, hcfs, hclus⟩ := fatInit_spec hinit
  constructor
  · intro h
    by_contra hnot
    rw [not_or] at hnot
    have hall {a b : ℕ} (ha : a < vol.clusNums) (hb : b < vol.clusNums) (hne : a ≠ b) :
        vol.Apart a b := by
      have hout := hs.handedOut (n := vol.clusNums) (by omega)
      have hmem := h (List.replicate vol.clusNums (.allocClus FatFile.zero))
        (fun ost hmem => by cases List.eq_of_mem_replicate hmem) (s.runClean_replicate _ _)
      rw [hout] at hmem
      exact hmem a (List.mem_range.2 ha) b (List.mem_range.2 hb) hne
    have hone := spc_eq_one_of_apart hspc hcfs (hall (by omega) (by omega) (by decide))
    have hcsn : vol.clusNums = vol.csn := by rw [hclus, hone, Nat.div_one]
    -- the last cluster is read from below the data region
    have hlast := (hall (a := 0) (b := vol.csn - 1) (by omega) (by omega) (by omega)).2
      (vol.sector (vol.csn - 1)) (Or.inr ⟨le_rfl, by omega⟩)
    have hsector : vol.sector (vol.csn - 1) = u32 (vol.cfs + (vol.csn - 1)) := rfl
    have hlo := hlast.1
    have hint := hs.wf.nums
    rw [u32] at hsector
    omega
  · intro h ops hints hclean a ha b hb hne
    have halt := ClusState.lt_of_mem_handedOut hs.wf hs.accounted hints hclean ha
    have hblt := ClusState.lt_of_mem_handedOut hs.wf hs.accounted hints hclean hb
    rcases h with h | ⟨hone, hend⟩
    · omega
    · rw [hone, Nat.div_one] at hclus
      exact apart_of_ne hone hend (by omega) (by omega) hne

/-- The parameter block of a disk of `ts` sectors with one FAT of one sector. -/
def tinyBlk (spc : BitVec 8) (ts : BitVec 16) : BiosParamBlk := ⟨512, spc, 1, 1, 0, ts, 1, 0, 0⟩

/-- The volume on that disk, where `n` clusters are left to hand out. -/
def tinyVol (spc n : ℕ) : FatVolume where
  bps := 512
  spc := spc
  cfs := spc * 2 + 3
  ts := spc * (n + 2) + 3
  tc := (spc * (n + 2) + 1) / spc
  type := .fat12
  ffs := 4
  fsn := 4294967294
  rsn := 0
  dfs := 2
  dsn := spc * (n + 2) + 1
  csn := spc * n
  clusNums := n
  fatNums := 1073741568

/-- Two clusters of one sector. -/
theorem clusters_apart_iff_tiny : (tinyVol 1 2).clusNums = 2 ∧ ∀ ops : List ClusOp,
    (∀ ost, ClusOp.setClus ost ∈ ops → 0 ≤ ost ∧ ost < 2147483648) →
      ClusState.twoClusters.RunClean ops → ∀ a ∈ ClusState.twoClusters.handedOut ops,
        ∀ b ∈ ClusState.twoClusters.handedOut ops, a ≠ b → (tinyVol 1 2).Apart a b :=
  ⟨rfl, (clusters_apart_iff (tinyBlk 1 7) (tinyVol 1 2) rfl ClusState.twoClusters
    ClusState.fresh_twoClusters rfl).2 (Or.inr ⟨rfl, by decide⟩)⟩

/-- Two clusters of two sectors: they share the sector between them. -/
theorem clusters_apart_iff_fails : ¬∀ (bpb : BiosParamBlk) (vol : FatVolume),
    fatInit bpb = some vol → ∀ s : ClusState, s.Fresh → s.rgn.nums = vol.clusNums →
    ∀ ops : List ClusOp, (∀ ost, ClusOp.setClus ost ∈ ops → 0 ≤ ost ∧ ost < 2147483648) →
      s.RunClean ops → ∀ a ∈ s.handedOut ops, ∀ b ∈ s.handedOut ops, a ≠ b → vol.Apart a b := by
  intro hall
  have hout := ClusState.fresh_twoClusters.handedOut (n := 2) le_rfl
  have hapart := hall (tinyBlk 2 11) (tinyVol 2 2) rfl ClusState.twoClusters
    ClusState.fresh_twoClusters rfl (List.replicate 2 (.allocClus FatFile.zero))
    (fun ost hmem => by cases List.eq_of_mem_replicate hmem)
    (ClusState.runClean_replicate _ _ _)
  rw [hout] at hapart
  exact absurd (spc_eq_one_of_apart (by decide) (by decide)
    (hapart 0 (by decide) 1 (by decide) (by decide))) (by decide)

end FatVolume

end YohdaOS.Fat

import YohdaOS.Bitmap
import YohdaOS.Fat.Core
import YohdaOS.Lib.Counting

/-!
# The cluster region of fs/fat.c

A region keeps a bitmap of the clusters in use and, beside it, the number of those that are free.
`fat_alloc_clus` takes the first clear bit, `fat_set_clus` marks a cluster number found on the disk;
both count `frees` down.
-/

namespace YohdaOS.Fat

open ByteMem

def ENOMEM : ℤ := 12

/-- `struct fat_region` -/
structure FatRegion where
  nums : ℕ
  frees : ℕ
  bit : Bitmap

/-- The memory with the region. -/
structure ClusState where
  mem : Mem
  rgn : FatRegion

/-- `(rgn->frees)--` -/
def FatRegion.take (rgn : FatRegion) : FatRegion := { rgn with frees := toU32 (rgn.frees - 1) }

def fatSetClus (s : ClusState) (ost : ℤ) : ℤ × ClusState :=
  if ost < 0 then (-4, s)
  else
    let r := bitmapSet s.mem s.rgn.bit (toU32 ost) true
    if r.1 < 0 then (-7, ⟨r.2, s.rgn⟩)
    else (0, ⟨r.2, s.rgn.take⟩)

/-- `fat_alloc_clus`, where `yalloc` succeeds.  A negative offset is reported and then used. -/
def fatAllocClus (s : ClusState) (file : FatFile) : ℤ × FatFile × ClusState :=
  let ost := bitmapGetFree s.mem s.rgn.bit
  if s.rgn.frees = 0 then (-ENOMEM, file, s)
  else
    let r := bitmapSet s.mem s.rgn.bit (toU32 ost) true
    (ost, { file with clus := some ost }, ⟨r.2, s.rgn.take⟩)

/-- A call on the region. -/
inductive ClusOp where
  | allocClus (file : FatFile)
  | setClus (ost : ℤ)

namespace ClusState

/-- The cluster is not in use. -/
def Clear (s : ClusState) (k : ℕ) : Prop := bitAt s.mem s.rgn.bit.base k = false

instance (s : ClusState) : DecidablePred s.Clear := fun _ => inferInstanceAs (Decidable (_ = _))

/-- `frees` is the number of clear bits among the first `nums`. -/
def Accounted (s : ClusState) : Prop := s.rgn.frees = Nat.count s.Clear s.rgn.nums

def step (s : ClusState) : ClusOp → ClusState
  | .allocClus file => (fatAllocClus s file).2.2
  | .setClus ost => (fatSetClus s ost).2

/-- What a call has to do: an allocation fails exactly when no cluster is left, and otherwise returns
one that was clear; no call touches a byte outside the bitmap. -/
def StepOk (s : ClusState) (op : ClusOp) : Prop :=
  Frame s.rgn.bit.base (s.rgn.bit.base + 4 * s.rgn.bit.size) s.mem (s.step op).mem ∧
    match op with
    | .allocClus file =>
      ((fatAllocClus s file).1 < 0 ↔ ∀ k < s.rgn.nums, ¬s.Clear k) ∧
        ∀ k : ℕ, (fatAllocClus s file).1 = k → k < s.rgn.nums ∧ s.Clear k
    | .setClus _ => True

/-- The calls, one after another, do what they have to, and the free clusters are counted at every
point. -/
def RunOk (s : ClusState) : List ClusOp → Prop
  | [] => s.Accounted
  | op :: ops => s.Accounted ∧ s.StepOk op ∧ (s.step op).RunOk ops

/-- The call does not mark a cluster in use or one outside the region. -/
def Clean (s : ClusState) : ClusOp → Prop
  | .allocClus _ => True
  | .setClus ost => ost < s.rgn.nums ∧ s.Clear ost.toNat

def RunClean (s : ClusState) : List ClusOp → Prop
  | [] => True
  | op :: ops => s.Clean op ∧ (s.step op).RunClean ops

end ClusState

/-- The bitmap is there and has a bit for every cluster; cluster numbers are ints. -/
structure FatRegion.WellFormed (rgn : FatRegion) : Prop where
  base : rgn.bit.base ≠ 0
  bit : rgn.bit.bit = 32
  size : rgn.bit.size = (rgn.nums + 31) / 32
  nums : rgn.nums < 2147483648

/-- What `fat_init` makes of the region: every bit clear, every cluster free. -/
structure ClusState.Fresh (s : ClusState) : Prop where
  wf : s.rgn.WellFormed
  clear : ∀ k < 32 * s.rgn.bit.size, s.Clear k
  frees : s.rgn.frees = s.rgn.nums

namespace ClusState

variable {s : ClusState}

/-! ## Marking a cluster -/

/-- The state with cluster `k` marked and counted. -/
def mark (s : ClusState) (k : ℕ) : ClusState := ⟨(bitmapSet s.mem s.rgn.bit k true).2, s.rgn.take⟩

@[simp] theorem mark_nums (s : ClusState) (k : ℕ) : (s.mark k).rgn.nums = s.rgn.nums := rfl

@[simp] theorem mark_bit (s : ClusState) (k : ℕ) : (s.mark k).rgn.bit = s.rgn.bit := rfl

theorem mark_frees (s : ClusState) (k : ℕ) : (s.mark k).rgn.frees = toU32 (s.rgn.frees - 1) := rfl

theorem wellFormed_mark (hwf : s.rgn.WellFormed) (k : ℕ) : (s.mark k).rgn.WellFormed :=
  ⟨hwf.base, hwf.bit, hwf.size, hwf.nums⟩

theorem clear_mark (hwf : s.rgn.WellFormed) (k l : ℕ) :
    (s.mark k).Clear l ↔ l ≠ k ∧ s.Clear l := by
  unfold Clear mark
  rw [FatRegion.take, bitAt_bitmapSet hwf.base hwf.bit]
  by_cases hlk : l = k
  · simp [hlk]
  · simp [hlk]

theorem frame_mark (hwf : s.rgn.WellFormed) {k : ℕ} (hk : k < s.rgn.nums) :
    Frame s.rgn.bit.base (s.rgn.bit.base + 4 * s.rgn.bit.size) s.mem (s.mark k).mem := by
  have hsize := hwf.size
  apply (frame_bitmapSet hwf.base hwf.bit k true).mono
  · omega
  · omega

theorem Accounted.frees_le (h : s.Accounted) : s.rgn.frees ≤ s.rgn.nums := by
  rw [h]
  exact Nat.count_le _

/-- A clear cluster of the region is one of those counted. -/
theorem Accounted.frees_pos (h : s.Accounted) {k : ℕ} (hk : k < s.rgn.nums) (hc : s.Clear k) :
    0 < s.rgn.frees := by
  rw [h, Nat.count_eq_card_filter_range]
  apply Finset.card_pos.2
  exact ⟨k, Finset.mem_filter.2 ⟨Finset.mem_range.2 hk, hc⟩⟩

theorem Accounted.exists_clear (h : s.Accounted) (hpos : s.rgn.frees ≠ 0) :
    ∃ k < s.rgn.nums, s.Clear k := by
  rw [h, Nat.count_eq_card_filter_range, Finset.card_ne_zero] at hpos
  obtain ⟨k, hk⟩ := hpos
  rw [Finset.mem_filter, Finset.mem_range] at hk
  exact ⟨k, hk⟩

theorem Accounted.mark (hwf : s.rgn.WellFormed) (h : s.Accounted) {k : ℕ} (hk : k < s.rgn.nums)
    (hc : s.Clear k) : (s.mark k).Accounted := by
  have hpos := h.frees_pos hk hc
  have hle := h.frees_le
  have hnums := hwf.nums
  have hflip : Nat.count s.Clear s.rgn.nums = Nat.count (s.mark k).Clear s.rgn.nums + 1 := by
    apply Counting.count_succ_of_flip hk
    · rw [clear_mark hwf]
      exact fun hne => hne.1 rfl
    · exact hc
    · intro l _ hl
      rw [clear_mark hwf]
      exact and_iff_right hl
  rw [Accounted] at h ⊢
  rw [mark_nums, mark_frees, toU32]
  omega

/-- Marking a cluster in use, or one outside the region, counts one cluster too few. -/
theorem Accounted.mark_iff (hwf : s.rgn.WellFormed) (h : s.Accounted) {k : ℕ} :
    (s.mark k).Accounted ↔ k < s.rgn.nums ∧ s.Clear k := by
  constructor
  · intro hmark
    by_contra hnot
    have hsame : Nat.count (s.mark k).Clear s.rgn.nums = Nat.count s.Clear s.rgn.nums := by
      apply Counting.count_congr
      intro l hl
      rw [clear_mark hwf]
      refine and_iff_right_of_imp fun hc hlk => hnot ?_
      rw [← hlk]
      exact ⟨hl, hc⟩
    have hle := h.frees_le
    have hnums := hwf.nums
    rw [Accounted, mark_nums, mark_frees, hsame, ← h, toU32] at hmark
    omega
  · rintro ⟨hk, hc⟩
    exact h.mark hwf hk hc

/-! ## The two calls -/

theorem fatSetClus_eq (hwf : s.rgn.WellFormed) {ost : ℤ} (h₀ : 0 ≤ ost) (hint : ost < 2147483648) :
    fatSetClus s ost = (0, s.mark ost.toNat) := by
  have hu : toU32 ost = ost.toNat := toU32_of_nonneg h₀ (by omega)
  have hr : (bitmapSet s.mem s.rgn.bit ost.toNat true).1 = ost := by
    rw [bitmapSet_eq hwf.base hwf.bit]
    exact (toInt_natCast (by omega)).trans (Int.toNat_of_nonneg h₀)
  simp only [fatSetClus, if_neg (not_lt.2 h₀), hu, hr]
  rfl

theorem fatAllocClus_of_exhausted (file : FatFile) (h : s.rgn.frees = 0) :
    fatAllocClus s file = (-ENOMEM, file, s) := by
  rw [fatAllocClus, if_pos h]

/-- While clusters are left the first clear one is handed out and marked. -/
theorem fatAllocClus_of_free (hwf : s.rgn.WellFormed) (h : s.Accounted) (file : FatFile)
    (hpos : s.rgn.frees ≠ 0) :
    ∃ k < s.rgn.nums, s.Clear k ∧ (∀ l < k, ¬s.Clear l) ∧
      fatAllocClus s file = ((k : ℤ), { file with clus := some (k : ℤ) }, s.mark k) := by
  obtain ⟨c, hc, hclear⟩ := h.exists_clear hpos
  have hsize := hwf.size
  have hnums := hwf.nums
  rcases bitmapGetFree_cases (m := s.mem) hwf.base hwf.bit (by omega) with ⟨k, -, hget, hk, hleast⟩ | ⟨-, hfull⟩
  · have hkc : k ≤ c := by
      by_contra hlt
      have hset := hleast c (by omega)
      rw [show bitAt s.mem s.rgn.bit.base c = false from hclear] at hset
      cases hset
    refine ⟨k, by omega, hk, fun l hl hcl => ?_, ?_⟩
    · have hset := hleast l hl
      rw [show bitAt s.mem s.rgn.bit.base l = false from hcl] at hset
      cases hset
    · simp only [fatAllocClus, if_neg hpos, hget, toU32_natCast (show k < 4294967296 by omega)]
      rfl
  · have hset := hfull c (by omega)
    rw [show bitAt s.mem s.rgn.bit.base c = false from hclear] at hset
    cases hset

/-! ## Runs -/

theorem step_nums (s : ClusState) (op : ClusOp) : (s.step op).rgn.nums = s.rgn.nums := by
  cases op with
  | allocClus file =>
    simp only [step, fatAllocClus]
    split_ifs <;> rfl
  | setClus ost =>
    simp only [step, fatSetClus]
    split_ifs <;> rfl

/-- A clean call of an accounted state does what it has to. -/
theorem step_of_clean (hwf : s.rgn.WellFormed) (h : s.Accounted) {op : ClusOp}
    (hint : ∀ ost, op = .setClus ost → 0 ≤ ost ∧ ost < 2147483648) (hclean : s.Clean op) :
    s.StepOk op ∧ (s.step op).Accounted ∧ (s.step op).rgn.WellFormed := by
  cases op with
  | setClus ost =>
    obtain ⟨h₀, hlt⟩ := hint ost rfl
    obtain ⟨hnums, hclear⟩ := hclean
    have hstep : s.step (.setClus ost) = s.mark ost.toNat :=
      congrArg Prod.snd (fatSetClus_eq hwf h₀ hlt)
    refine ⟨⟨?_, trivial⟩, ?_, ?_⟩
    · rw [hstep]
      exact frame_mark hwf (by omega)
    · rw [hstep]
      exact h.mark hwf (by omega) hclear
    · rw [hstep]
      exact wellFormed_mark hwf _
  | allocClus file =>
    by_cases hpos : s.rgn.frees = 0
    · have hrun := fatAllocClus_of_exhausted file hpos
      have hstep : s.step (.allocClus file) = s := congrArg (fun r => r.2.2) hrun
      have hnone : ∀ k < s.rgn.nums, ¬s.Clear k := by
        intro k hk hc
        have := h.frees_pos hk hc
        omega
      refine ⟨⟨?_, ?_, fun k hk => ?_⟩, ?_, ?_⟩
      · rw [hstep]
        exact Frame.refl _ _ _
      · rw [hrun]
        exact iff_of_true (show -ENOMEM < 0 by decide) hnone
      · rw [hrun, ENOMEM] at hk
        omega
      · rwa [hstep]
      · rwa [hstep]
    · obtain ⟨k, hk, hc, -, hrun⟩ := fatAllocClus_of_free hwf h file hpos
      have hstep : s.step (.allocClus file) = s.mark k := congrArg (fun r => r.2.2) hrun
      refine ⟨⟨?_, ?_, fun l hl => ?_⟩, ?_, ?_⟩
      · rw [hstep]
        exact frame_mark hwf hk
      · rw [hrun]
        exact iff_of_false (not_lt.2 (Int.natCast_nonneg k)) fun hnone => hnone k hk hc
      · rw [hrun, Nat.cast_inj] at hl
        rw [← hl]
        exact ⟨hk, hc⟩
      · rw [hstep]
        exact h.mark hwf hk hc
      · rw [hstep]
        exact wellFormed_mark hwf _

/-- A call after which the free clusters are still counted is a clean one. -/
theorem clean_of_accounted (hwf : s.rgn.WellFormed) (h : s.Accounted) {op : ClusOp}
    (hint : ∀ ost, op = .setClus ost → 0 ≤ ost ∧ ost < 2147483648)
    (hnext : (s.step op).Accounted) : s.Clean op := by
  cases op with
  | allocClus file => trivial
  | setClus ost =>
    obtain ⟨h₀, hlt⟩ := hint ost rfl
    rw [step, fatSetClus_eq hwf h₀ hlt] at hnext
    obtain ⟨hk, hc⟩ := (h.mark_iff hwf).1 hnext
    exact ⟨by omega, hc⟩

theorem RunOk.accounted {ops : List ClusOp} (h : s.RunOk ops) : s.Accounted := by
  cases ops with
  | nil => exact h
  | cons op ops => exact h.1

theorem runOk_iff (hwf : s.rgn.WellFormed) (h : s.Accounted) {ops : List ClusOp}
    (hints : ∀ ost, ClusOp.setClus ost ∈ ops → 0 ≤ ost ∧ ost < 2147483648) :
    s.RunOk ops ↔ s.RunClean ops := by
  induction ops generalizing s with
  | nil => exact iff_of_true h trivial
  | cons op ops ih =>
    have hint : ∀ ost, op = .setClus ost → 0 ≤ ost ∧ ost < 2147483648 := by
      rintro ost rfl
      exact hints ost List.mem_cons_self
    have hrest : ∀ ost, ClusOp.setClus ost ∈ ops → 0 ≤ ost ∧ ost < 2147483648 :=
      fun ost hmem => hints ost (List.mem_cons_of_mem op hmem)
    constructor
    · rintro ⟨-, -, hrun⟩
      have hclean := clean_of_accounted hwf h hint hrun.accounted
      obtain ⟨-, hnext, hwf'⟩ := step_of_clean hwf h hint hclean
      exact ⟨hclean, (ih hwf' hnext hrest).1 hrun⟩
    · rintro ⟨hclean, hrun⟩
      obtain ⟨hok, hnext, hwf'⟩ := step_of_clean hwf h hint hclean
      exact ⟨h, hok, (ih hwf' hnext hrest).2 hrun⟩

theorem Fresh.accounted (h : s.Fresh) : s.Accounted := by
  have hsize := h.wf.size
  rw [Accounted, h.frees, Nat.count_eq_card_filter_range, Finset.filter_true_of_mem,
    Finset.card_range]
  intro k hk
  rw [Finset.mem_range] at hk
  exact h.clear k (by omega)

/-- The clusters are accounted for, whatever the order of the calls, exactly in the runs that mark no
cluster twice and none outside the region. -/
theorem cluster_accounting_iff (s : ClusState) (hs : s.Fresh) (ops : List ClusOp)
    (hints : ∀ ost, ClusOp.setClus ost ∈ ops → 0 ≤ ost ∧ ost < 2147483648) :
    s.RunOk ops ↔ s.RunClean ops :=
  runOk_iff hs.wf hs.accounted hints

/-- A region of two clusters over a memory of zeros. -/
def twoClusters : ClusState := ⟨⟨fun _ => 0⟩, ⟨2, 2, ⟨0x1000, 32, 1⟩⟩⟩

theorem fresh_twoClusters : twoClusters.Fresh :=
  ⟨⟨by decide, rfl, rfl, by decide⟩, by decide, rfl⟩

/-- Cluster 1 is found on the disk, cluster 0 is handed out. -/
theorem cluster_accounting_iff_two :
    twoClusters.RunOk [.setClus 1, .allocClus FatFile.zero] := by
  apply (cluster_accounting_iff twoClusters fresh_twoClusters _ ?_).2
  · exact ⟨⟨by decide, by decide⟩, trivial, trivial⟩
  · intro ost hmem
    simp at hmem
    omega

/-- Two entries carry cluster 1: no cluster is counted as free, and cluster 0 is. -/
theorem cluster_accounting_iff_fails : ¬∀ (s : ClusState) (ops : List ClusOp), s.Fresh →
    (∀ ost, ClusOp.setClus ost ∈ ops → 0 ≤ ost ∧ ost < 2147483648) → s.RunOk ops := by
  intro hall
  have hints : ∀ ost, ClusOp.setClus ost ∈ [ClusOp.setClus 1, .setClus 1] →
      0 ≤ ost ∧ ost < 2147483648 := by
    intro ost hmem
    simp at hmem
    omega
  have hrun := hall twoClusters _ fresh_twoClusters hints
  obtain ⟨-, ⟨-, hclear⟩, -⟩ :=
    (runOk_iff fresh_twoClusters.wf fresh_twoClusters.accounted hints).1 hrun
  exact absurd hclear (by decide)

end ClusState

end YohdaOS.Fat

import YohdaOS.Lib.Turns
import YohdaOS.Pool.InitSpec

/-!
# How the data is divided among the pools

`pool_calc_size` gives the classes a share in turn; a class whose share is more than what is left is
passed over.  So every class has at most as many shares as the one before it, and what is left in
the end is less than the smallest share.
-/

namespace YohdaOS

open ByteMem Turns

/-- The `d` bytes of data are divided into the areas of the classes and a remainder. -/
structure PoolPartition (d : ℕ) (rmd : ℤ) (pools : ℕ → Pool) : Prop where
  ll : ∀ i < 7, (pools i).chunk = 16 * 2 ^ i ∧ (pools i).ll = 128 * ((pools i).chunk + 4)
  multiple : ∀ i < 7, (pools i).ll ∣ (pools i).size
  sum : ∑ i ∈ Finset.range 7, ((pools i).size : ℤ) + rmd = d
  rmd_nonneg : 0 ≤ rmd
  rmd_lt : rmd < (pools 0).ll
  units : ∀ i j, i ≤ j → j < 7 → (pools j).size / (pools j).ll ≤ (pools i).size / (pools i).ll
  least : ∑ i ∈ Finset.range 7, (pools i).ll ≤ d → ∀ i < 7, (pools i).ll ≤ (pools i).size

/-- The areas of the classes follow one another in the region and hold whole chunks. -/
structure PoolAreas (base size : ℕ) (pools : ℕ → Pool) : Prop where
  succ : ∀ i < 6, (pools (i + 1)).base = (pools i).base + (pools i).size
  apart : ∀ i j, i < j → j < 7 → (pools i).base + (pools i).size ≤ (pools j).base
  inside : ∀ i < 7, base ≤ (pools i).base ∧ (pools i).base + (pools i).size ≤ base + size
  frees : ∀ i < 7, (pools i).frees * ((pools i).chunk + POOL_HEADER_SIZE) = (pools i).size

theorem areaOffset_eq_sum (pools : ℕ → Pool) (n : ℕ) :
    (areaOffset pools n : ℤ) = ∑ i ∈ Finset.range n, ((pools i).size : ℤ) := by
  induction n with
  | zero => rfl
  | succ n ih =>
    rw [areaOffset, Finset.sum_range_succ, ← ih]
    push_cast
    rfl

/-! ## The loop -/

section Loop

variable {num fuel i : ℕ} {rmd : ℤ} {pools : ℕ → Pool}

/-- What a share taken and a share refused keep holds when the loop is left. -/
theorem poolCalcSizeLoop_invariant {P : ℕ → ℤ → (ℕ → Pool) → Prop}
    (htake : ∀ i rmd pools, P i rmd pools → 0 ≤ rmd - (pools (i % num)).ll →
      P (i + 1) (rmd - (pools (i % num)).ll) (Function.update pools (i % num) { pools (i % num) with
        size := u32 ((pools (i % num)).size + toU32 (pools (i % num)).ll) }))
    (hskip : ∀ i rmd pools, P i rmd pools → rmd - (pools (i % num)).ll < 0 → P (i + 1) rmd pools)
    (h : P i rmd pools) : ∃ i', P i' (poolCalcSizeLoop num fuel i rmd pools).1
      (poolCalcSizeLoop num fuel i rmd pools).2 := by
  induction fuel generalizing i rmd pools with
  | zero => exact ⟨i, h⟩
  | succ fuel ih =>
    rw [poolCalcSizeLoop]
    split_ifs with hgo
    · by_cases hle : 0 ≤ rmd - (pools (i % num)).ll
      · simp only [ge_iff_le, if_pos hle]
        exact ih (htake i rmd pools h hle)
      · simp only [ge_iff_le, if_neg hle]
        exact ih (hskip i rmd pools h (not_le.1 hle))
    · exact ⟨i, h⟩

/-- Once the test of the loop has failed, more rounds change nothing. -/
theorem poolCalcSizeLoop_of_le {more : ℕ} (hmore : fuel ≤ more)
    (hend : (poolCalcSizeLoop num fuel i rmd pools).1 <
      ((poolCalcSizeLoop num fuel i rmd pools).2 0).ll) :
    poolCalcSizeLoop num more i rmd pools = poolCalcSizeLoop num fuel i rmd pools := by
  induction fuel generalizing more i rmd pools with
  | zero =>
    have hstop : ¬rmd ≥ (pools 0).ll := not_le.2 hend
    cases more with
    | zero => rfl
    | succ more => rw [poolCalcSizeLoop, poolCalcSizeLoop, if_neg hstop]
  | succ fuel ih =>
    obtain ⟨more, rfl⟩ := Nat.exists_eq_succ_of_ne_zero (by omega : more ≠ 0)
    rw [poolCalcSizeLoop] at hend ⊢
    rw [poolCalcSizeLoop]
    split_ifs at hend ⊢ with hgo
    · by_cases hle : 0 ≤ rmd - (pools (i % num)).ll
      · simp only [ge_iff_le, if_pos hle] at hend ⊢
        exact ih (by omega) hend
      · simp only [ge_iff_le, if_neg hle] at hend ⊢
        exact ih (by omega) hend
    · rfl

end Loop

/-- Before round `i` of the loop the classes have taken their shares in turn. -/
structure Shared (d i : ℕ) (rmd : ℤ) (pools : ℕ → Pool) : Prop where
  dealt : Dealt d rmd pools
  fair : ∃ units, Fair 7 share i rmd units ∧ ∀ j < 7, ((pools j).size : ℤ) = share j * units j

theorem Shared.take {d i : ℕ} (hd : d < 4294967296) {rmd : ℤ} {pools : ℕ → Pool}
    (h : Shared d i rmd pools) (hle : 0 ≤ rmd - (pools (i % 7)).ll) :
    Shared d (i + 1) (rmd - (pools (i % 7)).ll) (Function.update pools (i % 7) { pools (i % 7) with
      size := u32 ((pools (i % 7)).size + toU32 (pools (i % 7)).ll) }) := by
  have hmod : i % 7 < 7 := Nat.mod_lt i (by decide)
  obtain ⟨hdealt, units, hfair, hsize⟩ := h
  refine ⟨hdealt.deal hd hmod hle, Function.update units (i % 7) (units (i % 7) + 1), ?_,
    fun j hj => ?_⟩
  · rw [hdealt.ll _ hmod] at hle ⊢
    exact hfair.take (by decide) (share_pos _).le (fun j _ => share_mono (Nat.le_succ j)) (by omega)
  · by_cases hij : j = i % 7
    · subst hij
      rw [Function.update_self, Function.update_self, hdealt.size_take hd hmod hle, hsize _ hj]
      push_cast
      ring
    · rw [Function.update_of_ne hij, Function.update_of_ne hij]
      exact hsize j hj

theorem Shared.skip {d i : ℕ} {rmd : ℤ} {pools : ℕ → Pool} (h : Shared d i rmd pools)
    (hlt : rmd - (pools (i % 7)).ll < 0) : Shared d (i + 1) rmd pools := by
  obtain ⟨hdealt, units, hfair, hsize⟩ := h
  rw [hdealt.ll _ (Nat.mod_lt i (by decide))] at hlt
  exact ⟨hdealt, units, hfair.skip (by omega), hsize⟩

/-- `pool_calc_size` leaves the loop by its test and has divided the data. -/
theorem Undealt.partition {s : Mm} (h : Undealt s) {d : ℕ} (hd : 1 ≤ d) (hmax : d < 2147483648) :
    PoolPartition d (poolCalcSize s d).1 (poolCalcSize s d).2.pools ∧
      ∀ more, 7 * (d + 1) ≤ more →
        poolCalcSizeLoop 7 more 0 d s.pools = ((poolCalcSize s d).1, (poolCalcSize s d).2.pools) := by
  obtain ⟨rmd, pools, hcalc, hloop, hdealt, hlt⟩ := h.calcSize hd hmax
  have hll (i : ℕ) (hi : i < 7) : (pools i).ll = share i := hdealt.ll i hi
  have hstart : Shared d 0 d s.pools :=
    ⟨h.dealt d, fun _ => 0, Fair.start 7 share d, fun j hj => by rw [h.pools j hj]; simp⟩
  obtain ⟨i', -, units, hfair, hsize⟩ := poolCalcSizeLoop_invariant (P := Shared d)
    (fun i rmd pools => Shared.take (by omega)) (fun i rmd pools => Shared.skip) hstart
  rw [hloop] at hsize hfair
  have hunits (i : ℕ) (hi : i < 7) : ((pools i).size : ℤ) / (pools i).ll = units i := by
    rw [hsize i hi, hll i hi, Int.mul_ediv_cancel_left _ (share_pos i).ne']
  have hshares : ∑ i ∈ Finset.range 7, (pools i).ll = sharesFrom 0 := by
    rw [Finset.sum_congr rfl fun i hi => hll i (Finset.mem_range.1 hi)]
    decide
  rw [hcalc]
  refine ⟨⟨fun i hi => ?_, fun i hi => ?_, ?_, hdealt.rmd_nonneg, ?_, fun i j hij hj => ?_,
    fun hle i hi => ?_⟩, fun more hmore => ?_⟩
  · rw [hll i hi, hdealt.chunk i hi, share, stride]
    refine ⟨rfl, ?_⟩
    push_cast
    ring
  · rw [hll i hi, hsize i hi]
    exact Dvd.intro _ rfl
  · rw [← areaOffset_eq_sum]
    exact hdealt.sum
  · rwa [hll 0 (by decide)]
  · rw [hunits i (by omega), hunits j hj]
    exact_mod_cast hfair.units_le hij hj
  · have hgrow := poolCalcSizeLoop_share (by omega) (7 * (d + 1)) 0 d s.pools (h.dealt d) (by omega)
      (hshares ▸ hle) fun j _ hj => absurd hj (Nat.not_lt_zero j)
    rw [hloop] at hgrow
    rw [hll i hi]
    exact hgrow i hi
  · rw [← hloop]
    apply poolCalcSizeLoop_of_le hmore
    rw [hloop, hll 0 (by decide)]
    exact hlt

/-! ## The areas -/

theorem PoolPartition.congr {d : ℕ} {rmd : ℤ} {pools pools' : ℕ → Pool}
    (h : PoolPartition d rmd pools) (hchunk : ∀ i < 7, (pools' i).chunk = (pools i).chunk)
    (hll : ∀ i < 7, (pools' i).ll = (pools i).ll) (hsize : ∀ i < 7, (pools' i).size = (pools i).size) :
    PoolPartition d rmd pools' where
  ll i hi := by rw [hchunk i hi, hll i hi]; exact h.ll i hi
  multiple i hi := by rw [hll i hi, hsize i hi]; exact h.multiple i hi
  sum := by
    rw [Finset.sum_congr rfl fun i hi => by rw [hsize i (Finset.mem_range.1 hi)]]
    exact h.sum
  rmd_nonneg := h.rmd_nonneg
  rmd_lt := by rw [hll 0 (by decide)]; exact h.rmd_lt
  units i j hij hj := by
    rw [hll i (by omega), hll j hj, hsize i (by omega), hsize j hj]
    exact h.units i j hij hj
  least hle i hi := by
    rw [Finset.sum_congr rfl fun i hi => hll i (Finset.mem_range.1 hi)] at hle
    rw [hll i hi, hsize i hi]
    exact h.least hle i hi

/-- `pl_init` lays the areas out one after another behind the descriptors. -/
theorem plInitAreas_areas {base d : ℕ} {rmd : ℤ} {s : Mm} (h : PoolPartition d rmd s.pools) :
    PoolPartition d rmd (plInitAreas 7 0 (base + 168) s).pools ∧
      PoolAreas base (d + 168) (plInitAreas 7 0 (base + 168) s).pools := by
  obtain ⟨pools', m', hareas, -, -, hpools⟩ := plInitAreas_spec (base + 168) 7 0 s
  rw [show areaOffset s.pools 0 = 0 from rfl, Nat.add_zero] at hareas
  rw [hareas]
  show PoolPartition d rmd pools' ∧ PoolAreas base (d + 168) pools'
  have hdesc (i : ℕ) (hi : i < 7) : pools' i = { s.pools i with
      base := base + 168 + areaOffset s.pools i
      head := base + 168 + areaOffset s.pools i
      frees := (s.pools i).size / ((s.pools i).chunk + POOL_HEADER_SIZE) } := by
    rw [hpools i, if_pos (by omega)]
  have hstep (i : ℕ) : areaOffset s.pools (i + 1) = areaOffset s.pools i + (s.pools i).size := rfl
  have htotal : areaOffset s.pools 7 ≤ d := by
    have hsum := h.sum
    have hnn := h.rmd_nonneg
    rw [← areaOffset_eq_sum] at hsum
    omega
  refine ⟨h.congr (fun i hi => by rw [hdesc i hi]) (fun i hi => by rw [hdesc i hi])
    fun i hi => by rw [hdesc i hi], ?_⟩
  constructor
  · intro i hi
    rw [hdesc i (by omega), hdesc (i + 1) (by omega)]
    simp only [hstep, Nat.add_assoc]
  · intro i j hij hj
    have hmono := areaOffset_mono s.pools (Nat.succ_le_of_lt hij)
    rw [hdesc i (by omega), hdesc j hj]
    simp only [Nat.succ_eq_add_one, hstep] at hmono ⊢
    omega
  · intro i hi
    have hmono := areaOffset_mono s.pools (Nat.succ_le_of_lt hi)
    rw [Nat.succ_eq_add_one, hstep i] at hmono
    rw [hdesc i hi]
    simp only
    omega
  · intro i hi
    have hdvd := h.multiple i hi
    rw [hdesc i hi]
    apply Nat.div_mul_cancel
    have hstride : (((s.pools i).chunk + POOL_HEADER_SIZE : ℕ) : ℤ) ∣ (s.pools i).ll := by
      rw [(h.ll i hi).2]
      exact Dvd.intro_left 128 (by rw [POOL_HEADER_SIZE]; push_cast; rfl)
    exact Int.natCast_dvd_natCast.1 (hstride.trans hdvd)

/-- For every number of data bytes that is a positive int the loop of `pool_calc_size` ends, and it
divides the data among the classes; `pl_init` lays their areas out in its region. -/
theorem pool_partition_ok (d : ℕ) (hd : 1 ≤ d) (hmax : d < 2147483648) :
    (∀ s, Undealt s → PoolPartition d (poolCalcSize s d).1 (poolCalcSize s d).2.pools ∧
      ∀ more, 7 * (d + 1) ≤ more →
        poolCalcSizeLoop 7 more 0 d s.pools =
          ((poolCalcSize s d).1, (poolCalcSize s d).2.pools)) ∧
    ∀ s base, base ≠ 0 →
      PoolPartition d (plInit s base (d + 168)).1 (plInit s base (d + 168)).2.pools ∧
        PoolAreas base (d + 168) (plInit s base (d + 168)).2.pools := by
  refine ⟨fun s h => h.partition hd hmax, fun s base hbase => ?_⟩
  obtain ⟨s₂, hundealt, -, hinit⟩ := plInit_eq s hbase hd hmax
  rw [hinit]
  exact plInitAreas_areas (hundealt.partition hd hmax).1

theorem pool_partition_ok_page :
    PoolPartition 4096 (plInit (.boot ⟨fun _ => 0⟩ 4 12) 0x2000 4264).1
      (plInit (.boot ⟨fun _ => 0⟩ 4 12) 0x2000 4264).2.pools :=
  ((pool_partition_ok 4096 (by decide) (by decide)).2 (.boot ⟨fun _ => 0⟩ 4 12) 0x2000
    (by decide)).1

end YohdaOS

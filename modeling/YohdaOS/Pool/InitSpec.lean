import YohdaOS.Pool.Spec

/-!
# What `pl_init` sets up

`pool_calc_size` deals the data out in shares: a class receives 128 slots at a time, in turn with
the others, until less is left than the first class takes.
-/

namespace YohdaOS

open ByteMem Recycle

/-- The share of class `i`: 128 chunks with their headers. -/
def share (i : ℕ) : ℤ := (stride i : ℤ) * 128

/-- The bytes of the areas below class `i`. -/
def areaOffset (pools : ℕ → Pool) : ℕ → ℕ
  | 0 => 0
  | i + 1 => areaOffset pools i + (pools i).size

theorem areaOffset_congr {p q : ℕ → Pool} {n : ℕ} (h : ∀ i < n, (p i).size = (q i).size) :
    areaOffset p n = areaOffset q n := by
  induction n with
  | zero => rfl
  | succ n ih =>
    rw [areaOffset, areaOffset, ih fun i hi => h i (by omega), h n (by omega)]

/-- Enlarging the area of class `j` moves all that follow. -/
theorem areaOffset_update (pools : ℕ → Pool) (j n : ℕ) (p : Pool) :
    areaOffset (Function.update pools j p) n + (if j < n then (pools j).size else 0) =
      areaOffset pools n + if j < n then p.size else 0 := by
  induction n with
  | zero => rfl
  | succ n ih =>
    rw [areaOffset, areaOffset]
    rcases Nat.lt_trichotomy j n with h | rfl | h
    · rw [Function.update_of_ne (by omega), if_pos (by omega), if_pos (by omega)]
      rw [if_pos h, if_pos h] at ih
      omega
    · rw [Function.update_self, if_pos (by omega), if_pos (by omega)]
      rw [if_neg (by omega), if_neg (by omega)] at ih
      omega
    · rw [Function.update_of_ne (by omega), if_neg (by omega), if_neg (by omega)]
      rw [if_neg (by omega), if_neg (by omega)] at ih
      omega

theorem areaOffset_mono (pools : ℕ → Pool) {i j : ℕ} (h : i ≤ j) :
    areaOffset pools i ≤ areaOffset pools j := by
  induction h with
  | refl => exact le_rfl
  | step _ ih => exact le_trans ih (Nat.le_add_right _ _)

/-! ## Shares -/

/-- The pools while the data is dealt out: `total` bytes, `rmd` of them left. -/
structure Dealt (total : ℕ) (rmd : ℤ) (pools : ℕ → Pool) : Prop where
  chunk : ∀ i < 7, (pools i).chunk = 16 * 2 ^ i
  ll : ∀ i < 7, (pools i).ll = share i
  size : ∀ i < 7, stride i ∣ (pools i).size
  rmd_nonneg : 0 ≤ rmd
  sum : (areaOffset pools 7 : ℤ) + rmd = total

theorem share_pos (i : ℕ) : 0 < share i := by
  have := stride_pos i
  unfold share
  omega

/-- The area of a class grows by its share. -/
theorem Dealt.size_take {total : ℕ} (ht : total < 4294967296) {rmd : ℤ} {pools : ℕ → Pool}
    (h : Dealt total rmd pools) {j : ℕ} (hj : j < 7) (hle : 0 ≤ rmd - (pools j).ll) :
    ((u32 ((pools j).size + toU32 (pools j).ll) : ℕ) : ℤ) = (pools j).size + share j := by
  have hsum := h.sum
  have hpos := share_pos j
  have hoff := areaOffset_mono pools (show j + 1 ≤ 7 by omega)
  rw [areaOffset] at hoff
  rw [h.ll j hj] at hle ⊢
  unfold u32 toU32
  omega

/-- One share leaves the rest. -/
theorem Dealt.deal {total : ℕ} (ht : total < 4294967296) {rmd : ℤ} {pools : ℕ → Pool}
    (h : Dealt total rmd pools) {j : ℕ} (hj : j < 7) (hle : 0 ≤ rmd - (pools j).ll) :
    Dealt total (rmd - (pools j).ll) (Function.update pools j
      { pools j with size := u32 ((pools j).size + toU32 (pools j).ll) }) := by
  have hll := h.ll j hj
  have hpos := share_pos j
  have hsum := h.sum
  have hoff := areaOffset_mono pools (show j + 1 ≤ 7 by omega)
  rw [areaOffset] at hoff
  have hshareZ : (share j : ℤ) = (stride j * 128 : ℕ) := by
    rw [share]
    push_cast
    rfl
  have hsize : u32 ((pools j).size + toU32 (pools j).ll) = (pools j).size + stride j * 128 := by
    have hgrown := h.size_take ht hj hle
    omega
  rw [hsize]
  set q : Pool := { pools j with size := (pools j).size + stride j * 128 } with hq
  have hupd := areaOffset_update pools j 7 q
  rw [if_pos hj, if_pos hj, show q.size = (pools j).size + stride j * 128 from rfl] at hupd
  refine ⟨fun i hi => ?_, fun i hi => ?_, fun i hi => ?_, hle, ?_⟩
  · by_cases hij : i = j
    · subst hij
      rw [Function.update_self]
      exact h.chunk i hi
    · rw [Function.update_of_ne hij]
      exact h.chunk i hi
  · by_cases hij : i = j
    · subst hij
      rw [Function.update_self]
      exact hll
    · rw [Function.update_of_ne hij]
      exact h.ll i hi
  · by_cases hij : i = j
    · subst hij
      rw [Function.update_self]
      exact (Nat.dvd_add_right (h.size i hi)).2 (Nat.dvd_mul_right _ _)
    · rw [Function.update_of_ne hij]
      exact h.size i hi
  · rw [hll, hshareZ]
    omega

/-- The loop deals out all but a remainder smaller than the first share: in seven rounds at least
the first class takes one. -/
theorem poolCalcSizeLoop_spec {total : ℕ} (ht : total < 4294967296) (fuel i : ℕ) (rmd : ℤ)
    (pools : ℕ → Pool) (h : Dealt total rmd pools)
    (hfuel : 7 * rmd + ((7 - i % 7) % 7 : ℕ) < fuel) :
    Dealt total (poolCalcSizeLoop 7 fuel i rmd pools).1 (poolCalcSizeLoop 7 fuel i rmd pools).2 ∧
      (poolCalcSizeLoop 7 fuel i rmd pools).1 < share 0 := by
  induction fuel generalizing i rmd pools with
  | zero =>
    have := h.rmd_nonneg
    omega
  | succ fuel ih =>
    rw [poolCalcSizeLoop]
    by_cases hge : rmd ≥ (pools 0).ll
    · rw [if_pos hge]
      have hj : i % 7 < 7 := Nat.mod_lt i (by decide)
      have hpos := share_pos (i % 7)
      have hll := h.ll (i % 7) hj
      by_cases hdeal : rmd - (pools (i % 7)).ll ≥ 0
      · simp only [if_pos hdeal]
        refine ih _ _ _ (h.deal ht hj hdeal) ?_
        omega
      · simp only [if_neg hdeal]
        refine ih _ _ _ h ?_
        -- the first class never comes away empty-handed
        have hne : i % 7 ≠ 0 := by
          intro h0
          rw [h0] at hdeal
          omega
        omega
    · rw [if_neg hge]
      rw [h.ll 0 (by decide)] at hge
      exact ⟨h, not_le.1 hge⟩

/-- The bytes of one share of every class from class `i` on. -/
def sharesFrom (i : ℕ) : ℤ := ((List.range 7).drop i).foldr (fun j n => share j + n) 0

theorem sharesFrom_of_lt {i : ℕ} (hi : i < 7) : sharesFrom i = share i + sharesFrom (i + 1) := by
  unfold sharesFrom
  rw [List.drop_eq_getElem_cons (by simpa using hi), List.foldr_cons, List.getElem_range]

theorem sharesFrom_nonneg (i : ℕ) : 0 ≤ sharesFrom i := by
  unfold sharesFrom
  induction (List.range 7).drop i with
  | nil => exact le_rfl
  | cons j l ih =>
    have := share_pos j
    rw [List.foldr_cons]
    omega

theorem sharesFrom_of_ge {i : ℕ} (hi : 7 ≤ i) : sharesFrom i = 0 := by
  unfold sharesFrom
  rw [List.drop_eq_nil_of_le (by rw [List.length_range]; exact hi)]
  rfl

theorem share_mono {i j : ℕ} (h : i ≤ j) : share i ≤ share j := by
  have : 2 ^ i ≤ 2 ^ j := Nat.pow_le_pow_right (by decide) h
  unfold share stride
  omega

/-- Data for a share of every class gives every class at least one. -/
theorem poolCalcSizeLoop_share {total : ℕ} (ht : total < 4294967296) (fuel i : ℕ) (rmd : ℤ)
    (pools : ℕ → Pool) (h : Dealt total rmd pools) (hfuel : 7 ≤ i + fuel)
    (hrmd : sharesFrom i ≤ rmd) (hdone : ∀ j < 7, j < i → share j ≤ (pools j).size) :
    ∀ j < 7, share j ≤ ((poolCalcSizeLoop 7 fuel i rmd pools).2 j).size := by
  induction fuel generalizing i rmd pools with
  | zero => exact fun j hj => hdone j hj (by omega)
  | succ fuel ih =>
    have hmod : i % 7 < 7 := Nat.mod_lt i (by decide)
    rw [poolCalcSizeLoop]
    by_cases hge : rmd ≥ (pools 0).ll
    · rw [if_pos hge]
      by_cases hdeal : rmd - (pools (i % 7)).ll ≥ 0
      · simp only [if_pos hdeal]
        have hll := h.ll (i % 7) hmod
        have hpos := share_pos (i % 7)
        have hdealt := h.deal ht hmod hdeal
        have hsize := h.size_take ht hmod hdeal
        refine ih (i + 1) _ _ hdealt (by omega) ?_ fun j hj hji => ?_
        · by_cases hi : i < 7
          · rw [sharesFrom_of_lt hi] at hrmd
            rw [hll, Nat.mod_eq_of_lt hi]
            omega
          · rw [sharesFrom_of_ge (by omega)]
            exact hdeal
        · by_cases hj' : j = i % 7
          · subst hj'
            rw [Function.update_self, hsize]
            omega
          · rw [Function.update_of_ne hj']
            exact hdone j hj (by omega)
      · simp only [if_neg hdeal]
        refine ih (i + 1) _ _ h (by omega) ?_ fun j hj hji => hdone j hj ?_
        all_goals
          by_cases hi : i < 7
          · -- the rest covers the share of this class
            have hrest := sharesFrom_nonneg (i + 1)
            rw [sharesFrom_of_lt hi] at hrmd
            rw [h.ll (i % 7) hmod, Nat.mod_eq_of_lt hi] at hdeal
            omega
        · rw [sharesFrom_of_ge (by omega)]
          exact h.rmd_nonneg
        · omega
    · rw [if_neg hge]
      refine fun j hj => hdone j hj ?_
      by_contra hlt
      have hi : i < 7 := by omega
      have hrest := sharesFrom_nonneg (i + 1)
      have hmono := share_mono (Nat.zero_le i)
      rw [sharesFrom_of_lt hi] at hrmd
      rw [h.ll 0 (by decide)] at hge
      omega

/-! ## Descriptors and areas -/

theorem plInitChunks_spec (n i : ℕ) (hn : i + n ≤ 7) (pools : ℕ → Pool) (k : ℕ) :
    plInitChunks n i (16 * 2 ^ i : ℕ) pools k =
      if i ≤ k ∧ k < i + n then ⟨0, 0, 0, 0, 16 * 2 ^ k, share k⟩ else pools k := by
  induction n generalizing i pools with
  | zero => rw [plInitChunks, if_neg (by omega)]
  | succ n ih =>
    have hpow : 2 ^ (i + 1) ≤ 2 ^ 7 := Nat.pow_le_pow_right (by decide) (by omega)
    have hnext : toInt (((16 * 2 ^ i : ℕ) : ℤ) * 2) = (16 * 2 ^ (i + 1) : ℕ) :=
      toInt_double_chunk (show 16 * 2 ^ 7 < 2147483648 by decide) (by omega)
    have hlt := stride_lt (show i < 7 by omega)
    have hll : toInt ((POOL_HEADER_SIZE + ((16 * 2 ^ i : ℕ) : ℤ)) * POOL_CHUNK_LL_NUM) = share i := by
      have : (POOL_HEADER_SIZE + ((16 * 2 ^ i : ℕ) : ℤ)) * POOL_CHUNK_LL_NUM = share i := by
        simp only [POOL_HEADER_SIZE, POOL_CHUNK_LL_NUM, share, stride]
        push_cast
        ring
      rw [this, share]
      exact toInt_of_range (by omega) (by omega)
    rw [pow_succ] at hpow
    rw [plInitChunks, hnext, hll, toU32_natCast (by omega), ih (i + 1) (by omega)]
    by_cases hk : k = i
    · subst hk
      rw [if_neg (by omega), if_pos (by omega), Function.update_self]
    · rw [Function.update_of_ne hk]
      by_cases hin : i + 1 ≤ k ∧ k < i + 1 + n
      · rw [if_pos hin, if_pos (by omega)]
      · rw [if_neg hin, if_neg (by omega)]

/-- The areas follow one another from `b` on and are zero. -/
theorem plInitAreas_spec (b n i : ℕ) (s : Mm) :
    ∃ pools' m', plInitAreas n i (b + areaOffset s.pools i) s =
        { s with pools := pools', mem := m' } ∧
      Frame (b + areaOffset s.pools i) (b + areaOffset s.pools (i + n)) s.mem m' ∧
      (∀ x, b + areaOffset s.pools i ≤ x → x < b + areaOffset s.pools (i + n) → m'.byte x = 0) ∧
      ∀ k, pools' k = if i ≤ k ∧ k < i + n then
        { s.pools k with
          base := b + areaOffset s.pools k
          head := b + areaOffset s.pools k
          frees := (s.pools k).size / ((s.pools k).chunk + POOL_HEADER_SIZE) }
        else s.pools k := by
  induction n generalizing i s with
  | zero =>
    refine ⟨s.pools, s.mem, rfl, Frame.refl _ _ _, fun x hlo hhi => absurd hhi (by
      rw [Nat.add_zero]
      omega), fun k => ?_⟩
    rw [if_neg (by omega)]
  | succ n ih =>
    set p := s.pools i with hp
    set s₁ : Mm := { s with
      pools := Function.update s.pools i { p with
        base := b + areaOffset s.pools i
        head := b + areaOffset s.pools i
        frees := p.size / (p.chunk + POOL_HEADER_SIZE) }
      mem := fill s.mem (b + areaOffset s.pools i) 0 p.size } with hs₁
    have hoff (k : ℕ) : areaOffset s₁.pools k = areaOffset s.pools k := by
      refine areaOffset_congr fun j _ => ?_
      by_cases hj : j = i
      · subst hj
        simp [hs₁, hp]
      · simp [hs₁, hj]
    have hne (k : ℕ) (hk : k ≠ i) : s₁.pools k = s.pools k := Function.update_of_ne hk _ _
    obtain ⟨pools', m', heq, hf, hzero, hpools⟩ := ih (i + 1) s₁
    rw [hoff, hoff, show i + 1 + n = i + (n + 1) by omega] at *
    have hmono := areaOffset_mono s.pools (show i + 1 ≤ i + (n + 1) by omega)
    have hstep : areaOffset s.pools (i + 1) = areaOffset s.pools i + p.size := rfl
    refine ⟨pools', m', ?_, ?_, fun x hlo hhi => ?_, fun k => ?_⟩
    · rw [plInitAreas, Nat.add_assoc]
      exact heq
    · exact ((frame_fill _ _ _ _).mono le_rfl (by omega)).trans (hf.mono (by omega) le_rfl)
    · by_cases hx : x < b + areaOffset s.pools (i + 1)
      · rw [hf x (Or.inl hx)]
        exact byte_fill_zero _ hlo (by omega)
      · exact hzero x (by omega) hhi
    · rw [hpools k]
      by_cases hk : k = i
      · subst hk
        rw [if_neg (by omega), if_pos (by omega)]
        exact Function.update_self _ _ _
      · rw [hne k hk, hoff]
        by_cases hin : i + 1 ≤ k ∧ k < i + (n + 1)
        · rw [if_pos hin, if_pos (by omega)]
        · rw [if_neg hin, if_neg (by omega)]

/-- The state after `pl_init` has set up the `size` bytes from `base` on in `s`. -/
structure PoolPost (base : ℕ) (size : ℤ) (s s' : Mm) : Prop where
  inv : PoolInv s' fun _ => []
  base_eq : (s'.pools 0).base = base + 168
  end_le : (s'.pools 6).base + (s'.pools 6).size ≤ base + size.toNat
  head : ∀ i < 7, (s'.pools i).head = (s'.pools i).base
  share : 263848 ≤ size → ∀ i < 7, share i ≤ (s'.pools i).size
  frame : Frame base (base + size.toNat) s.mem s'.mem
  secBase : s'.secBase = base
  secSize : s'.secSize = if toInt size < 1 then s.secSize else toInt size
  bm : s'.bm = s.bm
  bud : s'.bud = s.bud
  lazy : s'.lazy = s.lazy
  links : s'.links = s.links
  pageAddr : s'.pageAddr = s.pageAddr

/-- The state of the pools after the second loop of `pl_init`. -/
theorem poolInv_init {s : Mm} (L : PoolLayout s)
    (hhead : ∀ i < 7, (s.pools i).head = (s.pools i).base)
    (hfrees : ∀ i < 7, (s.pools i).frees = s.cap i)
    (hzero : ∀ x, (s.pools 0).base ≤ x → x < (s.pools 6).base + (s.pools 6).size →
      s.mem.byte x = 0) : PoolInv s fun _ => [] := by
  refine ⟨L, fun i hi => ⟨s.cap i, Slots.empty _, ⟨rfl, ?_, fun k _ hk => ?_, hfrees i hi⟩, rfl⟩⟩
  · show (s.pools i).head = s.slot i 0
    rw [hhead i hi, Mm.slot, Nat.mul_zero, Nat.add_zero]
  · have hend := L.slot_end hi hk
    have harea := L.area_end hi
    have hbase := L.base_le hi
    have hlo : (s.pools i).base ≤ s.slot i k := Nat.le_add_right _ _
    have hstr : 4 ≤ stride i := Nat.le_add_left _ _
    exact load32_eq_zero fun x hx hx' => hzero x (by omega) (by omega)

theorem plSetLimits_eq (s : Mm) {base : ℕ} (hbase : base ≠ 0) (size : ℤ) :
    plSetLimits s base size = { s with
      pmm := ⟨base, size, 16, 1024, s.pmm.dataSize, 7⟩
      secBase := base
      secSize := if toInt size < 1 then s.secSize else toInt size } := by
  have hnum : log 2 (toU32 mmGetSecUlc) - log 2 (toU32 mmGetSecLlc) + 1 = 7 := by decide
  simp only [plSetLimits, hnum, mmSetSecSize, mmSetSecBase, if_neg hbase]
  split_ifs <;> rfl

/-- The descriptors as `pl_init` hands them to `pool_calc_size`. -/
structure Undealt (s : Mm) : Prop where
  num : s.pmm.num = 7
  pools : ∀ i < 7, s.pools i = ⟨0, 0, 0, 0, 16 * 2 ^ i, share i⟩

theorem Undealt.dealt {s : Mm} (h : Undealt s) (d : ℕ) : Dealt d d s.pools := by
  refine ⟨fun i hi => by rw [h.pools i hi], fun i hi => by rw [h.pools i hi],
    fun i hi => by rw [h.pools i hi]; exact Nat.dvd_zero _, by omega, ?_⟩
  have hzero : areaOffset s.pools 7 = 0 := by
    have := h.pools
    simp [areaOffset, this 0, this 1, this 2, this 3, this 4, this 5, this 6]
  rw [hzero]
  omega

/-- `pool_calc_size` stops with less left than the first class takes. -/
theorem Undealt.calcSize {s : Mm} (h : Undealt s) {d : ℕ} (hd : 1 ≤ d) (hmax : d < 2147483648) :
    ∃ (rmd : ℤ) (pools : ℕ → Pool), poolCalcSize s d = (rmd, { s with pools := pools }) ∧
      poolCalcSizeLoop 7 (7 * (d + 1)) 0 d s.pools = (rmd, pools) ∧
      Dealt d rmd pools ∧ rmd < share 0 := by
  have hfuel : 7 * (d : ℤ) + ((7 - 0 % 7) % 7 : ℕ) < (7 * (d + 1) : ℕ) := by
    rw [show (7 - 0 % 7) % 7 = 0 from rfl]
    omega
  obtain ⟨hdealt, hlt⟩ :=
    poolCalcSizeLoop_spec (by omega) (7 * (d + 1)) 0 d s.pools (h.dealt d) hfuel
  obtain ⟨r, hr⟩ : ∃ r, poolCalcSizeLoop 7 (7 * (d + 1)) 0 d s.pools = r := ⟨_, rfl⟩
  rw [hr] at hdealt hlt
  have hshare : share 0 = 2560 := rfl
  have hnn := hdealt.rmd_nonneg
  have hnum : s.pmm.num.toNat = 7 := by rw [h.num]; rfl
  refine ⟨r.1, r.2, ?_, hr, hdealt, hlt⟩
  simp only [poolCalcSize, if_neg (show ¬ (d : ℤ) < 1 by omega), hnum, Int.toNat_natCast, hr]
  rw [toInt_of_range (by omega) (by omega)]

/-- `pl_init` deals the `d` bytes behind the descriptors to the classes and lays out their areas. -/
theorem plInit_eq (s : Mm) {base d : ℕ} (hbase : base ≠ 0) (hd : 1 ≤ d) (hmax : d < 2147483648) :
    ∃ s₂ : Mm, Undealt s₂ ∧
      s₂ = { s with
        pmm := ⟨base, d + 168, 16, 1024, d, 7⟩
        pools := s₂.pools
        secBase := base
        secSize := if toInt (d + 168) < 1 then s.secSize else toInt (d + 168) } ∧
      plInit s base (d + 168) =
        ((poolCalcSize s₂ d).1, plInitAreas 7 0 (base + 168) (poolCalcSize s₂ d).2) := by
  obtain ⟨s₁, hs₁⟩ : ∃ s₁, plSetLimits s base (d + 168) = s₁ := ⟨_, rfl⟩
  have hlimits := plSetLimits_eq s hbase (d + 168)
  rw [hs₁] at hlimits
  have hpmm : s₁.pmm = ⟨base, d + 168, 16, 1024, s.pmm.dataSize, 7⟩ := by rw [hlimits]
  have hdata : plGetDataSize s₁ (d + 168) = d := by
    have hnum : s₁.pmm.num = 7 := by rw [hpmm]
    rw [plGetDataSize, hnum, if_neg (by omega), if_neg (by decide), sizeofPool,
      toInt_of_range (by omega) (by omega)]
    omega
  -- the state in which the sizes are calculated
  obtain ⟨s₂, hs₂⟩ : ∃ s₂ : Mm, s₂ = { s₁ with
    pmm := { s₁.pmm with dataSize := d }
    pools := plInitChunks 7 0 (16 : ℕ) s₁.pools } := ⟨_, rfl⟩
  refine ⟨s₂, ⟨by rw [hs₂, hpmm], fun i hi => ?_⟩, by rw [hs₂, hlimits], ?_⟩
  · have hchunks := plInitChunks_spec 7 0 (by decide) s₁.pools i
    rw [if_pos (by omega)] at hchunks
    rw [hs₂]
    exact hchunks
  · have hneg : ¬ (d : ℤ) < 0 := by omega
    simp only [plInit, if_neg hbase, if_neg (show ¬ (d : ℤ) + 168 < 1 by omega), hs₁, hdata,
      if_neg hneg, hpmm, hs₂]
    rfl

theorem plInit_post (s : Mm) {base : ℕ} {size : ℤ} (hbase : base ≠ 0) (hmin : 169 ≤ size)
    (hmax : size < 2147483816) (hfit : base + size < 4294967296) :
    (0 ≤ (plInit s base size).1 ∧ (plInit s base size).1 < share 0) ∧
      PoolPost base size s (plInit s base size).2 := by
  obtain ⟨d, rfl⟩ : ∃ d : ℕ, size = d + 168 := ⟨(size - 168).toNat, by omega⟩
  obtain ⟨s₂, hundealt, hs₂, hinit⟩ := plInit_eq s hbase (show 1 ≤ d by omega) (by omega)
  obtain ⟨rmd, pools, hcalc, hloop, hdealt, hlt⟩ := hundealt.calcSize (show 1 ≤ d by omega) (by omega)
  have hgrow (hd : sharesFrom 0 ≤ d) := poolCalcSizeLoop_share (by omega) (7 * (d + 1)) 0 d s₂.pools
    (hundealt.dealt d) (by omega) hd fun j _ hj => absurd hj (by omega)
  rw [hloop] at hgrow
  obtain ⟨s₃, hs₃⟩ : ∃ s₃ : Mm, s₃ = { s₂ with pools := pools } := ⟨_, rfl⟩
  have hpools₃ : s₃.pools = pools := by rw [hs₃]
  have hpmm₃ : s₃.pmm = ⟨base, d + 168, 16, 1024, d, 7⟩ := by rw [hs₃, hs₂]
  rw [hinit, hcalc, ← hs₃]
  refine ⟨⟨hdealt.rmd_nonneg, hlt⟩, ?_⟩
  rw [← hpools₃] at hdealt
  have hsum := hdealt.sum
  have hnn := hdealt.rmd_nonneg
  obtain ⟨pools', m', hareas, hf, hzero, hpools⟩ := plInitAreas_spec (base + 168) 7 0 s₃
  rw [show areaOffset s₃.pools 0 = 0 from rfl, Nat.add_zero] at hareas hf hzero
  rw [Nat.zero_add] at hf hzero
  rw [hareas]
  have hdesc (i : ℕ) (hi : i < 7) : pools' i = { s₃.pools i with
      base := base + 168 + areaOffset s₃.pools i
      head := base + 168 + areaOffset s₃.pools i
      frees := (s₃.pools i).size / ((s₃.pools i).chunk + POOL_HEADER_SIZE) } := by
    rw [hpools i, if_pos (by omega)]
  have hstep (i : ℕ) : areaOffset s₃.pools (i + 1) = areaOffset s₃.pools i + (s₃.pools i).size := rfl
  have hend := hstep 6
  have hbase₀ : (pools' 0).base = base + 168 := by
    rw [hdesc 0 (by decide)]
    rfl
  have hlast : (pools' 6).base + (pools' 6).size = base + 168 + areaOffset s₃.pools 7 := by
    rw [hdesc 6 (by decide), hend, Nat.add_assoc]
  have L : PoolLayout { s₃ with pools := pools', mem := m' } := by
    constructor <;> simp only [hpmm₃]
    · intro i hi
      rw [hdesc i hi]
      exact hdealt.chunk i hi
    · intro i hi
      rw [hdesc i hi]
      exact hdealt.size i hi
    · omega
    · intro i hi
      rw [hdesc i (by omega), hdesc (i + 1) (by omega), hstep, Nat.add_assoc (base + 168)]
    · omega
  have hmem : s₃.mem = s.mem := by rw [hs₃, hs₂]
  constructor
  case inv =>
    refine poolInv_init L (fun i hi => ?_) (fun i hi => ?_) fun x hlo hhi => ?_
    · simp only [hdesc i hi]
    · simp only [Mm.cap, hdesc i hi]
    · exact hzero x (by simp only [hbase₀] at hlo; omega) (by simp only [hlast] at hhi; omega)
  case base_eq => exact hbase₀
  case end_le =>
    simp only [hlast]
    omega
  case head =>
    intro i hi
    simp only [hdesc i hi]
  case share =>
    intro hsize i hi
    have hshares : sharesFrom 0 = 263680 := by decide
    have := hgrow (by omega) i hi
    rw [← hpools₃] at this
    simp only [hdesc i hi]
    exact this
  case frame =>
    rw [← hmem]
    exact hf.mono (by omega) (by omega)
  all_goals rw [hs₃, hs₂]

/-- `pl_init` accepts the regions that leave at least a byte behind the descriptors, as long as the
number of bytes is an `int`. -/
theorem plInit_ok_iff (s : Mm) {base : ℕ} {size : ℤ} (hfit : base + size < 4294967296) :
    0 ≤ (plInit s base size).1 ↔ base ≠ 0 ∧ 169 ≤ size ∧ size < 2147483816 := by
  refine ⟨fun hok => ?_, fun h => (plInit_post s h.1 h.2.1 h.2.2 hfit).1.1⟩
  have hbase : base ≠ 0 := by
    rintro rfl
    simp [plInit] at hok
  have hpos : ¬ size < 1 := by
    intro h
    simp [plInit, hbase, h] at hok
  have hnum : (plSetLimits s base size).pmm.num = 7 := by rw [plSetLimits_eq s hbase]
  have hdata : plGetDataSize (plSetLimits s base size) size = toInt (size - 168) := by
    rw [plGetDataSize, hnum, if_neg hpos, if_neg (by decide)]
    rfl
  have hge : 1 ≤ toInt (size - 168) := by
    by_contra hlt
    unfold plInit at hok
    rw [if_neg hbase, if_neg hpos] at hok
    simp only [hdata] at hok
    by_cases hneg : toInt (size - 168) < 0
    · rw [if_pos hneg] at hok
      simp at hok
    · rw [if_neg hneg] at hok
      simp [poolCalcSize, if_pos (show toInt (size - 168) < 1 by omega)] at hok
  unfold toInt at hge
  exact ⟨hbase, by omega, by omega⟩

theorem plInit_spec (s : Mm) {base : ℕ} {size : ℤ} (hfit : base + size < 4294967296)
    (hok : 0 ≤ (plInit s base size).1) : PoolPost base size s (plInit s base size).2 := by
  obtain ⟨hbase, hmin, hmax⟩ := (plInit_ok_iff s hfit).1 hok
  exact (plInit_post s hbase hmin hmax hfit).2

end YohdaOS

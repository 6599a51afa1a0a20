import YohdaOS.Pool.Core

/-!
# Where the pools lie

`PoolLayout` collects what `pl_init` fixes for good: the descriptors without their heads and
counters, and how the areas of the classes follow one another.  `poolCalcSize` is the loop that
decides how long the areas are.
-/

namespace YohdaOS

open ByteMem

/-- The bytes of a chunk of class `i` and its header. -/
def stride (i : ℕ) : ℕ := 16 * 2 ^ i + 4

/-- The number of chunks of class `i`. -/
def Mm.cap (s : Mm) (i : ℕ) : ℕ := (s.pools i).size / ((s.pools i).chunk + POOL_HEADER_SIZE)

/-- The address of header `k` of class `i`; the chunk follows it. -/
def Mm.slot (s : Mm) (i k : ℕ) : ℕ := (s.pools i).base + stride i * k

structure PoolLayout (s : Mm) : Prop where
  num : s.pmm.num = 7
  llc : s.pmm.llc = 16
  ulc : s.pmm.ulc = 1024
  chunk : ∀ i < 7, (s.pools i).chunk = 16 * 2 ^ i
  size : ∀ i < 7, stride i ∣ (s.pools i).size
  base_ge : 4 ≤ (s.pools 0).base
  base_succ : ∀ i < 6, (s.pools (i + 1)).base = (s.pools i).base + (s.pools i).size
  fits : (s.pools 6).base + (s.pools 6).size < 4294967296

/-- `s'` differs from `s` in memory and in the heads and counters of the pools at most. -/
structure PoolSame (s s' : Mm) : Prop where
  bm : s'.bm = s.bm
  bud : s'.bud = s.bud
  lazy : s'.lazy = s.lazy
  links : s'.links = s.links
  pageAddr : s'.pageAddr = s.pageAddr
  pmm : s'.pmm = s.pmm
  secBase : s'.secBase = s.secBase
  secSize : s'.secSize = s.secSize
  base : ∀ i, (s'.pools i).base = (s.pools i).base
  size : ∀ i, (s'.pools i).size = (s.pools i).size
  chunk : ∀ i, (s'.pools i).chunk = (s.pools i).chunk

theorem PoolSame.refl (s : Mm) : PoolSame s s := by
  constructor <;> intros <;> rfl

theorem PoolSame.trans {s₁ s₂ s₃ : Mm} (h₁ : PoolSame s₁ s₂) (h₂ : PoolSame s₂ s₃) :
    PoolSame s₁ s₃ where
  bm := h₂.bm.trans h₁.bm
  bud := h₂.bud.trans h₁.bud
  lazy := h₂.lazy.trans h₁.lazy
  links := h₂.links.trans h₁.links
  pageAddr := h₂.pageAddr.trans h₁.pageAddr
  pmm := h₂.pmm.trans h₁.pmm
  secBase := h₂.secBase.trans h₁.secBase
  secSize := h₂.secSize.trans h₁.secSize
  base i := (h₂.base i).trans (h₁.base i)
  size i := (h₂.size i).trans (h₁.size i)
  chunk i := (h₂.chunk i).trans (h₁.chunk i)

theorem PoolLayout.congr {s s' : Mm} (L : PoolLayout s) (hpmm : s'.pmm = s.pmm)
    (hpools : s'.pools = s.pools) : PoolLayout s' := by
  constructor <;> simp only [hpmm, hpools]
  · exact L.num
  · exact L.llc
  · exact L.ulc
  · exact L.chunk
  · exact L.size
  · exact L.base_ge
  · exact L.base_succ
  · exact L.fits

theorem PoolSame.layout {s s' : Mm} (h : PoolSame s s') (L : PoolLayout s) : PoolLayout s' := by
  constructor <;> simp only [h.pmm, h.base, h.size, h.chunk]
  · exact L.num
  · exact L.llc
  · exact L.ulc
  · exact L.chunk
  · exact L.size
  · exact L.base_ge
  · exact L.base_succ
  · exact L.fits

theorem PoolSame.cap {s s' : Mm} (h : PoolSame s s') (i : ℕ) : s'.cap i = s.cap i := by
  rw [Mm.cap, Mm.cap, h.size, h.chunk]

theorem PoolSame.slot {s s' : Mm} (h : PoolSame s s') (i : ℕ) : s'.slot i = s.slot i := by
  funext k
  rw [Mm.slot, Mm.slot, h.base]

/-- Moving the head and the counter of one pool. -/
theorem poolSame_update (s : Mm) (m : Mem) (i head frees : ℕ) : PoolSame s { s with
    mem := m, pools := Function.update s.pools i { s.pools i with head, frees } } := by
  constructor <;> try (intros; rfl)
  all_goals
    intro j
    by_cases hj : j = i
    · subst hj
      simp
    · simp [hj]

theorem same_plAlloc (s : Mm) (size : ℤ) : PoolSame s (plAlloc s size).2 := by
  simp only [plAlloc]
  split_ifs
  · exact PoolSame.refl s
  · exact PoolSame.refl s
  · exact PoolSame.refl s
  all_goals exact poolSame_update s s.mem _ _ _

theorem same_plFree (s : Mm) (addr : ℕ) : PoolSame s (plFree s addr) := by
  simp only [plFree]
  split_ifs
  · exact PoolSame.refl s
  · exact PoolSame.refl s
  · exact poolSame_update s _ _ _ _

theorem stride_pos (i : ℕ) : 0 < stride i := Nat.succ_pos _

theorem stride_lt {i : ℕ} (hi : i < 7) : stride i ≤ 1028 := by
  have : 2 ^ i ≤ 2 ^ 6 := Nat.pow_le_pow_right (by decide) (by omega)
  unfold stride
  omega

namespace PoolLayout

variable {s : Mm} (L : PoolLayout s)

include L

theorem cap_eq {i : ℕ} (hi : i < 7) : s.cap i = (s.pools i).size / stride i := by
  rw [Mm.cap, L.chunk i hi, stride, POOL_HEADER_SIZE]

theorem stride_mul_cap {i : ℕ} (hi : i < 7) : stride i * s.cap i = (s.pools i).size := by
  rw [L.cap_eq hi, Nat.mul_div_cancel' (L.size i hi)]

/-- The area of a class ends where the next one starts, or before. -/
theorem area_le {i j : ℕ} (hij : i < j) (hj : j < 7) :
    (s.pools i).base + (s.pools i).size ≤ (s.pools j).base := by
  induction j, hij using Nat.le_induction with
  | base => exact (L.base_succ i (by omega)).ge
  | succ j hij ih =>
    have := ih (by omega)
    rw [L.base_succ j (by omega)]
    omega

theorem base_le {i : ℕ} (hi : i < 7) : (s.pools 0).base ≤ (s.pools i).base := by
  rcases Nat.eq_zero_or_pos i with rfl | hpos
  · exact le_rfl
  · exact le_trans (Nat.le_add_right _ _) (L.area_le hpos hi)

theorem area_end {i : ℕ} (hi : i < 7) :
    (s.pools i).base + (s.pools i).size ≤ (s.pools 6).base + (s.pools 6).size := by
  rcases Nat.lt_or_eq_of_le (show i ≤ 6 by omega) with h | rfl
  · exact le_trans (L.area_le h (by omega)) (Nat.le_add_right _ _)
  · exact le_rfl

theorem slot_pos {i : ℕ} (hi : i < 7) (k : ℕ) : 0 < s.slot i k := by
  have := L.base_ge
  have := L.base_le hi
  unfold Mm.slot
  omega

/-- The frontier of a class is an address of the area or its end. -/
theorem slot_le {i k : ℕ} (hi : i < 7) (hk : k ≤ s.cap i) :
    s.slot i k ≤ (s.pools i).base + (s.pools i).size := by
  rw [← L.stride_mul_cap hi, Mm.slot]
  exact Nat.add_le_add_left (Nat.mul_le_mul_left _ hk) _

/-- A header and its chunk lie in the area of their class. -/
theorem slot_end {i k : ℕ} (hi : i < 7) (hk : k < s.cap i) :
    s.slot i k + stride i ≤ (s.pools i).base + (s.pools i).size := by
  have := L.slot_le hi (Nat.succ_le_of_lt hk)
  rwa [Mm.slot, Nat.mul_succ, ← Nat.add_assoc] at this

theorem slot_lt {i k : ℕ} (hi : i < 7) (hk : k ≤ s.cap i) : s.slot i k < 4294967296 :=
  lt_of_le_of_lt (le_trans (L.slot_le hi hk) (L.area_end hi)) L.fits

theorem cap_lt {i : ℕ} (hi : i < 7) : s.cap i < 4294967296 := by
  have hle := Nat.le_mul_of_pos_left (s.cap i) (stride_pos i)
  have := L.area_end hi
  have := L.fits
  rw [L.stride_mul_cap hi] at hle
  omega

/-- Two slots, of one class or of two, do not meet. -/
theorem slot_apart {i j k l : ℕ} (hi : i < 7) (hj : j < 7) (hk : k < s.cap i) (hl : l < s.cap j)
    (hne : ¬ (i = j ∧ k = l)) :
    s.slot i k + stride i ≤ s.slot j l ∨ s.slot j l + stride j ≤ s.slot i k := by
  have hki := L.slot_end hi hk
  have hlj := L.slot_end hj hl
  have hlo (i k : ℕ) : (s.pools i).base ≤ s.slot i k := Nat.le_add_right _ _
  have := hlo i k
  have := hlo j l
  rcases Nat.lt_trichotomy i j with h | rfl | h
  · have := L.area_le h hj
    omega
  · have hstep {k l : ℕ} (hkl : k < l) : s.slot i k + stride i ≤ s.slot i l := by
      have := Nat.mul_le_mul_left (stride i) (Nat.succ_le_of_lt hkl)
      rw [Nat.mul_succ] at this
      unfold Mm.slot
      omega
    rcases Nat.lt_trichotomy k l with h | rfl | h
    · exact Or.inl (hstep h)
    · exact absurd ⟨rfl, rfl⟩ hne
    · exact Or.inr (hstep h)
  · have := L.area_le h hi
    omega

omit L in
theorem slot_injective {i k l : ℕ} (h : s.slot i k = s.slot i l) : k = l :=
  Nat.eq_of_mul_eq_mul_left (stride_pos i) (Nat.add_left_cancel h)

end PoolLayout

end YohdaOS

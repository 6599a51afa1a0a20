import Mathlib.Tactic

/-!
# Counting along an interval

How `Nat.count` changes when a predicate changes at one place.
-/

namespace Counting

variable {p q : ℕ → Prop} [DecidablePred p] [DecidablePred q]

theorem count_congr {n : ℕ} (h : ∀ k < n, p k ↔ q k) : Nat.count p n = Nat.count q n := by
  rw [Nat.count_eq_card_filter_range, Nat.count_eq_card_filter_range]
  congr 1
  exact Finset.filter_congr fun k hk => h k (Finset.mem_range.1 hk)

/-- One more place satisfies the predicate. -/
theorem count_succ_of_flip {a n : ℕ} (ha : a < n) (hp : ¬ p a) (hq : q a)
    (h : ∀ k < n, k ≠ a → (p k ↔ q k)) : Nat.count q n = Nat.count p n + 1 := by
  rw [Nat.count_eq_card_filter_range, Nat.count_eq_card_filter_range]
  have hnot : a ∉ (Finset.range n).filter p := by simp [hp]
  rw [← Finset.card_insert_of_notMem hnot]
  congr 1
  ext k
  simp only [Finset.mem_filter, Finset.mem_range, Finset.mem_insert]
  by_cases hk : k = a
  · subst hk
    simp [ha, hq]
  · constructor
    · rintro ⟨hkn, hqk⟩
      exact Or.inr ⟨hkn, (h k hkn hk).2 hqk⟩
    · rintro (rfl | ⟨hkn, hpk⟩)
      · exact absurd rfl hk
      · exact ⟨hkn, (h k hkn hk).1 hpk⟩

end Counting

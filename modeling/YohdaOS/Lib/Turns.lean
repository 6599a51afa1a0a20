import Mathlib.Tactic

/-!
# Taking turns

`n` parties take turns; in its turn a party takes a share of what is left when that is enough for
it.  A party with a larger share is refused before one with a smaller share is, so that the numbers
of shares taken do not grow with the shares.
-/

namespace Turns

/-- The turns that party `j` of `n` has had before turn `i`. -/
def turns (n j i : ℕ) : ℕ := i / n + if j < i % n then 1 else 0

variable {n i j : ℕ}

theorem turns_zero (n j : ℕ) : turns n j 0 = 0 := by
  rw [turns, Nat.zero_div, Nat.zero_mod, if_neg (Nat.not_lt_zero j)]

/-- Turn `i` is that of party `i % n`. -/
theorem turns_succ (hj : j < n) : turns n j (i + 1) = turns n j i + if i % n = j then 1 else 0 := by
  have hmod := Nat.mod_lt i (by omega : 0 < n)
  have hi := Nat.div_add_mod i n
  unfold turns
  obtain hlt | heq := Nat.lt_or_eq_of_le (Nat.succ_le_of_lt hmod)
  · obtain ⟨hq, hr⟩ := (Nat.div_mod_unique (by omega : 0 < n)).2
      ⟨(by omega : i % n + 1 + n * (i / n) = i + 1), hlt⟩
    rw [hq, hr]
    split_ifs <;> omega
  · obtain ⟨hq, hr⟩ := (Nat.div_mod_unique (by omega : 0 < n)).2
      ⟨(by rw [Nat.mul_succ]; omega : 0 + n * (i / n + 1) = i + 1), (by omega : 0 < n)⟩
    rw [hq, hr]
    split_ifs <;> omega

/-- In the turn of a party the one before it is a turn ahead. -/
theorem turns_of_mod_succ (h : i % n = j + 1) : turns n j i = turns n (j + 1) i + 1 := by
  rw [turns, turns, if_pos (by omega), if_neg (by omega), Nat.add_zero]

/-- Before turn `i`, with `rest` left, party `j` has taken `units j` shares of `share j`: one in each
turn as long as the rest was enough. -/
structure Fair (n : ℕ) (share : ℕ → ℤ) (i : ℕ) (rest : ℤ) (units : ℕ → ℕ) : Prop where
  le : ∀ j < n, units j ≤ turns n j i
  eq : ∀ j < n, share j ≤ rest → units j = turns n j i
  succ_le : ∀ j, j + 1 < n → units (j + 1) ≤ units j

variable {share : ℕ → ℤ} {rest : ℤ} {units : ℕ → ℕ}

theorem Fair.start (n : ℕ) (share : ℕ → ℤ) (rest : ℤ) : Fair n share 0 rest fun _ => 0 where
  le _ _ := Nat.zero_le _
  eq j _ _ := (turns_zero n j).symm
  succ_le _ _ := le_rfl

/-- A party that is refused is refused for good. -/
theorem Fair.skip (h : Fair n share i rest units) (hlt : rest < share (i % n)) :
    Fair n share (i + 1) rest units where
  le j hj := (h.le j hj).trans (by rw [turns_succ hj]; exact Nat.le_add_right _ _)
  eq j hj hle := by
    have hne : i % n ≠ j := by
      rintro rfl
      exact absurd hle (not_le.2 hlt)
    rw [turns_succ hj, if_neg hne, h.eq j hj hle, Nat.add_zero]
  succ_le := h.succ_le

theorem Fair.take (h : Fair n share i rest units) (hn : 0 < n) (hpos : 0 ≤ share (i % n))
    (hmono : ∀ j, j + 1 < n → share j ≤ share (j + 1)) (hle : share (i % n) ≤ rest) :
    Fair n share (i + 1) (rest - share (i % n))
      (Function.update units (i % n) (units (i % n) + 1)) := by
  have hmod := Nat.mod_lt i hn
  have hown := h.eq _ hmod hle
  constructor
  · intro j hj
    rw [turns_succ hj]
    by_cases hij : i % n = j
    · subst hij
      rw [Function.update_self, if_pos rfl, hown]
    · rw [Function.update_of_ne (Ne.symm hij), if_neg hij, Nat.add_zero]
      exact h.le j hj
  · intro j hj hrest
    rw [turns_succ hj]
    by_cases hij : i % n = j
    · subst hij
      rw [Function.update_self, if_pos rfl, hown]
    · rw [Function.update_of_ne (Ne.symm hij), if_neg hij, Nat.add_zero]
      exact h.eq j hj (by omega)
  · intro j hj
    by_cases hself : i % n = j
    · subst hself
      rw [Function.update_of_ne (by omega), Function.update_self]
      exact (h.succ_le _ hj).trans (Nat.le_succ _)
    · by_cases hnext : i % n = j + 1
      · -- the party before this one has been served in every turn, too
        have hbefore := h.eq j (by omega) ((hmono j hj).trans (hnext ▸ hle))
        rw [← hnext, Function.update_self, Function.update_of_ne (by omega), hbefore, hown,
          turns_of_mod_succ hnext, hnext]
      · rw [Function.update_of_ne (Ne.symm hnext), Function.update_of_ne (Ne.symm hself)]
        exact h.succ_le j hj

/-- The numbers of shares do not grow with the shares. -/
theorem Fair.units_le (h : Fair n share i rest units) {k : ℕ} (hjk : j ≤ k) (hk : k < n) :
    units k ≤ units j := by
  induction k, hjk using Nat.le_induction with
  | base => exact le_rfl
  | succ k _ ih => exact (h.succ_le k hk).trans (ih (by omega))

end Turns

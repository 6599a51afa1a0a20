import Mathlib.Tactic

/-!
# Nested service by priority

What is served is a stack in which each entry comes before those that it interrupted.  A register
that knows only the set of them ends the right one when it ends the first.
-/

namespace Priority

variable {α : Type*} [LinearOrder α] {s t : Finset α} {x : α} {xs : List α}

/-- Without the first element. -/
def endFirst (s : Finset α) : Finset α := if h : s.Nonempty then s.erase (s.min' h) else s

theorem endFirst_subset (s : Finset α) : endFirst s ⊆ s := by
  unfold endFirst
  split_ifs
  · exact Finset.erase_subset _ _
  · exact Finset.Subset.refl _

/-- The set of a stack loses the top. -/
theorem endFirst_toFinset (h : (x :: xs).Pairwise (· < ·)) :
    endFirst (x :: xs).toFinset = xs.toFinset := by
  obtain ⟨hlt, -⟩ := List.pairwise_cons.1 h
  have hne : (x :: xs).toFinset.Nonempty := ⟨x, by simp⟩
  have hmin : (x :: xs).toFinset.min' hne = x := by
    apply (Finset.min'_eq_iff _ hne x).2
    refine ⟨by simp, fun y hy => ?_⟩
    rcases List.mem_cons.1 (List.mem_toFinset.1 hy) with rfl | hy
    · exact le_rfl
    · exact (hlt y hy).le
  have hx : x ∉ xs.toFinset := fun hx => lt_irrefl x (hlt x (List.mem_toFinset.1 hx))
  rw [endFirst, dif_pos hne, hmin, List.toFinset_cons, Finset.erase_insert hx]

theorem endFirst_of_subset_singleton (h : s ⊆ {x}) : endFirst s = ∅ := by
  rcases Finset.subset_singleton_iff.1 h with rfl | rfl
  · rw [endFirst, dif_neg Finset.not_nonempty_empty]
  · rw [endFirst, dif_pos (Finset.singleton_nonempty x), Finset.min'_singleton,
      Finset.erase_singleton]

end Priority

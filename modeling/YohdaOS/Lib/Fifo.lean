import Mathlib.Tactic

/-!
# Queues

A queue that is `q` before some operations and `q'` after them, with `ins` appended and `outs`
removed in between, satisfies `q ++ ins = outs ++ q'`.
-/

namespace Fifo

variable {α : Type*} {q q' q'' ins ins' outs outs' A C D : List α} {x : α}

/-- The queue went from `q` to `q'` while `ins` went in and `outs` came out. -/
def Moved (q ins outs q' : List α) : Prop := q ++ ins = outs ++ q'

theorem Moved.refl (q : List α) : Moved q [] [] q := by simp [Moved]

theorem Moved.put (q : List α) (x : α) : Moved q [x] [] (q ++ [x]) := by simp [Moved]

theorem Moved.take (x : α) (q : List α) : Moved (x :: q) [] [x] q := by simp [Moved]

theorem Moved.trans (h : Moved q ins outs q') (h' : Moved q' ins' outs' q'') :
    Moved q (ins ++ ins') (outs ++ outs') q'' := by
  unfold Moved at *
  rw [← List.append_assoc, h, List.append_assoc, h', List.append_assoc]

/-- What came out before `x` is what was queued before `x`. -/
theorem Moved.taken_eq (h : Moved (A ++ x :: C) ins outs (x :: D)) (hA : x ∉ A)
    (ht : x ∉ outs) : outs = A := by
  unfold Moved at h
  rw [List.append_assoc, List.cons_append] at h
  rcases List.append_eq_append_iff.1 h with ⟨E, rfl, hE⟩ | ⟨E, rfl, hE⟩
  · cases E with
    | nil => simp
    | cons y E =>
      obtain rfl : x = y := by simpa using congrArg List.head? hE
      simp at ht
  · cases E with
    | nil => simp
    | cons y E =>
      obtain rfl : x = y := by simpa using congrArg List.head? hE
      simp at hA

end Fifo

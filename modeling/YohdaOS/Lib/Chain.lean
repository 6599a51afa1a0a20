import Mathlib.Tactic

/-!
# Chains of links

`Chain next a l e` says that following `next` from `a` visits the nodes of `l` in order and then
arrives at `e`.
-/

namespace Chains

def Chain (next : ℕ → ℕ) : ℕ → List ℕ → ℕ → Prop
  | a, [], e => a = e
  | a, x :: l, e => a = x ∧ Chain next (next x) l e

variable {next next' : ℕ → ℕ} {a b e : ℕ} {l l' : List ℕ}

@[simp] theorem chain_nil : Chain next a [] e ↔ a = e := Iff.rfl

@[simp] theorem chain_cons {x : ℕ} :
    Chain next a (x :: l) e ↔ a = x ∧ Chain next (next x) l e := Iff.rfl

/-- A chain starts at its first node, or at its end. -/
theorem Chain.eq_headD (h : Chain next a l e) : a = l.headD e := by
  cases l with
  | nil => exact h
  | cons x l => exact h.1

/-- A chain depends on the links of its own nodes only. -/
theorem Chain.congr (h : Chain next a l e) (heq : ∀ x ∈ l, next' x = next x) :
    Chain next' a l e := by
  induction l generalizing a with
  | nil => exact h
  | cons x l ih =>
    obtain ⟨rfl, h⟩ := h
    refine ⟨rfl, ?_⟩
    rw [heq a List.mem_cons_self]
    exact ih h fun y hy => heq y (List.mem_cons_of_mem a hy)

/-- Following the links one by one. -/
theorem Chain.iterate (h : Chain next a l e) {i : ℕ} (hi : i < l.length) : next^[i] a = l[i] := by
  induction l generalizing a i with
  | nil => cases hi
  | cons x l ih =>
    obtain ⟨rfl, h⟩ := h
    cases i with
    | zero => rfl
    | succ i =>
      rw [Function.iterate_succ_apply, List.getElem_cons_succ]
      exact ih h (Nat.lt_of_succ_lt_succ hi)

/-- Linking a new node in front. -/
theorem Chain.push (h : Chain next a l e) (hb : b ∉ l) :
    Chain (Function.update next b a) b (b :: l) e := by
  refine ⟨rfl, ?_⟩
  rw [Function.update_self]
  exact h.congr fun x hx => Function.update_of_ne (by rintro rfl; exact hb hx) _ _

end Chains

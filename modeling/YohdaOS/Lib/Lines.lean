import Mathlib.Tactic

/-!
# Text in rows

Rows of a given width hold a text when they yield it one after another: a row ends where the text
has a line break, or where it is full.
-/

namespace Lines

variable {α : Type*} {nl c : α} {w : ℕ} {row cur text : List α} {rows : List (List α)}

/-- The rows hold the text; `nl` breaks its lines, and `w` is the width. -/
inductive Laid (nl : α) (w : ℕ) : List (List α) → List α → Prop
  | last {row : List α} : nl ∉ row → row.length ≤ w → Laid nl w [row] row
  | newline {row : List α} {rows : List (List α)} {text : List α} : nl ∉ row → row.length ≤ w →
      Laid nl w rows text → Laid nl w (row :: rows) (row ++ nl :: text)
  | wrap {row : List α} {rows : List (List α)} {text : List α} : nl ∉ row → row.length = w →
      Laid nl w rows text → Laid nl w (row :: rows) (row ++ text)

variable [DecidableEq α]

theorem filter_of_notMem (h : nl ∉ row) : (row.filter fun c => decide (c ≠ nl)) = row := by
  rw [List.filter_eq_self]
  intro c hc
  exact decide_eq_true (ne_of_mem_of_not_mem hc h)

/-- The rows have what the text has between its line breaks, in its order. -/
theorem Laid.flatten (h : Laid nl w rows text) :
    rows.flatten = text.filter fun c => decide (c ≠ nl) := by
  induction h with
  | last hnl _ => rw [List.flatten_singleton, filter_of_notMem hnl]
  | newline hnl _ _ ih =>
    rw [List.flatten_cons, ih, List.filter_append, filter_of_notMem hnl,
      List.filter_cons_of_neg (by simp)]
  | wrap hnl _ _ ih => rw [List.flatten_cons, ih, List.filter_append, filter_of_notMem hnl]

/-- The lines of a text whose first line begins with `cur`. -/
def linesFrom (nl : α) (cur text : List α) : List (List α) :=
  (text.splitOn nl).modifyHead (cur ++ ·)

@[simp] theorem linesFrom_nil (nl : α) (cur : List α) : linesFrom nl cur [] = [cur] := by
  simp [linesFrom]

@[simp] theorem linesFrom_empty (nl : α) (text : List α) : linesFrom nl [] text = text.splitOn nl := by
  have hid : (([] : List α) ++ ·) = id := funext List.nil_append
  rw [linesFrom, hid, List.modifyHead_id, id]

@[simp] theorem linesFrom_newline (nl : α) (cur text : List α) :
    linesFrom nl cur (nl :: text) = cur :: linesFrom nl [] text := by
  rw [linesFrom_empty, linesFrom, List.splitOn_cons_eq_if_modifyHead, if_pos (beq_self_eq_true nl),
    List.modifyHead_cons, List.append_nil]

theorem linesFrom_cons (h : c ≠ nl) (cur text : List α) :
    linesFrom nl cur (c :: text) = linesFrom nl (cur ++ [c]) text := by
  have happ : (cur ++ ·) ∘ (List.cons c) = (cur ++ [c] ++ ·) := by
    funext l
    simp
  simp [linesFrom, List.splitOn_cons_eq_if_modifyHead, h, List.modifyHead_modifyHead, happ]

theorem prefix_mem_linesFrom (nl : α) (cur text : List α) :
    ∃ l ∈ linesFrom nl cur text, cur <+: l := by
  induction text generalizing cur with
  | nil => exact ⟨cur, by simp, List.prefix_rfl⟩
  | cons c text ih =>
    by_cases hc : c = nl
    · subst hc
      exact ⟨cur, by simp, List.prefix_rfl⟩
    · obtain ⟨l, hl, hpre⟩ := ih (cur ++ [c])
      rw [linesFrom_cons hc]
      exact ⟨l, hl, (List.prefix_append cur [c]).trans hpre⟩

/-- Lines that are short enough are rows themselves. -/
theorem laid_linesFrom (hcur : nl ∉ cur) (h : ∀ l ∈ linesFrom nl cur text, l.length ≤ w) :
    Laid nl w (linesFrom nl cur text) (cur ++ text) := by
  induction text generalizing cur with
  | nil =>
    rw [linesFrom_nil] at h ⊢
    rw [List.append_nil]
    exact .last hcur (h cur (by simp))
  | cons c text ih =>
    by_cases hc : c = nl
    · subst hc
      rw [linesFrom_newline] at h ⊢
      refine .newline hcur (h cur (by simp)) (ih (by simp) fun l hl => h l ?_)
      exact List.mem_cons_of_mem cur hl
    · rw [linesFrom_cons hc] at h ⊢
      have hlaid := ih (by simp [hcur, Ne.symm hc]) h
      rwa [List.append_assoc, List.singleton_append] at hlaid

end Lines

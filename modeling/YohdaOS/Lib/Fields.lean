import Mathlib.Tactic

/-!
# Fields and words

The fields of a text end at each delimiter `d`, and the last one at the end of the text; behind a
delimiter at the end there is no field.  The words of a text are its maximal non-empty runs of
characters that are no delimiter.
-/

namespace Fields

variable {α : Type*} [DecidableEq α]

def fields (d : α) : List α → List (List α)
  | [] => []
  | c :: s =>
    if c = d then [] :: fields d s
    else match fields d s with
      | [] => [[c]]
      | t :: ts => (c :: t) :: ts

def words (p : α → Bool) (s : List α) : List (List α) := (s.splitOnP p).filter (· ≠ [])

variable {d c : α} {s a b : List α} {delim : List α}

theorem fields_cons_self (d : α) (s : List α) : fields d (d :: s) = [] :: fields d s := by
  rw [fields, if_pos rfl]

theorem fields_cons_of_nil (hc : c ≠ d) (h : fields d s = []) : fields d (c :: s) = [[c]] := by
  rw [fields, if_neg hc, h]

theorem fields_cons_of_cons (hc : c ≠ d) {t : List α} {ts : List (List α)}
    (h : fields d s = t :: ts) : fields d (c :: s) = (c :: t) :: ts := by
  rw [fields, if_neg hc, h]

/-- A field ends at the first delimiter. -/
theorem fields_append (h : d ∉ a) (b : List α) : fields d (a ++ d :: b) = a :: fields d b := by
  induction a with
  | nil => exact fields_cons_self d b
  | cons c a ih =>
    rw [List.mem_cons, not_or] at h
    exact fields_cons_of_cons (Ne.symm h.1) (ih h.2)

theorem fields_of_notMem (h : d ∉ a) (hne : a ≠ []) : fields d a = [a] := by
  induction a with
  | nil => exact absurd rfl hne
  | cons c a ih =>
    rw [List.mem_cons, not_or] at h
    cases a with
    | nil => exact fields_cons_of_nil (Ne.symm h.1) rfl
    | cons e a => exact fields_cons_of_cons (Ne.symm h.1) (ih h.2 (List.cons_ne_nil e a))

/-- Splitting the text yields its fields, and the empty text behind the last delimiter. -/
theorem splitOnP_eq_fields (d : α) (s : List α) :
    s.splitOnP (fun c => decide (c = d)) = fields d s ∨
      s.splitOnP (fun c => decide (c = d)) = fields d s ++ [[]] := by
  induction s with
  | nil => exact Or.inr rfl
  | cons c s ih =>
    rw [List.splitOnP_cons_eq_if_modifyHead]
    by_cases hc : c = d
    · subst hc
      rw [fields_cons_self, if_pos (decide_eq_true rfl)]
      obtain h | h := ih
      · rw [h]
        exact Or.inl rfl
      · rw [h]
        exact Or.inr rfl
    · rw [if_neg (by simpa using hc)]
      cases hf : fields d s with
      | nil =>
        rw [hf] at ih
        rw [fields_cons_of_nil hc hf]
        obtain h | h := ih
        · exact absurd h (List.splitOnP_ne_nil _ _)
        · rw [h]
          exact Or.inl rfl
      | cons t ts =>
        rw [hf] at ih
        rw [fields_cons_of_cons hc hf]
        obtain h | h := ih
        · rw [h]
          exact Or.inl rfl
        · rw [h]
          exact Or.inr rfl

theorem filter_fields (d : α) (s : List α) :
    (fields d s).filter (· ≠ []) = words (fun c => decide (c = d)) s := by
  rw [words]
  obtain h | h := splitOnP_eq_fields d s
  · rw [h]
  · rw [h, List.filter_append]
    simp

omit [DecidableEq α] in
theorem words_congr {p q : α → Bool} (h : ∀ c ∈ s, p c = q c) : words p s = words q s := by
  have hsplit : s.splitOnP p = s.splitOnP q := by
    induction s with
    | nil => rfl
    | cons c s ih =>
      rw [List.splitOnP_cons_eq_if_modifyHead, List.splitOnP_cons_eq_if_modifyHead,
        h c List.mem_cons_self, ih fun c hc => h c (List.mem_cons_of_mem _ hc)]
  rw [words, words, hsplit]

omit [DecidableEq α] in
/-- The words are what is left of the text without its delimiters. -/
theorem flatten_words (p : α → Bool) (s : List α) : (words p s).flatten = s.filter fun c => !p c := by
  have hflatten : (s.splitOnP p).flatten = s.filter fun c => !p c := by
    induction s with
    | nil => rfl
    | cons c s ih =>
      rw [List.splitOnP_cons_eq_if_modifyHead, List.filter_cons]
      cases hc : p c with
      | true => exact ih
      | false =>
        obtain ⟨t, ts, hts⟩ := List.exists_cons_of_ne_nil (List.splitOnP_ne_nil p s)
        rw [hts] at ih ⊢
        exact congrArg (List.cons c) ih
  rw [words, List.flatten_filter_ne_nil, hflatten]

omit [DecidableEq α] in
theorem words_eq_nil_iff {p : α → Bool} : words p s = [] ↔ ∀ c ∈ s, p c = true := by
  constructor
  · intro h c hc
    have hflat := flatten_words p s
    rw [h, List.flatten_nil, eq_comm, List.filter_eq_nil_iff] at hflat
    simpa using hflat c hc
  · intro h
    have hflat : (words p s).flatten = [] := by
      rw [flatten_words, List.filter_eq_nil_iff]
      intro c hc
      simp [h c hc]
    rw [List.eq_nil_iff_forall_not_mem]
    intro t ht
    exact absurd (List.flatten_eq_nil_iff.1 hflat t ht) (by simpa using (List.mem_filter.1 ht).2)

/-! ## Texts whose fields are their words -/

/-- The text does not begin with `d`, has no two of them side by side, and no other character of
`delim`. -/
structure Clean (d : α) (delim s : List α) : Prop where
  apart : List.IsChain (fun a b => ¬(a = d ∧ b = d)) (d :: s)
  only : ∀ c ∈ s, c ∈ delim → c = d

/-- An empty field is one behind a delimiter or at the start. -/
theorem fields_ne_nil_iff (d : α) (s : List α) :
    ((∀ t ∈ fields d s, t ≠ []) ↔ List.IsChain (fun a b => ¬(a = d ∧ b = d)) (d :: s)) ∧
    ∀ x ≠ d, (∀ t ∈ (fields d s).tail, t ≠ []) ↔
      List.IsChain (fun a b => ¬(a = d ∧ b = d)) (x :: s) := by
  induction s with
  | nil => simp [fields]
  | cons c s ih =>
    obtain ⟨hall, htail⟩ := ih
    by_cases hc : c = d
    · subst hc
      rw [fields_cons_self]
      refine ⟨by simp, fun x hx => ?_⟩
      rw [List.tail_cons, hall, List.isChain_cons_cons]
      exact (and_iff_right fun h => hx h.1).symm
    · have htl : (fields d (c :: s)).tail = (fields d s).tail := by
        cases hf : fields d s with
        | nil => rw [fields_cons_of_nil hc hf, List.tail_cons, List.tail_nil]
        | cons t ts => rw [fields_cons_of_cons hc hf, List.tail_cons, List.tail_cons]
      have hhead : (∀ t ∈ fields d (c :: s), t ≠ []) ↔ ∀ t ∈ (fields d (c :: s)).tail, t ≠ [] := by
        cases hf : fields d s with
        | nil => simp [fields_cons_of_nil hc hf]
        | cons t ts => simp [fields_cons_of_cons hc hf]
      rw [hhead, htl]
      constructor
      · rw [List.isChain_cons_cons, htail c hc]
        exact (and_iff_right fun h => hc h.2).symm
      · intro x _
        rw [List.isChain_cons_cons, htail c hc]
        exact (and_iff_right fun h => hc h.2).symm

theorem fields_eq_words_iff (hd : d ∈ delim) :
    fields d s = words (fun c => decide (c ∈ delim)) s ↔ Clean d delim s := by
  constructor
  · intro h
    refine ⟨(fields_ne_nil_iff d s).1.1 fun t ht => ?_, fun c hc hdelim => ?_⟩
    · rw [h] at ht
      simpa using (List.mem_filter.1 ht).2
    · have hflat := congrArg List.flatten h
      rw [← List.flatten_filter_ne_nil, filter_fields, flatten_words, flatten_words] at hflat
      by_contra hne
      have hmem : c ∈ s.filter fun c => !decide (c = d) := List.mem_filter.2 ⟨hc, by simpa using hne⟩
      rw [hflat] at hmem
      simpa [hdelim] using (List.mem_filter.1 hmem).2
  · rintro ⟨hapart, honly⟩
    have hne := (fields_ne_nil_iff d s).1.2 hapart
    have hsame : words (fun c => decide (c ∈ delim)) s = words (fun c => decide (c = d)) s := by
      refine words_congr fun c hc => ?_
      rw [decide_eq_decide]
      exact ⟨honly c hc, fun h => h ▸ hd⟩
    rw [hsame, ← filter_fields, List.filter_eq_self.2 fun t ht => decide_eq_true (hne t ht)]

end Fields

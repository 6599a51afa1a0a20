import YohdaOS.Lib.Fields
import YohdaOS.Text

/-!
# strtok

`strtok` keeps the string, its length and the place it has come to between the calls, and cuts the
string in place.  A token is told by its place in the string, NULL by `none`.
-/

namespace YohdaOS.Text

open Fields

/-- The static variables of `strtok`; `stk` is the array that they point to. -/
structure Strtok where
  stk : Option (List (BitVec 8))
  len : ℕ
  i : ℕ

/-- The loop of `strtok` over the `n` characters from `i` on: the place behind the first delimiter,
which is overwritten. -/
def strtokLoop (delim : BitVec 8) : ℕ → ℕ → List (BitVec 8) → ℕ × List (BitVec 8)
  | 0, i, stk => (i, stk)
  | n + 1, i, stk =>
    if stk.getD i 0 = delim then (i + 1, stk.set i 0) else strtokLoop delim n (i + 1) stk

def strtok (st : Strtok) (str : Option (List (BitVec 8))) (delim : List (BitVec 8)) :
    Option ℕ × Strtok :=
  let st : Strtok := match str with
    | some s => ⟨some s, strlen s, 0⟩
    | none => st
  match st.stk with
  | none => (none, st)
  | some stk =>
    let tmp := if st.i < st.len then some st.i else none
    let r := strtokLoop (delim.getD 0 0) (st.len - st.i) st.i stk
    (tmp, ⟨some r.2, st.len, r.1⟩)

/-- The string at a place of the array. -/
def Strtok.token (st : Strtok) (place : ℕ) : List (BitVec 8) := cstr ((st.stk.getD []).drop place)

/-- The tokens of `strtok(str, delim)`, `strtok(NULL, delim)` and so on until NULL is returned, or
nothing if that takes more than `fuel` calls. -/
def strtokAll (delim : List (BitVec 8)) :
    ℕ → Strtok → Option (List (BitVec 8)) → Option (List (List (BitVec 8)))
  | 0, _, _ => none
  | fuel + 1, st, str =>
    let r := strtok st str delim
    match r.1 with
    | none => some []
    | some place => (strtokAll delim fuel r.2 none).map fun ts => r.2.token place :: ts

variable {c d : BitVec 8} {delim a b u rest stk : List (BitVec 8)} {i n fuel : ℕ}

theorem getD_of_drop (h : stk.drop i = c :: rest) : stk.getD i 0 = c := by
  rw [List.getD_eq_getElem?_getD, ← List.head?_drop, h]
  rfl

theorem drop_succ_of_drop (h : stk.drop i = c :: rest) : stk.drop (i + 1) = rest := by
  rw [← List.tail_drop, h]
  rfl

theorem strtokLoop_of_mem (h : d ∉ a) (hstk : stk.drop i = a ++ d :: b) (hn : a.length < n) :
    strtokLoop d n i stk = (i + a.length + 1, stk.set (i + a.length) 0) := by
  induction a generalizing i n with
  | nil =>
    obtain ⟨n, rfl⟩ := Nat.exists_eq_succ_of_ne_zero (by omega : n ≠ 0)
    rw [strtokLoop, if_pos (getD_of_drop hstk)]
    rfl
  | cons c a ih =>
    rw [List.mem_cons, not_or] at h
    obtain ⟨n, rfl⟩ := Nat.exists_eq_succ_of_ne_zero (by omega : n ≠ 0)
    have hdrop : stk.drop (i + 1) = a ++ d :: b := drop_succ_of_drop hstk
    rw [List.length_cons] at hn ⊢
    rw [strtokLoop, getD_of_drop hstk, if_neg (Ne.symm h.1), ih h.2 hdrop (by omega)]
    congr 2 <;> omega

theorem strtokLoop_of_notMem (h : d ∉ u) (hstk : stk.drop i = u ++ rest) :
    strtokLoop d u.length i stk = (i + u.length, stk) := by
  induction u generalizing i with
  | nil => rfl
  | cons c u ih =>
    rw [List.mem_cons, not_or] at h
    have hdrop : stk.drop (i + 1) = u ++ rest := drop_succ_of_drop hstk
    rw [List.length_cons, strtokLoop, getD_of_drop hstk, if_neg (Ne.symm h.1), ih h.2 hdrop]
    congr 1
    omega

/-- A call on the rest `a ++ d :: b` of the string returns `a` and leaves `b`. -/
theorem strtok_of_mem (delim : List (BitVec 8)) (h : d ∉ a) (hzero : (0 : BitVec 8) ∉ a)
    (hstk : stk.drop i = a ++ d :: (b ++ 0 :: rest)) :
    ∃ stk', strtok ⟨some stk, i + (a ++ d :: b).length, i⟩ none (d :: delim) =
        (some i, ⟨some stk', i + a.length + 1 + b.length, i + a.length + 1⟩) ∧
      Strtok.token ⟨some stk', i + a.length + 1 + b.length, i + a.length + 1⟩ i = a ∧
      stk'.drop (i + a.length + 1) = b ++ 0 :: rest := by
  have hlen : i + (a ++ d :: b).length = i + a.length + 1 + b.length := by
    rw [List.length_append, List.length_cons]
    omega
  have hloop := strtokLoop_of_mem h hstk (show a.length < i + (a ++ d :: b).length - i by omega)
  have hdrop : (stk.set (i + a.length) 0).drop i = a ++ 0 :: (b ++ 0 :: rest) := by
    rw [List.drop_set, if_neg (by omega), hstk, Nat.add_sub_cancel_left, List.set_append_right _ _ le_rfl,
      Nat.sub_self, List.set_cons_zero]
  refine ⟨stk.set (i + a.length) 0, ?_, ?_, ?_⟩
  · simp only [strtok, List.getD_cons_zero, hloop]
    rw [if_pos (by omega), hlen]
  · rw [Strtok.token, Option.getD_some, hdrop, cstr_append_zero hzero]
  · rw [Nat.add_assoc, ← List.drop_drop, hdrop, ← List.drop_drop, List.drop_left]
    rfl

/-- The calls on the rest `u` of a string return its fields. -/
theorem strtokAll_rest (hzero : (0 : BitVec 8) ∉ u) (hstk : stk.drop i = u ++ 0 :: rest)
    (hfuel : u.length < fuel) :
    strtokAll (d :: delim) fuel ⟨some stk, i + u.length, i⟩ none = some (fields d u) := by
  induction fuel generalizing i u stk rest with
  | zero => omega
  | succ fuel ih =>
    by_cases hd : d ∈ u
    · obtain ⟨a, b, rfl, ha⟩ := List.eq_append_cons_of_mem hd
      rw [List.mem_append, List.mem_cons, not_or, not_or] at hzero
      rw [List.append_assoc, List.cons_append] at hstk
      obtain ⟨stk', hcall, htoken, hrest⟩ := strtok_of_mem delim ha hzero.1 hstk
      rw [List.length_append, List.length_cons] at hfuel
      simp only [strtokAll, hcall, htoken]
      rw [ih hzero.2.2 hrest (by omega), fields_append ha]
      rfl
    · have hloop := strtokLoop_of_notMem hd hstk
      obtain rfl | hne := eq_or_ne u []
      · simp only [strtokAll, strtok, List.length_nil, Nat.add_zero, lt_irrefl, if_false]
        rfl
      · have hpos := List.length_pos_iff.2 hne
        obtain ⟨fuel, rfl⟩ := Nat.exists_eq_succ_of_ne_zero (by omega : fuel ≠ 0)
        have hcall : strtok ⟨some stk, i + u.length, i⟩ none (d :: delim) =
            (some i, ⟨some stk, i + u.length, i + u.length⟩) := by
          simp only [strtok, List.getD_cons_zero, Nat.add_sub_cancel_left, hloop]
          rw [if_pos (by omega)]
        have hend : stk.drop (i + u.length) = [] ++ 0 :: rest := by
          rw [← List.drop_drop, hstk, List.drop_left]
          rfl
        have hlast := ih (by simp) hend (show ([] : List (BitVec 8)).length < fuel + 1 from
          Nat.succ_pos fuel)
        rw [List.length_nil, Nat.add_zero] at hlast
        rw [strtokAll]
        simp only [hcall, hlast]
        rw [Strtok.token, Option.getD_some, hstk, cstr_append_zero hzero, fields_of_notMem hd hne]
        rfl

/-- `strtok` on a string and then on NULL returns the fields of the string. -/
theorem strtokAll_eq (st : Strtok) (hzero : (0 : BitVec 8) ∉ u) (hlen : u.length ≠ INT_MAX)
    (hfuel : u.length < fuel) :
    strtokAll (d :: delim) fuel st (some (u ++ 0 :: rest)) = some (fields d u) := by
  have hstrlen : strlen (u ++ 0 :: rest) = 0 + u.length := by
    rw [strlen, cstr_append_zero hzero, Nat.zero_add]
    exact if_pos hlen
  have hfirst : strtokAll (d :: delim) fuel st (some (u ++ 0 :: rest)) =
      strtokAll (d :: delim) fuel ⟨some (u ++ 0 :: rest), 0 + u.length, 0⟩ none := by
    rw [← hstrlen]
    cases fuel <;> rfl
  rw [hfirst]
  exact strtokAll_rest hzero rfl hfuel

/-- The tokens of a string are the maximal runs of characters that are not in `delim` exactly when
it does not begin with the first character of `delim`, has no two of them side by side and has no
other character of `delim`.  A string whose length is INT_MAX has no tokens. -/
theorem strtok_words_iff (st : Strtok) (d : BitVec 8) (delim s rest : List (BitVec 8))
    (hzero : (0 : BitVec 8) ∉ s) : s.length ≤ INT_MAX →
    ((∀ fuel, s.length < fuel → strtokAll (d :: delim) fuel st (some (s ++ 0 :: rest)) =
      some (words (fun c => decide (c ∈ d :: delim)) s)) ↔
    if s.length = INT_MAX then ∀ c ∈ s, c ∈ d :: delim else Clean d (d :: delim) s) := by
  intro _
  have hfuel (ts : List (List (BitVec 8)))
      (h : ∀ fuel, s.length < fuel → strtokAll (d :: delim) fuel st (some (s ++ 0 :: rest)) = some ts) :
      (∀ fuel, s.length < fuel → strtokAll (d :: delim) fuel st (some (s ++ 0 :: rest)) =
        some (words (fun c => decide (c ∈ d :: delim)) s)) ↔
      ts = words (fun c => decide (c ∈ d :: delim)) s := by
    constructor
    · intro hall
      exact Option.some.inj ((h _ (Nat.lt_succ_self _)).symm.trans (hall _ (Nat.lt_succ_self _)))
    · rintro rfl
      exact h
  by_cases hlen : s.length = INT_MAX
  · have hstrlen : strlen (s ++ 0 :: rest) = 0 := by
      rw [strlen, cstr_append_zero hzero]
      exact if_neg (not_not.2 hlen)
    rw [if_pos hlen, hfuel [], eq_comm, words_eq_nil_iff]
    · simp only [decide_eq_true_eq]
    · intro fuel hpos
      obtain ⟨fuel, rfl⟩ := Nat.exists_eq_succ_of_ne_zero (by omega : fuel ≠ 0)
      simp only [strtokAll, strtok, hstrlen, lt_irrefl, if_false]
  · rw [if_neg hlen, hfuel (fields d s), fields_eq_words_iff List.mem_cons_self]
    exact fun fuel hpos => strtokAll_eq st hzero hlen hpos

theorem strtok_words_iff_path :
    strtokAll [0x2F] 9 ⟨none, 0, 0⟩ (some [0x31, 0x32, 0x2F, 0x34, 0x2F, 0x2E, 0x74, 0]) =
      some [[0x31, 0x32], [0x34], [0x2E, 0x74]] :=
  (strtok_words_iff ⟨none, 0, 0⟩ 0x2F [] [0x31, 0x32, 0x2F, 0x34, 0x2F, 0x2E, 0x74] []
    (by decide) (by decide)).2 ⟨by decide, by decide⟩ 9 (by decide)

/-- A delimiter at the start makes an empty token. -/
theorem strtok_words_fails :
    ¬ ∀ (st : Strtok) (d : BitVec 8) (delim s rest : List (BitVec 8)), (0 : BitVec 8) ∉ s →
      s.length ≤ INT_MAX → ∀ fuel, s.length < fuel →
        strtokAll (d :: delim) fuel st (some (s ++ 0 :: rest)) =
          some (words (fun c => decide (c ∈ d :: delim)) s) := by
  intro h
  have hslash := h ⟨none, 0, 0⟩ 0x2F [] [0x2F, 0x61] [] (by decide) (by decide) 3 (by decide)
  exact absurd hslash (by decide)

end YohdaOS.Text

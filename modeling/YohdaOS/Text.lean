import Mathlib.Data.List.TakeWhile
import Mathlib.Tactic

/-!
# string.c

A string is what is before the first zero of an array.
-/

namespace YohdaOS

/-- The string in an array. -/
def cstr (s : List (BitVec 8)) : List (BitVec 8) := s.takeWhile fun c => decide (c ≠ 0)

namespace Text

def INT_MAX : ℕ := 2147483647

/-- `strlen`: a length that is INT_MAX counts as none. -/
def strlen (str : List (BitVec 8)) : ℕ :=
  let n := (cstr str).length
  if n ≠ INT_MAX then n else 0

/-- `reverse`: the string in the array is turned round, and what is behind it stays. -/
def reverse (str : List (BitVec 8)) : List (BitVec 8) :=
  (str.take (strlen str)).reverse ++ str.drop (strlen str)

end Text

variable {s t : List (BitVec 8)} {k : ℕ}

theorem cstr_of_notMem (h : (0 : BitVec 8) ∉ s) : cstr s = s := by
  rw [cstr, List.takeWhile_eq_self_iff]
  intro c hc
  exact decide_eq_true (ne_of_mem_of_not_mem hc h)

theorem notMem_cstr (s : List (BitVec 8)) : (0 : BitVec 8) ∉ cstr s := by
  intro hzero
  have hne := List.mem_takeWhile_imp hzero
  exact absurd hne (by decide)

/-- The zero behind a string ends it. -/
theorem cstr_append_zero (h : (0 : BitVec 8) ∉ s) (t : List (BitVec 8)) : cstr (s ++ 0 :: t) = s := by
  rw [cstr, List.takeWhile_append_of_pos]
  · simp
  · intro c hc
    exact decide_eq_true (ne_of_mem_of_not_mem hc h)

theorem cstr_append_zeros (h : (0 : BitVec 8) ∉ s) (k : ℕ) :
    cstr (s ++ List.replicate k 0) = s := by
  cases k with
  | zero =>
    rw [List.replicate_zero, List.append_nil]
    exact cstr_of_notMem h
  | succ k => exact cstr_append_zero h _

/-- The part of an array that `strlen` measures is the string, or nothing. -/
theorem Text.take_strlen (s : List (BitVec 8)) :
    s.take (Text.strlen s) = if (cstr s).length = Text.INT_MAX then [] else cstr s := by
  have hprefix : cstr s <+: s := List.takeWhile_prefix _
  rw [Text.strlen]
  by_cases hmax : (cstr s).length = Text.INT_MAX
  · rw [if_pos hmax, if_neg (not_not.2 hmax), List.take_zero]
  · rw [if_neg hmax, if_pos hmax, ← List.prefix_iff_eq_take.1 hprefix]

theorem Text.reverse_append_zeros (h : (0 : BitVec 8) ∉ s) (hlen : s.length < Text.INT_MAX)
    (k : ℕ) : Text.reverse (s ++ List.replicate k 0) = s.reverse ++ List.replicate k 0 := by
  have hstrlen : Text.strlen (s ++ List.replicate k 0) = s.length := by
    rw [Text.strlen, cstr_append_zeros h]
    exact if_pos hlen.ne
  rw [Text.reverse, hstrlen, List.take_left, List.drop_left]

end YohdaOS

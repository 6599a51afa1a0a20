import Mathlib.Tactic
import Mathlib.Data.Nat.Digits.Lemmas

/-!
# Numerals

The digits of a number in a base, the first one first; zero has one digit.
-/

namespace Numeral

variable {b n k : ℕ}

/-- The digits of `n` in base `b`. -/
def digits (b n : ℕ) : List ℕ := if n = 0 then [0] else (Nat.digits b n).reverse

theorem digits_of_lt (h : n < b) : digits b n = [n] := by
  rw [digits]
  split_ifs with hn
  · rw [hn]
  · rw [Nat.digits_of_lt b n hn h, List.reverse_singleton]

/-- The last digit is the remainder. -/
theorem digits_of_ge (hb : 1 < b) (h : b ≤ n) : digits b n = digits b (n / b) ++ [n % b] := by
  have hquot : n / b ≠ 0 := (Nat.div_pos h (by omega)).ne'
  rw [digits, if_neg (by omega), digits, if_neg hquot, Nat.digits_def' hb (by omega),
    List.reverse_cons]

theorem lt_of_mem_digits (hb : 1 < b) {d : ℕ} (hd : d ∈ digits b n) : d < b := by
  rw [digits] at hd
  split_ifs at hd
  · rw [List.mem_singleton.1 hd]
    omega
  · exact Nat.digits_lt_base hb (List.mem_reverse.1 hd)

theorem ofDigits_digits (b n : ℕ) : Nat.ofDigits b (digits b n).reverse = n := by
  rw [digits]
  split_ifs with hn
  · rw [hn, List.reverse_singleton, Nat.ofDigits_singleton]
  · rw [List.reverse_reverse, Nat.ofDigits_digits]

theorem digits_ne_nil (b n : ℕ) : digits b n ≠ [] := by
  rw [digits]
  split_ifs with hn
  · exact List.cons_ne_nil 0 []
  · rw [Ne, List.reverse_eq_nil_iff, Nat.digits_eq_nil_iff_eq_zero]
    exact hn

/-- Only zero begins with the digit zero. -/
theorem digits_of_head (h : (digits b n).head? = some 0) : digits b n = [0] := by
  rw [digits] at h ⊢
  split_ifs at h ⊢ with hn
  · rfl
  · have hne : Nat.digits b n ≠ [] := Nat.digits_ne_nil_iff_ne_zero.2 hn
    rw [List.head?_reverse, List.getLast?_eq_some_getLast hne, Option.some_inj] at h
    exact absurd h (Nat.getLast_digit_ne_zero b hn)

theorem length_digits_le (hb : 1 < b) (hk : 0 < k) (h : n < b ^ k) : (digits b n).length ≤ k := by
  rw [digits]
  split_ifs with hn
  · exact hk
  · rw [List.length_reverse, Nat.digits_length_le_iff hb]
    exact h

/-- A loop that takes the last digit off, as long as a number is left, has the digits in reverse. -/
theorem loop_eq {α : Type*} {f : ℕ → α} (loop : ℕ → ℕ → List α) (hb : 1 < b)
    (hloop : ∀ fuel n, loop (fuel + 1) n = f (n % b) :: if n / b ≠ 0 then loop fuel (n / b) else [])
    (h : n < b ^ k) (hk : 0 < k) : loop k n = ((digits b n).map f).reverse := by
  induction k generalizing n with
  | zero => omega
  | succ k ih =>
    rw [hloop]
    obtain hlt | hge := lt_or_ge n b
    · rw [Nat.div_eq_of_lt hlt, Nat.mod_eq_of_lt hlt, digits_of_lt hlt]
      rfl
    · have hquot : n / b < b ^ k := by
        rw [Nat.pow_succ] at h
        exact Nat.div_lt_of_lt_mul (by rwa [Nat.mul_comm])
      have hpos : 0 < n / b := Nat.div_pos hge (by omega)
      have hk' : 0 < k := by
        by_contra hzero
        obtain rfl : k = 0 := by omega
        rw [pow_zero] at hquot
        omega
      rw [if_pos hpos.ne', ih hquot hk', digits_of_ge hb hge, List.map_append, List.map_singleton,
        List.reverse_concat]

end Numeral

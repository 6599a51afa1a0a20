import YohdaOS.Lib.Numeral
import YohdaOS.Machine
import YohdaOS.Text

/-!
# stdlib.c

`itoa` and `itoh` put the digits of a number into an array of twelve bytes, the last digit first,
turn the string round and copy the array.
-/

namespace YohdaOS.Io

def INT_MAX_DIG : ℕ := 12

/-- The loop of `itoa`: the remainder has the sign of `nxt`. -/
def itoaLoop : ℕ → ℤ → List (BitVec 8)
  | 0, _ => []
  | n + 1, nxt =>
    BitVec.ofInt 8 (nxt.tmod 10 + 0x30) ::
      if nxt.tdiv 10 ≠ 0 then itoaLoop n (nxt.tdiv 10) else []

/-- The array `buf`, which is zero behind the string. -/
def scratch (s : List (BitVec 8)) : List (BitVec 8) :=
  s ++ List.replicate (INT_MAX_DIG - s.length) 0

/-- The bytes that `itoa` copies to its result. -/
def itoa (n : ℤ) : List (BitVec 8) :=
  let nxt := if n < 0 then toInt (-n) else n
  let digits := itoaLoop INT_MAX_DIG nxt
  let buf := if n < 0 then digits ++ [0x2D] else digits
  Text.reverse (scratch buf)

/-- The loop of `itoh`. -/
def itohLoop : ℕ → ℕ → List (BitVec 8)
  | 0, _ => []
  | n + 1, d =>
    let r := d % 16
    BitVec.ofNat 8 (if r < 10 then r + 0x30 else r - 10 + 0x41) ::
      if d / 16 ≠ 0 then itohLoop n (d / 16) else []

/-- The bytes that `itoh` copies to its result. -/
def itoh (n : BitVec 32) : List (BitVec 8) := Text.reverse (scratch (itohLoop INT_MAX_DIG n.toNat))

/-! ## Numerals -/

def digitChar (d : ℕ) : BitVec 8 := BitVec.ofNat 8 (if d < 10 then d + 0x30 else d - 10 + 0x41)

/-- The number in base `b`, without leading zeros. -/
def numeral (b n : ℕ) : List (BitVec 8) := (Numeral.digits b n).map digitChar

def decimal (n : ℤ) : List (BitVec 8) :=
  if n < 0 then 0x2D :: numeral 10 n.natAbs else numeral 10 n.natAbs

def hexadecimal (n : BitVec 32) : List (BitVec 8) := numeral 16 n.toNat

variable {b fuel m : ℕ}

theorem digitChar_ne_zero : ∀ d < 16, digitChar d ≠ 0 := by decide

theorem notMem_numeral (hb : 1 < b) (hb' : b ≤ 16) (m : ℕ) : (0 : BitVec 8) ∉ numeral b m := by
  intro hzero
  obtain ⟨d, hd, hchar⟩ := List.mem_map.1 hzero
  exact digitChar_ne_zero d ((Numeral.lt_of_mem_digits hb hd).trans_le hb') hchar

theorem length_numeral_le {k : ℕ} (hb : 1 < b) (hk : 0 < k) (h : m < b ^ k) :
    (numeral b m).length ≤ k := by
  rw [numeral, List.length_map]
  exact Numeral.length_digits_le hb hk h

theorem itoaLoop_succ (fuel m : ℕ) : itoaLoop (fuel + 1) m =
    digitChar (m % 10) :: if m / 10 ≠ 0 then itoaLoop fuel (m / 10 : ℕ) else [] := by
  have hmod : (m : ℤ).tmod 10 + 0x30 = ((m % 10 + 0x30 : ℕ) : ℤ) := by
    rw [Int.tmod_eq_emod_of_nonneg (by omega)]
    omega
  have hdiv : (m : ℤ).tdiv 10 = ((m / 10 : ℕ) : ℤ) := by
    rw [Int.tdiv_eq_ediv_of_nonneg (by omega)]
    omega
  have hchar : digitChar (m % 10) = BitVec.ofNat 8 (m % 10 + 0x30) := by
    rw [digitChar, if_pos (Nat.mod_lt m (by decide))]
  rw [itoaLoop, hmod, hdiv, BitVec.ofInt_natCast, ← hchar]
  simp only [ne_eq, Nat.cast_eq_zero]

theorem itoaLoop_eq (h : m < 10 ^ fuel) (hfuel : 0 < fuel) :
    itoaLoop fuel m = (numeral 10 m).reverse :=
  Numeral.loop_eq (fun fuel m => itoaLoop fuel m) (by decide) itoaLoop_succ h hfuel

theorem itohLoop_eq (h : m < 16 ^ fuel) (hfuel : 0 < fuel) :
    itohLoop fuel m = (numeral 16 m).reverse :=
  Numeral.loop_eq itohLoop (by decide) (fun _ _ => rfl) h hfuel

theorem reverse_scratch {s : List (BitVec 8)} (h : (0 : BitVec 8) ∉ s) (hlen : s.length ≤ 12) :
    Text.reverse (scratch s) = scratch s.reverse := by
  rw [scratch, Text.reverse_append_zeros h (lt_of_le_of_lt hlen (by decide)), scratch,
    List.length_reverse]

theorem notMem_decimal (n : ℤ) : (0 : BitVec 8) ∉ decimal n := by
  have hnum := notMem_numeral (by decide : 1 < 10) (by decide) n.natAbs
  rw [decimal]
  split_ifs
  · rw [List.mem_cons, not_or]
    exact ⟨by decide, hnum⟩
  · exact hnum

theorem length_decimal_le {n : ℤ} (hlo : -2147483648 ≤ n) (hhi : n < 2147483648) :
    (decimal n).length ≤ 11 := by
  have hnum : (numeral 10 n.natAbs).length ≤ 10 :=
    length_numeral_le (by decide) (by decide) (by omega)
  rw [decimal]
  split_ifs
  · rw [List.length_cons]
    omega
  · omega

/-- `itoa` leaves the decimal numeral, except of the least number. -/
theorem itoa_eq {n : ℤ} (hlo : -2147483648 < n) (hhi : n < 2147483648) :
    itoa n = scratch (decimal n) := by
  have hlen := length_decimal_le hlo.le hhi
  have hloop : itoaLoop INT_MAX_DIG n.natAbs = (numeral 10 n.natAbs).reverse :=
    itoaLoop_eq (by rw [INT_MAX_DIG]; omega) (by decide)
  have hreverse (s : List (BitVec 8)) (hs : s.reverse = decimal n) :
      Text.reverse (scratch s) = scratch (decimal n) := by
    rw [← hs, reverse_scratch]
    · rw [← List.mem_reverse, hs]
      exact notMem_decimal n
    · rw [← List.length_reverse, hs]
      omega
  apply hreverse
  rw [decimal]
  by_cases hneg : n < 0
  · have habs : toInt (-n) = n.natAbs := by
      rw [toInt_of_range (by omega) (by omega)]
      omega
    simp only [if_pos hneg, habs, hloop, List.reverse_concat, List.reverse_reverse]
  · have habs : n = n.natAbs := by omega
    rw [← habs] at hloop
    simp only [if_neg hneg, hloop, List.reverse_reverse]

theorem length_hexadecimal_le (n : BitVec 32) : (hexadecimal n).length ≤ 8 :=
  length_numeral_le (by decide) (by decide) (n.isLt.trans_le (by decide))

theorem itoh_eq (n : BitVec 32) : itoh n = scratch (hexadecimal n) := by
  have hnum := notMem_numeral (by decide : 1 < 16) le_rfl n.toNat
  have hlen := length_hexadecimal_le n
  have hloop : itohLoop INT_MAX_DIG n.toNat = (numeral 16 n.toNat).reverse :=
    itohLoop_eq (n.isLt.trans_le (by decide)) (by decide)
  rw [hexadecimal] at hlen ⊢
  rw [itoh, hloop, reverse_scratch, List.reverse_reverse]
  · rwa [List.mem_reverse]
  · rw [List.length_reverse]
    omega

/-- What `itoa` leaves is a string that is as long as the decimal numeral. -/
theorem itoa_text (n : BitVec 32) : ∃ t, itoa n.toInt = scratch t ∧ (0 : BitVec 8) ∉ t ∧
    t.length = (decimal n.toInt).length := by
  have hlo := BitVec.le_toInt n
  have hhi := BitVec.toInt_lt (x := n)
  obtain hmin | hgt := eq_or_lt_of_le (show -2147483648 ≤ n.toInt by omega)
  · rw [← hmin]
    -- the digits are as far below the character 0 as they should be above it
    exact ⟨[0x2D, 0x2E, 0x2F, 0x2C, 0x29, 0x2C, 0x28, 0x2D, 0x2A, 0x2C, 0x28], by decide,
      by decide, by decide⟩
  · exact ⟨decimal n.toInt, itoa_eq hgt (by omega), notMem_decimal _, rfl⟩

/-! ## The whole range of an int -/

/-- The text is the decimal representation of `n`: a minus sign where `n` is negative, then digits
without a leading zero whose value is that of `n`. -/
def IsDecimal (n : ℤ) (t : List (BitVec 8)) : Prop :=
  ∃ ds : List ℕ, ds ≠ [] ∧ (∀ d ∈ ds, d < 10) ∧ (ds.head? = some 0 → ds = [0]) ∧
    Nat.ofDigits 10 ds.reverse = n.natAbs ∧
    t = (if n < 0 then [0x2D] else []) ++ ds.map fun d => BitVec.ofNat 8 (d + 0x30)

theorem isDecimal_decimal (n : ℤ) : IsDecimal n (decimal n) := by
  have hdigits (d : ℕ) (hd : d ∈ Numeral.digits 10 n.natAbs) : d < 10 :=
    Numeral.lt_of_mem_digits (by decide) hd
  refine ⟨Numeral.digits 10 n.natAbs, Numeral.digits_ne_nil _ _, hdigits, Numeral.digits_of_head,
    Numeral.ofDigits_digits _ _, ?_⟩
  have hmap : numeral 10 n.natAbs =
      (Numeral.digits 10 n.natAbs).map fun d => BitVec.ofNat 8 (d + 0x30) := by
    apply List.map_congr_left
    intro d hd
    rw [digitChar, if_pos (hdigits d hd)]
  rw [decimal, ← hmap]
  split_ifs <;> rfl

/-- The negation of the least int is that int itself, whose remainders are negative. -/
theorem not_isDecimal_itoa_min {t rest : List (BitVec 8)}
    (h : itoa (BitVec.intMin 32).toInt = t ++ 0 :: rest) : ¬IsDecimal (BitVec.intMin 32).toInt t := by
  rintro ⟨ds, hne, hlt, -, -, rfl⟩
  obtain ⟨d, ds, rfl⟩ := List.exists_cons_of_ne_nil hne
  have hd := hlt d List.mem_cons_self
  have hchars : itoa (BitVec.intMin 32).toInt =
      [0x2D, 0x2E, 0x2F, 0x2C, 0x29, 0x2C, 0x28, 0x2D, 0x2A, 0x2C, 0x28, 0] := by decide
  rw [hchars, if_pos (by decide), List.map_cons, List.singleton_append, List.cons_append,
    List.cons_append, List.cons.injEq, List.cons.injEq] at h
  -- the character behind the sign is not a digit
  have hchar := congrArg BitVec.toNat h.2.1
  rw [BitVec.toNat_ofNat, Nat.mod_eq_of_lt (by omega)] at hchar
  have : (0x2E : BitVec 8).toNat = 46 := by decide
  omega

/-- `itoa` leaves twelve bytes that begin with the decimal representation and a zero, for every int
except the least one. -/
theorem itoa_decimal_iff (n : BitVec 32) :
    ((itoa n.toInt).length = INT_MAX_DIG ∧
      ∃ t rest, itoa n.toInt = t ++ 0 :: rest ∧ IsDecimal n.toInt t) ↔ n ≠ BitVec.intMin 32 := by
  have hlo := BitVec.le_toInt n
  have hhi := BitVec.toInt_lt (x := n)
  constructor
  · rintro ⟨-, t, rest, hitoa, hdec⟩ rfl
    exact not_isDecimal_itoa_min hitoa hdec
  · intro hmin
    have hgt : -2147483648 < n.toInt := by
      by_contra hle
      exact hmin (BitVec.eq_of_toInt_eq (by rw [BitVec.toInt_intMin]; omega))
    have hlen := length_decimal_le hgt.le (by omega)
    rw [itoa_eq hgt (by omega), scratch]
    refine ⟨?_, decimal n.toInt, List.replicate (INT_MAX_DIG - (decimal n.toInt).length - 1) 0, ?_,
      isDecimal_decimal _⟩
    · rw [List.length_append, List.length_replicate, INT_MAX_DIG]
      omega
    · rw [← List.replicate_succ, INT_MAX_DIG]
      congr 2
      omega

theorem itoa_decimal_fails : ¬ ∀ n : BitVec 32, (itoa n.toInt).length = INT_MAX_DIG ∧
    ∃ t rest, itoa n.toInt = t ++ 0 :: rest ∧ IsDecimal n.toInt t := by
  intro h
  obtain ⟨-, t, rest, hitoa, hdec⟩ := h (BitVec.intMin 32)
  exact not_isDecimal_itoa_min hitoa hdec

end YohdaOS.Io

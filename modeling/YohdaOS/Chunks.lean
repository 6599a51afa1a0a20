import YohdaOS.Machine

/-!
# Classes of chunks

The buddy and the pools both serve a request from the first of a row of doubling chunks that is
large enough; `bud_rndup` and `pl_get_chunk` look for it in the same loop.
-/

namespace YohdaOS

/-- Class `o` of the chunks `c, 2 * c, 4 * c, ...`, `n` of them, is the least one for `size`. -/
structure IsClassOf (c n : ℕ) (size : ℤ) (o : ℕ) : Prop where
  lt : o < n
  le : size ≤ (c * 2 ^ o : ℕ)
  least : ∀ k < o, ((c * 2 ^ k : ℕ) : ℤ) < size

theorem IsClassOf.unique {c n : ℕ} {size : ℤ} {o o' : ℕ} (h : IsClassOf c n size o)
    (h' : IsClassOf c n size o') : o = o' := by
  rcases Nat.lt_trichotomy o o' with hlt | heq | hgt
  · exact absurd (h'.least o hlt) (not_lt.2 h.le)
  · exact heq
  · exact absurd (h.least o' hgt) (not_lt.2 h'.le)

/-- A size up to the last chunk has a class. -/
theorem exists_isClassOf (c n : ℕ) {size : ℤ} (hn : 0 < n) (h : size ≤ (c * 2 ^ (n - 1) : ℕ)) :
    ∃ o, IsClassOf c n size o := by
  have hex : ∃ o, size ≤ (c * 2 ^ o : ℕ) := ⟨n - 1, h⟩
  refine ⟨Nat.find hex, ?_, Nat.find_spec hex, fun k hk => not_le.1 (Nat.find_min hex hk)⟩
  have := Nat.find_min' hex h
  omega

/-- The loop of `bud_rndup` and `pl_get_chunk` over the chunks that remain. -/
def chunkLoop (size : ℤ) : ℕ → ℕ → ℤ
  | 0, _ => -1
  | fuel + 1, block =>
    if size ≤ block then toInt block else chunkLoop size fuel (u32 (block * 2))

section Double

variable {c k n : ℕ} (hfit : c * 2 ^ n < 2147483648)

include hfit

theorem chunk_lt_int (hk : k ≤ n) : c * 2 ^ k < 2147483648 :=
  lt_of_le_of_lt (Nat.mul_le_mul_left c (Nat.pow_le_pow_right (by decide) hk)) hfit

/-- Doubling a chunk does not wrap, neither as a `u32` nor as an `int`. -/
theorem double_chunk (hk : k < n) : u32 (c * 2 ^ k * 2) = c * 2 ^ (k + 1) := by
  have hlt := chunk_lt_int hfit hk
  rw [pow_succ, ← Nat.mul_assoc] at hlt
  rw [u32_of_lt (by omega), pow_succ, Nat.mul_assoc]

theorem toInt_double_chunk (hk : k < n) :
    toInt (((c * 2 ^ k : ℕ) : ℤ) * 2) = (c * 2 ^ (k + 1) : ℕ) := by
  have hcast : ((c * 2 ^ k : ℕ) : ℤ) * 2 = (c * 2 ^ (k + 1) : ℕ) := by
    push_cast
    ring
  rw [hcast, toInt_natCast (chunk_lt_int hfit hk)]

end Double

theorem div_double_chunk (n c k : ℕ) : n / (c * 2 ^ (k + 1)) = n / (c * 2 ^ k) / 2 := by
  rw [Nat.div_div_eq_div_mul, pow_succ, Nat.mul_assoc]

section Loop

variable {c : ℕ} {size : ℤ} {n i : ℕ} (hfit : c * 2 ^ (i + n) < 2147483648)

include hfit

/-- The loop returns the first chunk that is large enough. -/
theorem chunkLoop_of_class {o : ℕ} (hi : i ≤ o) (ho : o < i + n) (hle : size ≤ (c * 2 ^ o : ℕ))
    (hleast : ∀ k < o, ((c * 2 ^ k : ℕ) : ℤ) < size) :
    chunkLoop size n (c * 2 ^ i) = (c * 2 ^ o : ℕ) := by
  induction n generalizing i with
  | zero => omega
  | succ n ih =>
    rw [chunkLoop]
    rcases Nat.eq_or_lt_of_le hi with rfl | hlt
    · rw [if_pos hle, toInt_natCast (chunk_lt_int hfit (by omega))]
    · rw [if_neg (not_le.2 (hleast i hlt)), double_chunk hfit (by omega)]
      exact ih (by rw [show i + 1 + n = i + (n + 1) by omega]; exact hfit) hlt (by omega)

/-- The loop fails when all chunks are too small. -/
theorem chunkLoop_eq_neg (hsmall : ∀ k, k < i + n → ((c * 2 ^ k : ℕ) : ℤ) < size) :
    chunkLoop size n (c * 2 ^ i) = -1 := by
  induction n generalizing i with
  | zero => rfl
  | succ n ih =>
    rw [chunkLoop, if_neg (not_le.2 (hsmall i (by omega))), double_chunk hfit (by omega)]
    have hidx : i + 1 + n = i + (n + 1) := by omega
    exact ih (by rw [hidx]; exact hfit) fun k hk => hsmall k (by omega)

end Loop

end YohdaOS

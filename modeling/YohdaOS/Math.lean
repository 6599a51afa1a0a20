import YohdaOS.Machine

/-!
# math.c
-/

namespace YohdaOS

def min (a b : ℤ) : ℤ := if a ≥ b then b else a

/-- The loop of `log`: `do { tmp = tmp / base; exp++; } while(tmp)`.  The quotient shrinks in each
round, so `tmp` rounds are enough. -/
def logLoop (base : ℕ) : ℕ → ℕ → ℕ → ℕ
  | 0, _, exp => exp
  | fuel + 1, tmp, exp =>
    if tmp / base = 0 then exp + 1 else logLoop base fuel (tmp / base) (exp + 1)

def log (base arg : ℕ) : ℤ :=
  if base = 1 ∨ base ≤ 0 then -EINVAL
  else if arg < 1 then -EINVAL
  else toInt ((logLoop base arg arg 0 : ℤ) - 1)

/-- The loop of `power`: `while(exp--) ret *= base`. -/
def powerLoop (base : ℤ) : ℕ → ℤ → ℤ
  | 0, ret => ret
  | exp + 1, ret => powerLoop base exp (toInt (ret * base))

def power (base exp : ℤ) : ℕ :=
  if base = 1 ∨ base ≤ 0 then toU32 (-EINVAL)
  else if exp < 0 then toU32 (-EINVAL)
  else if exp = 0 then 1
  else toU32 (powerLoop base exp.toNat 1)

/-! ## Logarithms and powers -/

variable {base arg exp fuel b n k : ℕ}

/-- The loop counts one round more than the logarithm. -/
theorem logLoop_eq (hbase : 2 ≤ base) (h : 1 ≤ arg) (hfuel : arg ≤ fuel) :
    logLoop base fuel arg exp = exp + Nat.log base arg + 1 := by
  induction fuel generalizing arg exp with
  | zero => omega
  | succ fuel ih =>
    rw [logLoop]
    obtain hlt | hge := lt_or_ge arg base
    · rw [Nat.div_eq_of_lt hlt, if_pos rfl, Nat.log_of_lt hlt, Nat.add_zero]
    · have hpos : 0 < arg / base := Nat.div_pos hge (by omega)
      have hshrink : arg / base < arg := Nat.div_lt_self h hbase
      rw [if_neg hpos.ne', ih hpos (by omega), Nat.log_of_one_lt_of_le hbase hge]
      omega

theorem log_eq (hbase : 2 ≤ base) (h : 1 ≤ arg) (harg : arg < 4294967296) :
    log base arg = Nat.log base arg := by
  have hlog : Nat.log base arg ≤ 32 :=
    (Nat.log_anti_left (by decide) hbase).trans ((Nat.log_mono_right harg.le).trans (by norm_num))
  rw [log, if_neg (by omega), if_neg (by omega), logLoop_eq hbase h le_rfl,
    toInt_of_range (by omega) (by omega)]
  omega

theorem powerLoop_eq (hb : 1 ≤ b) (h : b ^ (k + n) < 2147483648) :
    powerLoop b n (b ^ k : ℕ) = (b ^ (k + n) : ℕ) := by
  induction n generalizing k with
  | zero => rfl
  | succ n ih =>
    have hidx : k + (n + 1) = k + 1 + n := by omega
    rw [hidx] at h ⊢
    have hk : b ^ (k + 1) < 2147483648 :=
      lt_of_le_of_lt (Nat.pow_le_pow_right hb (Nat.le_add_right _ _)) h
    have hstep : toInt (((b ^ k : ℕ) : ℤ) * b) = ((b ^ (k + 1) : ℕ) : ℤ) := by
      rw [pow_succ] at hk ⊢
      exact_mod_cast toInt_natCast hk
    rw [powerLoop, hstep, ih h]

/-- `power` is exact as long as the result is an `int`. -/
theorem power_eq (hb : 2 ≤ b) (h : b ^ n < 2147483648) : power b n = b ^ n := by
  rw [power, if_neg (by omega), if_neg (by omega)]
  split_ifs with h0
  · obtain rfl : n = 0 := by omega
    rw [pow_zero]
  · have hloop := powerLoop_eq (k := 0) (by omega : 1 ≤ b) (by rwa [Nat.zero_add])
    rw [pow_zero, Nat.zero_add] at hloop
    have : powerLoop b (n : ℤ).toNat 1 = ((b ^ n : ℕ) : ℤ) := by simpa using hloop
    rw [this, toU32_natCast (by omega)]

theorem power_two (h : n < 31) : power 2 (n : ℤ) = 2 ^ n :=
  power_eq (b := 2) (by decide) (Nat.pow_lt_pow_right (by decide) h)

/-- `log` is the integer logarithm, `power` the power where it is an `int`, and `log` undoes
`power`. -/
theorem log_power_exact :
    (∀ base arg : ℕ, 2 ≤ base → base < 4294967296 → 1 ≤ arg → arg < 4294967296 →
      ∃ e : ℕ, log base arg = e ∧ ∀ k, base ^ k ≤ arg ∧ arg < base ^ (k + 1) ↔ k = e) ∧
    (∀ base exp : ℤ, 2 ≤ base → 0 ≤ exp → base ^ exp.toNat < 2147483648 →
      (power base exp : ℤ) = base ^ exp.toNat ∧ log base.toNat (power base exp) = exp) := by
  constructor
  · intro base arg hbase _ h harg
    refine ⟨Nat.log base arg, log_eq hbase h harg, fun k => ?_⟩
    rw [← Nat.log_eq_iff (Or.inr ⟨hbase, by omega⟩), eq_comm]
  · intro base exp hbase hexp h
    obtain ⟨b, rfl⟩ := Int.eq_ofNat_of_zero_le (by omega : 0 ≤ base)
    obtain ⟨n, rfl⟩ := Int.eq_ofNat_of_zero_le hexp
    rw [Int.toNat_natCast] at h ⊢
    rw [Int.toNat_natCast]
    have hb : 2 ≤ b := by omega
    have hlt : b ^ n < 2147483648 := by exact_mod_cast h
    have hpos : 1 ≤ b ^ n := Nat.one_le_pow _ _ (by omega)
    rw [power_eq hb hlt, log_eq hb hpos (by omega), Nat.log_pow hb]
    exact ⟨by push_cast; rfl, rfl⟩

theorem log_power_exact_ten : log 10 999 = 2 ∧ power 10 9 = 1000000000 := by
  obtain ⟨e, hlog, he⟩ :=
    log_power_exact.1 10 999 (by decide) (by decide) (by decide) (by decide)
  obtain rfl := (he 2).1 (by decide)
  have hpower := (log_power_exact.2 10 9 (by decide) (by decide) (by decide)).1
  exact ⟨hlog, by exact_mod_cast hpower⟩

end YohdaOS

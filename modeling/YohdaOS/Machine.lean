import Mathlib.Tactic

/-!
# C integers and pointers

`u32` values, addresses and unsigned counters are natural numbers, `int` and `s64` values are
integers; a conversion that can lose bits is written out.  A `void *` result is either an address
the function computed or an error value it cast to a pointer: `Ptr.val` is the 32-bit pointer the
caller sees, and `if(!addr)` is a test of that value.
-/

namespace YohdaOS

/-- Reduction of an unsigned result to 32 bits. -/
def u32 (n : ℕ) : ℕ := n % 4294967296

/-- Conversion of a signed value to `u32`. -/
def toU32 (z : ℤ) : ℕ := (z % 4294967296).toNat

/-- Conversion to `int`. -/
def toInt (z : ℤ) : ℤ := (z + 2147483648) % 4294967296 - 2147483648

def u8 (n : ℕ) : ℕ := n % 256

def EINVAL : ℤ := 22

/-- The result of a function of type `void *`. -/
inductive Ptr where
  /-- an address computed by the function -/
  | addr (a : ℕ)
  /-- an error value, NULL included, cast to a pointer -/
  | code (e : ℤ)
deriving DecidableEq, Repr

/-- The pointer the caller receives. -/
def Ptr.val : Ptr → ℕ
  | .addr a => a
  | .code e => toU32 e

@[simp] theorem Ptr.val_addr (a : ℕ) : (Ptr.addr a).val = a := rfl

@[simp] theorem Ptr.val_code (e : ℤ) : (Ptr.code e).val = toU32 e := rfl

theorem u32_of_lt {n : ℕ} (h : n < 4294967296) : u32 n = n := Nat.mod_eq_of_lt h

theorem toU32_of_nonneg {z : ℤ} (h₀ : 0 ≤ z) (h : z < 4294967296) : toU32 z = z.toNat := by
  unfold toU32
  omega

theorem toInt_of_range {z : ℤ} (h₀ : -2147483648 ≤ z) (h : z < 2147483648) : toInt z = z := by
  unfold toInt
  omega

theorem toU32_natCast {n : ℕ} (h : n < 4294967296) : toU32 (n : ℤ) = n := by
  unfold toU32
  omega

theorem toInt_natCast {n : ℕ} (h : n < 2147483648) : toInt (n : ℤ) = n := by
  unfold toInt
  omega

theorem toInt_lt (z : ℤ) : toInt z < 2147483648 := by
  unfold toInt
  omega

end YohdaOS

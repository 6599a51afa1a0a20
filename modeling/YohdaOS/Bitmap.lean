import Mathlib.Data.Nat.Bitwise
import YohdaOS.Machine
import YohdaOS.Lib.Memory

/-!
# bitmap.c

A `struct bitmap` describes an array of words in memory.  The functions take the descriptor by
value, so the NULL test on the descriptor itself has no counterpart here; the NULL test on its
`base` has.
-/

namespace YohdaOS

open ByteMem

/-- `struct bitmap` -/
structure Bitmap where
  base : ℕ
  bit : ℕ
  size : ℕ

/-- The table `bit_cmp`: entry `n` has its `n` low bits set, the entries past 32 are zero. -/
def bitCmp : List ℕ :=
  [0x00000000,
   0x00000001, 0x00000003, 0x00000007, 0x0000000F,
   0x0000001F, 0x0000003F, 0x0000007F, 0x000000FF,
   0x000001FF, 0x000003FF, 0x000007FF, 0x00000FFF,
   0x00001FFF, 0x00003FFF, 0x00007FFF, 0x0000FFFF,
   0x0001FFFF, 0x0003FFFF, 0x0007FFFF, 0x000FFFFF,
   0x001FFFFF, 0x003FFFFF, 0x007FFFFF, 0x00FFFFFF,
   0x01FFFFFF, 0x03FFFFFF, 0x07FFFFFF, 0x0FFFFFFF,
   0x1FFFFFFF, 0x3FFFFFFF, 0x7FFFFFFF, 0xFFFFFFFF]

def bitmapSet (m : Mem) (bmp : Bitmap) (ost : ℕ) (f : Bool) : ℤ × Mem :=
  if bmp.base = 0 then (-1, m)
  else
    let a := bmp.base + 4 * (ost / bmp.bit)
    if f then (toInt ost, store32 m a (load32 m a ||| (1 <<< (ost % bmp.bit))))
    else (toInt ost, store32 m a (load32 m a &&& (0xFFFFFFFF ^^^ (1 <<< (ost % bmp.bit)))))

/-- The first loop of `bitmap_get_free` stops at the first word that is not full, the second one
at the first clear bit of that word.  The words are in memory, so their number is an `int`; the
number of the bit need not be one. -/
def bitmapGetFree (m : Mem) (bmp : Bitmap) : ℤ :=
  if bmp.base = 0 then -1
  else
    match (List.range bmp.size).find? fun i =>
      load32 m (bmp.base + 4 * i) != bitCmp.getD bmp.bit 0 with
    | none => -4
    | some i =>
      match (List.range bmp.bit).find? fun j =>
        (load32 m (bmp.base + 4 * i) >>> j) &&& 1 == 0 with
      | none => toInt (i * bmp.bit + bmp.bit)
      | some j => toInt (i * bmp.bit + j)

def bitmapGet (m : Mem) (bmp : Bitmap) (ost : ℤ) : ℤ :=
  if bmp.base = 0 then -1
  else if ost < 0 then -EINVAL
  else
    let ost := ost.toNat
    if load32 m (bmp.base + 4 * (ost / bmp.bit)) &&& (1 <<< (ost % bmp.bit)) ≠ 0 then 1 else 0

/-! ## Bitmaps of 32-bit words -/

section Words

variable {m : Mem} {bmp : Bitmap} (hbase : bmp.base ≠ 0) (hbit : bmp.bit = 32)

include hbase hbit

theorem bitmapGet_eq (k : ℕ) : bitmapGet m bmp k = (bitAt m bmp.base k).toInt := by
  have hk : ¬ (k : ℤ) < 0 := by omega
  simp only [bitmapGet, if_neg hbase, if_neg hk, hbit, Int.toNat_natCast]
  rw [Nat.one_shiftLeft, Nat.and_two_pow]
  unfold bitAt
  cases (load32 m (bmp.base + 4 * (k / 32))).testBit (k % 32) with
  | true => simp
  | false => simp

theorem bitmapSet_eq (k : ℕ) (f : Bool) :
    bitmapSet m bmp k f = (toInt k, store32 m (bmp.base + 4 * (k / 32))
      (withBit (load32 m (bmp.base + 4 * (k / 32))) (k % 32) f)) := by
  simp only [bitmapSet, if_neg hbase, hbit]
  cases f <;> rfl

theorem bitAt_bitmapSet (k l : ℕ) (f : Bool) :
    bitAt (bitmapSet m bmp k f).2 bmp.base l = if l = k then f else bitAt m bmp.base l := by
  rw [bitmapSet_eq hbase hbit]
  exact bitAt_store_withBit m bmp.base k l f

theorem frame_bitmapSet (k : ℕ) (f : Bool) :
    Frame (bmp.base + 4 * (k / 32)) (bmp.base + 4 * (k / 32) + 4) m (bitmapSet m bmp k f).2 := by
  rw [bitmapSet_eq hbase hbit]
  exact frame_store32 _ _ _

omit hbase hbit in
/-- A full word is a word without a clear bit. -/
theorem word_eq_full_iff (a : ℕ) :
    load32 m a = 4294967295 ↔ ∀ j < 32, (load32 m a).testBit j = true := by
  have hfull (j : ℕ) : (4294967295 : ℕ).testBit j = decide (j < 32) := by
    rw [show (4294967295 : ℕ) = 2 ^ 32 - 1 by rfl, Nat.testBit_two_pow_sub_one]
  constructor
  · intro h j hj
    rw [h, hfull, decide_eq_true hj]
  · intro h
    apply Nat.eq_of_testBit_eq
    intro j
    rw [hfull]
    by_cases hj : j < 32
    · rw [h j hj, decide_eq_true hj]
    · rw [decide_eq_false hj]
      have hpow : 2 ^ 32 ≤ 2 ^ j := Nat.pow_le_pow_right (by decide) (by omega)
      exact Nat.testBit_lt_two_pow (lt_of_lt_of_le (load32_lt m a) hpow)

omit hbase hbit in
theorem clear_iff (w j : ℕ) : ((w >>> j) &&& 1 == 0) = !w.testBit j := by
  rw [Nat.and_one_is_mod, Nat.testBit_eq_decide_div_mod_eq, Nat.shiftRight_eq_div_pow]
  rcases Nat.mod_two_eq_zero_or_one (w / 2 ^ j) with h | h <;> simp [h]

/-- `bitmap_get_free` returns the least clear bit as an `int`, or -4 when there is none. -/
theorem bitmapGetFree_least :
    (∃ k < 32 * bmp.size, bitmapGetFree m bmp = toInt k ∧ bitAt m bmp.base k = false ∧
      ∀ l < k, bitAt m bmp.base l = true) ∨
    (bitmapGetFree m bmp = -4 ∧ ∀ l < 32 * bmp.size, bitAt m bmp.base l = true) := by
  have hcmp : bitCmp.getD 32 0 = 4294967295 := rfl
  have hword (i : ℕ) (hi : load32 m (bmp.base + 4 * i) = 4294967295) (l : ℕ) (hl : l / 32 = i) :
      bitAt m bmp.base l = true := by
    unfold bitAt
    rw [hl]
    exact (word_eq_full_iff _).1 hi _ (Nat.mod_lt l (by decide))
  unfold bitmapGetFree
  rw [if_neg hbase, hbit, hcmp]
  split
  · next hnone =>
    right
    refine ⟨rfl, fun l hl => ?_⟩
    rw [List.find?_range_eq_none] at hnone
    have := hnone (l / 32) (by omega)
    exact hword (l / 32) (by simpa using this) l rfl
  · next i hsome =>
    rw [List.find?_range_eq_some] at hsome
    obtain ⟨hi, hmem, hbefore⟩ := hsome
    rw [List.mem_range] at hmem
    split
    · next hnone =>
      -- the word at which the first loop stopped has a clear bit
      exfalso
      rw [List.find?_range_eq_none] at hnone
      have hfull : load32 m (bmp.base + 4 * i) = 4294967295 := by
        rw [word_eq_full_iff]
        intro j hj
        have := hnone j hj
        rwa [clear_iff, Bool.not_not] at this
      simp [hfull] at hi
    · next j hj =>
      rw [List.find?_range_eq_some] at hj
      obtain ⟨hclear, hj32, hbeforej⟩ := hj
      rw [List.mem_range] at hj32
      have hdiv : (i * 32 + j) / 32 = i := by omega
      have hmod : (i * 32 + j) % 32 = j := by omega
      refine Or.inl ⟨i * 32 + j, by omega, by push_cast; rfl, ?_, fun l hl => ?_⟩
      · unfold bitAt
        rw [hdiv, hmod]
        rw [clear_iff] at hclear
        simpa using hclear
      · by_cases hli : l / 32 < i
        · have := hbefore (l / 32) hli
          exact hword (l / 32) (by simpa using this) l rfl
        · have hl32 : l / 32 = i := by omega
          have := hbeforej (l % 32) (by omega)
          unfold bitAt
          rw [hl32]
          rwa [clear_iff, Bool.not_not] at this

theorem bitmapGetFree_cases (hsize : bmp.size ≤ 67108864) :
    (∃ k < 32 * bmp.size, bitmapGetFree m bmp = (k : ℤ) ∧ bitAt m bmp.base k = false ∧
      ∀ l < k, bitAt m bmp.base l = true) ∨
    (bitmapGetFree m bmp = -4 ∧ ∀ l < 32 * bmp.size, bitAt m bmp.base l = true) := by
  obtain ⟨k, hk, hget, hrest⟩ | hfull := bitmapGetFree_least (m := m) hbase hbit
  · rw [toInt_natCast (by omega)] at hget
    exact Or.inl ⟨k, hk, hget, hrest⟩
  · exact Or.inr hfull

/-! ## Offsets -/

theorem bitmapGet_int {o : ℕ} (ho : o < 2147483648) :
    bitmapGet m bmp (toInt o) = (bitAt m bmp.base o).toInt := by
  rw [toInt_natCast ho, bitmapGet_eq hbase hbit]

/-- What `bitmap_set` stores `bitmap_get` reads, and the other bits stay, for all offsets that are
ints.  `bitmap_get_free` returns the least clear one of these; it fails exactly on a full bitmap, as
long as all its offsets are ints. -/
theorem bitmap_words_ok (m : Mem) :
    (∀ o f, o < 32 * bmp.size → o < 2147483648 →
      bitmapGet (bitmapSet m bmp o f).2 bmp (toInt o) = f.toInt ∧
        ∀ l < 32 * bmp.size, l < 2147483648 → l ≠ o →
          bitmapGet (bitmapSet m bmp o f).2 bmp (toInt l) = bitmapGet m bmp (toInt l)) ∧
    (∀ o < 32 * bmp.size, o < 2147483648 → bitmapGet m bmp (toInt o) = 0 →
      (∀ l < o, bitmapGet m bmp (toInt l) ≠ 0) → bitmapGetFree m bmp = o) ∧
    (bmp.size ≤ 67108864 → (bitmapGetFree m bmp < 0 ↔
      ∀ o < 32 * bmp.size, bitmapGet m bmp (toInt o) = 1)) := by
  have hzero (b : Bool) : b.toInt = 0 ↔ b = false := by cases b <;> decide
  have hone (b : Bool) : b.toInt = 1 ↔ b = true := by cases b <;> decide
  refine ⟨fun o f ho hint => ⟨?_, fun l hl hlint hne => ?_⟩, fun o ho hint hclear hleast => ?_,
    fun hsize => ?_⟩
  · rw [bitmapGet_int hbase hbit hint, bitAt_bitmapSet hbase hbit, if_pos rfl]
  · rw [bitmapGet_int hbase hbit hlint, bitmapGet_int hbase hbit hlint, bitAt_bitmapSet hbase hbit,
      if_neg hne]
  · rw [bitmapGet_int hbase hbit hint, hzero] at hclear
    obtain ⟨k, -, hget, hk, hbefore⟩ | ⟨-, hfull⟩ := bitmapGetFree_least (m := m) hbase hbit
    · obtain hlt | rfl | hgt := Nat.lt_trichotomy k o
      · have hset := hleast k hlt
        rw [bitmapGet_int hbase hbit (hlt.trans hint), hk] at hset
        exact absurd rfl hset
      · rw [hget, toInt_natCast hint]
      · rw [hbefore o hgt] at hclear
        cases hclear
    · rw [hfull o ho] at hclear
      cases hclear
  · have hget (o : ℕ) (ho : o < 32 * bmp.size) :
        bitmapGet m bmp (toInt o) = 1 ↔ bitAt m bmp.base o = true := by
      rw [bitmapGet_int hbase hbit (by omega), hone]
    obtain ⟨k, hk, hfree, hclear, -⟩ | ⟨hfree, hfull⟩ := bitmapGetFree_cases (m := m) hbase hbit hsize
    · refine ⟨fun hneg => by omega, fun hall => ?_⟩
      have hset := (hget k hk).1 (hall k hk)
      rw [hclear] at hset
      cases hset
    · exact ⟨fun _ o ho => (hget o ho).2 (hfull o ho), fun _ => by omega⟩

end Words

/-- Two words, of which the first 35 bits are set. -/
def busyWords : Mem := store32 (store32 ⟨fun _ => 0⟩ 4 0xFFFFFFFF) 8 7

theorem bitmap_words_ok_two : bitmapGetFree busyWords ⟨4, 32, 2⟩ = 35 ∧
    bitmapGet (bitmapSet busyWords ⟨4, 32, 2⟩ 35 true).2 ⟨4, 32, 2⟩ (toInt 35) = 1 ∧
    bitmapGet (bitmapSet busyWords ⟨4, 32, 2⟩ 3 false).2 ⟨4, 32, 2⟩ (toInt 3) = 0 ∧
    bitmapGet (bitmapSet busyWords ⟨4, 32, 2⟩ 3 false).2 ⟨4, 32, 2⟩ (toInt 34) = 1 := by
  have h := bitmap_words_ok (show (⟨4, 32, 2⟩ : Bitmap).base ≠ 0 by decide) rfl busyWords
  obtain ⟨hset, hkept⟩ := h.1 3 false (by decide) (by decide)
  refine ⟨h.2.1 35 (by decide) (by decide) (by decide) (by decide),
    (h.1 35 true (by decide) (by decide)).1, hset, ?_⟩
  exact (hkept 34 (by decide) (by decide) (by decide)).trans (by decide)

/-- In a bitmap of 256 MB and a word the bit 2 ^ 31 can be set, and reads as an error. -/
theorem bitmap_words_fails :
    ¬ ∀ (m : Mem) (bmp : Bitmap), bmp.base ≠ 0 → bmp.bit = 32 →
      bmp.base + 4 * bmp.size ≤ 4294967296 → ∀ o f, o < 32 * bmp.size → o < 4294967296 →
        bitmapGet (bitmapSet m bmp o f).2 bmp (toInt o) = f.toInt := by
  intro h
  have hget := h ⟨fun _ => 0⟩ ⟨4096, 32, 67108865⟩ (by decide) rfl (by decide) 2147483648 true
    (by decide) (by decide)
  have hneg : toInt (2147483648 : ℕ) = -2147483648 := by decide
  rw [hneg] at hget
  have hget' : -EINVAL = (true : Bool).toInt := hget
  exact absurd hget' (by decide)

end YohdaOS

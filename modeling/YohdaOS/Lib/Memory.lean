import Mathlib.Tactic

/-!
# Byte-addressed memory

A memory gives every address a byte.  Words of 32 bits are stored little-endian.  `Frame lo hi`
relates two memories that agree outside `[lo, hi)`; every store comes with the frame it respects,
and a load from outside the frame reads the old value.
-/

namespace ByteMem

/-- A byte-addressed memory. -/
@[ext] structure Mem where
  byte : ℕ → BitVec 8

def load8 (m : Mem) (a : ℕ) : ℕ := (m.byte a).toNat

def store8 (m : Mem) (a v : ℕ) : Mem := ⟨Function.update m.byte a (BitVec.ofNat 8 v)⟩

def load32 (m : Mem) (a : ℕ) : ℕ :=
  load8 m a + 256 * load8 m (a + 1) + 65536 * load8 m (a + 2) + 16777216 * load8 m (a + 3)

def store32 (m : Mem) (a v : ℕ) : Mem :=
  store8 (store8 (store8 (store8 m a v) (a + 1) (v / 256)) (a + 2) (v / 65536)) (a + 3)
    (v / 16777216)

/-- Set the `n` bytes from `a` to `c`, the last one first. -/
def fill (m : Mem) (a c : ℕ) : ℕ → Mem
  | 0 => m
  | n + 1 => fill (store8 m (a + n) c) a c n

/-! ## Loads and stores -/

theorem load8_lt (m : Mem) (a : ℕ) : load8 m a < 256 := (m.byte a).isLt

theorem load32_lt (m : Mem) (a : ℕ) : load32 m a < 4294967296 := by
  have h0 := load8_lt m a
  have h1 := load8_lt m (a + 1)
  have h2 := load8_lt m (a + 2)
  have h3 := load8_lt m (a + 3)
  unfold load32
  omega

theorem byte_store8_self (m : Mem) (a v : ℕ) : (store8 m a v).byte a = BitVec.ofNat 8 v :=
  Function.update_self _ _ _

theorem byte_store8_of_ne (m : Mem) (v : ℕ) {a b : ℕ} (h : b ≠ a) :
    (store8 m a v).byte b = m.byte b :=
  Function.update_of_ne h _ _

theorem load8_store8 (m : Mem) (a v : ℕ) : load8 (store8 m a v) a = v % 256 := by
  rw [load8, byte_store8_self, BitVec.toNat_ofNat]

theorem load8_store8_of_ne (m : Mem) (v : ℕ) {a b : ℕ} (h : b ≠ a) :
    load8 (store8 m a v) b = load8 m b := by
  rw [load8, byte_store8_of_ne m v h, load8]

theorem load32_store32 (m : Mem) (a : ℕ) {v : ℕ} (hv : v < 4294967296) :
    load32 (store32 m a v) a = v := by
  have e3 : load8 (store32 m a v) (a + 3) = v / 16777216 % 256 := by
    unfold store32
    rw [load8_store8]
  have e2 : load8 (store32 m a v) (a + 2) = v / 65536 % 256 := by
    unfold store32
    rw [load8_store8_of_ne _ _ (by omega), load8_store8]
  have e1 : load8 (store32 m a v) (a + 1) = v / 256 % 256 := by
    unfold store32
    rw [load8_store8_of_ne _ _ (by omega), load8_store8_of_ne _ _ (by omega), load8_store8]
  have e0 : load8 (store32 m a v) a = v % 256 := by
    unfold store32
    rw [load8_store8_of_ne _ _ (by omega), load8_store8_of_ne _ _ (by omega),
      load8_store8_of_ne _ _ (by omega), load8_store8]
  unfold load32
  rw [e0, e1, e2, e3]
  omega

theorem byte_fill (m : Mem) (a c n x : ℕ) :
    (fill m a c n).byte x = if a ≤ x ∧ x < a + n then BitVec.ofNat 8 c else m.byte x := by
  induction n generalizing m with
  | zero => rw [fill, if_neg (by omega)]
  | succ n ih =>
    rw [fill, ih]
    by_cases hx : x = a + n
    · rw [if_neg (by omega), if_pos (by omega), hx, byte_store8_self]
    · rw [byte_store8_of_ne m c hx]
      by_cases hin : a ≤ x ∧ x < a + n
      · rw [if_pos hin, if_pos (by omega)]
      · rw [if_neg hin, if_neg (by omega)]

/-- A word of zero bytes reads zero. -/
theorem load32_eq_zero {m : Mem} {a : ℕ} (h : ∀ x, a ≤ x → x < a + 4 → m.byte x = 0) :
    load32 m a = 0 := by
  have h0 (x : ℕ) (hlo : a ≤ x) (hhi : x < a + 4) : load8 m x = 0 := by
    rw [load8, h x hlo hhi]
    rfl
  unfold load32
  rw [h0 a (by omega) (by omega), h0 (a + 1) (by omega) (by omega), h0 (a + 2) (by omega) (by omega),
    h0 (a + 3) (by omega) (by omega)]

/-- A load reads the bytes of its word only. -/
theorem load32_congr {m m' : Mem} {a : ℕ} (h : ∀ x, a ≤ x → x < a + 4 → m'.byte x = m.byte x) :
    load32 m' a = load32 m a := by
  have h8 (x : ℕ) (hlo : a ≤ x) (hhi : x < a + 4) : load8 m' x = load8 m x := by
    rw [load8, load8, h x hlo hhi]
  unfold load32
  rw [h8 a (by omega) (by omega), h8 (a + 1) (by omega) (by omega), h8 (a + 2) (by omega) (by omega),
    h8 (a + 3) (by omega) (by omega)]

/-- Whether two memories agree on a byte is not changed by the same store to both. -/
theorem byte_store32_congr {m m' : Mem} {x : ℕ} (a v : ℕ) (h : m'.byte x = m.byte x) :
    (store32 m' a v).byte x = (store32 m a v).byte x := by
  simp only [store32, store8, Function.update_apply, h]

theorem byte_fill_congr {m m' : Mem} {x : ℕ} (a c n : ℕ) (h : m'.byte x = m.byte x) :
    (fill m' a c n).byte x = (fill m a c n).byte x := by
  rw [byte_fill, byte_fill, h]

theorem byte_fill_zero (m : Mem) {a n x : ℕ} (hlo : a ≤ x) (hhi : x < a + n) :
    (fill m a 0 n).byte x = 0 := by
  rw [byte_fill, if_pos ⟨hlo, hhi⟩]
  rfl

/-! ## Frames -/

/-- The two memories agree outside `[lo, hi)`. -/
def Frame (lo hi : ℕ) (m m' : Mem) : Prop := ∀ a, a < lo ∨ hi ≤ a → m'.byte a = m.byte a

theorem Frame.refl (lo hi : ℕ) (m : Mem) : Frame lo hi m m := fun _ _ => rfl

theorem Frame.trans {lo hi : ℕ} {m₁ m₂ m₃ : Mem} (h₁ : Frame lo hi m₁ m₂)
    (h₂ : Frame lo hi m₂ m₃) : Frame lo hi m₁ m₃ :=
  fun a ha => (h₂ a ha).trans (h₁ a ha)

theorem Frame.mono {lo hi lo' hi' : ℕ} {m m' : Mem} (h : Frame lo hi m m') (hlo : lo' ≤ lo)
    (hhi : hi ≤ hi') : Frame lo' hi' m m' :=
  fun a ha => h a (by omega)

theorem Frame.load8 {lo hi : ℕ} {m m' : Mem} (h : Frame lo hi m m') {a : ℕ}
    (ha : a < lo ∨ hi ≤ a) : load8 m' a = load8 m a := by
  rw [ByteMem.load8, ByteMem.load8, h a ha]

theorem Frame.load32 {lo hi : ℕ} {m m' : Mem} (h : Frame lo hi m m') {a : ℕ}
    (ha : a + 4 ≤ lo ∨ hi ≤ a) : load32 m' a = load32 m a := by
  unfold ByteMem.load32
  rw [h.load8 (by omega), h.load8 (by omega), h.load8 (by omega), h.load8 (by omega)]

theorem frame_store8 (m : Mem) (a v : ℕ) : Frame a (a + 1) m (store8 m a v) := by
  intro x hx
  exact byte_store8_of_ne m v (by omega)

theorem frame_store32 (m : Mem) (a v : ℕ) : Frame a (a + 4) m (store32 m a v) :=
  (((frame_store8 m a v).mono le_rfl (by omega)).trans
    ((frame_store8 _ (a + 1) _).mono (by omega) (by omega))).trans
      (((frame_store8 _ (a + 2) _).mono (by omega) (by omega)).trans
        ((frame_store8 _ (a + 3) _).mono (by omega) le_rfl))

theorem frame_fill (m : Mem) (a c n : ℕ) : Frame a (a + n) m (fill m a c n) := by
  intro x hx
  rw [byte_fill, if_neg (by omega)]

theorem load32_store32_of_disjoint (m : Mem) (v : ℕ) {a b : ℕ} (h : b + 4 ≤ a ∨ a + 4 ≤ b) :
    load32 (store32 m a v) b = load32 m b :=
  (frame_store32 m a v).load32 h

/-! ## Half words -/

def load16 (m : Mem) (a : ℕ) : ℕ := load8 m a + 256 * load8 m (a + 1)

def store16 (m : Mem) (a v : ℕ) : Mem := store8 (store8 m a v) (a + 1) (v / 256)

theorem load16_lt (m : Mem) (a : ℕ) : load16 m a < 65536 := by
  have h0 := load8_lt m a
  have h1 := load8_lt m (a + 1)
  unfold load16
  omega

theorem load16_congr {m m' : Mem} {a : ℕ} (h : ∀ x, a ≤ x → x < a + 2 → m'.byte x = m.byte x) :
    load16 m' a = load16 m a := by
  unfold load16
  rw [load8, load8, load8, load8, h a (by omega) (by omega), h (a + 1) (by omega) (by omega)]

theorem load32_eq_halves (m : Mem) (a : ℕ) : load32 m a = load16 m a + 65536 * load16 m (a + 2) := by
  unfold load32 load16
  ring

theorem load16_store16 (m : Mem) (a v : ℕ) : load16 (store16 m a v) a = v % 65536 := by
  have e1 : load8 (store16 m a v) (a + 1) = v / 256 % 256 := load8_store8 _ _ _
  have e0 : load8 (store16 m a v) a = v % 256 := by
    unfold store16
    rw [load8_store8_of_ne _ _ (by omega), load8_store8]
  unfold load16
  rw [e0, e1]
  omega

theorem frame_store16 (m : Mem) (a v : ℕ) : Frame a (a + 2) m (store16 m a v) :=
  ((frame_store8 m a v).mono le_rfl (by omega)).trans
    ((frame_store8 _ (a + 1) _).mono (by omega) le_rfl)

theorem Frame.load16 {lo hi : ℕ} {m m' : Mem} (h : Frame lo hi m m') {a : ℕ}
    (ha : a + 2 ≤ lo ∨ hi ≤ a) : load16 m' a = load16 m a := by
  unfold ByteMem.load16
  rw [h.load8 (by omega), h.load8 (by omega)]

theorem load16_store16_of_disjoint (m : Mem) (v : ℕ) {a b : ℕ} (h : b + 2 ≤ a ∨ a + 2 ≤ b) :
    load16 (store16 m a v) b = load16 m b :=
  (frame_store16 m a v).load16 h

theorem load32_store16_of_disjoint (m : Mem) (v : ℕ) {a b : ℕ} (h : b + 4 ≤ a ∨ a + 2 ≤ b) :
    load32 (store16 m a v) b = load32 m b :=
  (frame_store16 m a v).load32 h

/-! ## Double words -/

/-- A word of 64 bits, the low half first. -/
def load64 (m : Mem) (a : ℕ) : ℕ := load32 m a + 4294967296 * load32 m (a + 4)

theorem load64_congr {m m' : Mem} {a : ℕ} (h : ∀ x, a ≤ x → x < a + 8 → m'.byte x = m.byte x) :
    load64 m' a = load64 m a := by
  rw [load64, load64, load32_congr fun x hx hx' => h x hx (by omega),
    load32_congr fun x hx hx' => h x (by omega) (by omega)]

/-- Words whose addresses are equally aligned do not overlap. -/
theorem load32_store32_of_mod (m : Mem) {a b v : ℕ} (hv : v < 4294967296) (hmod : a % 4 = b % 4) :
    load32 (store32 m a v) b = if b = a then v else load32 m b := by
  split_ifs with h
  · rw [h, load32_store32 m a hv]
  · exact load32_store32_of_disjoint m v (by omega)

/-- The memory that holds the words `w` from `base` on. -/
def ofWords (base : ℕ) (w : ℕ → ℕ) : Mem :=
  ⟨fun a => BitVec.ofNat 8 (w ((a - base) / 4) / 256 ^ ((a - base) % 4))⟩

theorem load32_ofWords (base : ℕ) {w : ℕ → ℕ} {k : ℕ} (hw : w k < 4294967296) :
    load32 (ofWords base w) (base + 4 * k) = w k := by
  have h8 (j : ℕ) (hj : j < 4) : load8 (ofWords base w) (base + 4 * k + j) = w k / 256 ^ j % 256 := by
    have hdiv : (base + 4 * k + j - base) / 4 = k := by omega
    have hmod : (base + 4 * k + j - base) % 4 = j := by omega
    show (BitVec.ofNat 8 (w ((base + 4 * k + j - base) / 4) /
      256 ^ ((base + 4 * k + j - base) % 4))).toNat = _
    rw [hdiv, hmod, BitVec.toNat_ofNat]
  have h0 := h8 0 (by decide)
  rw [Nat.add_zero] at h0
  rw [load32, h0, h8 1 (by decide), h8 2 (by decide), h8 3 (by decide)]
  omega

/-! ## Ranges of addresses -/

/-- The `n` addresses from `a` on and the `m` addresses from `b` on have one in common. -/
def Meets (a n b m : ℕ) : Prop := a < b + m ∧ b < a + n

instance (a n b m : ℕ) : Decidable (Meets a n b m) := inferInstanceAs (Decidable (_ ∧ _))

theorem Meets.symm {a n b m : ℕ} (h : Meets a n b m) : Meets b m a n := ⟨h.2, h.1⟩

/-! ## Bits of an array of words -/

/-- Bit `k` of the array of 32-bit words at `base`. -/
def bitAt (m : Mem) (base k : ℕ) : Bool := (load32 m (base + 4 * (k / 32))).testBit (k % 32)

/-- The word `w` with bit `b` set or cleared. -/
def withBit (w b : ℕ) (f : Bool) : ℕ :=
  if f then w ||| (1 <<< b) else w &&& (4294967295 ^^^ (1 <<< b))

theorem withBit_lt {w b : ℕ} (hw : w < 4294967296) (hb : b < 32) (f : Bool) :
    withBit w b f < 4294967296 := by
  have hs : 1 <<< b < 2 ^ 32 := by
    rw [Nat.one_shiftLeft]
    exact Nat.pow_lt_pow_right (by decide) hb
  cases f with
  | true => exact Nat.or_lt_two_pow (n := 32) hw hs
  | false => exact lt_of_le_of_lt Nat.and_le_left hw

theorem testBit_withBit (w : ℕ) {b j : ℕ} (hj : j < 32) (f : Bool) :
    (withBit w b f).testBit j = if j = b then f else w.testBit j := by
  have hfull : (4294967295 : ℕ).testBit j = true := by
    rw [show (4294967295 : ℕ) = 2 ^ 32 - 1 by rfl, Nat.testBit_two_pow_sub_one]
    exact decide_eq_true hj
  have hone : (1 <<< b).testBit j = decide (b = j) := by
    rw [Nat.one_shiftLeft, Nat.testBit_two_pow]
  by_cases hjb : j = b
  · subst hjb
    cases f <;> simp [withBit, Nat.testBit_or, Nat.testBit_and, Nat.testBit_xor, hfull, hone]
  · have hbj : b ≠ j := Ne.symm hjb
    cases f <;>
      simp [withBit, Nat.testBit_or, Nat.testBit_and, Nat.testBit_xor, hfull, hone, hjb, hbj]

/-- The bytes of a word. -/
theorem load8_eq_div (m : Mem) (a : ℕ) {j : ℕ} (hj : j < 4) :
    load8 m (a + j) = load32 m a / 2 ^ (8 * j) % 256 := by
  have h0 := load8_lt m a
  have h1 := load8_lt m (a + 1)
  have h2 := load8_lt m (a + 2)
  have h3 := load8_lt m (a + 3)
  unfold load32
  interval_cases j <;> norm_num <;> omega

/-- Rewriting one bit of a word changes the byte of that bit at most. -/
theorem frame_store32_withBit (m : Mem) (a : ℕ) {b : ℕ} (hb : b < 32) (f : Bool) :
    Frame (a + b / 8) (a + b / 8 + 1) m (store32 m a (withBit (load32 m a) b f)) := by
  intro x hx
  by_cases hin : a ≤ x ∧ x < a + 4
  · obtain ⟨j, rfl⟩ := Nat.exists_eq_add_of_le hin.1
    have hj : j < 4 := by omega
    have hlt := withBit_lt (load32_lt m a) hb f
    apply BitVec.eq_of_toNat_eq
    change load8 _ (a + j) = load8 _ (a + j)
    rw [load8_eq_div _ a hj, load8_eq_div _ a hj, load32_store32 _ _ hlt]
    apply Nat.eq_of_testBit_eq
    intro i
    rw [show (256 : ℕ) = 2 ^ 8 by rfl, Nat.testBit_mod_two_pow, Nat.testBit_mod_two_pow,
      Nat.testBit_div_two_pow, Nat.testBit_div_two_pow]
    by_cases hi : i < 8
    · rw [testBit_withBit _ (by omega), if_neg (by omega)]
    · simp [hi]
  · exact frame_store32 m a _ x (by omega)

/-- Rewriting the word that holds bit `k` changes bit `k` alone. -/
theorem bitAt_store_withBit (m : Mem) (base k l : ℕ) (f : Bool) :
    bitAt (store32 m (base + 4 * (k / 32))
      (withBit (load32 m (base + 4 * (k / 32))) (k % 32) f)) base l =
      if l = k then f else bitAt m base l := by
  have hlt := withBit_lt (load32_lt m (base + 4 * (k / 32))) (Nat.mod_lt k (by decide : 0 < 32)) f
  unfold bitAt
  by_cases hw : l / 32 = k / 32
  · rw [hw, load32_store32 _ _ hlt, testBit_withBit _ (Nat.mod_lt l (by decide))]
    have hiff : l % 32 = k % 32 ↔ l = k := by omega
    simp only [hiff]
  · rw [load32_store32_of_disjoint _ _ (by omega), if_neg (by rintro rfl; exact hw rfl)]

theorem Frame.bitAt {lo hi : ℕ} {m m' : Mem} (h : Frame lo hi m m') {base k : ℕ}
    (ha : base + 4 * (k / 32) + 4 ≤ lo ∨ hi ≤ base + 4 * (k / 32)) :
    bitAt m' base k = bitAt m base k := by
  unfold ByteMem.bitAt
  rw [h.load32 ha]

end ByteMem

import YohdaOS.Buddy.Marking

/-!
# The walk towards the ancestors of a block

An allocation marks the ancestors of its block and stops at the first one already marked; a release
clears them and stops at the first one whose sibling is in use.  Both stops are sound because a
set bit always has a set bit above it: a block in use keeps its ancestors in use, and a block
without a parent has padding bits above.
-/

namespace YohdaOS

open ByteMem BinaryBlocks

/-- No order has a whole number of bitmap words of blocks, so each order has padding. -/
def Padded (s : Mm) : Prop := ∀ i < s.bm.dep, ¬ 32 ∣ (s.bud i).num

/-- Bit `l` of order `j` is set exactly for the padding and for the blocks that satisfy `U`. -/
def BitsAre (s : Mm) (j : ℕ) (U : ℕ → Prop) : Prop :=
  ∀ l < s.bits j, s.bit j l = true ↔ (s.bud j).num ≤ l ∨ U l

theorem SameBud.padded {s s' : Mm} (h : SameBud s s') (hp : Padded s) : Padded s' := by
  intro i hi
  rw [h.bm] at hi
  rw [h.num]
  exact hp i hi

section Probe

variable {s : Mm} (L : Layout s) {i : ℕ} (hi : i < s.bm.dep)

include L hi

theorem u8_ord : u8 i = i := by
  have := L.dep_le
  exact Nat.mod_eq_of_lt (by omega)

theorem toInt_ost {n : ℕ} (hn : n < s.bits i) : toInt (n : ℤ) = n := by
  have := L.bits_lt hi
  exact toInt_natCast (by omega)

theorem bit_probe {n : ℕ} (hn : n < s.bits i) :
    bitmapGet s.mem (s.bud i).bmp (toInt n) ≠ 0 ↔ s.bit i n = true := by
  rw [toInt_ost L hi hn, L.bitmapGet_eq hi]
  cases s.bit i n <;> decide

theorem budSearch_eq {n : ℕ} (hn : n < s.bits i) (f : Bool) :
    budSearch s (u8 i) n f =
      if s.bit i n = true then (true, s) else (false, (budSetBit s i n f).2) := by
  simp only [budSearch, u8_ord L hi, bit_probe L hi hn]
  rw [toInt_ost L hi hn]

theorem sibling_lt_bits (hp : Padded s) {n : ℕ} (hn : n < (s.bud i).num) :
    sibling n < s.bits i := by
  have := L.num_lt_bits hi (hp i hi)
  unfold sibling
  split_ifs <;> omega

theorem budIsBudUsed_eq {n : ℕ} (hn : n < (s.bud i).num) (hsib : sibling n < s.bits i) :
    budIsBudUsed s i n = s.bit i (sibling n) := by
  have hbits := L.bits_lt hi
  have hle := L.num_le_bits hi
  have hu : u32 (n + if n % 2 = 1 then 4294967295 else 1) = sibling n := by
    unfold u32 sibling
    split_ifs <;> omega
  unfold budIsBudUsed
  rw [hu]
  simp only [bit_probe L hi hsib]
  cases s.bit i (sibling n) <;> rfl

theorem budMerge_eq {n : ℕ} (hn : n < (s.bud i).num) (hsib : sibling n < s.bits i) (f : Bool) :
    budMerge s (u8 i) n f =
      (decide (i + 1 ≠ s.bm.dep) && (budSetBit s i n f).2.bit i (sibling n),
        (budSetBit s i n f).2) := by
  have hpos := L.dep_pos
  have hdep := L.dep_le
  have hle := L.num_le_bits hi
  have hm := marked_budSetBit L hi (lt_of_lt_of_le hn hle) f
  have htop : i = u32 (s.bm.dep + 4294967295) ↔ i + 1 = s.bm.dep := by
    unfold u32
    omega
  simp only [budMerge, u8_ord L hi, toInt_ost L hi (lt_of_lt_of_le hn hle), hm.same.bm, htop]
  by_cases h : i + 1 = s.bm.dep
  · rw [if_pos h]
    simp [h]
  · rw [if_neg h, budIsBudUsed_eq (hm.same.layout L) (by rw [hm.same.bm]; exact hi)
      (by rw [hm.same.num]; exact hn) (by rw [hm.same.bits]; exact hsib)]
    cases (budSetBit s i n f).2.bit i (sibling n) <;> simp [h]

end Probe

/-! ## Allocation -/

/-- Above a set bit every ancestor is set. -/
theorem bit_ancestor {s : Mm} (L : Layout s) {i n : ℕ} (hn : n ≤ (s.bud i).num)
    (hup : ∀ j, i ≤ j → j + 1 < s.bm.dep → ∀ l ≤ (s.bud j).num,
      s.bit j l = true → s.bit (j + 1) (l / 2) = true)
    (hset : s.bit i n = true) (d : ℕ) (hd : i + d < s.bm.dep) :
    s.bit (i + d) (n / 2 ^ d) = true ∧ n / 2 ^ d ≤ (s.bud (i + d)).num := by
  induction d with
  | zero => simpa using ⟨hset, hn⟩
  | succ d ih =>
    obtain ⟨h₁, h₂⟩ := ih (by omega)
    rw [pow_succ, ← Nat.div_div_eq_div_mul, ← Nat.add_assoc, L.num_succ (by omega)]
    exact ⟨hup (i + d) (by omega) (by omega) _ h₂ h₁, Nat.div_le_div_right h₂⟩

/-- `bud_chk_parent` with `bud_search` marks every ancestor from block `n` of order `i` on. -/
theorem budSearchLoop_spec (fuel i n : ℕ) {s : Mm} (L : Layout s) (hp : Padded s)
    (hfuel : i + fuel = s.bm.dep) (hn : i < s.bm.dep → n ≤ (s.bud i).num)
    (hup : ∀ j, i ≤ j → j + 1 < s.bm.dep → ∀ l ≤ (s.bud j).num,
      s.bit j l = true → s.bit (j + 1) (l / 2) = true) :
    let s' := budChkParentLoop budSearch true fuel i n s
    Marked s s' ∧ ∀ j < s.bm.dep, ∀ l < s.bits j,
      (s'.bit j l = true ↔ s.bit j l = true ∨ (i ≤ j ∧ l = n / 2 ^ (j - i))) := by
  induction fuel generalizing i n s with
  | zero =>
    refine ⟨Marked.refl s, fun j hj l hl => ?_⟩
    rw [budChkParentLoop]
    exact (or_iff_left (by omega)).symm
  | succ fuel ih =>
    have hi : i < s.bm.dep := by omega
    have hnle := hn hi
    have hnb : n < s.bits i := lt_of_le_of_lt hnle (L.num_lt_bits hi (hp i hi))
    simp only [budChkParentLoop, budSearch_eq L hi hnb]
    by_cases hset : s.bit i n = true
    · -- the walk stops: all ancestors from here on are set already
      rw [if_pos hset]
      refine ⟨Marked.refl s, fun j hj l hl => (or_iff_left_of_imp ?_).symm⟩
      rintro ⟨hij, rfl⟩
      have := (bit_ancestor L hnle hup hset (j - i) (by omega)).1
      rwa [show i + (j - i) = j by omega] at this
    · simp only [if_neg hset, Bool.false_eq_true, if_false]
      have hm := marked_budSetBit L hi hnb true
      set s₁ := (budSetBit s i n true).2
      have hbit (j : ℕ) (hj : j < s.bm.dep) (l : ℕ) (hl : l < s.bits j) :
          s₁.bit j l = if j = i ∧ l = n then true else s.bit j l :=
        bit_budSetBit L hi hnb true hj hl
      have hn₁ : i + 1 < s₁.bm.dep → n / 2 ≤ (s₁.bud (i + 1)).num := by
        intro h
        rw [hm.same.bm] at h
        rw [hm.same.num, L.num_succ h]
        exact Nat.div_le_div_right hnle
      have hup₁ : ∀ j, i + 1 ≤ j → j + 1 < s₁.bm.dep → ∀ l ≤ (s₁.bud j).num,
          s₁.bit j l = true → s₁.bit (j + 1) (l / 2) = true := by
        intro j hij hj l hl hset₁
        rw [hm.same.bm] at hj
        rw [hm.same.num] at hl
        have hlb := lt_of_le_of_lt hl (L.num_lt_bits (by omega) (hp j (by omega)))
        have hl2 : l / 2 < s.bits (j + 1) := by
          have := L.num_lt_bits hj (hp (j + 1) hj)
          rw [L.num_succ hj] at this
          omega
        rw [hbit j (by omega) l hlb, if_neg (by omega)] at hset₁
        rw [hbit (j + 1) hj _ hl2, if_neg (by omega)]
        exact hup j (by omega) hj l hl hset₁
      obtain ⟨hm₂, hbit₂⟩ := ih (i + 1) (n / 2) (hm.same.layout L) (hm.same.padded hp)
        (by rw [hm.same.bm]; omega) hn₁ hup₁
      refine ⟨hm.trans hm₂, fun j hj l hl => ?_⟩
      rw [hbit₂ j (by rw [hm.same.bm]; exact hj) l (by rw [hm.same.bits]; exact hl), hbit j hj l hl]
      rcases Nat.lt_trichotomy j i with hji | rfl | hij
      · rw [if_neg (by omega)]
        exact or_congr_right (by omega)
      · rw [Nat.sub_self, pow_zero, Nat.div_one]
        by_cases hln : l = n
        · simp [hln]
        · simp [hln]
      · have hdiv : n / 2 / 2 ^ (j - (i + 1)) = n / 2 ^ (j - i) := by
          rw [Nat.div_div_eq_div_mul, ← pow_succ', show j - (i + 1) + 1 = j - i by omega]
        rw [if_neg (by omega), hdiv]
        exact or_congr_right (by omega)

/-! ## Release -/

/-- Above a block that leaves the family, an ancestor stays marked once one of the blocks on the
way is in use or has no parent. -/
theorem ancestor_marked {B : List Block} {s : Mm} (L : Layout s) {i n : ℕ}
    (h : (s.bud i).num ≤ n ∨ Used B i n) (d : ℕ) (hd : i + d < s.bm.dep) :
    (s.bud (i + d)).num ≤ n / 2 ^ d ∨ Used B (i + d) (n / 2 ^ d) := by
  rcases h with h | h
  · left
    rw [L.num_add hd]
    exact Nat.div_le_div_right h
  · exact Or.inr (h.ancestor d)

/-- When the bit of the sibling is set, the parent stays marked. -/
theorem parent_marked {B : List Block} {s : Mm} (L : Layout s) {i n : ℕ} (hi : i + 1 < s.bm.dep)
    (hfree : ¬ Used B i n) (hsib : (s.bud i).num ≤ sibling n ∨ Used B i (sibling n)) :
    (s.bud (i + 1)).num ≤ n / 2 ∨ Used B (i + 1) (n / 2) := by
  rw [used_parent_iff_sibling hfree, L.num_succ hi]
  refine hsib.imp_left fun h => ?_
  rw [← sibling_div_two n]
  exact Nat.div_le_div_right h

/-- When the bit of the sibling is set, every ancestor stays marked. -/
theorem ancestor_marked_of_sibling {B : List Block} {s : Mm} (L : Layout s) {i n j : ℕ}
    (hij : i < j) (hj : j < s.bm.dep) (hfree : ¬ Used B i n)
    (hsib : (s.bud i).num ≤ sibling n ∨ Used B i (sibling n)) :
    (s.bud j).num ≤ n / 2 ^ (j - i) ∨ Used B j (n / 2 ^ (j - i)) := by
  have hpar := parent_marked L (by omega) hfree hsib
  have hanc := ancestor_marked L hpar (j - (i + 1)) (by omega)
  rwa [show i + 1 + (j - (i + 1)) = j by omega, Nat.div_div_eq_div_mul, ← pow_succ',
    show j - (i + 1) + 1 = j - i by omega] at hanc

/-- When the bit of the sibling is clear, the parent is a block and is free. -/
theorem parent_free {B : List Block} {s : Mm} (L : Layout s) {i n : ℕ} (hi : i + 1 < s.bm.dep)
    (hfree : ¬ Used B i n) (hn : n < (s.bud i).num)
    (hsib : ¬ ((s.bud i).num ≤ sibling n ∨ Used B i (sibling n))) :
    ¬ Used B (i + 1) (n / 2) ∧ n / 2 < (s.bud (i + 1)).num := by
  rw [not_or, not_le] at hsib
  refine ⟨fun h => hsib.2 ((used_parent_iff_sibling hfree).1 h), ?_⟩
  rw [L.num_succ hi]
  rcases halves_eq n with h | h <;> omega

/-- `bud_chk_parent` with `bud_merge`, entered at the free block `n` of order `i`, leaves exactly
the bits of the remaining blocks set. -/
theorem budMergeLoop_spec (B : List Block) (fuel i n : ℕ) {s : Mm} (L : Layout s) (hp : Padded s)
    (hfuel : i + fuel = s.bm.dep)
    (hfree : i < s.bm.dep → ¬ Used B i n ∧ n < (s.bud i).num)
    (hlow : ∀ j < i, j < s.bm.dep → BitsAre s j (Used B j))
    (hhigh : ∀ j < s.bm.dep, i ≤ j → BitsAre s j fun l => Used B j l ∨ l = n / 2 ^ (j - i)) :
    let s' := budChkParentLoop budMerge false fuel i n s
    Marked s s' ∧ ∀ j < s.bm.dep, BitsAre s' j (Used B j) := by
  induction fuel generalizing i n s with
  | zero =>
    rw [budChkParentLoop]
    exact ⟨Marked.refl s, fun j hj => hlow j (by omega) hj⟩
  | succ fuel ih =>
    have hi : i < s.bm.dep := by omega
    obtain ⟨hunused, hn⟩ := hfree hi
    have hnb := lt_of_lt_of_le hn (L.num_le_bits hi)
    have hm := marked_budSetBit L hi hnb false
    have hsibb := sibling_lt_bits L hi hp hn
    simp only [budChkParentLoop, budMerge_eq L hi hn hsibb]
    set s₁ := (budSetBit s i n false).2
    have hbit (j : ℕ) (hj : j < s.bm.dep) (l : ℕ) (hl : l < s.bits j) :
        s₁.bit j l = if j = i ∧ l = n then false else s.bit j l :=
      bit_budSetBit L hi hnb false hj hl
    -- orders up to `i` are right now, the others are as before
    have hlow₁ : ∀ j ≤ i, j < s.bm.dep → BitsAre s₁ j (Used B j) := by
      intro j hj hjd l hl
      rw [hm.same.bits] at hl
      rw [hbit j hjd l hl, hm.same.num]
      rcases Nat.lt_or_eq_of_le hj with hlt | rfl
      · rw [if_neg (by omega)]
        exact hlow j hlt hjd l hl
      · by_cases hln : l = n
        · subst hln
          rw [if_pos ⟨rfl, rfl⟩]
          exact iff_of_false (by decide) (not_or.2 ⟨by omega, hunused⟩)
        · rw [if_neg (by tauto), hhigh j hjd le_rfl l hl]
          simp [hln]
    have hhigh₁ : ∀ j < s.bm.dep, i < j →
        BitsAre s₁ j fun l => Used B j l ∨ l = n / 2 ^ (j - i) := by
      intro j hjd hij l hl
      rw [hm.same.bits] at hl
      rw [hbit j hjd l hl, hm.same.num, if_neg (by omega)]
      exact hhigh j hjd (le_of_lt hij) l hl
    by_cases htop : i + 1 = s.bm.dep
    · have hfuel0 : fuel = 0 := by omega
      subst hfuel0
      simp only [htop, ne_eq, not_true_eq_false, decide_false, Bool.false_and, Bool.false_eq_true,
        if_false, budChkParentLoop]
      exact ⟨hm, fun j hj => hlow₁ j (by omega) hj⟩
    have hsib : s₁.bit i (sibling n) = true ↔
        (s.bud i).num ≤ sibling n ∨ Used B i (sibling n) := by
      rw [hlow₁ i le_rfl hi _ (by rw [hm.same.bits]; exact hsibb), hm.same.num]
    by_cases hstop : s₁.bit i (sibling n) = true
    · -- the sibling is in use or missing: the ancestors keep their bits
      simp only [htop, ne_eq, not_false_eq_true, decide_true, Bool.true_and, hstop, if_true]
      refine ⟨hm, fun j hj => ?_⟩
      rcases Nat.lt_or_ge i j with hij | hji
      · intro l hl
        rw [hhigh₁ j hj hij l hl]
        refine or_congr_right' fun hnum => or_iff_left_of_imp ?_
        rintro rfl
        have hanc := ancestor_marked_of_sibling L hij hj hunused (hsib.1 hstop)
        rw [← hm.same.num] at hanc
        exact hanc.resolve_left hnum
      · exact hlow₁ j hji hj
    · rw [Bool.not_eq_true] at hstop
      simp only [hstop, Bool.and_false, Bool.false_eq_true, if_false]
      have hsib' : ¬ ((s.bud i).num ≤ sibling n ∨ Used B i (sibling n)) := by
        rw [← hsib, hstop]
        decide
      obtain ⟨hm₂, hbits₂⟩ := ih (i + 1) (n / 2) (hm.same.layout L) (hm.same.padded hp)
        (by rw [hm.same.bm]; omega)
        (fun _ => by
          rw [hm.same.num]
          exact parent_free L (by omega) hunused hn hsib')
        (fun j hj hjd => hlow₁ j (by omega) (by rwa [hm.same.bm] at hjd))
        (fun j hjd hij => by
          rw [hm.same.bm] at hjd
          have := hhigh₁ j hjd (by omega)
          rwa [show j - i = j - (i + 1) + 1 by omega, pow_succ', ← Nat.div_div_eq_div_mul] at this)
      exact ⟨hm.trans hm₂, fun j hj => hbits₂ j (by rw [hm.same.bm]; exact hj)⟩

end YohdaOS

import Mathlib.Tactic

/-!
# Blocks of a binary subdivision

Space is an infinite row of cells.  A block of order `ord` and index `idx` covers the `2 ^ ord`
cells from `idx * 2 ^ ord` on, so two blocks of orders `i + 1` and `i` are either disjoint or the
smaller one is a half of the larger.  `Used B i k` says that block `k` of order `i` meets a block
of the family `B`; the lemmas say how it changes when a block enters or leaves the family.
-/

namespace BinaryBlocks

structure Block where
  ord : ℕ
  idx : ℕ
deriving DecidableEq

namespace Block

/-- The two blocks have a cell in common. -/
def Overlap (b c : Block) : Prop :=
  b.idx * 2 ^ b.ord < (c.idx + 1) * 2 ^ c.ord ∧ c.idx * 2 ^ c.ord < (b.idx + 1) * 2 ^ b.ord

instance (b c : Block) : Decidable (b.Overlap c) :=
  inferInstanceAs (Decidable (_ ∧ _))

theorem Overlap.symm {b c : Block} (h : b.Overlap c) : c.Overlap b := ⟨h.2, h.1⟩

theorem overlap_self (b : Block) : b.Overlap b := by
  have h : 0 < 2 ^ b.ord := by positivity
  constructor <;> nlinarith

/-- A block meets a larger one exactly when it lies in it. -/
theorem overlap_iff {b c : Block} (h : b.ord ≤ c.ord) :
    b.Overlap c ↔ b.idx / 2 ^ (c.ord - b.ord) = c.idx := by
  obtain ⟨d, hd⟩ := Nat.exists_eq_add_of_le h
  have hpos : 0 < 2 ^ b.ord := by positivity
  have hd0 : 0 < 2 ^ d := by positivity
  have hc (n : ℕ) : n * 2 ^ c.ord = (n * 2 ^ d) * 2 ^ b.ord := by
    rw [hd, pow_add]
    ring
  have hsub : c.ord - b.ord = d := by omega
  unfold Overlap
  rw [hc, hc, Nat.mul_lt_mul_right hpos, Nat.mul_lt_mul_right hpos, hsub, Nat.div_eq_iff hd0]
  rw [Nat.add_mul, one_mul]
  omega

theorem overlap_comm (b c : Block) : b.Overlap c ↔ c.Overlap b := ⟨Overlap.symm, Overlap.symm⟩

theorem overlap_same_ord (i k l : ℕ) : Overlap ⟨i, k⟩ ⟨i, l⟩ ↔ k = l := by
  rw [overlap_iff (b := ⟨i, k⟩) (c := ⟨i, l⟩) le_rfl, Nat.sub_self, pow_zero, Nat.div_one]

/-- Two blocks with the same first cell meet. -/
theorem overlap_of_start_eq {b c : Block} (h : b.idx * 2 ^ b.ord = c.idx * 2 ^ c.ord) :
    b.Overlap c := by
  have hb : 0 < 2 ^ b.ord := by positivity
  have hc : 0 < 2 ^ c.ord := by positivity
  constructor <;> nlinarith

/-- A block that meets a larger one lies in it. -/
theorem Overlap.inside {b c : Block} (h : b.Overlap c) (hord : b.ord ≤ c.ord) :
    c.idx * 2 ^ c.ord ≤ b.idx * 2 ^ b.ord ∧
      (b.idx + 1) * 2 ^ b.ord ≤ (c.idx + 1) * 2 ^ c.ord := by
  obtain ⟨d, hd⟩ := Nat.exists_eq_add_of_le hord
  have hc (n : ℕ) : n * 2 ^ c.ord = (n * 2 ^ d) * 2 ^ b.ord := by
    rw [hd, pow_add]
    ring
  have hpos : 0 < 2 ^ b.ord := by positivity
  obtain ⟨h₁, h₂⟩ := h
  rw [hc, Nat.mul_lt_mul_right hpos] at h₁ h₂
  rw [hc, hc]
  exact ⟨Nat.mul_le_mul_right _ (by omega), Nat.mul_le_mul_right _ (by omega)⟩

/-- A block meets another one exactly when one of its halves does. -/
theorem overlap_halves (i n : ℕ) (b : Block) :
    Overlap ⟨i + 1, n⟩ b ↔ Overlap ⟨i, 2 * n⟩ b ∨ Overlap ⟨i, 2 * n + 1⟩ b := by
  have hlo : n * 2 ^ (i + 1) = 2 * n * 2 ^ i := by ring
  have hhi : (n + 1) * 2 ^ (i + 1) = (2 * n + 1 + 1) * 2 ^ i := by ring
  have hmid : (2 * n + 1) * 2 ^ i = 2 * n * 2 ^ i + 2 ^ i := by ring
  have htop : (2 * n + 1 + 1) * 2 ^ i = 2 * n * 2 ^ i + 2 ^ i + 2 ^ i := by ring
  have hpos : 0 < 2 ^ i := by positivity
  have hb : 0 < 2 ^ b.ord := by positivity
  have hbh : (b.idx + 1) * 2 ^ b.ord = b.idx * 2 ^ b.ord + 2 ^ b.ord := by ring
  simp only [Overlap, hlo, hhi, hmid, htop, hbh]
  omega

end Block

/-- The other half of the block that block `k` is a half of. -/
def sibling (k : ℕ) : ℕ := if k % 2 = 1 then k - 1 else k + 1

theorem sibling_div_two (k : ℕ) : sibling k / 2 = k / 2 := by
  unfold sibling
  split_ifs <;> omega

theorem halves_eq (k : ℕ) :
    (2 * (k / 2) = k ∧ 2 * (k / 2) + 1 = sibling k) ∨
      (2 * (k / 2) = sibling k ∧ 2 * (k / 2) + 1 = k) := by
  unfold sibling
  split_ifs <;> omega

/-! ## Families of blocks -/

/-- Block `k` of order `i` meets a block of the family. -/
def Used (B : List Block) (i k : ℕ) : Prop := ∃ b ∈ B, Block.Overlap ⟨i, k⟩ b

instance (B : List Block) (i k : ℕ) : Decidable (Used B i k) :=
  inferInstanceAs (Decidable (∃ b ∈ B, _))

theorem not_used_nil (i k : ℕ) : ¬ Used [] i k := by
  rintro ⟨b, hb, -⟩
  exact List.not_mem_nil hb

theorem used_cons (b : Block) (B : List Block) (i k : ℕ) :
    Used (b :: B) i k ↔ Block.Overlap ⟨i, k⟩ b ∨ Used B i k := by
  simp [Used]

/-- A block is used exactly when one of its halves is. -/
theorem used_halves (B : List Block) (i n : ℕ) :
    Used B (i + 1) n ↔ Used B i (2 * n) ∨ Used B i (2 * n + 1) := by
  simp only [Used, Block.overlap_halves]
  constructor
  · rintro ⟨b, hb, h | h⟩
    · exact Or.inl ⟨b, hb, h⟩
    · exact Or.inr ⟨b, hb, h⟩
  · rintro (⟨b, hb, h⟩ | ⟨b, hb, h⟩)
    · exact ⟨b, hb, Or.inl h⟩
    · exact ⟨b, hb, Or.inr h⟩

/-- Above a used block every ancestor is used. -/
theorem Used.up {B : List Block} {i k : ℕ} (h : Used B i k) : Used B (i + 1) (k / 2) := by
  rw [used_halves]
  rcases halves_eq k with ⟨h₁, -⟩ | ⟨-, h₁⟩
  · exact Or.inl (by rwa [h₁])
  · exact Or.inr (by rwa [h₁])

theorem Used.ancestor {B : List Block} {i k : ℕ} (h : Used B i k) (d : ℕ) :
    Used B (i + d) (k / 2 ^ d) := by
  induction d with
  | zero => simpa using h
  | succ d ih =>
    rw [pow_succ, ← Nat.div_div_eq_div_mul, ← Nat.add_assoc]
    exact ih.up

/-- When block `k` is free, the block it is a half of is used exactly when its sibling is. -/
theorem used_parent_iff_sibling {B : List Block} {i k : ℕ} (h : ¬ Used B i k) :
    Used B (i + 1) (k / 2) ↔ Used B i (sibling k) := by
  rw [used_halves]
  rcases halves_eq k with ⟨h₁, h₂⟩ | ⟨h₁, h₂⟩
  · rw [h₂, h₁]
    exact or_iff_right h
  · rw [h₂, h₁]
    exact or_iff_left h

/-- The blocks of the family are pairwise disjoint. -/
def Apart (B : List Block) : Prop := B.Pairwise fun b c => ¬ b.Overlap c

theorem Apart.nodup {B : List Block} (h : Apart B) : B.Nodup :=
  h.imp fun {b c} hbc => by
    rintro rfl
    exact hbc b.overlap_self

theorem Apart.erase {B : List Block} (h : Apart B) (b : Block) : Apart (B.erase b) :=
  h.sublist List.erase_sublist

theorem Apart.eq_of_overlap {B : List Block} (h : Apart B) {b c : Block} (hb : b ∈ B) (hc : c ∈ B)
    (hbc : b.Overlap c) : b = c := by
  by_contra hne
  have : Std.Symm fun x y : Block => ¬ x.Overlap y := ⟨fun _ _ hxy hyx => hxy hyx.symm⟩
  exact List.Pairwise.forall h hb hc hne hbc

theorem Apart.cons {B : List Block} (h : Apart B) {b : Block} (hb : ¬ Used B b.ord b.idx) :
    Apart (b :: B) :=
  List.pairwise_cons.2 ⟨fun c hc hbc => hb ⟨c, hc, hbc⟩, h⟩

/-- A block at or below the order of `b` that lies in `b` is free once `b` has left. -/
theorem not_used_erase_of_overlap {B : List Block} (h : Apart B) {b : Block} (hb : b ∈ B) {i k : ℕ}
    (hi : i ≤ b.ord) (hk : Block.Overlap ⟨i, k⟩ b) : ¬ Used (B.erase b) i k := by
  rintro ⟨c, hc, hck⟩
  obtain ⟨hne, hcB⟩ := (h.nodup.mem_erase_iff).1 hc
  refine hne (h.eq_of_overlap hcB hb ?_)
  obtain ⟨hlo, hhi⟩ := hk.inside hi
  exact ⟨lt_of_lt_of_le hck.2 hhi, lt_of_le_of_lt hlo hck.1⟩

theorem used_erase_of_not_overlap {B : List Block} {b : Block} {i k : ℕ}
    (hk : ¬ Block.Overlap ⟨i, k⟩ b) : Used (B.erase b) i k ↔ Used B i k := by
  constructor
  · rintro ⟨c, hc, hck⟩
    exact ⟨c, List.mem_of_mem_erase hc, hck⟩
  · rintro ⟨c, hc, hck⟩
    have hne : c ≠ b := by
      rintro rfl
      exact hk hck
    exact ⟨c, (List.mem_erase_of_ne hne).2 hc, hck⟩

end BinaryBlocks

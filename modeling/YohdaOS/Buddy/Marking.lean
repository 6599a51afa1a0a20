import YohdaOS.Buddy.Layout
import YohdaOS.Lib.Blocks

/-!
# Marking blocks

The effect of `bud_set_bit`, of the loops that mark the blocks below a block, and of the walk
towards its ancestors, on the bits of the bitmaps.
-/

namespace YohdaOS

open ByteMem BinaryBlocks

/-- The state with bit `k` of order `i` rewritten to `f` and the counter of the order adjusted. -/
def Mm.flip (s : Mm) (i k : ℕ) (f : Bool) : Mm :=
  { s with
    bud := Function.update s.bud i { s.bud i with
      frees := if f then u32 ((s.bud i).frees + 4294967295) else u32 ((s.bud i).frees + 1) }
    mem := (bitmapSet s.mem (s.bud i).bmp k f).2 }

theorem bmp_flip (s : Mm) (i k : ℕ) (f : Bool) (j : ℕ) :
    ((s.flip i k f).bud j).bmp = (s.bud j).bmp := by
  by_cases hj : j = i
  · subst hj
    simp [Mm.flip]
  · simp [Mm.flip, hj]

theorem num_flip (s : Mm) (i k : ℕ) (f : Bool) (j : ℕ) :
    ((s.flip i k f).bud j).num = (s.bud j).num := by
  by_cases hj : j = i
  · subst hj
    simp [Mm.flip]
  · simp [Mm.flip, hj]

theorem frees_flip (s : Mm) (i k : ℕ) (f : Bool) (j : ℕ) :
    ((s.flip i k f).bud j).frees =
      if j = i then (if f then u32 ((s.bud i).frees + 4294967295) else u32 ((s.bud i).frees + 1))
      else (s.bud j).frees := by
  by_cases hj : j = i
  · subst hj
    simp [Mm.flip]
  · simp [Mm.flip, hj]

theorem same_flip (s : Mm) (i k : ℕ) (f : Bool) : Same s (s.flip i k f) :=
  ⟨⟨rfl, num_flip s i k f, bmp_flip s i k f⟩, rfl, rfl, rfl, rfl, rfl, rfl, rfl⟩

section SetBit

variable {s : Mm} (L : Layout s) {i : ℕ} (hi : i < s.bm.dep)

include L hi

theorem budSetBit_eq (k : ℕ) (f : Bool) :
    (budSetBit s i k f).2 = if s.bit i k = f then s else s.flip i k f := by
  have hk : ¬ (k : ℤ) < 0 := by omega
  have herr : ¬ (s.bit i k).toInt < 0 := by cases s.bit i k <;> decide
  have heq : (s.bit i k).toInt = f.toInt ↔ s.bit i k = f := by
    cases s.bit i k <;> cases f <;> decide
  simp only [budSetBit, if_neg hk, L.bitmapGet_eq hi, if_neg herr, heq, Int.toNat_natCast]
  by_cases hf : s.bit i k = f
  · rw [if_pos hf, if_pos hf]
  · rw [if_neg hf, if_neg hf, apply_ite Prod.snd, ite_self]
    rfl

theorem frame_flip {k : ℕ} (hk : k < s.bits i) (f : Bool) :
    Frame (s.bud i).bmp.base ((s.bud i).bmp.base + 4 * (s.bud i).bmp.size) s.mem
      (s.flip i k f).mem := by
  have hbase := L.base_pos i hi
  rw [Mm.bits] at hk
  exact (frame_bitmapSet (by omega) (L.bit i hi) k f).mono (by omega) (by omega)

theorem bit_flip {k : ℕ} (hk : k < s.bits i) (f : Bool) {j l : ℕ} (hj : j < s.bm.dep)
    (hl : l < s.bits j) :
    (s.flip i k f).bit j l = if j = i ∧ l = k then f else s.bit j l := by
  have hbase := L.base_pos i hi
  rw [Mm.bit, bmp_flip]
  by_cases hji : j = i
  · subst hji
    rw [Mm.flip, bitAt_bitmapSet (by omega) (L.bit j hi)]
    simp only [true_and]
    rfl
  · rw [if_neg (by tauto)]
    refine (frame_flip L hi hk f).bitAt ?_
    rw [Mm.bits] at hl
    rcases Nat.lt_or_gt_of_ne hji with h | h
    · have := L.base_lt j i h hi
      omega
    · have := L.base_lt i j h hj
      omega

/-- Setting a bit changes no other bit of any order. -/
theorem bit_budSetBit {k : ℕ} (hk : k < s.bits i) (f : Bool) {j l : ℕ} (hj : j < s.bm.dep)
    (hl : l < s.bits j) :
    (budSetBit s i k f).2.bit j l = if j = i ∧ l = k then f else s.bit j l := by
  rw [budSetBit_eq L hi]
  split_ifs with hsame hjl hjl
  · rw [hjl.1, hjl.2, hsame]
  · rfl
  · rw [bit_flip L hi hk f hj hl, if_pos hjl]
  · rw [bit_flip L hi hk f hj hl, if_neg hjl]

theorem same_budSetBit (k : ℕ) (f : Bool) : Same s (budSetBit s i k f).2 := by
  rw [budSetBit_eq L hi]
  split_ifs
  · exact Same.refl s
  · exact same_flip s i k f

theorem frees_budSetBit {k : ℕ} (hk : k < s.bits i) (f : Bool) (h : FreesOk s) :
    FreesOk (budSetBit s i k f).2 := by
  have hsame := same_budSetBit L hi k f
  have hbits := L.bits_lt hi
  intro j hj
  rw [hsame.bm] at hj
  have hbit (l : ℕ) (hl : l < s.bits j) := bit_budSetBit L hi hk f hj hl
  rw [Mm.clearBits, hsame.bits]
  by_cases hf : s.bit i k = f
  · -- nothing is written
    rw [budSetBit_eq L hi, if_pos hf]
    exact h j hj
  have hfrees := frees_flip s i k f j
  rw [← if_neg (c := s.bit i k = f) (t := s) (e := s.flip i k f) hf, ← budSetBit_eq L hi] at hfrees
  rw [hfrees]
  by_cases hji : j = i
  · subst hji
    rw [if_pos rfl, h j hj, Mm.clearBits]
    have hle : Nat.count (fun k => s.bit j k = false) (s.bits j) ≤ s.bits j :=
      Nat.count_le _
    cases f with
    | true =>
      have hclear : s.bit j k = false := by simpa using hf
      have hflip := Counting.count_succ_of_flip (n := s.bits j)
        (p := fun l => (budSetBit s j k true).2.bit j l = false) (q := fun l => s.bit j l = false)
        hk (by rw [hbit k hk]; simp) hclear
        (fun l hl hne => by rw [hbit l hl]; simp [hne])
      rw [hflip] at hle ⊢
      rw [if_pos rfl, u32]
      omega
    | false =>
      have hset : s.bit j k = true := by simpa using hf
      have hflip := Counting.count_succ_of_flip (n := s.bits j)
        (p := fun l => s.bit j l = false) (q := fun l => (budSetBit s j k false).2.bit j l = false)
        hk (by rw [hset]; simp) (by rw [hbit k hk]; simp)
        (fun l hl hne => by rw [hbit l hl]; simp [hne])
      rw [hflip, if_neg (by simp), u32_of_lt (by omega)]
  · rw [if_neg hji, h j hj, Mm.clearBits]
    exact Counting.count_congr fun l hl => by rw [hbit l hl, if_neg (by tauto)]

theorem marked_budSetBit {k : ℕ} (hk : k < s.bits i) (f : Bool) :
    Marked s (budSetBit s i k f).2 where
  same := same_budSetBit L hi k f
  frame := by
    have hlo := L.base_le hi
    have hhi := L.base_hdr i hi
    rw [budSetBit_eq L hi]
    split_ifs
    · exact Frame.refl _ _ _
    · exact (frame_flip L hi hk f).mono hlo hhi
  frees := frees_budSetBit L hi hk f

end SetBit

/-! ## The blocks below a block -/

/-- Marking a run of `k` blocks of order `i` from block `n` on. -/
theorem markRun_spec {s : Mm} (L : Layout s) {i : ℕ} (hi : i < s.bm.dep) (f : Bool) (n k : ℕ)
    (hk : n + k ≤ s.bits i) :
    let s' := (List.range k).foldl (fun s j => (budSetBit s i (n + j : ℕ) f).2) s
    Marked s s' ∧ ∀ j < s.bm.dep, ∀ l < s.bits j,
      s'.bit j l = if j = i ∧ n ≤ l ∧ l < n + k then f else s.bit j l := by
  induction k with
  | zero =>
    refine ⟨Marked.refl s, fun j hj l hl => ?_⟩
    rw [if_neg (by omega)]
    rfl
  | succ k ih =>
    obtain ⟨hm, hbit⟩ := ih (by omega)
    simp only [List.range_succ, List.foldl_append, List.foldl_cons, List.foldl_nil]
    set s₁ := (List.range k).foldl (fun s j => (budSetBit s i (n + j : ℕ) f).2) s
    have L₁ := hm.same.layout L
    have hi₁ : i < s₁.bm.dep := by rw [hm.same.bm]; exact hi
    have hk₁ : n + k < s₁.bits i := by rw [hm.same.bits]; omega
    refine ⟨hm.trans (marked_budSetBit L₁ hi₁ hk₁ f), fun j hj l hl => ?_⟩
    rw [bit_budSetBit L₁ hi₁ hk₁ f (by rw [hm.same.bm]; exact hj) (by rw [hm.same.bits]; exact hl),
      hbit j hj l hl]
    by_cases hl' : j = i ∧ l = n + k
    · rw [if_pos hl', if_pos (by omega)]
    · rw [if_neg hl']
      by_cases hin : j = i ∧ n ≤ l ∧ l < n + k
      · rw [if_pos hin, if_pos (by omega)]
      · rw [if_neg hin, if_neg (by omega)]

/-- The loop below order `i` reaches exactly the blocks inside the `k` blocks from `n` on. -/
theorem budChkChildsLoop_spec (f : Bool) (i n k : ℕ) {s : Mm} (L : Layout s)
    (hi : i ≤ s.bm.dep) (hfit : ∀ j < i, (n + k) * 2 ^ (i - j) ≤ s.bits j) :
    let s' := budChkChildsLoop f i n k s
    Marked s s' ∧ ∀ j < s.bm.dep, ∀ l < s.bits j,
      s'.bit j l =
        if j < i ∧ n * 2 ^ (i - j) ≤ l ∧ l < (n + k) * 2 ^ (i - j) then f else s.bit j l := by
  induction i generalizing n k s with
  | zero =>
    refine ⟨Marked.refl s, fun j hj l hl => ?_⟩
    rw [if_neg (by omega)]
    rfl
  | succ i ih =>
    have hpow (j : ℕ) (hj : j ≤ i) : 2 ^ (i + 1 - j) = 2 * 2 ^ (i - j) := by
      rw [← pow_succ', show i - j + 1 = i + 1 - j by omega]
    have hrun : n * 2 + k * 2 ≤ s.bits i := by
      have := hfit i (by omega)
      rw [hpow i le_rfl, Nat.sub_self, pow_zero] at this
      omega
    obtain ⟨hm, hbit⟩ := markRun_spec L (show i < s.bm.dep by omega) f (n * 2) (k * 2) hrun
    simp only [budChkChildsLoop]
    set s₁ := (List.range (k * 2)).foldl (fun s j => (budSetBit s i (n * 2 + j : ℕ) f).2) s
    have hbm := hm.same.bm
    obtain ⟨hm₂, hbit₂⟩ := ih (n * 2) (k * 2) (hm.same.layout L) (by rw [hbm]; omega)
      (fun j hj => by
        rw [hm.same.bits, ← Nat.add_mul, Nat.mul_assoc, ← hpow j (by omega)]
        exact hfit j (by omega))
    refine ⟨hm.trans hm₂, fun j hj l hl => ?_⟩
    rw [hbit₂ j (by rw [hbm]; exact hj) l (by rw [hm.same.bits]; exact hl), hbit j hj l hl]
    rcases Nat.lt_trichotomy j i with hji | rfl | hji
    · have hlo : n * 2 * 2 ^ (i - j) = n * 2 ^ (i + 1 - j) := by
        rw [hpow j (by omega), Nat.mul_assoc]
      have hhi : (n * 2 + k * 2) * 2 ^ (i - j) = (n + k) * 2 ^ (i + 1 - j) := by
        rw [hpow j (by omega), ← Nat.add_mul, Nat.mul_assoc]
      rw [hlo, hhi, if_neg (show ¬ (j = i ∧ _) by omega)]
      have : j < i ↔ j < i + 1 := by omega
      simp only [this]
    · rw [if_neg (by omega), hpow j le_rfl, Nat.sub_self, pow_zero, Nat.mul_one]
      by_cases hin : n * 2 ≤ l ∧ l < n * 2 + k * 2
      · rw [if_pos (by omega), if_pos (by omega)]
      · rw [if_neg (by omega), if_neg (by omega)]
    · rw [if_neg (by omega), if_neg (by omega), if_neg (by omega)]

/-- `bud_chk_childs` marks the blocks of smaller orders that lie in the block. -/
theorem budChkChilds_spec (f : Bool) {o t : ℕ} {s : Mm} (L : Layout s) (ho : o < s.bm.dep)
    (ht : t < (s.bud o).num) :
    let s' := (budChkChilds s o t f).2
    Marked s s' ∧ ∀ j < s.bm.dep, ∀ l < s.bits j,
      s'.bit j l = if j < o ∧ Block.Overlap ⟨j, l⟩ ⟨o, t⟩ then f else s.bit j l := by
  have hfit (j : ℕ) (hj : j < o) : (t + 1) * 2 ^ (o - j) ≤ s.bits j := by
    have hnum : (s.bud o).num = (s.bud j).num / 2 ^ (o - j) := by
      have := L.num_add (i := j) (d := o - j) (by omega)
      rwa [show j + (o - j) = o by omega] at this
    have hle := L.num_le_bits (i := j) (by omega)
    rw [hnum] at ht
    have := (Nat.le_div_iff_mul_le (by positivity)).1 (Nat.succ_le_of_lt ht)
    exact le_trans this hle
  obtain ⟨hm, hbit⟩ := budChkChildsLoop_spec f o t 1 L (by omega) hfit
  rw [budChkChilds, if_neg (by omega)]
  refine ⟨hm, fun j hj l hl => ?_⟩
  rw [hbit j hj l hl]
  have hiff : j < o ∧ t * 2 ^ (o - j) ≤ l ∧ l < (t + 1) * 2 ^ (o - j) ↔
      j < o ∧ Block.Overlap ⟨j, l⟩ ⟨o, t⟩ := by
    refine and_congr_right fun hjo => ?_
    rw [Block.overlap_iff (b := ⟨j, l⟩) (c := ⟨o, t⟩) (le_of_lt hjo),
      Nat.div_eq_iff (by positivity), Nat.add_mul, one_mul]
    have : 0 < 2 ^ (o - j) := by positivity
    simp only
    omega
  simp only [hiff]

/-- A block marked together with the blocks below it. -/
theorem markDown_spec (f : Bool) {o t : ℕ} {s : Mm} (L : Layout s) (ho : o < s.bm.dep)
    (ht : t < (s.bud o).num) :
    let s' := (budChkChilds (budSetBit s o t f).2 o t f).2
    Marked s s' ∧ ∀ j < s.bm.dep, ∀ l < s.bits j,
      s'.bit j l = if j ≤ o ∧ Block.Overlap ⟨j, l⟩ ⟨o, t⟩ then f else s.bit j l := by
  have htb := lt_of_lt_of_le ht (L.num_le_bits ho)
  have hm₁ := marked_budSetBit L ho htb f
  obtain ⟨hm₂, hbit₂⟩ := budChkChilds_spec f (hm₁.same.layout L) (o := o) (t := t)
    (by rw [hm₁.same.bm]; exact ho) (by rw [hm₁.same.num]; exact ht)
  refine ⟨hm₁.trans hm₂, fun j hj l hl => ?_⟩
  rw [hbit₂ j (by rw [hm₁.same.bm]; exact hj) l (by rw [hm₁.same.bits]; exact hl),
    bit_budSetBit L ho htb f hj hl]
  rcases Nat.lt_trichotomy j o with hjo | rfl | hjo
  · rw [if_neg (show ¬ (j = o ∧ l = t) by omega)]
    simp only [hjo, le_of_lt hjo, true_and]
  · simp only [Block.overlap_same_ord, lt_irrefl, false_and, if_false, true_and, le_refl]
  · rw [if_neg (by omega), if_neg (by omega), if_neg (by omega)]

end YohdaOS

import YohdaOS.Buddy.Spec

/-!
# What no call of the buddy changes

Whatever the bitmaps say, the functions of the buddy write bits, counters and header bytes only.
-/

namespace YohdaOS

/-- Changing a counter and the memory. -/
theorem same_frees (s : Mm) (i v : ℕ) (m : ByteMem.Mem) : Same s { s with
    bud := Function.update s.bud i { s.bud i with frees := v }, mem := m } := by
  refine ⟨⟨rfl, fun j => ?_, fun j => ?_⟩, rfl, rfl, rfl, rfl, rfl, rfl, rfl⟩
  all_goals
    by_cases hj : j = i
    · subst hj
      simp
    · simp [hj]

theorem budSetBit_same (s : Mm) (i : ℕ) (ost : ℤ) (f : Bool) : Same s (budSetBit s i ost f).2 := by
  simp only [budSetBit]
  split
  · exact Same.refl s
  split
  · exact Same.refl s
  split
  · exact Same.refl s
  split <;> exact same_frees s i _ _

theorem budMerge_same (s : Mm) (ord ost : ℕ) (f : Bool) : Same s (budMerge s ord ost f).2 := by
  have h := budSetBit_same s ord (toInt ost) f
  obtain ⟨r, hr⟩ : ∃ r, budSetBit s ord (toInt ost) f = r := ⟨_, rfl⟩
  rw [hr] at h
  simp only [budMerge, hr, apply_ite Prod.snd, ite_self]
  exact h

theorem budSearch_same (s : Mm) (ord ost : ℕ) (f : Bool) : Same s (budSearch s ord ost f).2 := by
  have h := budSetBit_same s ord (toInt ost) f
  obtain ⟨r, hr⟩ : ∃ r, budSetBit s ord (toInt ost) f = r := ⟨_, rfl⟩
  rw [hr] at h
  simp only [budSearch, hr, apply_ite Prod.snd]
  split
  · exact Same.refl s
  · exact h

theorem budChkParent_same {stop : Mm → ℕ → ℕ → Bool → Bool × Mm}
    (hstop : ∀ s i n f, Same s (stop s i n f).2) (s : Mm) (ord ost : ℕ) (f : Bool) :
    Same s (budChkParent s ord ost f stop).2 := by
  have hloop (fuel : ℕ) : ∀ (i n : ℕ) (s : Mm), Same s (budChkParentLoop stop f fuel i n s) := by
    induction fuel with
    | zero => exact fun _ _ s => Same.refl s
    | succ fuel ih =>
      intro i n s
      have h := hstop s (u8 i) n f
      simp only [budChkParentLoop]
      split_ifs
      · exact h
      · exact h.trans (ih _ _ _)
  simp only [budChkParent]
  split_ifs
  · exact Same.refl s
  · exact hloop _ _ _ _

theorem budChkChilds_same (s : Mm) (ord ost : ℕ) (f : Bool) :
    Same s (budChkChilds s ord ost f).2 := by
  have hrow (i n k : ℕ) (s : Mm) :
      Same s ((List.range k).foldl (fun s j => (budSetBit s i (n + j : ℕ) f).2) s) := by
    induction k with
    | zero => exact Same.refl s
    | succ k ih =>
      rw [List.range_succ, List.foldl_append, List.foldl_cons, List.foldl_nil]
      exact ih.trans (budSetBit_same _ _ _ _)
  have hloop (i : ℕ) : ∀ (n k : ℕ) (s : Mm), Same s (budChkChildsLoop f i n k s) := by
    induction i with
    | zero => exact fun _ _ s => Same.refl s
    | succ i ih =>
      intro n k s
      exact (hrow i (n * 2) (k * 2) s).trans (ih _ _ _)
  simp only [budChkChilds]
  split_ifs
  · exact Same.refl s
  · exact hloop _ _ _ _

theorem budFindFree_same (s : Mm) (ord : ℤ) : Same s (budFindFree s ord).2 := by
  simp only [budFindFree]
  split_ifs
  · exact Same.refl s
  · exact Same.refl s
  · exact ((budSetBit_same _ _ _ _).trans (budChkChilds_same _ _ _ _)).trans
      (budChkParent_same budSearch_same _ _ _ _)

theorem budEncode_same (s : Mm) (chunk ost dep : ℕ) : Same s (budEncode s chunk ost dep).2 := by
  simp only [budEncode]
  split_ifs <;> exact same_withMem s _

theorem _budAlloc_same (s : Mm) (size : ℤ) : Same s (_budAlloc s size).2 := by
  have h := (budFindFree_same s (budGetOrd s (toU32 (budRndup s size)))).trans
    (budEncode_same _ (toU32 (budRndup s size))
      (toU32 (budFindFree s (budGetOrd s (toU32 (budRndup s size)))).1)
      (u8 (toU32 (budGetOrd s (toU32 (budRndup s size))))))
  simp only [_budAlloc]
  split_ifs
  · exact Same.refl s
  · exact Same.refl s
  · exact Same.refl s
  all_goals exact h

theorem _budFree_same (s : Mm) (addr : ℕ) : Same s (_budFree s addr) := by
  have h (ord : ℕ) (ost : ℤ) (n : ℕ) := (budSetBit_same s ord ost false).trans
    (budChkChilds_same (budSetBit s ord ost false).2 ord n false)
  simp only [_budFree]
  split_ifs
  · exact Same.refl s
  · exact Same.refl s
  · exact h _ _ _
  · exact (h _ _ _).trans (budChkParent_same budMerge_same _ _ _ _)

/-! ## Addresses -/

/-- A size with a class goes through `bud_find_free` and `bud_encode`. -/
theorem _budAlloc_of_class {s : Mm} (L : Layout s) {size : ℤ} (hpos : 1 ≤ size) {o : ℕ}
    (hclass : IsClass s size o) : (_budAlloc s size).1.val =
      (budEncode (budFindFree s o).2 (2048 * 2 ^ o) (toU32 (budFindFree s o).1) o).1.val := by
  have ho := hclass.lt
  have hdep := L.dep_le
  have hchunk := chunk_le (show o ≤ 11 by omega)
  obtain ⟨hrnd, hord⟩ := budRndup_of_class L hpos hclass
  have hneg (n : ℕ) : ¬ (n : ℤ) < 0 := by omega
  simp only [_budAlloc, if_neg (show ¬ size < 1 by omega), hrnd, if_neg (hneg _),
    toU32_natCast (show 2048 * 2 ^ o < 4294967296 by omega), hord,
    toU32_natCast (show o < 4294967296 by omega), u8_ord L ho]
  split_ifs with hnull
  · rw [hnull]
    rfl
  · rfl

/-- In a heap that lies high enough even a page that is no block of it lies above or wraps around
to the bottom of the address space. -/
theorem _budAlloc_page {s : Mm} (L : Layout s) {size : ℤ} (hpos : 1 ≤ size) (hle : size ≤ 2048)
    (hhigh : 8192 ≤ s.bm.heapBase) :
    s.bm.heapBase - 8192 ≤ (_budAlloc s size).1.val ∨ (_budAlloc s size).1.val < 65536 := by
  have hclass : IsClass s size 0 := ⟨L.dep_pos, by simpa using hle, by simp⟩
  have hbase := L.base_pos 0 L.dep_pos
  have hfits := L.fits
  have hnum := L.num 0 L.dep_pos
  have hlt := L.heap_lt
  have hbm := (budFindFree_same s (0 : ℕ)).bm
  rw [_budAlloc_of_class L hpos hclass]
  -- the offset is that of a bit of the bitmap, or -4
  have hoff : (∃ t < s.bits 0, (budFindFree s (0 : ℕ)).1 = (t : ℕ)) ∨
      (budFindFree s (0 : ℕ)).1 = -4 := by
    obtain ⟨t, ht, hget, -⟩ | ⟨hneg, -⟩ := L.bitmapGetFree_cases L.dep_pos
    · refine Or.inl ⟨t, ht, ?_⟩
      simp only [budFindFree, Int.toNat_natCast, hget, if_neg (show ¬ ((0 : ℕ) : ℤ) < 0 by decide),
        if_neg (show ¬ (t : ℤ) < 0 by omega)]
    · refine Or.inr ?_
      simp only [budFindFree, Int.toNat_natCast, hneg, if_neg (show ¬ ((0 : ℕ) : ℤ) < 0 by decide),
        if_pos (show (-4 : ℤ) < 0 by decide)]
  obtain ⟨r, hr⟩ : ∃ r, budFindFree s (0 : ℕ) = r := ⟨_, rfl⟩
  rw [hr] at hbm hoff ⊢
  have hbits : s.bits 0 ≤ s.bm.heapSize / 2048 + 31 := by
    rw [Mm.bits, L.size 0 L.dep_pos, hnum, pow_zero, Nat.mul_one]
    omega
  have hprod : u32 (2048 * 2 ^ 0 * toU32 r.1) < s.bm.heapSize + 65536 ∨
      u32 (2048 * 2 ^ 0 * toU32 r.1) = 4294959104 := by
    obtain ⟨t, ht, heq⟩ | heq := hoff
    · left
      rw [heq, toU32_natCast (by omega), pow_zero, Nat.mul_one, u32_of_lt (by omega)]
      omega
    · right
      rw [heq]
      rfl
  have haddr : (budEncode r.2 (2048 * 2 ^ 0) (toU32 r.1) 0).1.val = 0 ∨
      (budEncode r.2 (2048 * 2 ^ 0) (toU32 r.1) 0).1.val =
        u32 (s.bm.heapBase + u32 (2048 * 2 ^ 0 * toU32 r.1)) := by
    simp only [budEncode, hbm]
    split_ifs
    · exact Or.inl rfl
    · exact Or.inr rfl
  generalize u32 (2048 * 2 ^ 0 * toU32 r.1) = off at hprod haddr
  unfold u32 at haddr
  omega

end YohdaOS

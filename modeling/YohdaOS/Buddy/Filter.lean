import YohdaOS.Buddy.Reach
import YohdaOS.Buddy.Start
import YohdaOS.Buddy.Lazy

/-!
# `IS_MEM_ERR` and the blocks of the heap

The filter of the lazy layer compares an address with the constant `MM_BASE`; the blocks start at
`heap_base`, behind the metadata.  `bud_encode` bounds from above what any run can hand out.  Where
every order has a whole number of bitmap words, the last 32 blocks of order 0 stay marked for good
and the bound is lower.
-/

namespace YohdaOS

open ByteMem BinaryBlocks

/-! ## Whole words

No order has padding here, and the orders halve exactly. -/

/-- Every order has a whole number of bitmap words of blocks. -/
def Whole (s : Mm) : Prop := ∀ i < s.bm.dep, 32 ∣ (s.bud i).num

/-- No block with a clear bit reaches past the first `lim` cells. -/
def ClearBelow (s : Mm) (lim : ℕ) : Prop :=
  ∀ i < s.bm.dep, ∀ k < s.bits i, s.bit i k = false → (k + 1) * 2 ^ i ≤ lim

theorem Same.whole {s s' : Mm} (h : Same s s') (hw : Whole s) : Whole s' := by
  intro i hi
  rw [h.bm] at hi
  rw [h.num]
  exact hw i hi

theorem Whole.sibling_lt {s : Mm} (hw : Whole s) {i n : ℕ} (hi : i < s.bm.dep)
    (hn : n < (s.bud i).num) : sibling n < (s.bud i).num := by
  have := hw i hi
  unfold sibling
  split_ifs <;> omega

theorem Whole.half_lt {s : Mm} (hw : Whole s) (L : Layout s) {i n : ℕ} (hi : i + 1 < s.bm.dep)
    (hn : n < (s.bud i).num) : n / 2 < (s.bud (i + 1)).num := by
  have := hw i (by omega)
  rw [L.num_succ hi]
  omega

/-- A block within the cells of the heap is real. -/
theorem Layout.real_of_le {s : Mm} (L : Layout s) {lim : ℕ} (hlim : lim ≤ (s.bud 0).num) {i k : ℕ}
    (hi : i < s.bm.dep) (hk : (k + 1) * 2 ^ i ≤ lim) : k < (s.bud i).num := by
  have hnum := L.num_add (i := 0) (d := i) (by omega)
  rw [Nat.zero_add] at hnum
  rw [hnum]
  exact (Nat.le_div_iff_mul_le (by positivity)).2 (le_trans hk hlim)

/-- Marking an ancestor after the other clears nothing. -/
theorem budSearchLoop_sets (fuel i n : ℕ) {s : Mm} (L : Layout s) (hw : Whole s)
    (hfuel : i + fuel = s.bm.dep) (hn : i < s.bm.dep → n < (s.bud i).num) :
    let s' := budChkParentLoop budSearch true fuel i n s
    Marked s s' ∧ ∀ j < s.bm.dep, ∀ l < s.bits j, s.bit j l = true → s'.bit j l = true := by
  induction fuel generalizing i n s with
  | zero => exact ⟨Marked.refl s, fun _ _ _ _ h => h⟩
  | succ fuel ih =>
    have hi : i < s.bm.dep := by omega
    have hnb := lt_of_lt_of_le (hn hi) (L.num_le_bits hi)
    simp only [budChkParentLoop, budSearch_eq L hi hnb]
    by_cases hset : s.bit i n = true
    · rw [if_pos hset]
      exact ⟨Marked.refl s, fun _ _ _ _ h => h⟩
    · simp only [if_neg hset, Bool.false_eq_true, if_false]
      have hm := marked_budSetBit L hi hnb true
      obtain ⟨hm₂, hsets⟩ := ih (i + 1) (n / 2) (hm.same.layout L) (hm.same.whole hw)
        (by rw [hm.same.bm]; omega) (fun h => by
          rw [hm.same.bm] at h
          rw [hm.same.num]
          exact hw.half_lt L h (hn hi))
      refine ⟨hm.trans hm₂, fun j hj l hl h => ?_⟩
      apply hsets j (by rw [hm.same.bm]; exact hj) l (by rw [hm.same.bits]; exact hl)
      rw [bit_budSetBit L hi hnb true hj hl, h, ite_self]

/-- Both halves within the limit, the block is. -/
theorem parent_le {n i lim : ℕ} (h : (n + 1) * 2 ^ i ≤ lim) (hsib : (sibling n + 1) * 2 ^ i ≤ lim) :
    (n / 2 + 1) * 2 ^ (i + 1) ≤ lim := by
  have hparent : (n / 2 + 1) * 2 ^ (i + 1) = (2 * (n / 2) + 1 + 1) * 2 ^ i := by ring
  rw [hparent]
  rcases halves_eq n with heq | heq <;> rw [heq.2] <;> assumption

theorem clearBelow_budSetBit {s : Mm} (L : Layout s) {lim i k : ℕ} (hi : i < s.bm.dep)
    (hk : k < s.bits i) (hle : (k + 1) * 2 ^ i ≤ lim) (f : Bool) (h : ClearBelow s lim) :
    ClearBelow (budSetBit s i k f).2 lim := by
  have hs := same_budSetBit L hi k f
  intro j hj l hl hclear
  rw [hs.bm] at hj
  rw [hs.bits] at hl
  rw [bit_budSetBit L hi hk f hj hl] at hclear
  by_cases heq : j = i ∧ l = k
  · rw [heq.1, heq.2]
    exact hle
  · rw [if_neg heq] at hclear
    exact h j hj l hl hclear

/-- Clearing ancestors while the siblings are clear does not get past the limit. -/
theorem budMergeLoop_below {lim : ℕ} (fuel i n : ℕ) {s : Mm} (L : Layout s) (hw : Whole s)
    (hlim : lim ≤ (s.bud 0).num) (hfuel : i + fuel = s.bm.dep) (h : ClearBelow s lim)
    (hn : i < s.bm.dep → (n + 1) * 2 ^ i ≤ lim) :
    let s' := budChkParentLoop budMerge false fuel i n s
    Marked s s' ∧ ClearBelow s' lim := by
  induction fuel generalizing i n s with
  | zero => exact ⟨Marked.refl s, h⟩
  | succ fuel ih =>
    have hi : i < s.bm.dep := by omega
    have hnum := L.real_of_le hlim hi (hn hi)
    have hnb := lt_of_lt_of_le hnum (L.num_le_bits hi)
    have hsib := hw.sibling_lt hi hnum
    have hsibb := lt_of_lt_of_le hsib (L.num_le_bits hi)
    have hm := marked_budSetBit L hi hnb false
    have h₁ := clearBelow_budSetBit L hi hnb (hn hi) false h
    simp only [budChkParentLoop, budMerge_eq L hi hnum hsibb]
    set s₁ := (budSetBit s i n false).2
    split_ifs with hstop
    · exact ⟨hm, h₁⟩
    · rw [Bool.and_eq_true, decide_eq_true_eq, not_and_or, not_not, Bool.not_eq_true] at hstop
      obtain ⟨hm₂, h₂⟩ := ih (i + 1) (n / 2) (hm.same.layout L) (hm.same.whole hw)
        (by rw [hm.same.num]; exact hlim) (by rw [hm.same.bm]; omega) h₁ (fun hlt => by
          rw [hm.same.bm] at hlt
          -- the walk goes on, so the sibling is clear
          apply parent_le (hn hi)
          apply h₁ i (by rw [hm.same.bm]; exact hi) _ (by rw [hm.same.bits]; exact hsibb)
          exact hstop.resolve_left (by omega))
      exact ⟨hm.trans hm₂, h₂⟩

/-- `bud_find_free` only sets bits. -/
theorem budFindFree_below {s : Mm} (L : Layout s) (hw : Whole s) {lim o t : ℕ}
    (h : ClearBelow s lim) (ho : o < s.bm.dep) (ht : t < (s.bud o).num)
    (hget : bitmapGetFree s.mem (s.bud o).bmp = (t : ℤ)) :
    Marked s (budFindFree s o).2 ∧ ClearBelow (budFindFree s o).2 lim := by
  obtain ⟨hm, hbit⟩ := markDown_spec true L ho ht
  rw [budFindFree_eq hget, budChkParent, if_neg (by rw [hm.same.bm]; omega)]
  simp only
  set s₂ := (budChkChilds (budSetBit s o t true).2 o t true).2
  obtain ⟨hm₂, hsets⟩ := budSearchLoop_sets (s₂.bm.dep - (o + 1)) (o + 1) (t / 2)
    (hm.same.layout L) (hm.same.whole hw) (by rw [hm.same.bm]; omega) (fun hlt => by
      rw [hm.same.bm] at hlt
      rw [hm.same.num]
      exact hw.half_lt L hlt ht)
  have hs := (hm.trans hm₂).same
  refine ⟨hm.trans hm₂, fun j hj l hl hclear => ?_⟩
  rw [hs.bm] at hj
  rw [hs.bits] at hl
  apply h j hj l hl
  by_contra hset
  rw [Bool.not_eq_false] at hset
  have hset₂ : s₂.bit j l = true := by rw [hbit j hj l hl, hset, ite_self]
  rw [hsets j (by rw [hm.same.bm]; exact hj) l (by rw [hm.same.bits]; exact hl) hset₂] at hclear
  cases hclear

/-- `_bud_free` clears bits of blocks within the limit only. -/
theorem _budFree_below {s : Mm} (L : Layout s) (hw : Whole s) {lim : ℕ}
    (hlim : lim ≤ (s.bud 0).num) (h : ClearBelow s lim) {b : Block} (hord : b.ord < s.bm.dep)
    (hb : (b.idx + 1) * 2 ^ b.ord ≤ lim) (hhdr : s.header (b.idx * 2 ^ b.ord) = b.ord) :
    Marked s (_budFree s (s.blockAddr b)) ∧ ClearBelow (_budFree s (s.blockAddr b)) lim := by
  have hidx := L.real_of_le hlim hord hb
  have hsib := hw.sibling_lt hord hidx
  have hsibb := lt_of_lt_of_le hsib (L.num_le_bits hord)
  obtain ⟨hm, hbit⟩ := markDown_spec false L hord hidx
  rw [_budFree_eq L hord hidx hhdr]
  simp only
  set s₂ := (budChkChilds (budSetBit s b.ord b.idx false).2 b.ord b.idx false).2
  have h₂ : ClearBelow s₂ lim := by
    intro j hj l hl hclear
    rw [hm.same.bm] at hj
    rw [hm.same.bits] at hl
    rw [hbit j hj l hl] at hclear
    by_cases hin : j ≤ b.ord ∧ Block.Overlap ⟨j, l⟩ ⟨b.ord, b.idx⟩
    · exact le_trans (hin.2.inside hin.1).2 hb
    · rw [if_neg hin] at hclear
      exact h j hj l hl hclear
  have L₂ := hm.same.layout L
  have hord₂ : b.ord < s₂.bm.dep := by rw [hm.same.bm]; exact hord
  have hsibb₂ : sibling b.idx < s₂.bits b.ord := by rw [hm.same.bits]; exact hsibb
  rw [budIsBudUsed_eq L₂ hord₂ (by rw [hm.same.num]; exact hidx) hsibb₂]
  split_ifs with hstop
  · exact ⟨hm, h₂⟩
  · rw [Bool.not_eq_true] at hstop
    rw [budChkParent, if_neg (by omega)]
    have hloop := budMergeLoop_below (s₂.bm.dep - (b.ord + 1)) (b.ord + 1) (b.idx / 2) L₂
      (hm.same.whole hw) (by rw [hm.same.num]; exact hlim) (by omega) h₂
      (fun _ => parent_le hb (h₂ b.ord hord₂ _ hsibb₂ hstop))
    exact ⟨hm.trans hloop.1, hloop.2⟩

/-- In a heap of whole words: the clear bits and the live blocks stay within the limit, and the
header of a live address names a block within it. -/
structure WholeRun (lim : ℕ) (r : BudRun) : Prop where
  layout : Layout r.s
  whole : Whole r.s
  lim_le : lim ≤ (r.s.bud 0).num
  below : ClearBelow r.s lim
  live : ∀ p ∈ r.live, ∃ b : Block, p.1 = r.s.blockAddr b ∧ b.ord < r.s.bm.dep ∧
    (b.idx + 1) * 2 ^ b.ord ≤ lim ∧ r.s.header (b.idx * 2 ^ b.ord) = b.ord

/-- A request with a clear bit gets a block within the limit. -/
theorem WholeRun.request {lim : ℕ} {r : BudRun} (h : WholeRun lim r) {size : ℤ} (hpos : 1 ≤ size)
    (hfree : HasFree r.s size) :
    ∃ o t, o < r.s.bm.dep ∧ (t + 1) * 2 ^ o ≤ lim ∧
      bitmapGetFree r.s.mem (r.s.bud o).bmp = (t : ℤ) ∧
      _budAlloc r.s size =
        (.addr (r.s.blockAddr ⟨o, t⟩), (budFindFree r.s o).2.setHeader (t * 2 ^ o) o) := by
  obtain ⟨o, hclass, k, hk, hkclear⟩ := hfree
  have ho := hclass.lt
  obtain ⟨t, ht, hget, hclear, -⟩ | ⟨-, hall⟩ := h.layout.bitmapGetFree_cases ho
  · have hle := h.below o ho t ht hclear
    exact ⟨o, t, ho, hle, hget, _budAlloc_first h.layout hpos hclass
      (h.layout.real_of_le h.lim_le ho hle) hget⟩
  · rw [hall k hk] at hkclear
    cases hkclear

theorem WholeRun.step {lim : ℕ} {r r' : BudRun} (h : WholeRun lim r) (hstep : BudStep r r') :
    WholeRun lim r' := by
  have L := h.layout
  cases hstep with
  | alloc size hpos hfree =>
    obtain ⟨o, t, ho, hle, hget, heq⟩ := h.request hpos hfree
    have hs := _budAlloc_same r.s size
    have ht := L.real_of_le h.lim_le ho hle
    obtain ⟨hm, hbelow⟩ := budFindFree_below L h.whole h.below ho ht hget
    have hgrant : (budGrant r.s size).1 = r.s.blockAddr ⟨o, t⟩ := by
      rw [budGrant, heq, Ptr.val_addr]
    refine ⟨hs.layout L, hs.whole h.whole, by rw [hs.num]; exact h.lim_le, ?_, ?_⟩
    · rw [heq]
      intro j hj l hl hclear
      rw [bit_setHeader (hm.same.layout L) _ _ hj hl] at hclear
      exact hbelow j hj l hl hclear
    · -- the header of the block now names its order; another address has its own header
      intro p hp
      simp only [blockAddr_congr hs, hs.bm]
      rw [heq]
      simp only [header_setHeader]
      have hdep := L.dep_le
      rcases List.mem_cons.1 hp with rfl | hp
      · exact ⟨⟨o, t⟩, hgrant, ho, hle, by rw [if_pos rfl, Nat.mod_eq_of_lt (by omega)]⟩
      · obtain ⟨b, haddr, hord, hb, hhdr⟩ := h.live p hp
        by_cases hcell : b.idx * 2 ^ b.ord = t * 2 ^ o
        · refine ⟨⟨o, t⟩, ?_, ho, hle, by rw [if_pos rfl, Nat.mod_eq_of_lt (by omega)]⟩
          rw [haddr, Mm.blockAddr, Mm.blockAddr, Nat.mul_assoc, Nat.mul_assoc,
            Nat.mul_comm (2 ^ b.ord), Nat.mul_comm (2 ^ o)]
          simp only
          rw [hcell]
        · refine ⟨b, haddr, hord, hb, ?_⟩
          rw [if_neg hcell, hm.header]
          exact hhdr
  | free p hp =>
    obtain ⟨b, haddr, hord, hb, hhdr⟩ := h.live p hp
    rw [haddr]
    obtain ⟨hm, hbelow⟩ := _budFree_below L h.whole h.lim_le h.below hord hb hhdr
    have hs := hm.same
    refine ⟨hs.layout L, hs.whole h.whole, by rw [hs.num]; exact h.lim_le, hbelow, ?_⟩
    intro q hq
    simp only [blockAddr_congr hs, hs.bm, hm.header]
    exact h.live q (List.mem_of_mem_erase hq)
  | write p hp m hm =>
    obtain ⟨b, haddr, -⟩ := h.live p hp
    have hs := same_withMem r.s m
    have hhdr := L.hdr_le
    have hge : r.s.bm.heapBase ≤ p.1 := by
      rw [haddr]
      exact Nat.le_add_right _ _
    refine ⟨hs.layout L, hs.whole h.whole, h.lim_le, fun j hj l hl hclear => ?_, fun q hq => ?_⟩
    · rw [bit_of_frame L hs.toSameBud (hm.mono (by omega) le_rfl) hj hl] at hclear
      exact h.below j hj l hl hclear
    · obtain ⟨c, hcaddr, hcord, hc, hchdr⟩ := h.live q hq
      have hlt := L.header_lt hcord (L.real_of_le h.lim_le hcord hc)
      refine ⟨c, hcaddr, hcord, hc, ?_⟩
      exact (hm.load8 (Or.inl (lt_of_lt_of_le hlt hge))).trans hchdr

/-! ## Any heap -/

/-- What `bud_encode` lets through lies in the heap, if no address wraps around. -/
theorem _budAlloc_within {s : Mm} (L : Layout s) {size : ℤ} (hpos : 1 ≤ size)
    (hfree : HasFree s size) (hroom : s.bm.heapBase + s.bm.heapSize + 134217728 ≤ 4294967296)
    (hne : (_budAlloc s size).1.val ≠ 0) :
    ∃ k < s.bm.heapSize / 2048, (_budAlloc s size).1.val = s.bm.heapBase + 2048 * k := by
  obtain ⟨o, hclass, j, hj, hjclear⟩ := hfree
  have ho := hclass.lt
  obtain ⟨t, ht, hget, -⟩ | ⟨-, hall⟩ := L.bitmapGetFree_cases ho
  swap
  · rw [hall j hj] at hjclear
    cases hjclear
  have hbits := L.bits_lt ho
  have hbm := (budFindFree_same s o).bm
  have hfind : (budFindFree s o).1 = t := by rw [budFindFree_eq hget]
  rw [_budAlloc_of_class L hpos hclass, hfind, toU32_natCast (by omega)] at hne ⊢
  -- the offset exceeds the heap by less than a word of blocks
  have hprod : 2048 * 2 ^ o * t ≤ s.bm.heapSize + 65011712 := by
    have hdep := L.dep_le
    have hpow : 2 ^ o ≤ 2 ^ 10 := Nat.pow_le_pow_right (by decide) (by omega)
    have hnum := Nat.div_mul_le_self s.bm.heapSize (2048 * 2 ^ o)
    rw [← L.num o ho] at hnum
    rw [Mm.bits, L.size o ho] at ht
    calc 2048 * 2 ^ o * t ≤ 2048 * 2 ^ o * ((s.bud o).num + 31) :=
          Nat.mul_le_mul_left _ (by omega)
      _ = (s.bud o).num * (2048 * 2 ^ o) + 63488 * 2 ^ o := by ring
      _ ≤ s.bm.heapSize + 65011712 := by omega
  have hchunk := chunk_le (show o ≤ 11 by have := L.dep_le; omega)
  have hcell : 2048 * 2 ^ o * t = 2048 * (t * 2 ^ o) := by ring
  have hpow : 0 < 2 ^ o := by positivity
  simp only [budEncode, hbm, u32_of_lt (show 2048 * 2 ^ o * t < 4294967296 by omega),
    u32_of_lt (show s.bm.heapBase + 2048 * 2 ^ o * t < 4294967296 by omega),
    u32_of_lt (show s.bm.heapBase + 2048 * 2 ^ o * t + 2048 * 2 ^ o < 4294967296 by omega),
    u32_of_lt L.fits] at hne ⊢
  by_cases hout : s.bm.heapBase + 2048 * 2 ^ o * t + 2048 * 2 ^ o >
      s.bm.heapBase + s.bm.heapSize
  · rw [if_pos hout] at hne
    exact absurd rfl hne
  · rw [if_neg hout, Ptr.val_addr, hcell]
    exact ⟨t * 2 ^ o, by omega, rfl⟩

/-! ## The filter -/

/-- The sizes derived from `heap_size` give every order a whole number of bitmap words. -/
def WholeWords (heapSize : ℤ) : Prop :=
  ∀ i < (budGetDep (budGetRealSize 2048 32 heapSize 2048) 2048).toNat,
    32 ∣ (budGetRealSize 2048 32 heapSize 2048).toNat / (2048 * 2 ^ i)

instance (heapSize : ℤ) : Decidable (WholeWords heapSize) :=
  inferInstanceAs (Decidable (∀ i < _, _))

/-- The last block of order 0 that can be handed out. -/
def lastCell (heapSize : ℤ) : ℕ :=
  (budGetRealSize 2048 32 heapSize 2048).toNat / 2048 - if WholeWords heapSize then 33 else 1

/-- The first and the last block of the heap lie where the filter expects addresses. -/
structure FilterFits (H : Heap) : Prop where
  first : MM_BASE ≤ heapStart H
  last : heapStart H + 2048 * lastCell H.size <
    MM_BASE + (budGetRealSize 2048 32 H.size 2048).toNat

/-- `IS_MEM_ERR` accepts the block of every request that a free block serves, and `bud_lazy_free`
does not turn down a live address. -/
structure FilterPasses (r : BudRun) : Prop where
  alloc : ∀ size, 1 ≤ size → HasFree r.s size → (_budAlloc r.s size).1.val ≠ 0 →
    isMemErr (_budAlloc r.s size).2 (_budAlloc r.s size).1.val = false
  free : ∀ ops, ∀ p ∈ r.live, p.1 ≠ 0 → ∀ s', budLazyFree ops r.s p.1 ≠ some (-1, s')

/-- Only the filter on its argument makes `bud_lazy_free` return -1. -/
theorem budLazyFree_ne {ops : ListOps} {s s' : Mm} {addr : ℕ} (h : isMemErr s addr = false) :
    budLazyFree ops s addr ≠ some (-1, s') := by
  have hfind (fuel : ℕ) : ∀ node lp e, budLazyFind s addr fuel node lp = some (.error e) →
      e = -8 := by
    induction fuel with
    | zero => exact fun _ _ _ h => nomatch h
    | succ fuel ih =>
      intro node lp e heq
      simp only [budLazyFind] at heq
      split_ifs at heq
      · cases heq
      · cases heq
        rfl
      · cases heq
      · exact ih _ _ e heq
  have hrelease (n : ℕ) : ∀ s : Mm, (budLazyRelease ops n s).1 ≠ -1 := by
    induction n with
    | zero => exact fun _ => show (0 : ℤ) ≠ -1 by decide
    | succ n ih =>
      intro s
      simp only [budLazyRelease]
      split_ifs
      · exact show (-8 : ℤ) ≠ -1 by decide
      · exact ih _
  intro heq
  simp only [budLazyFree, h, Bool.false_eq_true, if_false] at heq
  by_cases hunum : s.lazy.unum = 0
  · rw [if_pos hunum] at heq
    cases heq
  rw [if_neg hunum] at heq
  cases hf : budLazyFind s addr 4294967296 (s.links.next s.lazy.inuses) 0 with
  | none =>
    rw [hf] at heq
    cases heq
  | some res =>
    rw [hf] at heq
    cases res with
    | error e =>
      obtain rfl := hfind _ _ _ _ hf
      cases heq
    | ok q =>
      simp only at heq
      split_ifs at heq
      · cases heq
      · apply hrelease _ _
        rw [Option.some.inj heq]
      · cases heq

/-! ## The heap after `_bud_init` -/

theorem budStep_same {r r' : BudRun} (h : BudStep r r') : Same r.s r'.s := by
  cases h with
  | alloc size hpos hfree => exact _budAlloc_same r.s size
  | free p hp => exact _budFree_same r.s p.1
  | write p hp m hm => exact same_withMem r.s m

theorem budRun_same {r r' : BudRun} (hrun : Relation.ReflTransGen BudStep r r') :
    Same r.s r'.s := by
  induction hrun with
  | refl => exact Same.refl r.s
  | tail _ hstep ih => exact ih.trans (budStep_same hstep)

section Start

variable {H : Heap} {s s' : Mm} (h : InitPost H s s')

include h

theorem InitPost.wholeWords_iff : WholeWords H.size ↔ Whole s' := by
  rw [WholeWords, h.heapSize, h.dep, Int.toNat_natCast, Int.toNat_natCast]
  refine forall_congr' fun i => ⟨fun hd hi => ?_, fun hd hi => ?_⟩
  · rw [h.layout.num i hi]
    exact hd hi
  · rw [← h.layout.num i hi]
    exact hd hi

theorem InitPost.num_zero : (s'.bud 0).num = s'.bm.heapSize / 2048 := by
  rw [h.layout.num 0 h.layout.dep_pos, pow_zero, Nat.mul_one]

/-- A heap of whole words has more than one word of blocks. -/
theorem InitPost.whole_large (hw : Whole s') : 33 ≤ (s'.bud 0).num := by
  have L := h.layout
  have hge := L.num_ge 0 L.dep_pos
  have hdvd := hw 0 L.dep_pos
  obtain ⟨d, hd, hdep⟩ := budGetDep_spec (n := s'.bm.heapSize) (by have := h.heap_ge; omega)
  rw [h.dep] at hdep
  have hd1 : 1 < s'.bm.dep := by
    by_contra hle
    have hpos := L.dep_pos
    have hlt := hd.lt (by omega)
    rw [show d = 1 by omega] at hlt
    rw [h.num_zero] at hge hdvd
    omega
  have hge₁ := L.num_ge 1 hd1
  have hdvd₁ := hw 1 hd1
  rw [L.num_succ hd1] at hge₁ hdvd₁
  omega

/-- The last 32 blocks of every order start marked. -/
theorem InitPost.clearBelow (hw : Whole s') : ClearBelow s' ((s'.bud 0).num - 32) := by
  have L := h.layout
  intro i hi k hk hclear
  have hset := h.bit i hi k hk
  rw [hclear, padStart_of_dvd (hw i hi)] at hset
  have hk' : k + 1 + 32 ≤ (s'.bud i).num := by
    simp only [Bool.false_eq_true, false_iff, not_le] at hset
    omega
  have hnum := L.num_add (i := 0) (d := i) (by omega)
  rw [Nat.zero_add] at hnum
  have hdiv := Nat.div_mul_le_self (s'.bud 0).num (2 ^ i)
  rw [← hnum] at hdiv
  have hpos : 1 ≤ 2 ^ i := Nat.one_le_two_pow
  have hle : (k + 1 + 32) * 2 ^ i ≤ (s'.bud 0).num := le_trans (Nat.mul_le_mul_right _ hk') hdiv
  rw [Nat.add_mul (k + 1) 32] at hle
  omega

theorem InitPost.wholeRun (hw : Whole s') : WholeRun ((s'.bud 0).num - 32) ⟨s', []⟩ :=
  ⟨h.layout, hw, Nat.sub_le _ _, h.clearBelow hw, by simp⟩

theorem InitPost.lastCell_whole (hw : Whole s') : lastCell H.size = (s'.bud 0).num - 33 := by
  rw [lastCell, if_pos (h.wholeWords_iff.2 hw), h.heapSize, Int.toNat_natCast, h.num_zero]

theorem InitPost.lastCell_padded (hw : ¬ Whole s') : lastCell H.size = (s'.bud 0).num - 1 := by
  rw [lastCell, if_neg (fun hc => hw (h.wholeWords_iff.1 hc)), h.heapSize, Int.toNat_natCast,
    h.num_zero]

theorem InitPost.clear {i k : ℕ} (hi : i < s'.bm.dep) (hk : k < padStart (s'.bud i).num) :
    s'.bit i k = false := by
  have hle := padStart_le (s'.bud i).num
  have hbits := h.layout.num_le_bits hi
  rw [← Bool.not_eq_true, h.bit i hi k (by omega), not_le]
  exact hk

/-- Some run hands out the first block. -/
theorem InitPost.reaches_first : Reaches ⟨s', []⟩ s'.bm.heapBase := by
  have L := h.layout
  have hex : ∃ o < s'.bm.dep, 0 < padStart (s'.bud o).num := by
    by_cases hw : Whole s'
    · refine ⟨0, L.dep_pos, ?_⟩
      have := h.whole_large hw
      rw [padStart_of_dvd (hw 0 L.dep_pos)]
      omega
    · unfold Whole at hw
      push Not at hw
      obtain ⟨i, hi, hdvd⟩ := hw
      have := L.num_ge i hi
      exact ⟨i, hi, by rw [padStart_of_not_dvd hdvd]; omega⟩
  obtain ⟨o, ho, hpad⟩ := hex
  have hle := padStart_le (s'.bud o).num
  have hreach := reaches_block (r := ⟨s', []⟩) L ho (lt_of_lt_of_le hpad hle) (h.clear ho hpad)
  simpa [Mm.blockAddr] using hreach

/-- Up to the first order with padding the orders cover the same cells. -/
theorem InitPost.num_exact {i : ℕ} (hi : i < s'.bm.dep)
    (hdvd : ∀ j < i, 32 ∣ (s'.bud j).num) : (s'.bud i).num * 2 ^ i = (s'.bud 0).num := by
  induction i with
  | zero => simp
  | succ i ih =>
    have heven : (s'.bud i).num / 2 * 2 = (s'.bud i).num := by
      have := hdvd i (by omega)
      omega
    rw [h.layout.num_succ hi, pow_succ', ← Nat.mul_assoc, heven]
    exact ih (by omega) fun j hj => hdvd j (by omega)

/-- Some run hands out the last block: where an order has padding its last block is clear, and what
lies inside it is freed with it. -/
theorem InitPost.reaches_last :
    Reaches ⟨s', []⟩ (s'.bm.heapBase + 2048 * lastCell H.size) := by
  have L := h.layout
  have hcell (k : ℕ) : s'.blockAddr ⟨0, k⟩ = s'.bm.heapBase + 2048 * k := by simp [Mm.blockAddr]
  have hge := L.num_ge 0 L.dep_pos
  rw [← hcell]
  by_cases hw : Whole s'
  · have hlarge := h.whole_large hw
    rw [h.lastCell_whole hw]
    refine reaches_block (r := ⟨s', []⟩) L L.dep_pos (by simp only; omega)
      (h.clear L.dep_pos ?_)
    rw [padStart_of_dvd (hw 0 L.dep_pos)]
    omega
  · rw [h.lastCell_padded hw]
    unfold Whole at hw
    push Not at hw
    -- the first order with padding
    have hmin (j : ℕ) (hj : j < Nat.find hw) : 32 ∣ (s'.bud j).num := by
      have hlt := (Nat.find_spec hw).1
      by_contra hdvd
      exact Nat.find_min hw hj ⟨by omega, hdvd⟩
    obtain ⟨hi, hdvd⟩ := Nat.find_spec hw
    have hexact := h.num_exact hi hmin
    have hnum := L.num_ge _ hi
    set i := Nat.find hw
    have hpos : 0 < 2 ^ i := by positivity
    have hlast : ((s'.bud i).num - 1 + 1) * 2 ^ i = (s'.bud 0).num := by
      rw [Nat.sub_add_cancel (by omega)]
      exact hexact
    refine reaches_inside (r := ⟨s', []⟩) (o := i) (t := (s'.bud i).num - 1) L hi
      (by simp only; omega) (h.clear hi ?_) (by simp only; omega) ⟨?_, ?_⟩
    · rw [padStart_of_not_dvd hdvd]
      omega
    · simp only [pow_zero, Nat.mul_one, hlast]
      omega
    · rw [Nat.add_mul, one_mul] at hlast
      simp only [pow_zero, Nat.mul_one]
      omega

/-- What is known along a run: which descriptors, which blocks can be handed out, and that the
filter accepts the live addresses. -/
structure FilterRun (s' : Mm) (r : BudRun) : Prop where
  same : Same s' r.s
  whole : Whole s' → WholeRun ((s'.bud 0).num - 32) r
  live : ∀ p ∈ r.live, p.1 = 0 ∨ isMemErr s' p.1 = false

omit h in
theorem filterRun_room
    (hlast : s'.bm.heapBase + 2048 * (s'.bm.heapSize / 2048 - 1) < MM_BASE + s'.bm.heapSize)
    (L : Layout s') : s'.bm.heapBase + s'.bm.heapSize + 134217728 ≤ 4294967296 := by
  have := L.heap_lt
  unfold MM_BASE at hlast
  omega

/-- A request served by a free block gets one of the first `lastCell + 1` blocks. -/
theorem FilterRun.request {r : BudRun} (hr : FilterRun s' r) (hbase : s'.bm.heapBase = heapStart H)
    (hfit : FilterFits H) {size : ℤ} (hpos : 1 ≤ size) (hfree : HasFree r.s size)
    (hne : (_budAlloc r.s size).1.val ≠ 0) :
    isMemErr s' (_budAlloc r.s size).1.val = false := by
  have L := h.layout
  obtain ⟨hfirst, hlast⟩ := hfit
  rw [← hbase] at hfirst hlast
  rw [h.heapSize, Int.toNat_natCast] at hlast
  have hbound : ∃ k ≤ lastCell H.size, (_budAlloc r.s size).1.val = s'.bm.heapBase + 2048 * k := by
    by_cases hw : Whole s'
    · obtain ⟨o, t, -, hle, -, heq⟩ := (hr.whole hw).request hpos hfree
      have hlarge := h.whole_large hw
      have hpow : 1 ≤ 2 ^ o := Nat.one_le_two_pow
      rw [Nat.add_mul, one_mul] at hle
      refine ⟨t * 2 ^ o, by rw [h.lastCell_whole hw]; omega, ?_⟩
      rw [heq, Ptr.val_addr, blockAddr_congr hr.same, Mm.blockAddr]
      ring
    · rw [h.lastCell_padded hw, h.num_zero] at hlast ⊢
      have hroom := filterRun_room hlast L
      obtain ⟨k, hk, heq⟩ := _budAlloc_within (hr.same.layout L) hpos hfree
        (by rw [hr.same.bm]; exact hroom) hne
      rw [hr.same.bm] at hk heq
      exact ⟨k, by omega, heq⟩
  obtain ⟨k, hk, heq⟩ := hbound
  rw [isMemErr_eq_false]
  refine ⟨hne, ?_, ?_⟩ <;> rw [heq] <;> omega

theorem FilterRun.step {r r' : BudRun} (hr : FilterRun s' r)
    (hbase : s'.bm.heapBase = heapStart H) (hfit : FilterFits H) (hstep : BudStep r r') :
    FilterRun s' r' := by
  refine ⟨hr.same.trans (budStep_same hstep), fun hw => (hr.whole hw).step hstep, ?_⟩
  cases hstep with
  | alloc size hpos hfree =>
    intro p hp
    rcases List.mem_cons.1 hp with rfl | hp
    · by_cases hne : (_budAlloc r.s size).1.val = 0
      · exact Or.inl hne
      · exact Or.inr (hr.request h hbase hfit hpos hfree hne)
    · exact hr.live p hp
  | free q hq => exact fun p hp => hr.live p (List.mem_of_mem_erase hp)
  | write q hq m hm => exact hr.live

theorem FilterRun.passes {r : BudRun} (hr : FilterRun s' r)
    (hbase : s'.bm.heapBase = heapStart H) (hfit : FilterFits H) : FilterPasses r where
  alloc size hpos hfree hne := by
    rw [isMemErr_congr ((_budAlloc_same r.s size).bm.trans hr.same.bm)]
    exact hr.request h hbase hfit hpos hfree hne
  free ops p hp hne s'' := by
    apply budLazyFree_ne
    rw [isMemErr_congr hr.same.bm]
    exact (hr.live p hp).resolve_left hne

/-- Where every run passes the filter, it accepts every address that is reached. -/
theorem InitPost.accepts
    (hall : ∀ r, Relation.ReflTransGen BudStep ⟨s', []⟩ r → FilterPasses r) {x : ℕ}
    (hx : Reaches ⟨s', []⟩ x) (hge : s'.bm.heapBase ≤ x) :
    MM_BASE ≤ x ∧ x < MM_BASE + s'.bm.heapSize := by
  obtain ⟨r, hrun, size, hpos, hfree, rfl⟩ := hx
  have hbase := BudInv.addr_pos h.layout ⟨0, 0⟩
  have hsame : Same s' r.s := budRun_same hrun
  have hpass := (hall r hrun).alloc size hpos hfree (by
    simp only [Mm.blockAddr, Nat.mul_zero, Nat.add_zero] at hbase
    omega)
  rw [isMemErr_congr ((_budAlloc_same r.s size).bm.trans hsame.bm), isMemErr_eq_false] at hpass
  exact ⟨hpass.2.2, hpass.2.1⟩

theorem InitPost.filterPasses_iff (hbase : s'.bm.heapBase = heapStart H) :
    (∀ r, Relation.ReflTransGen BudStep ⟨s', []⟩ r → FilterPasses r) ↔ FilterFits H := by
  constructor
  · intro hall
    have hfirst := h.accepts hall h.reaches_first le_rfl
    have hlast := h.accepts hall h.reaches_last (Nat.le_add_right _ _)
    refine ⟨by rw [← hbase]; exact hfirst.1, ?_⟩
    rw [← hbase, h.heapSize, Int.toNat_natCast]
    exact hlast.2
  · intro hfit r hrun
    have hr : FilterRun s' r := Runs.invariant_of_run hrun
      ⟨Same.refl s', h.wholeRun, by simp⟩ fun _ _ hr hstep => hr.step h hbase hfit hstep
    exact hr.passes h hbase hfit

end Start

/-- The filter accepts all that any run hands out exactly when the first and the last block that
can be handed out lie between `MM_BASE` and `MM_BASE + heap_size`. -/
theorem filter_passes_iff (s : Mm) (H : Heap) (hok : 0 ≤ (_budInit s H.base H.size 2048).1) :
    (∀ r, Relation.ReflTransGen BudStep ⟨(_budInit s H.base H.size 2048).2, []⟩ r →
      FilterPasses r) ↔ FilterFits H :=
  (_budInit_spec s H hok).filterPasses_iff (_budInit_heapBase s H hok)

/-- A small heap at `MM_BASE` itself fits. -/
theorem filter_passes_iff_wholeWord : FilterFits wholeWordHeap ∧
    ∀ r, Relation.ReflTransGen BudStep
      ⟨(_budInit (.boot ⟨fun _ => 0⟩ 4 12) wholeWordHeap.base wholeWordHeap.size 2048).2, []⟩ r →
      FilterPasses r := by
  have hfit : FilterFits wholeWordHeap := ⟨by decide +kernel, by decide +kernel⟩
  have hok := (_budInit_ok_iff (.boot ⟨fun _ => 0⟩ 4 12) wholeWordHeap).2 (by decide)
  exact ⟨hfit, (filter_passes_iff _ wholeWordHeap hok).2 hfit⟩

/-- In the heap that `main` sets up, at its address in the higher half, the filter turns down
blocks. -/
theorem filter_passes_fails :
    0 ≤ (_budInit (.boot ⟨fun _ => 0⟩ 4 12) mainHeap.base mainHeap.size 2048).1 ∧
    ¬ ∀ r, Relation.ReflTransGen BudStep
      ⟨(_budInit (.boot ⟨fun _ => 0⟩ 4 12) mainHeap.base mainHeap.size 2048).2, []⟩ r →
      FilterPasses r := by
  have hok := mainHeap_ok (.boot ⟨fun _ => 0⟩ 4 12)
  refine ⟨hok, fun hall => ?_⟩
  have hfit := ((_budInit_spec _ mainHeap hok).filterPasses_iff (_budInit_heapBase _ mainHeap hok)).1
    hall
  have hlast := hfit.last
  have hstart := le_heapStart mainHeap
  have hsize : (budGetRealSize 2048 32 mainHeap.size 2048).toNat ≤ 536870912 := by decide +kernel
  have hbase : mainHeap.base = 3254779904 := rfl
  unfold MM_BASE at hlast
  omega

end YohdaOS

import YohdaOS.Buddy.Climb

/-!
# The buddy against a family of blocks

`BudInv s B` says that the state describes the family `B` of live blocks: a bit is set exactly when
its block meets a live block or does not exist.  `_bud_alloc` adds a block to the family and
`_bud_free` takes one out.
-/

namespace YohdaOS

open ByteMem BinaryBlocks

/-- The state describes the live blocks `B`. -/
structure BudInv (s : Mm) (B : List Block) : Prop where
  layout : Layout s
  padded : Padded s
  bits : ∀ i < s.bm.dep, BitsAre s i (Used B i)
  header : ∀ b ∈ B, s.header (b.idx * 2 ^ b.ord) = b.ord
  real : ∀ b ∈ B, b.ord < s.bm.dep ∧ b.idx < (s.bud b.ord).num
  apart : Apart B
  frees : FreesOk s

/-- The address of a block. -/
def Mm.blockAddr (s : Mm) (b : Block) : ℕ := s.bm.heapBase + 2048 * 2 ^ b.ord * b.idx

theorem Layout.hdr_le {s : Mm} (L : Layout s) : s.bm.hdrBase ≤ s.bm.heapBase := by
  rw [L.heapBase]
  omega

theorem Layout.blockAddr_end {s : Mm} (L : Layout s) {b : Block} (hb : b.ord < s.bm.dep)
    (hidx : b.idx < (s.bud b.ord).num) :
    s.blockAddr b + 2048 * 2 ^ b.ord ≤ s.bm.heapBase + s.bm.heapSize := by
  have := L.block_end hb hidx
  unfold Mm.blockAddr
  omega

/-- A block that meets a real block of a larger order is real. -/
theorem Layout.overlap_real {s : Mm} (L : Layout s) {b : Block} (hb : b.ord < s.bm.dep)
    (hidx : b.idx < (s.bud b.ord).num) {j l : ℕ} (hj : j ≤ b.ord)
    (hov : Block.Overlap ⟨j, l⟩ b) : l < (s.bud j).num := by
  have hnum := L.num_add (i := j) (d := b.ord - j) (by omega)
  rw [show j + (b.ord - j) = b.ord by omega] at hnum
  rw [Block.overlap_iff hj] at hov
  simp only at hov
  rw [hnum, ← hov] at hidx
  exact Nat.lt_of_div_lt_div hidx

/-- The header of a real block lies in the header table. -/
theorem Layout.header_lt {s : Mm} (L : Layout s) {b : Block} (hb : b.ord < s.bm.dep)
    (hidx : b.idx < (s.bud b.ord).num) :
    s.bm.hdrBase + b.idx * 2 ^ b.ord < s.bm.heapBase := by
  have hend := L.block_end hb hidx
  have hpos : 0 < 2 ^ b.ord := by positivity
  have hdiv : b.idx * 2 ^ b.ord + 1 ≤ s.bm.heapSize / 2048 := by
    rw [Nat.le_div_iff_mul_le (by decide)]
    nlinarith
  rw [L.heapBase]
  omega

/-- The invariant speaks of the memory below the blocks only. -/
theorem BudInv.of_frame {s s' : Mm} {B : List Block} (h : BudInv s B) (hs : SameBud s s')
    (hfrees : ∀ i, (s'.bud i).frees = (s.bud i).frees) {hi : ℕ}
    (hf : Frame s.bm.heapBase hi s.mem s'.mem) : BudInv s' B := by
  have L := h.layout
  have hle : s.bm.hdrBase ≤ s.bm.heapBase := L.hdr_le
  have hf' := hf.mono hle le_rfl
  refine ⟨hs.layout L, hs.padded h.padded, fun i hi l hl => ?_, fun b hb => ?_, fun b hb => ?_,
    h.apart, freesOk_of_frame L hs hfrees hf' h.frees⟩
  · rw [hs.bm] at hi
    rw [hs.bits] at hl
    rw [bit_of_frame L hs hf' hi hl, h.bits i hi l hl, hs.num]
  · have hlt := L.header_lt (h.real b hb).1 (h.real b hb).2
    have hold := h.header b hb
    rw [Mm.header] at hold ⊢
    rw [hs.bm, hf.load8 (Or.inl hlt), hold]
  · rw [hs.bm, hs.num]
    exact h.real b hb

/-- The order in which the live blocks are listed does not matter. -/
theorem BudInv.perm {s : Mm} {B C : List Block} (h : BudInv s B) (hp : B.Perm C) : BudInv s C where
  layout := h.layout
  padded := h.padded
  bits i hi k hk := by
    have hused : Used B i k ↔ Used C i k := exists_congr fun b => by rw [hp.mem_iff]
    rw [h.bits i hi k hk, hused]
  header b hb := h.header b (hp.mem_iff.2 hb)
  real b hb := h.real b (hp.mem_iff.2 hb)
  apart := hp.pairwise h.apart fun {_ _} hbc hcb => hbc hcb.symm
  frees := h.frees

/-- Order `o` is the one whose chunk `size` needs. -/
def IsClass (s : Mm) (size : ℤ) (o : ℕ) : Prop := IsClassOf 2048 s.bm.dep size o

/-! ## Sizes -/

theorem chunk_le {o : ℕ} (ho : o ≤ 11) : 2048 * 2 ^ o ≤ 4194304 :=
  calc 2048 * 2 ^ o ≤ 2048 * 2 ^ 11 := Nat.mul_le_mul_left _ (Nat.pow_le_pow_right (by decide) ho)
    _ = 4194304 := rfl

/-- `bud_get_ord` finds the order of a chunk. -/
theorem budGetOrdLoop_spec (n i d : ℕ) (hd : d < n) (hn : i + d ≤ 11) :
    budGetOrdLoop (2048 * 2 ^ (i + d)) n i (2048 * 2 ^ i) = (i + d : ℕ) := by
  induction d generalizing n i with
  | zero =>
    obtain ⟨n, rfl⟩ := Nat.exists_eq_succ_of_ne_zero (by omega : n ≠ 0)
    rw [Nat.add_zero, budGetOrdLoop, if_pos rfl]
  | succ d ih =>
    obtain ⟨n, rfl⟩ := Nat.exists_eq_succ_of_ne_zero (by omega : n ≠ 0)
    have hlt : 2 ^ i < 2 ^ (i + (d + 1)) := Nat.pow_lt_pow_right (by decide) (by omega)
    have hnext : u32 (2048 * 2 ^ i * 2) = 2048 * 2 ^ (i + 1) :=
      double_chunk (show 2048 * 2 ^ 11 < 2147483648 by decide) (by omega)
    rw [budGetOrdLoop, if_neg (by omega), hnext, show i + (d + 1) = i + 1 + d by omega]
    exact ih n (i + 1) (by omega) (by omega)

section Sizes

variable {s : Mm} (L : Layout s)

include L

theorem Layout.chunk_le_ul {o : ℕ} (ho : o < s.bm.dep) : 2048 * 2 ^ o ≤ s.bm.ul := by
  rw [L.ul]
  exact Nat.mul_le_mul_left _ (Nat.pow_le_pow_right (by decide) (by omega))

theorem Layout.ul_le_heap : s.bm.ul ≤ s.bm.heapSize := by
  have hpos := L.dep_pos
  have hge := L.num_ge (s.bm.dep - 1) (by omega)
  have := L.block_end (i := s.bm.dep - 1) (k := 0) (by omega) (by omega)
  rw [L.ul]
  omega

theorem Layout.chunk_lt : 2048 * 2 ^ (0 + s.bm.dep) < 2147483648 := by
  have := chunk_le L.dep_le
  rw [Nat.zero_add]
  omega

/-- `bud_rndup` and `bud_get_ord` find the class of a size. -/
theorem budRndup_of_class {size : ℤ} (hpos : 1 ≤ size) {o : ℕ} (hclass : IsClass s size o) :
    budRndup s size = (2048 * 2 ^ o : ℕ) ∧ budGetOrd s (2048 * 2 ^ o) = o := by
  have hdep := L.dep_le
  have ho := hclass.lt
  have hle := hclass.le
  have hheap := L.ul_le_heap
  have hul := L.chunk_le_ul ho
  have hge : 1 ≤ 2 ^ o := Nat.one_le_two_pow
  constructor
  · unfold budRndup
    rw [if_neg (by omega), L.ll]
    exact chunkLoop_of_class L.chunk_lt (Nat.zero_le o) (by omega) hle hclass.least
  · unfold budGetOrd
    rw [if_neg (by rw [L.ll]; omega), L.ll]
    simpa using budGetOrdLoop_spec s.bm.dep 0 o ho (by omega)

/-- A size up to the upper limit has a class. -/
theorem exists_isClass {size : ℤ} (hul : size ≤ s.bm.ul) : ∃ o, IsClass s size o := by
  rw [L.ul] at hul
  exact exists_isClassOf 2048 s.bm.dep L.dep_pos hul

/-- A size past the upper limit has no class. -/
theorem budRndup_neg {size : ℤ} (hul : s.bm.ul < size) : budRndup s size < 0 := by
  unfold budRndup
  split_ifs with h
  · decide
  · rw [L.ll, show (2048 : ℕ) = 2048 * 2 ^ 0 from rfl, chunkLoop_eq_neg L.chunk_lt]
    · decide
    · intro k hk
      have := L.chunk_le_ul (o := k) (by omega)
      omega

end Sizes

/-! ## Allocation -/

theorem bits_up {s : Mm} (L : Layout s) {B : List Block}
    (hbits : ∀ i < s.bm.dep, BitsAre s i (Used B i)) {j l : ℕ} (hj : j + 1 < s.bm.dep)
    (hl : l < s.bits j) (hl' : l / 2 < s.bits (j + 1)) (hset : s.bit j l = true) :
    s.bit (j + 1) (l / 2) = true := by
  rw [hbits j (by omega) l hl] at hset
  rw [hbits (j + 1) hj _ hl', L.num_succ hj]
  exact hset.imp (fun h => Nat.div_le_div_right h) Used.up

/-- `bud_find_free` marks the first clear bit, the blocks below and the ancestors. -/
theorem budFindFree_eq {s : Mm} {o t : ℕ}
    (hget : bitmapGetFree s.mem (s.bud o).bmp = (t : ℤ)) :
    budFindFree s o = ((t : ℤ),
      (budChkParent (budChkChilds (budSetBit s o t true).2 o t true).2 o t true budSearch).2) := by
  have hneg : ¬ (o : ℤ) < 0 := by omega
  have htneg : ¬ (t : ℤ) < 0 := by omega
  simp only [budFindFree, if_neg hneg, Int.toNat_natCast, hget, if_neg htneg]

/-- `bud_find_free` takes the first free block of the order. -/
theorem budFindFree_spec {s : Mm} {B : List Block} (h : BudInv s B) {o : ℕ} (ho : o < s.bm.dep)
    (hfree : ∃ k < s.bits o, s.bit o k = false) :
    ∃ t < (s.bud o).num, ¬ Used B o t ∧ (budFindFree s o).1 = t ∧
      Marked s (budFindFree s o).2 ∧
      ∀ j < s.bm.dep, BitsAre (budFindFree s o).2 j (Used (⟨o, t⟩ :: B) j) := by
  have L := h.layout
  obtain ⟨t, htb, hget, hclear, -⟩ | ⟨-, hall⟩ := L.bitmapGetFree_cases ho
  swap
  · obtain ⟨k, hk, hkfree⟩ := hfree
    have hkset : s.bit o k = true := hall k hk
    rw [hkset] at hkfree
    cases hkfree
  have htbit := h.bits o ho t htb
  have hnot : ¬ ((s.bud o).num ≤ t ∨ Used B o t) := by
    rw [← htbit, hclear]
    decide
  rw [not_or, not_le] at hnot
  refine ⟨t, hnot.1, hnot.2, ?_⟩
  rw [budFindFree_eq hget]
  -- the block itself and the blocks below it
  obtain ⟨hm₁₂, hbit₂⟩ := markDown_spec true L ho hnot.1
  set s₂ := (budChkChilds (budSetBit s o t true).2 o t true).2
  have L₂ := hm₁₂.same.layout L
  have hbm₂ := hm₁₂.same.bm
  have hbits₂ (j : ℕ) (hj : j < s.bm.dep) (l : ℕ) (hl : l < s.bits j) :
      s₂.bit j l = true ↔ s.bit j l = true ∨ (j ≤ o ∧ Block.Overlap ⟨j, l⟩ ⟨o, t⟩) := by
    rw [hbit₂ j hj l hl]
    split_ifs with hov
    · exact iff_of_true rfl (Or.inr hov)
    · exact (or_iff_left hov).symm
  -- the blocks above it
  have hpar : (budChkParent s₂ o t true budSearch).2 =
      budChkParentLoop budSearch true (s.bm.dep - (o + 1)) (o + 1) (t / 2) s₂ := by
    rw [budChkParent, if_neg (by rw [hbm₂]; omega), hbm₂]
  rw [hpar]
  have hup : ∀ j, o + 1 ≤ j → j + 1 < s₂.bm.dep → ∀ l ≤ (s₂.bud j).num,
      s₂.bit j l = true → s₂.bit (j + 1) (l / 2) = true := by
    intro j hj hjd l hl hset
    rw [hbm₂] at hjd
    rw [hm₁₂.same.num] at hl
    have hlb : l < s.bits j :=
      lt_of_le_of_lt hl (L.num_lt_bits (by omega) (h.padded j (by omega)))
    have hlb' : l / 2 < s.bits (j + 1) := by
      have := L.num_lt_bits hjd (h.padded _ hjd)
      rw [L.num_succ hjd] at this
      omega
    rw [hbits₂ j (by omega) l hlb] at hset
    rw [hbits₂ (j + 1) hjd _ hlb']
    exact Or.inl (bits_up L h.bits hjd hlb hlb' (hset.resolve_right (by omega)))
  obtain ⟨hm₃, hbits₃⟩ := budSearchLoop_spec (s.bm.dep - (o + 1)) (o + 1) (t / 2) L₂
    (hm₁₂.same.padded h.padded) (by rw [hbm₂]; omega)
    (fun hlt => by
      rw [hbm₂] at hlt
      rw [hm₁₂.same.num, L.num_succ hlt]
      omega) hup
  refine ⟨rfl, hm₁₂.trans hm₃, fun j hj l hl => ?_⟩
  rw [(hm₁₂.trans hm₃).same.bits] at hl
  rw [hbits₃ j (by rw [hbm₂]; exact hj) l (by rw [hm₁₂.same.bits]; exact hl), hbits₂ j hj l hl,
    h.bits j hj l hl, (hm₁₂.trans hm₃).same.num, used_cons]
  rcases Nat.lt_or_ge o j with hoj | hjo
  · have hov : Block.Overlap ⟨j, l⟩ ⟨o, t⟩ ↔ l = t / 2 / 2 ^ (j - (o + 1)) := by
      rw [Nat.div_div_eq_div_mul, ← pow_succ', show j - (o + 1) + 1 = j - o by omega]
      rw [Block.overlap_comm, Block.overlap_iff (b := ⟨o, t⟩) (c := ⟨j, l⟩) (le_of_lt hoj)]
      exact eq_comm
    have hj₁ : ¬ j ≤ o := not_le.2 hoj
    have hj₂ : o + 1 ≤ j := hoj
    simp only [hov, hj₁, hj₂, false_and, or_false, true_and]
    rw [or_assoc, or_comm (a := Used B j l)]
  · have hj₁ : ¬ o + 1 ≤ j := not_le.2 (Nat.lt_succ_of_le hjo)
    simp only [hj₁, hjo, false_and, or_false, true_and]
    rw [or_assoc, or_comm (a := Used B j l)]

/-- The header byte of cell `k`, and the address of a block, as `bud_encode` computes them. -/
theorem budEncode_spec {s : Mm} (L : Layout s) {o t : ℕ} (ho : o < s.bm.dep)
    (ht : t < (s.bud o).num) :
    budEncode s (2048 * 2 ^ o) t o = (.addr (s.blockAddr ⟨o, t⟩),
      s.setHeader (t * 2 ^ o) o) := by
  have hend := L.block_end ho ht
  have hlt := L.heap_lt
  have hfits := L.fits
  have hhdr := L.header_lt (b := ⟨o, t⟩) ho ht
  simp only at hhdr
  have hprod : u32 (2048 * 2 ^ o * t) = 2048 * 2 ^ o * t := u32_of_lt (by omega)
  have hcell : 2048 * 2 ^ o * t / 2048 = t * 2 ^ o := by
    rw [Nat.mul_assoc, Nat.mul_div_cancel_left _ (by decide), Nat.mul_comm]
  unfold budEncode
  simp only [hprod, L.ll, hcell, Mm.blockAddr, Mm.setHeader]
  rw [u32_of_lt (show s.bm.heapBase + 2048 * 2 ^ o * t < _ by omega),
    u32_of_lt (show s.bm.hdrBase + t * 2 ^ o < _ by omega),
    u32_of_lt (show s.bm.heapBase + 2048 * 2 ^ o * t + 2048 * 2 ^ o < _ by omega),
    u32_of_lt hfits, if_neg (by omega)]

theorem BudInv.addr_pos {s : Mm} (L : Layout s) (b : Block) : 0 < s.blockAddr b := by
  have hpos := L.base_pos 0 L.dep_pos
  have hhdr := L.base_hdr 0 L.dep_pos
  have hheap := L.heapBase
  unfold Mm.blockAddr
  omega

/-- `_bud_alloc` hands out the block that `bud_find_free` takes. -/
theorem _budAlloc_eq {s : Mm} (L : Layout s) {size : ℤ} (hpos : 1 ≤ size) {o t : ℕ}
    (hclass : IsClass s size o) (ht : t < (s.bud o).num) (hfind : (budFindFree s o).1 = t)
    (hsame : SameBud s (budFindFree s o).2) :
    _budAlloc s size =
      (.addr (s.blockAddr ⟨o, t⟩), (budFindFree s o).2.setHeader (t * 2 ^ o) o) := by
  have ho := hclass.lt
  have hdep := L.dep_le
  have hchunk := chunk_le (show o ≤ 11 by omega)
  obtain ⟨hrnd, hord⟩ := budRndup_of_class L hpos hclass
  set s₁ := (budFindFree s o).2 with hs₁
  have hbm := hsame.bm
  have htlt : t < 4294967296 := by
    have := L.num_le_bits ho
    have := L.bits_lt ho
    omega
  have henc := budEncode_spec (hsame.layout L) (o := o) (t := t) (by rw [hbm]; exact ho)
    (by rw [hsame.num]; exact ht)
  have haddr : s₁.blockAddr ⟨o, t⟩ = s.blockAddr ⟨o, t⟩ := by rw [Mm.blockAddr, Mm.blockAddr, hbm]
  have hne := BudInv.addr_pos L ⟨o, t⟩
  have hneg (n : ℕ) : ¬ (n : ℤ) < 0 := by omega
  simp only [_budAlloc, if_neg (show ¬ size < 1 by omega), hrnd, if_neg (hneg _),
    toU32_natCast (show 2048 * 2 ^ o < 4294967296 by omega), hord, hfind,
    toU32_natCast htlt, toU32_natCast (show o < 4294967296 by omega), ← hs₁,
    u8_ord L ho, henc, haddr, Ptr.val_addr]
  rw [if_neg (by omega)]

/-- `_bud_alloc` takes a free block of the class of `size`. -/
theorem _budAlloc_spec {s : Mm} {B : List Block} (h : BudInv s B) {size : ℤ} (hpos : 1 ≤ size)
    {o : ℕ} (hclass : IsClass s size o) (hfree : ∃ k < s.bits o, s.bit o k = false) :
    ∃ t, (_budAlloc s size).1 = .addr (s.blockAddr ⟨o, t⟩) ∧
      BudInv (_budAlloc s size).2 (⟨o, t⟩ :: B) ∧ Same s (_budAlloc s size).2 ∧
      Frame (s.bud 0).bmp.base s.bm.heapBase s.mem (_budAlloc s size).2.mem := by
  have L := h.layout
  have ho := hclass.lt
  have hdep := L.dep_le
  obtain ⟨t, ht, hunused, hfind, hm, hbits⟩ := budFindFree_spec h ho hfree
  set s₁ := (budFindFree s o).2
  have L₁ := hm.same.layout L
  have hbm := hm.same.bm
  have hres : _budAlloc s size = (.addr (s.blockAddr ⟨o, t⟩), s₁.setHeader (t * 2 ^ o) o) :=
    _budAlloc_eq L hpos hclass ht hfind hm.same.toSameBud
  rw [hres]
  have hhdr := L.header_lt (b := ⟨o, t⟩) ho ht
  have hle := L.hdr_le
  have hs₂ := same_setHeader s₁ (t * 2 ^ o) o
  have hf₂ : Frame s₁.bm.hdrBase s₁.bm.heapBase s₁.mem (s₁.setHeader (t * 2 ^ o) o).mem := by
    rw [hbm]
    exact (frame_store8 _ _ _).mono (by rw [hbm]; omega) (by rw [hbm]; exact hhdr)
  have hsame := hm.same.trans hs₂
  refine ⟨t, rfl, ⟨hsame.layout L, hsame.padded h.padded, fun i hi l hl => ?_, fun b hb => ?_,
    fun b hb => ?_, h.apart.cons hunused, ?_⟩, hsame, ?_⟩
  · rw [hsame.bm] at hi
    rw [hs₂.bits] at hl
    rw [bit_of_frame L₁ hs₂.toSameBud hf₂ (by rw [hbm]; exact hi) hl, hbits i hi l hl, hs₂.num]
  · -- a live block with the same first cell would meet the new one
    rw [header_setHeader]
    rcases List.mem_cons.1 hb with rfl | hb
    · rw [if_pos rfl, Nat.mod_eq_of_lt (by omega)]
    · rw [if_neg fun heq => hunused ⟨b, hb, (Block.overlap_of_start_eq heq).symm⟩, hm.header]
      exact h.header b hb
  · rw [hsame.bm, hsame.num]
    rcases List.mem_cons.1 hb with rfl | hb
    · exact ⟨ho, ht⟩
    · exact h.real b hb
  · exact freesOk_of_frame L₁ hs₂.toSameBud (fun _ => rfl) hf₂ (hm.frees h.frees)
  · rw [hbm] at hf₂
    have hbase := L.base_hdr 0 L.dep_pos
    exact (hm.frame.mono le_rfl hle).trans (hf₂.mono (by omega) le_rfl)

/-! ## Release -/

theorem iterate_double (d : ℕ) (hd : d ≤ 11) :
    (fun chunk => u32 (chunk * 2))^[d] 2048 = 2048 * 2 ^ d := by
  induction d with
  | zero => rfl
  | succ d ih =>
    rw [Function.iterate_succ_apply', ih (by omega)]
    exact double_chunk (show 2048 * 2 ^ 11 < 2147483648 by decide) hd

theorem budGetChunk_spec {s : Mm} (L : Layout s) {o : ℕ} (ho : o < s.bm.dep) :
    budGetChunk s o = (2048 * 2 ^ o : ℕ) := by
  have hdep := L.dep_le
  have hchunk := chunk_le (show o ≤ 11 by omega)
  unfold budGetChunk
  rw [if_neg (by omega), Int.toNat_natCast, L.ll, iterate_double o (by omega),
    toInt_natCast (by omega)]

/-- The block of an address is recovered from its header and its offset. -/
theorem budDecode_spec {s : Mm} (L : Layout s) {b : Block} (hb : b.ord < s.bm.dep)
    (hidx : b.idx < (s.bud b.ord).num) :
    budDecode s (s.blockAddr b) = s.bm.hdrBase + b.idx * 2 ^ b.ord ∧
      (toInt ((s.blockAddr b : ℤ) - s.bm.heapBase)).tdiv (2048 * 2 ^ b.ord : ℕ) = b.idx := by
  have hend := L.block_end hb hidx
  have hlt := L.heap_lt
  have hsub : (s.blockAddr b : ℤ) - s.bm.heapBase = (2048 * 2 ^ b.ord * b.idx : ℕ) := by
    rw [Mm.blockAddr]
    push_cast
    ring
  have hpos : 0 < 2 ^ b.ord := by positivity
  rw [budDecode, hsub, toU32_natCast (by omega), toInt_natCast (by omega), L.ll]
  constructor
  · rw [Nat.mul_assoc, Nat.mul_div_cancel_left _ (by decide), Nat.mul_comm]
  · rw [← Int.ofNat_tdiv, Nat.mul_div_cancel_left _ (by omega)]

/-- `_bud_free` unmarks the block that the header at the address names, then its ancestors. -/
theorem _budFree_eq {s : Mm} (L : Layout s) {b : Block} (hord : b.ord < s.bm.dep)
    (hidx : b.idx < (s.bud b.ord).num) (hhdr : s.header (b.idx * 2 ^ b.ord) = b.ord) :
    _budFree s (s.blockAddr b) =
      let s₂ := (budChkChilds (budSetBit s b.ord b.idx false).2 b.ord b.idx false).2
      if budIsBudUsed s₂ b.ord b.idx then s₂
      else (budChkParent s₂ b.ord b.idx false budMerge).2 := by
  have hdep := L.dep_le
  have hpos := BudInv.addr_pos L b
  obtain ⟨hdec, hdiv⟩ := budDecode_spec L hord hidx
  have hload : load8 s.mem (budDecode s (s.blockAddr b)) = b.ord := by
    rw [hdec]
    exact hhdr
  have hchunk := budGetChunk_spec L hord
  have hidxb := lt_of_lt_of_le hidx (L.num_le_bits hord)
  have hidx32 : b.idx < 4294967296 := by
    have := L.bits_lt hord
    omega
  have hge : s.bm.heapBase ≤ s.blockAddr b := Nat.le_add_right _ _
  have hneg : ¬ ((2048 * 2 ^ b.ord : ℕ) : ℤ) < 0 := by omega
  unfold _budFree
  rw [if_neg (by omega), hload]
  simp only [hchunk, if_neg hneg, hdiv, toU32_natCast hidx32]

/-- `_bud_free` takes a live block out of the family. -/
theorem _budFree_spec {s : Mm} {B : List Block} (h : BudInv s B) {b : Block} (hb : b ∈ B) :
    BudInv (_budFree s (s.blockAddr b)) (B.erase b) ∧
      Marked s (_budFree s (s.blockAddr b)) := by
  have L := h.layout
  obtain ⟨hord, hidx⟩ := h.real b hb
  rw [_budFree_eq L hord hidx (h.header b hb)]
  -- the block itself and the blocks below it
  obtain ⟨hm₁₂, hbit₂⟩ := markDown_spec false L hord hidx
  set s₂ := (budChkChilds (budSetBit s b.ord b.idx false).2 b.ord b.idx false).2
  have L₂ := hm₁₂.same.layout L
  have hp₂ := hm₁₂.same.padded h.padded
  have hbm₂ := hm₁₂.same.bm
  have hord₂ : b.ord < s₂.bm.dep := by rw [hbm₂]; exact hord
  have hidx₂ : b.idx < (s₂.bud b.ord).num := by rw [hm₁₂.same.num]; exact hidx
  have hbits₂ (j : ℕ) (hj : j < s.bm.dep) (l : ℕ) (hl : l < s.bits j) :
      s₂.bit j l = true ↔
        s.bit j l = true ∧ ¬ (j ≤ b.ord ∧ Block.Overlap ⟨j, l⟩ ⟨b.ord, b.idx⟩) := by
    rw [hbit₂ j hj l hl]
    split_ifs with hov
    · exact iff_of_false (by decide) fun hc => hc.2 hov
    · exact (and_iff_left hov).symm
  have hnot := not_used_erase_of_overlap h.apart hb le_rfl (Block.overlap_self b)
  -- up to the order of the block the bits are right
  have hlow : ∀ j ≤ b.ord, j < s.bm.dep → BitsAre s₂ j (Used (B.erase b) j) := by
    intro j hj hjd l hl
    rw [hm₁₂.same.bits] at hl
    rw [hbits₂ j hjd l hl, h.bits j hjd l hl, hm₁₂.same.num]
    by_cases hov : Block.Overlap ⟨j, l⟩ b
    · have hfree := not_used_erase_of_overlap h.apart hb hj hov
      have hreal := L.overlap_real hord hidx hj hov
      exact iff_of_false (fun hc => hc.2 ⟨hj, hov⟩) (not_or.2 ⟨not_le.2 hreal, hfree⟩)
    · rw [used_erase_of_not_overlap hov]
      exact and_iff_left fun hc => hov hc.2
  -- above it the ancestors of the block may have to be cleared
  have hhigh : ∀ j < s.bm.dep, b.ord < j →
      BitsAre s₂ j fun l => Used (B.erase b) j l ∨ l = b.idx / 2 ^ (j - b.ord) := by
    intro j hjd hj l hl
    rw [hm₁₂.same.bits] at hl
    rw [hbits₂ j hjd l hl, h.bits j hjd l hl, hm₁₂.same.num,
      and_iff_left fun hc => absurd hc.1 (not_le.2 hj)]
    refine or_congr_right ?_
    have hov : Block.Overlap ⟨j, l⟩ b ↔ l = b.idx / 2 ^ (j - b.ord) := by
      rw [Block.overlap_comm, Block.overlap_iff (le_of_lt hj)]
      exact eq_comm
    show Used B j l ↔ Used (B.erase b) j l ∨ l = b.idx / 2 ^ (j - b.ord)
    rw [← hov]
    by_cases hb' : Block.Overlap ⟨j, l⟩ b
    · exact iff_of_true ⟨b, hb, hb'⟩ (Or.inr hb')
    · rw [used_erase_of_not_overlap hb', or_iff_left hb']
  have hsib : s₂.bit b.ord (sibling b.idx) = true ↔
      (s.bud b.ord).num ≤ sibling b.idx ∨ Used (B.erase b) b.ord (sibling b.idx) := by
    have hlt := sibling_lt_bits L hord h.padded hidx
    rw [hlow b.ord le_rfl hord _ (by rw [hm₁₂.same.bits]; exact hlt), hm₁₂.same.num]
  -- it is enough that the walk ends with the right bits
  suffices hend : ∀ s', Marked s₂ s' → (∀ j < s₂.bm.dep, BitsAre s' j (Used (B.erase b) j)) →
      BudInv s' (B.erase b) ∧ Marked s s' by
    simp only [budIsBudUsed_eq L₂ hord₂ hidx₂ (sibling_lt_bits L₂ hord₂ hp₂ hidx₂)]
    by_cases hstop : s₂.bit b.ord (sibling b.idx) = true
    · rw [if_pos hstop]
      refine hend s₂ (Marked.refl s₂) fun j hj => ?_
      rw [hbm₂] at hj
      rcases Nat.lt_or_ge b.ord j with hlt | hle
      · intro l hl
        rw [hhigh j hj hlt l hl, hm₁₂.same.num]
        refine or_congr_right' fun hnum => or_iff_left_of_imp ?_
        rintro rfl
        exact (ancestor_marked_of_sibling L hlt hj hnot (hsib.1 hstop)).resolve_left hnum
      · exact hlow j hle hj
    · rw [if_neg hstop, budChkParent, if_neg (by omega)]
      obtain ⟨hm₃, hbits₃⟩ := budMergeLoop_spec (B.erase b) (s₂.bm.dep - (b.ord + 1)) (b.ord + 1)
        (b.idx / 2) L₂ hp₂ (by omega)
        (fun hlt => by
          rw [hbm₂] at hlt
          rw [hm₁₂.same.num]
          exact parent_free L hlt hnot hidx fun hc => hstop (hsib.2 hc))
        (fun j hj hjd => hlow j (by omega) (by rwa [hbm₂] at hjd))
        (fun j hjd hj => by
          rw [hbm₂] at hjd
          have := hhigh j hjd (by omega)
          rwa [show j - b.ord = j - (b.ord + 1) + 1 by omega, pow_succ',
            ← Nat.div_div_eq_div_mul] at this)
      exact hend _ hm₃ hbits₃
  intro s' hm₃ hbits₃
  have hm := hm₁₂.trans hm₃
  refine ⟨⟨hm.same.layout L, hm.same.padded h.padded, fun j hj => ?_, fun c hc => ?_,
    fun c hc => ?_, h.apart.erase b, hm.frees h.frees⟩, hm⟩
  · rw [hm.same.bm, ← hbm₂] at hj
    exact hbits₃ j hj
  · rw [hm.header]
    exact h.header c (List.mem_of_mem_erase hc)
  · rw [hm.same.bm, hm.same.num]
    exact h.real c (List.mem_of_mem_erase hc)

end YohdaOS

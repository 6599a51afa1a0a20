import YohdaOS.Buddy.Spec
import YohdaOS.Buddy.InitSpec
import YohdaOS.Lib.Runs

/-!
# Runs of the buddy

A run allocates, releases and writes into live blocks, in any order.  The live blocks are kept as
the addresses and lengths their users know; `BudRunInv` relates them to a family of blocks that the
bitmaps describe.
-/

namespace YohdaOS

open ByteMem BinaryBlocks

/-- The buddy and the addresses and lengths of the live blocks. -/
structure BudRun where
  s : Mm
  live : List (ℕ × ℕ)

/-- The order that `size` needs has a clear bit. -/
def HasFree (s : Mm) (size : ℤ) : Prop :=
  ∃ o, IsClass s size o ∧ ∃ k < s.bits o, s.bit o k = false

/-- What `_bud_alloc` hands out: an address, and the chunk that `bud_rndup` finds. -/
def budGrant (s : Mm) (size : ℤ) : ℕ × ℕ := ((_budAlloc s size).1.val, (budRndup s size).toNat)

inductive BudStep : BudRun → BudRun → Prop
  | alloc (r : BudRun) (size : ℤ) (hpos : 1 ≤ size) (hfree : HasFree r.s size) :
      BudStep r ⟨(_budAlloc r.s size).2, budGrant r.s size :: r.live⟩
  | free (r : BudRun) (p : ℕ × ℕ) (hp : p ∈ r.live) :
      BudStep r ⟨_budFree r.s p.1, r.live.erase p⟩
  | write (r : BudRun) (p : ℕ × ℕ) (hp : p ∈ r.live) (m : Mem)
      (hm : Frame p.1 (p.1 + p.2) r.s.mem m) : BudStep r ⟨{ r.s with mem := m }, r.live⟩

/-- The address and the length of a block. -/
def Mm.range (s : Mm) (b : Block) : ℕ × ℕ := (s.blockAddr b, 2048 * 2 ^ b.ord)

/-- The live ranges are those of a family of blocks that the state describes. -/
def BudRunInv (s₀ : Mm) (r : BudRun) : Prop :=
  ∃ B, BudInv r.s B ∧ r.live = B.map s₀.range ∧ Same s₀ r.s

theorem range_injective (s : Mm) : Function.Injective s.range := by
  rintro ⟨o, k⟩ ⟨o', k'⟩ h
  simp only [Mm.range, Mm.blockAddr, Prod.mk.injEq] at h
  obtain ⟨haddr, hlen⟩ := h
  obtain rfl : o = o' := Nat.pow_right_injective (le_refl 2) (Nat.eq_of_mul_eq_mul_left (by decide) hlen)
  have hpos : 0 < 2048 * 2 ^ o := by positivity
  rw [Nat.eq_of_mul_eq_mul_left hpos (Nat.add_left_cancel haddr)]

theorem range_congr {s s' : Mm} (h : SameBud s s') : s'.range = s.range := by
  funext b
  rw [Mm.range, Mm.range, Mm.blockAddr, Mm.blockAddr, h.bm]

/-- Blocks overlap exactly when their addresses do. -/
theorem overlap_iff_meets (s : Mm) (b c : Block) :
    b.Overlap c ↔ Meets (s.range b).1 (s.range b).2 (s.range c).1 (s.range c).2 := by
  have h (d : Block) : 2048 * 2 ^ d.ord * d.idx = 2048 * (d.idx * 2 ^ d.ord) ∧
      (d.idx + 1) * 2 ^ d.ord = d.idx * 2 ^ d.ord + 2 ^ d.ord := ⟨by ring, by ring⟩
  simp only [Block.Overlap, Meets, Mm.range, Mm.blockAddr, (h b).1, (h b).2, (h c).1, (h c).2]
  omega

/-- Block `k` of order `i` is used exactly when it meets a live range. -/
theorem used_iff_meets (s : Mm) (B : List Block) (i k : ℕ) :
    Used B i k ↔ ∃ p ∈ B.map s.range,
      Meets (s.bm.heapBase + 2048 * 2 ^ i * k) (2048 * 2 ^ i) p.1 p.2 := by
  simp only [List.mem_map, exists_exists_and_eq_and]
  exact exists_congr fun b => and_congr_right fun _ => overlap_iff_meets s ⟨i, k⟩ b

/-! ## One step -/

theorem budGrant_spec {s : Mm} {B : List Block} (h : BudInv s B) {size : ℤ} (hpos : 1 ≤ size)
    (hfree : HasFree s size) :
    ∃ b, IsClass s size b.ord ∧ (_budAlloc s size).1 = .addr (s.blockAddr b) ∧
      budGrant s size = s.range b ∧ BudInv (_budAlloc s size).2 (b :: B) ∧
      Same s (_budAlloc s size).2 ∧
      Frame (s.bud 0).bmp.base s.bm.heapBase s.mem (_budAlloc s size).2.mem := by
  obtain ⟨o, hclass, hclear⟩ := hfree
  obtain ⟨t, hptr, hinv, hsame, hframe⟩ := _budAlloc_spec h hpos hclass hclear
  obtain ⟨hrnd, -⟩ := budRndup_of_class h.layout hpos hclass
  refine ⟨⟨o, t⟩, hclass, hptr, ?_, hinv, hsame, hframe⟩
  rw [budGrant, hptr, hrnd, Int.toNat_natCast, Mm.range, Ptr.val_addr]

theorem budStep_inv {s₀ : Mm} {r r' : BudRun} (h : BudRunInv s₀ r) (hstep : BudStep r r') :
    BudRunInv s₀ r' := by
  obtain ⟨B, hinv, hlive, hsame⟩ := h
  cases hstep with
  | alloc size hpos hfree =>
    obtain ⟨b, -, -, hgrant, hinv', hsame', -⟩ := budGrant_spec hinv hpos hfree
    exact ⟨b :: B, hinv', by rw [hgrant, range_congr hsame.toSameBud, hlive, List.map_cons],
      hsame.trans hsame'⟩
  | free p hp =>
    rw [hlive] at hp
    obtain ⟨b, hb, rfl⟩ := List.mem_map.1 hp
    obtain ⟨hinv', hmarked⟩ := _budFree_spec hinv hb
    have haddr : (s₀.range b).1 = r.s.blockAddr b := by rw [← range_congr hsame.toSameBud]; rfl
    refine ⟨B.erase b, by rw [haddr]; exact hinv', ?_, by rw [haddr]; exact hsame.trans hmarked.same⟩
    rw [hlive]
    exact (List.map_erase (range_injective s₀) _).symm
  | write p hp m hm =>
    have hsame' := same_withMem r.s m
    rw [hlive] at hp
    obtain ⟨b, hb, rfl⟩ := List.mem_map.1 hp
    rw [← range_congr hsame.toSameBud] at hm
    refine ⟨B, hinv.of_frame hsame'.toSameBud (fun _ => rfl) (hm.mono ?_ le_rfl), hlive, hsame.trans hsame'⟩
    exact Nat.le_add_right _ _

/-! ## The start -/

/-- Over orders without a whole number of bitmap words `_bud_init` describes the empty family. -/
theorem budInv_init {H : Heap} {s s' : Mm} (h : InitPost H s s') (hpad : Padded s') :
    BudInv s' [] := by
  have L := h.layout
  have hbits (i : ℕ) (hi : i < s'.bm.dep) (k : ℕ) (hk : k < s'.bits i) :
      s'.bit i k = true ↔ (s'.bud i).num ≤ k := by
    rw [h.bit i hi k hk, padStart_of_not_dvd (hpad i hi)]
  refine ⟨L, hpad, fun i hi k hk => ?_, by simp, by simp, List.Pairwise.nil, fun i hi => ?_⟩
  · rw [hbits i hi k hk]
    exact (or_iff_left (not_used_nil i k)).symm
  · -- the clear bits are those of the blocks
    have hle := L.num_le_bits hi
    have hcount : Nat.count (fun k => s'.bit i k = false) (s'.bits i) =
        Nat.count (· < (s'.bud i).num) (s'.bits i) := by
      refine Counting.count_congr fun k hk => ?_
      rw [← Bool.not_eq_true, hbits i hi k hk, not_le]
    rw [h.frees i hi, Mm.clearBits, hcount, Nat.count_eq_card_filter_range]
    have hset : (Finset.range (s'.bits i)).filter (· < (s'.bud i).num) =
        Finset.range (s'.bud i).num := by
      ext k
      simp only [Finset.mem_filter, Finset.mem_range]
      omega
    rw [hset, Finset.card_range]

/-! ## Whole runs -/

/-- What a run from the state `s` of `_bud_init` to `r` guarantees. -/
structure BudRunOk (s : Mm) (r : BudRun) : Prop where
  bit : ∀ i < s.bm.dep, ∀ k < s.bm.heapSize / (2048 * 2 ^ i), r.s.bit i k = true ↔
    ∃ p ∈ r.live, Meets (s.bm.heapBase + 2048 * 2 ^ i * k) (2048 * 2 ^ i) p.1 p.2
  padding : ∀ i < s.bm.dep, ∀ k, s.bm.heapSize / (2048 * 2 ^ i) ≤ k → k < s.bits i →
    r.s.bit i k = true
  frees : ∀ i < s.bm.dep, (r.s.bud i).frees = r.s.clearBits i
  apart : r.live.Pairwise fun p q => ¬ Meets p.1 p.2 q.1 q.2
  alloc : ∀ size, 1 ≤ size → HasFree r.s size →
    (_budAlloc r.s size).1.val ≠ 0 ∧
    (∃ k, (budGrant r.s size).2 = 2048 * 2 ^ k ∧ size ≤ (2048 * 2 ^ k : ℕ) ∧
      ∀ j < k, ((2048 * 2 ^ j : ℕ) : ℤ) < size) ∧
    s.bm.heapBase ≤ (budGrant r.s size).1 ∧
    (budGrant r.s size).1 + (budGrant r.s size).2 ≤ s.bm.heapBase + s.bm.heapSize ∧
    ∀ p ∈ r.live, ¬ Meets (budGrant r.s size).1 (budGrant r.s size).2 p.1 p.2
  restored : r.live = [] → ∀ i < s.bm.dep, (r.s.bud i).frees = (s.bud i).frees ∧
    ∀ k < s.bits i, r.s.bit i k = s.bit i k

theorem budRunInv_alloc {s : Mm} {r : BudRun} (h : BudRunInv s r) {size : ℤ} (hpos : 1 ≤ size)
    (hfree : HasFree r.s size) :
    (_budAlloc r.s size).1.val ≠ 0 ∧
    (∃ k, (budGrant r.s size).2 = 2048 * 2 ^ k ∧ size ≤ (2048 * 2 ^ k : ℕ) ∧
      ∀ j < k, ((2048 * 2 ^ j : ℕ) : ℤ) < size) ∧
    s.bm.heapBase ≤ (budGrant r.s size).1 ∧
    (budGrant r.s size).1 + (budGrant r.s size).2 ≤ s.bm.heapBase + s.bm.heapSize ∧
    ∀ p ∈ r.live, ¬ Meets (budGrant r.s size).1 (budGrant r.s size).2 p.1 p.2 := by
  obtain ⟨B, hinv, hlive, hsame⟩ := h
  obtain ⟨b, hclass, hptr, hgrant, hinv', hsame', -⟩ := budGrant_spec hinv hpos hfree
  have L := hinv.layout
  obtain ⟨hord, hidx⟩ := hinv'.real b List.mem_cons_self
  rw [hsame'.bm] at hord
  rw [hsame'.num] at hidx
  have hend := L.blockAddr_end hord hidx
  have hne := BudInv.addr_pos L b
  rw [hgrant, hptr, hlive, ← hsame.bm]
  refine ⟨Nat.ne_of_gt hne, ⟨b.ord, rfl, hclass.le, hclass.least⟩, Nat.le_add_right _ _, hend,
    fun p hp hmeet => ?_⟩
  obtain ⟨c, hc, rfl⟩ := List.mem_map.1 hp
  rw [← range_congr hsame.toSameBud, ← overlap_iff_meets] at hmeet
  exact (List.pairwise_cons.1 hinv'.apart).1 c hc hmeet

theorem budRunInv_ok {s : Mm} (L : Layout s) {r : BudRun} (h : BudRunInv s r)
    (hstart : BudInv s []) : BudRunOk s r := by
  have halloc {size : ℤ} (hpos : 1 ≤ size) (hfree : HasFree r.s size) :=
    budRunInv_alloc h hpos hfree
  obtain ⟨B, hinv, hlive, hsame⟩ := h
  have hbits (i : ℕ) (hi : i < s.bm.dep) (k : ℕ) (hk : k < s.bits i) :
      r.s.bit i k = true ↔ s.bm.heapSize / (2048 * 2 ^ i) ≤ k ∨ Used B i k := by
    rw [hinv.bits i (by rw [hsame.bm]; exact hi) k (by rw [hsame.bits]; exact hk), hsame.num,
      L.num i hi]
  refine ⟨fun i hi k hk => ?_, fun i hi k hk hkb => (hbits i hi k hkb).2 (Or.inl hk), fun i hi => ?_,
    ?_, fun size => halloc, fun hnil i hi => ?_⟩
  · have hkb : k < s.bits i := lt_of_lt_of_le (by rwa [L.num i hi]) (L.num_le_bits hi)
    rw [hbits i hi k hkb, hlive, used_iff_meets s]
    exact or_iff_right (not_le.2 hk)
  · exact hinv.frees i (by rw [hsame.bm]; exact hi)
  · rw [hlive, List.pairwise_map]
    exact hinv.apart.imp fun hbc hm => hbc ((overlap_iff_meets s _ _).2 hm)
  · have hB : B = [] := by
      rw [hlive] at hnil
      exact List.map_eq_nil_iff.1 hnil
    have heq (k : ℕ) (hk : k < s.bits i) : r.s.bit i k = s.bit i k := by
      rw [Bool.eq_iff_iff, hbits i hi k hk, hstart.bits i hi k hk, L.num i hi, hB]
    refine ⟨?_, heq⟩
    rw [hinv.frees i (by rw [hsame.bm]; exact hi), hstart.frees i hi, Mm.clearBits, Mm.clearBits,
      hsame.bits]
    exact Counting.count_congr fun k hk => by rw [heq k hk]

/-- After `_bud_init` on a heap without an order of a whole number of bitmap words, every run of
allocations and releases keeps the bitmaps, the counters and the blocks as they should be. -/
theorem budRun_ok (s₀ : Mm) (H : Heap) (hok : 0 ≤ (_budInit s₀ H.base H.size 2048).1)
    (hnum : ∀ i < (_budInit s₀ H.base H.size 2048).2.bm.dep,
      ¬ 32 ∣ (_budInit s₀ H.base H.size 2048).2.bm.heapSize / (2048 * 2 ^ i))
    (r : BudRun)
    (hrun : Relation.ReflTransGen BudStep ⟨(_budInit s₀ H.base H.size 2048).2, []⟩ r) :
    BudRunOk (_budInit s₀ H.base H.size 2048).2 r := by
  have hpost := _budInit_spec s₀ H hok
  have L := hpost.layout
  have hstart := budInv_init hpost fun i hi => by
    rw [L.num i hi]
    exact hnum i hi
  have hinv := Runs.invariant_of_run hrun ⟨[], hstart, rfl, Same.refl _⟩
    fun _ _ h hstep => budStep_inv h hstep
  exact budRunInv_ok L hinv hstart

/-- `_bud_init` on the smallest region. -/
def leastBud : Mm := (_budInit (.boot ⟨fun _ => 0⟩ 4 12) leastHeap.base leastHeap.size 2048).2

/-- A block of order 0 is taken there. -/
def leastBudFirst : Mm := (_budAlloc leastBud 2048).2

/-- And one of order 2. -/
def leastBudSecond : Mm := (_budAlloc leastBudFirst 5000).2

/-- Something is written into the first block. -/
def leastBudWritten : Mm :=
  { leastBudSecond with mem := store8 leastBudSecond.mem 33554583 7 }

/-- A third block is taken. -/
def leastBudThird : Mm := (_budAlloc leastBudWritten 300).2

/-- The first block is given back. -/
def leastBudFreed : Mm := _budFree leastBudThird 33554583

theorem budStep_alloc {s s' : Mm} {live : List (ℕ × ℕ)} {p : ℕ × ℕ} {size : ℤ} (hpos : 1 ≤ size)
    (hfree : HasFree s size) (hs : (_budAlloc s size).2 = s') (hp : budGrant s size = p) :
    BudStep ⟨s, live⟩ ⟨s', p :: live⟩ := by
  subst hs hp
  exact .alloc ⟨s, live⟩ size hpos hfree

theorem budStep_free {s s' : Mm} {live live' : List (ℕ × ℕ)} {a n : ℕ} (hp : (a, n) ∈ live)
    (hs : _budFree s a = s') (hlive : live.erase (a, n) = live') :
    BudStep ⟨s, live⟩ ⟨s', live'⟩ := by
  subst hs hlive
  exact .free ⟨s, live⟩ (a, n) hp

/-- Three blocks are taken, the first is written to and given back. -/
theorem budRun_ok_least :
    BudRunOk leastBud ⟨leastBudFreed, [(33556631, 2048), (33562775, 8192)]⟩ := by
  have hfirst : HasFree leastBud 2048 :=
    ⟨0, ⟨by decide +kernel, by decide, by simp⟩, 0, by decide +kernel, by decide +kernel⟩
  have hsecond : HasFree leastBudFirst 5000 :=
    ⟨2, ⟨by decide +kernel, by decide, by decide⟩, 1, by decide +kernel, by decide +kernel⟩
  have hthird : HasFree leastBudWritten 300 :=
    ⟨0, ⟨by decide +kernel, by decide, by simp⟩, 1, by decide +kernel, by decide +kernel⟩
  have h₁ : BudStep ⟨leastBud, []⟩ ⟨leastBudFirst, [(33554583, 2048)]⟩ :=
    budStep_alloc (by decide) hfirst rfl (by decide +kernel)
  have h₂ : BudStep _ ⟨leastBudSecond, [(33562775, 8192), (33554583, 2048)]⟩ :=
    budStep_alloc (by decide) hsecond rfl (by decide +kernel)
  have h₃ : BudStep _ ⟨leastBudWritten, [(33562775, 8192), (33554583, 2048)]⟩ :=
    .write ⟨leastBudSecond, [(33562775, 8192), (33554583, 2048)]⟩ (33554583, 2048) (by simp) _
      ((frame_store8 _ 33554583 7).mono le_rfl (by omega))
  have h₄ : BudStep _
      ⟨leastBudThird, [(33556631, 2048), (33562775, 8192), (33554583, 2048)]⟩ :=
    budStep_alloc (by decide) hthird rfl (by decide +kernel)
  have h₅ : BudStep ⟨leastBudThird, [(33556631, 2048), (33562775, 8192), (33554583, 2048)]⟩
      ⟨leastBudFreed, [(33556631, 2048), (33562775, 8192)]⟩ :=
    budStep_free (a := 33554583) (n := 2048) (by simp) rfl (by decide)
  have hok : 0 ≤ (_budInit (.boot ⟨fun _ => 0⟩ 4 12) leastHeap.base leastHeap.size 2048).1 :=
    (_budInit_ok_iff _ leastHeap).2 (by decide)
  exact budRun_ok (.boot ⟨fun _ => 0⟩ 4 12) leastHeap hok (leastHeap_pads _) _
    (((((Relation.ReflTransGen.refl.tail h₁).tail h₂).tail h₃).tail h₄).tail h₅)

end YohdaOS

import YohdaOS.Buddy.Spec

/-!
# `_bud_alloc` without a free block

`bud_find_free` answers -4, which `_bud_alloc` reports and then uses as an offset: the block it
encodes lies four chunks below the heap, and a header byte is written outside the header table.
Whether the caller gets NULL depends on where the heap lies.
-/

namespace YohdaOS

open ByteMem BinaryBlocks

/-- `bitmap_get_free` finds no clear bit in the order that `size` needs, if there is one. -/
def NoneFree (s : Mm) (size : ℤ) : Prop :=
  ∀ o, IsClass s size o → bitmapGetFree s.mem (s.bud o).bmp < 0

/-- `_bud_alloc` returns NULL and leaves the bitmaps, the counters and the header table alone. -/
structure RefusedOk (s : Mm) (size : ℤ) : Prop where
  null : (_budAlloc s size).1.val = 0
  bit : ∀ i < s.bm.dep, ∀ k < s.bits i, (_budAlloc s size).2.bit i k = s.bit i k
  frees : ∀ i < s.bm.dep, ((_budAlloc s size).2.bud i).frees = (s.bud i).frees
  header : ∀ k < s.bm.heapSize / 2048, (_budAlloc s size).2.header k = s.header k

/-- The address `_bud_alloc` encodes for offset -4. -/
def strayAddr (s : Mm) (o : ℕ) : ℕ := u32 (s.bm.heapBase + u32 (2048 * 2 ^ o * 4294967292))

/-- The address of the header byte it writes for offset -4. -/
def strayHdr (s : Mm) (o : ℕ) : ℕ := u32 (s.bm.hdrBase + u32 (2048 * 2 ^ o * 4294967292) / 2048)

theorem _budAlloc_noClass {s : Mm} (L : Layout s) {size : ℤ} (hul : s.bm.ul < size) :
    _budAlloc s size = (.code 0, s) := by
  have hneg := budRndup_neg L hul
  simp only [_budAlloc, if_pos hneg, ite_self]

section Stray

variable {s : Mm} (L : Layout s) {o : ℕ} (ho : o < s.bm.dep)

include L ho

/-- A chunk of the heap is at most two megabytes. -/
theorem Layout.chunk_le_2M : 2 ^ o ≤ 1024 :=
  calc 2 ^ o ≤ 2 ^ 10 := Nat.pow_le_pow_right (by decide) (by have := L.dep_le; omega)
    _ = 1024 := rfl

theorem strayAddr_eq : strayAddr s o =
    if 4 * (2048 * 2 ^ o) ≤ s.bm.heapBase then s.bm.heapBase - 4 * (2048 * 2 ^ o)
    else s.bm.heapBase + 4294967296 - 4 * (2048 * 2 ^ o) := by
  have hq := L.chunk_le_2M ho
  have hpos : 0 < 2 ^ o := by positivity
  have hfits := L.fits
  unfold strayAddr u32
  split_ifs <;> omega

/-- The stray header byte lies outside the bitmaps and the header table. -/
theorem strayHdr_apart :
    strayHdr s o < (s.bud 0).bmp.base ∨ s.bm.heapBase ≤ strayHdr s o := by
  have hq := L.chunk_le_2M ho
  have hpos : 0 < 2 ^ o := by positivity
  have hfits := L.fits
  have hnear := L.hdr_near
  have hheap := L.heapBase
  have hlt := L.heap_lt
  have hinner : u32 (2048 * 2 ^ o * 4294967292) / 2048 = 2097152 - 4 * 2 ^ o := by
    unfold u32
    omega
  rw [strayHdr, hinner, u32]
  omega

/-- The bounds test of `bud_encode` lets the stray block pass unless the heap lies very low. -/
theorem _budAlloc_stray {size : ℤ} (hpos : 1 ≤ size) (hclass : IsClass s size o)
    (hnone : bitmapGetFree s.mem (s.bud o).bmp < 0) :
    (_budAlloc s size).1 = (if s.bm.heapBase < 3 * (2048 * 2 ^ o) ∨
        s.bm.heapBase = 4 * (2048 * 2 ^ o) then .code 0 else .addr (strayAddr s o)) ∧
      (_budAlloc s size).2 = { s with mem := store8 s.mem (strayHdr s o) o } := by
  have hq := L.chunk_le_2M ho
  have hq0 : 0 < 2 ^ o := by positivity
  have hdep := L.dep_le
  have hul := L.chunk_le_ul ho
  have hfits := L.fits
  have hlt := L.heap_lt
  obtain ⟨hrnd, hord⟩ := budRndup_of_class L hpos hclass
  have hneg (n : ℕ) : ¬ (n : ℤ) < 0 := by omega
  have hfind : budFindFree s o = (-4, s) := by
    simp only [budFindFree, if_neg (hneg o), Int.toNat_natCast, if_pos hnone]
  have haddr := strayAddr_eq L ho
  have htest : u32 (strayAddr s o + 2048 * 2 ^ o) > u32 (s.bm.heapBase + s.bm.heapSize) ↔
      s.bm.heapBase < 3 * (2048 * 2 ^ o) := by
    rw [u32_of_lt hfits, haddr]
    unfold u32
    split_ifs <;> omega
  have hzero : strayAddr s o = 0 ↔ s.bm.heapBase = 4 * (2048 * 2 ^ o) := by
    rw [haddr]
    split_ifs <;> omega
  have henc : budEncode s (2048 * 2 ^ o) 4294967292 o =
      (if s.bm.heapBase < 3 * (2048 * 2 ^ o) then .code 0 else .addr (strayAddr s o),
        { s with mem := store8 s.mem (strayHdr s o) o }) := by
    have hA : u32 (s.bm.heapBase + u32 (2048 * 2 ^ o * 4294967292)) = strayAddr s o := rfl
    have hH : u32 (s.bm.hdrBase + u32 (2048 * 2 ^ o * 4294967292) / 2048) = strayHdr s o := rfl
    simp only [budEncode, L.ll, hA, hH, htest]
    split_ifs <;> rfl
  have hunfold : _budAlloc s size =
      if (budEncode s (2048 * 2 ^ o) 4294967292 o).1.val = 0 then
        (.code 0, (budEncode s (2048 * 2 ^ o) 4294967292 o).2)
      else budEncode s (2048 * 2 ^ o) 4294967292 o := by
    simp only [_budAlloc, if_neg (show ¬ size < 1 by omega), hrnd, if_neg (hneg _),
      toU32_natCast (show 2048 * 2 ^ o < 4294967296 by omega), hord, hfind,
      toU32_natCast (show o < 4294967296 by omega), u8_ord L ho,
      show toU32 (-4) = 4294967292 from rfl]
  rw [hunfold, henc]
  by_cases hlow : s.bm.heapBase < 3 * (2048 * 2 ^ o)
  · simp [hlow, toU32]
  · simp only [hlow, if_false, false_or, Ptr.val_addr, hzero]
    split_ifs <;> exact ⟨rfl, rfl⟩

end Stray

/-- When no block is free, the request is refused as it should be exactly when it has no class or
the heap lies so low that four chunks below it are no address. -/
theorem _budAlloc_refused_iff {s : Mm} (L : Layout s) {size : ℤ} (hpos : 1 ≤ size)
    (hnone : NoneFree s size) :
    RefusedOk s size ↔ budRndup s size < 0 ∨ (s.bm.heapBase : ℤ) < 3 * budRndup s size ∨
      (s.bm.heapBase : ℤ) = 4 * budRndup s size := by
  rcases le_or_gt size s.bm.ul with hul | hul
  · obtain ⟨o, hclass⟩ := exists_isClass L hul
    obtain ⟨hrnd, -⟩ := budRndup_of_class L hpos hclass
    obtain ⟨hptr, hstate⟩ := _budAlloc_stray L hclass.lt hpos hclass (hnone o hclass)
    have hcond : (budRndup s size < 0 ∨ (s.bm.heapBase : ℤ) < 3 * budRndup s size ∨
        (s.bm.heapBase : ℤ) = 4 * budRndup s size) ↔
        s.bm.heapBase < 3 * (2048 * 2 ^ o) ∨ s.bm.heapBase = 4 * (2048 * 2 ^ o) := by
      rw [hrnd]
      omega
    rw [hcond]
    constructor
    · intro h
      have hnull := h.null
      rw [hptr] at hnull
      by_contra hc
      rw [if_neg hc, Ptr.val_addr, strayAddr_eq L hclass.lt] at hnull
      have hfits := L.fits
      have hq := L.chunk_le_2M hclass.lt
      split_ifs at hnull <;> omega
    · intro hc
      have happart := strayHdr_apart L hclass.lt
      have hf := frame_store8 s.mem (strayHdr s o) o
      refine ⟨by rw [hptr, if_pos hc]; rfl, fun i hi k hk => ?_, fun i _ => by rw [hstate],
        fun k hk => ?_⟩
      · have hlo := L.base_le hi
        have hhi := L.base_hdr i hi
        have hle := L.hdr_le
        rw [Mm.bits] at hk
        rw [hstate]
        show bitAt _ (s.bud i).bmp.base k = bitAt _ (s.bud i).bmp.base k
        exact hf.bitAt (by omega)
      · have hheap := L.heapBase
        have hbase := L.base_hdr 0 L.dep_pos
        rw [hstate]
        show load8 _ (s.bm.hdrBase + k) = load8 _ (s.bm.hdrBase + k)
        exact hf.load8 (by omega)
  · have heq := _budAlloc_noClass L hul
    refine iff_of_true ⟨by rw [heq]; rfl, fun i _ k _ => by rw [heq], fun i _ => by rw [heq],
      fun k _ => by rw [heq]⟩ (Or.inl (budRndup_neg L hul))

/-- The smallest heap at 0x2000000 after it was allocated in fifteen blocks of 8192 bytes, one of
4096 and one of 2048. -/
def fullBuddy : Mm := { Mm.boot ⟨fun a => if a < 0x2000058 then 0xFF else if a < 0x2000094 then 2
    else if a < 0x2000096 then 1 else 0⟩ 4 12 with
  bm := ⟨3, 32, 2048, 8192, 0x2000058, 63, 0x20000, 0x2000000, 151, 0x2000097, 130892, 29⟩
  bud := fun i => ⟨130892 / (2048 * 2 ^ i), 0, ⟨if i = 0 then 0x2000048 else 0x200004c + 4 * i, 32,
    (130892 / (2048 * 2 ^ i) + 31) / 32⟩⟩ }

def fullBlocks : List Block := (List.range 15).map (⟨2, ·⟩) ++ [⟨1, 30⟩, ⟨0, 62⟩]

theorem fullBuddy_layout : Layout fullBuddy := by
  constructor <;> try decide
  intro i j hij hj
  have : j = 1 ∨ j = 2 := by
    have : j < 3 := hj
    omega
  rcases this with rfl | rfl
  · obtain rfl : i = 0 := by omega
    decide
  · have : i = 0 ∨ i = 1 := by omega
    rcases this with rfl | rfl <;> decide

theorem fullBuddy_inv : BudInv fullBuddy fullBlocks where
  layout := fullBuddy_layout
  padded := by
    unfold Padded
    decide
  bits := by
    unfold BitsAre
    decide +kernel
  header := by decide
  real := by decide
  apart := by
    unfold Apart
    decide
  frees := by
    unfold FreesOk Mm.clearBits
    decide +kernel

theorem fullBuddy_noneFree : NoneFree fullBuddy 1 := by
  have hnone : ∀ o < 3, bitmapGetFree fullBuddy.mem (fullBuddy.bud o).bmp < 0 := by decide +kernel
  exact fun o ho => hnone o ho.lt

theorem _budAlloc_refused_full : RefusedOk fullBuddy 1 ↔ budRndup fullBuddy 1 < 0 ∨
    (fullBuddy.bm.heapBase : ℤ) < 3 * budRndup fullBuddy 1 ∨
    (fullBuddy.bm.heapBase : ℤ) = 4 * budRndup fullBuddy 1 :=
  _budAlloc_refused_iff fullBuddy_layout le_rfl fullBuddy_noneFree

/-- A request for one byte of the full heap is answered with an address below the heap. -/
theorem _budAlloc_refused_fails :
    BudInv fullBuddy fullBlocks ∧ NoneFree fullBuddy 1 ∧ ¬ RefusedOk fullBuddy 1 := by
  have hclass : IsClass fullBuddy 1 0 := ⟨by decide, by decide, by simp⟩
  refine ⟨fullBuddy_inv, fullBuddy_noneFree, fun h => ?_⟩
  have hnull := h.null
  rw [(_budAlloc_stray fullBuddy_layout hclass.lt le_rfl hclass
    (fullBuddy_noneFree 0 hclass)).1] at hnull
  revert hnull
  decide

end YohdaOS

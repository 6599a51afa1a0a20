import YohdaOS.Buddy.Run

/-!
# The bitmaps right after `_bud_init`

The loop that sets the bits past the last block starts at `num % 32` in the last word.  Over a whole
number of words that is the start of a word of real blocks.
-/

namespace YohdaOS

/-- Order `i` starts with its blocks clear, the bits past them set, and the counter to match; no
block starts marked while both of its halves, or the block it is a half of, are clear. -/
structure OrderStartOk (s : Mm) (i : ℕ) : Prop where
  clear : ∀ k < s.bits i, s.bit i k = false ↔ k < s.bm.heapSize / (2048 * 2 ^ i)
  frees : (s.bud i).frees = s.clearBits i
  childs : ∀ k < s.bm.heapSize / (2048 * 2 ^ i), s.bit i k = true → 0 < i →
    s.bit (i - 1) (2 * k) = true ∨ s.bit (i - 1) (2 * k + 1) = true
  parent : ∀ k < s.bm.heapSize / (2048 * 2 ^ i), s.bit i k = true → i + 1 < s.bm.dep →
    k / 2 < s.bm.heapSize / (2048 * 2 ^ (i + 1)) → s.bit (i + 1) (k / 2) = true

theorem orderStart_of_budInv {s : Mm} (h : BudInv s []) {i : ℕ} (hi : i < s.bm.dep) :
    OrderStartOk s i := by
  have L := h.layout
  have hbits (k : ℕ) (hk : k < s.bits i) :
      s.bit i k = true ↔ s.bm.heapSize / (2048 * 2 ^ i) ≤ k := by
    rw [h.bits i hi k hk, L.num i hi]
    exact or_iff_left (BinaryBlocks.not_used_nil i k)
  have hfree (k : ℕ) (hk : k < s.bm.heapSize / (2048 * 2 ^ i)) : ¬ s.bit i k = true := by
    rw [hbits k (lt_of_lt_of_le (by rwa [L.num i hi]) (L.num_le_bits hi)), not_le]
    exact hk
  refine ⟨fun k hk => ?_, h.frees i hi, fun k hk hset => absurd hset (hfree k hk),
    fun k hk hset => absurd hset (hfree k hk)⟩
  rw [← Bool.not_eq_true, hbits k hk, not_le]

/-- Over a whole number of words the last 32 blocks start marked. -/
theorem not_orderStart_of_dvd {H : Heap} {s s' : Mm} (h : InitPost H s s') {i : ℕ}
    (hi : i < s'.bm.dep) (hdvd : 32 ∣ s'.bm.heapSize / (2048 * 2 ^ i)) : ¬ OrderStartOk s' i := by
  intro hok
  have L := h.layout
  have hge := L.num_ge i hi
  have hle := L.num_le_bits hi
  rw [← L.num i hi] at hdvd
  have hlast : (s'.bud i).num - 1 < s'.bits i := by omega
  have hset := h.bit i hi _ hlast
  rw [padStart_of_dvd hdvd] at hset
  have hclear := (hok.clear _ hlast).2 (by rw [← L.num i hi]; omega)
  rw [hset.2 (by omega)] at hclear
  cases hclear

/-- All orders start as they should exactly when none of them has a whole number of words. -/
theorem _budInit_orderStart_iff (s : Mm) (H : Heap)
    (hok : 0 ≤ (_budInit s H.base H.size 2048).1) :
    (∀ i < (_budInit s H.base H.size 2048).2.bm.dep,
      OrderStartOk (_budInit s H.base H.size 2048).2 i) ↔ PadsEvery H.size := by
  have hpost := _budInit_spec s H hok
  have L := hpost.layout
  rw [hpost.pads_iff]
  constructor
  · intro hstart i hi hdvd
    exact not_orderStart_of_dvd hpost hi hdvd (hstart i hi)
  · intro hpads i hi
    refine orderStart_of_budInv (budInv_init hpost fun j hj => ?_) hi
    rw [L.num j hj]
    exact hpads j hj

theorem _budInit_orderStart_main :
    (∀ i < (_budInit (.boot ⟨fun _ => 0⟩ 4 12) mainHeap.base mainHeap.size 2048).2.bm.dep,
      OrderStartOk (_budInit (.boot ⟨fun _ => 0⟩ 4 12) mainHeap.base mainHeap.size 2048).2 i) ↔
      PadsEvery mainHeap.size :=
  _budInit_orderStart_iff _ mainHeap (mainHeap_ok _)

/-- A region over which order 0 gets 64 blocks. -/
def wholeWordHeap : Heap := ⟨0x2000000, 0x200c8, by decide, by decide⟩

/-- `_bud_init` accepts the region, and its orders do not all start as they should. -/
theorem _budInit_orderStart_fails :
    0 ≤ (_budInit (.boot ⟨fun _ => 0⟩ 4 12) wholeWordHeap.base wholeWordHeap.size 2048).1 ∧
    ¬ ∀ i < (_budInit (.boot ⟨fun _ => 0⟩ 4 12) wholeWordHeap.base wholeWordHeap.size 2048).2.bm.dep,
      OrderStartOk
        (_budInit (.boot ⟨fun _ => 0⟩ 4 12) wholeWordHeap.base wholeWordHeap.size 2048).2 i := by
  have hok : 0 ≤ (_budInit (.boot ⟨fun _ => 0⟩ 4 12) wholeWordHeap.base wholeWordHeap.size
    2048).1 := (_budInit_ok_iff _ wholeWordHeap).2 (by decide)
  refine ⟨hok, fun hstart => ?_⟩
  have hpost := _budInit_spec _ wholeWordHeap hok
  have hpads : ¬ PadsEvery wholeWordHeap.size := by decide +kernel
  rw [hpost.pads_iff] at hpads
  push Not at hpads
  obtain ⟨i, hi, hdvd⟩ := hpads
  exact not_orderStart_of_dvd hpost hi hdvd (hstart i hi)

end YohdaOS

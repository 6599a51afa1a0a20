import YohdaOS.Buddy.Frame
import YohdaOS.Pool.Spec
import YohdaOS.Mmi.Core

/-!
# The two allocators side by side

`MmLayout` holds on every heap that `mm_init` has set up, whatever the bitmaps and the chunk headers
say, and no call ends it.  It already decides how requests are answered that neither allocator
serves: `IS_MEM_ERR` compares addresses with the physical base of the heap, so the lazy pages never
get any memory.
-/

namespace YohdaOS

open ByteMem

structure MmLayout (s : Mm) : Prop where
  buddy : Layout s
  pools : PoolLayout s
  fnum : s.lazy.fnum = 0
  unum : s.lazy.unum = 0
  batch : s.lazy.batch = 31
  /-- the heap lies above everything `IS_MEM_ERR` takes for memory -/
  above : MM_BASE + s.bm.heapSize + 8192 ≤ s.bm.heapBase

/-- `s'` differs from `s` in memory and in the counters and heads of the allocators at most. -/
structure Fixed (s s' : Mm) : Prop extends SameBud s s' where
  lazy : s'.lazy = s.lazy
  pmm : s'.pmm = s.pmm
  secBase : s'.secBase = s.secBase
  secSize : s'.secSize = s.secSize
  base : ∀ i, (s'.pools i).base = (s.pools i).base
  size : ∀ i, (s'.pools i).size = (s.pools i).size
  chunk : ∀ i, (s'.pools i).chunk = (s.pools i).chunk

theorem Same.fixed {s s' : Mm} (h : Same s s') : Fixed s s' where
  toSameBud := h.toSameBud
  lazy := h.lazy
  pmm := h.pmm
  secBase := h.secBase
  secSize := h.secSize
  base _ := by rw [h.pools]
  size _ := by rw [h.pools]
  chunk _ := by rw [h.pools]

theorem PoolSame.sameBud {s s' : Mm} (h : PoolSame s s') : SameBud s s' where
  bm := h.bm
  num _ := by rw [h.bud]
  bmp _ := by rw [h.bud]

theorem PoolSame.fixed {s s' : Mm} (h : PoolSame s s') : Fixed s s' where
  toSameBud := h.sameBud
  lazy := h.lazy
  pmm := h.pmm
  secBase := h.secBase
  secSize := h.secSize
  base := h.base
  size := h.size
  chunk := h.chunk

theorem Fixed.refl (s : Mm) : Fixed s s := (Same.refl s).fixed

theorem Fixed.trans {s₁ s₂ s₃ : Mm} (h₁ : Fixed s₁ s₂) (h₂ : Fixed s₂ s₃) : Fixed s₁ s₃ where
  bm := h₂.bm.trans h₁.bm
  num i := (h₂.num i).trans (h₁.num i)
  bmp i := (h₂.bmp i).trans (h₁.bmp i)
  lazy := h₂.lazy.trans h₁.lazy
  pmm := h₂.pmm.trans h₁.pmm
  secBase := h₂.secBase.trans h₁.secBase
  secSize := h₂.secSize.trans h₁.secSize
  base i := (h₂.base i).trans (h₁.base i)
  size i := (h₂.size i).trans (h₁.size i)
  chunk i := (h₂.chunk i).trans (h₁.chunk i)

theorem Fixed.poolLayout {s s' : Mm} (h : Fixed s s') (L : PoolLayout s) : PoolLayout s' := by
  constructor <;> simp only [h.pmm, h.base, h.size, h.chunk]
  · exact L.num
  · exact L.llc
  · exact L.ulc
  · exact L.chunk
  · exact L.size
  · exact L.base_ge
  · exact L.base_succ
  · exact L.fits

theorem Fixed.layout {s s' : Mm} (h : Fixed s s') (L : MmLayout s) : MmLayout s' where
  buddy := h.toSameBud.layout L.buddy
  pools := h.poolLayout L.pools
  fnum := by rw [h.lazy]; exact L.fnum
  unum := by rw [h.lazy]; exact L.unum
  batch := by rw [h.lazy]; exact L.batch
  above := by rw [h.bm]; exact L.above

/-! ## Calls that are not served -/

/-- Both `bud_alloc` and `yalloc` answer with an error value where they are handed NULL. -/
theorem val_ite_code (r : Ptr × Mm) {e : ℤ} (he : toU32 e ≠ 0) :
    (if r.1.val = 0 then (.code e, r.2) else r).1.val ≠ 0 := by
  split
  · exact he
  · assumption

/-- So the caller of `yalloc` never sees NULL. -/
theorem yalloc_val_ne_zero (s : Mm) (size : ℤ) : (yalloc s size).1.val ≠ 0 := by
  unfold yalloc
  split
  · exact (by decide : toU32 (-1) ≠ 0)
  · exact val_ite_code _ (by decide)

theorem budAlloc_val_ne_zero (ops : ListOps) (s : Mm) (size : ℤ) :
    (budAlloc ops s size).1.val ≠ 0 := by
  unfold budAlloc
  split
  · exact (by decide : toU32 (-EINVAL) ≠ 0)
  · exact val_ite_code _ (by decide)

/-- From the lower limit of the buddy on a request goes to the buddy, as an `int`. -/
theorem yalloc_of_ge (s : Mm) {size : ℤ} (hsize : 2048 ≤ size) :
    yalloc s size = budAlloc P32.listOps s (toInt size) := by
  have hge : size ≥ mmGetPriLlc := hsize
  simp only [yalloc, if_neg (show ¬ size < 1 by omega), if_pos hge]
  exact if_neg (budAlloc_val_ne_zero _ _ _)

theorem yalloc_of_lt (s : Mm) {size : ℤ} (hpos : 1 ≤ size) (hsize : size < 2048) :
    yalloc s size = if (plAlloc s size).1.val = 0 then (.code (-8), (plAlloc s size).2)
      else plAlloc s size := by
  simp only [yalloc, if_neg (show ¬ size < 1 by omega), mmGetPriLlc,
    if_neg (show ¬ size ≥ 2048 by omega),
    toInt_of_range (show -2147483648 ≤ size by omega) (by omega)]

/-- A size that is no positive `int` any more is an invalid argument. -/
theorem yalloc_narrowed (s : Mm) {size : ℤ} (hsize : 2048 ≤ size) (hneg : toInt size < 1) :
    yalloc s size = (.code (-22), s) := by
  rw [yalloc_of_ge s hsize, budAlloc, if_pos hneg]
  rfl

section Refused

variable {s : Mm} (h : MmLayout s)

include h

/-- Between the two ranges of sizes nothing is served. -/
theorem yalloc_gap {size : ℤ} (hlo : 1024 < size) (hhi : size < 2048) :
    yalloc s size = (.code (-1), s) := by
  rw [yalloc_of_lt s (by omega) hhi, plAlloc_large h.pools hlo]
  exact if_neg (show toU32 (-1) ≠ 0 by decide)

theorem yalloc_large {size : ℤ} (hsize : 2048 ≤ size) (hul : s.bm.ul < toInt size) :
    yalloc s size = (.code (-4), s) := by
  have hge := h.buddy.chunk_le_ul h.buddy.dep_pos
  have hneg := budRndup_neg h.buddy hul
  have hnull : _budAlloc s (toInt size) = (.code 0, s) := by
    simp only [_budAlloc, if_pos hneg, ite_self]
  rw [yalloc_of_ge s hsize, budAlloc, if_neg (by omega),
    if_pos (show toInt size > MM_PAGE_SIZE by simp only [MM_PAGE_SIZE]; omega), hnull]
  rfl

/-- Every address the buddy hands out is an error to `IS_MEM_ERR`. -/
theorem isMemErr_of_high {x : ℕ} (hx : s.bm.heapBase - 8192 ≤ x ∨ x < 65536) :
    isMemErr s x = true := by
  have habove := h.above
  unfold MM_BASE at habove
  unfold isMemErr MM_BASE
  exact decide_eq_true (by omega)

theorem budLazyAlloc_fails (ops : ListOps) :
    budLazyAlloc ops s = (.code 0, (_budAlloc s 372).2) := by
  have hhigh : 8192 ≤ s.bm.heapBase := by
    have := h.above
    omega
  have hpage := _budAlloc_page h.buddy (show (1 : ℤ) ≤ 372 by decide) (by decide) hhigh
  have hsame := _budAlloc_same s 372
  rw [← hsame.bm] at hpage
  have herr := isMemErr_of_high (hsame.fixed.layout h) hpage
  have hdesc : toInt (sizeofLazyPage * s.lazy.batch) = 372 := by
    rw [h.batch]
    rfl
  simp only [budLazyAlloc, if_pos h.fnum, hdesc, if_pos herr]

/-- A request for at most a page takes a block for the descriptors of pages and fails. -/
theorem yalloc_page {size : ℤ} (hsize : 2048 ≤ size) (hpos : 1 ≤ toInt size)
    (hle : toInt size ≤ 2048) : yalloc s size = (.code (-4), (_budAlloc s 372).2) := by
  rw [yalloc_of_ge s hsize, budAlloc, if_neg (by omega),
    if_neg (show ¬ toInt size > MM_PAGE_SIZE by simp only [MM_PAGE_SIZE]; omega),
    budLazyAlloc_fails h]
  generalize (_budAlloc s 372).2 = s'
  rfl

/-- There is no page in use that could be given back. -/
theorem budLazyFree_fails (ops : ListOps) (addr : ℕ) :
    ∃ e, budLazyFree ops s addr = some (e, s) := by
  simp only [budLazyFree, if_pos h.unum]
  split <;> exact ⟨_, rfl⟩

end Refused

/-! ## Every call -/

theorem budAlloc_fixed {s : Mm} (h : MmLayout s) (ops : ListOps) (size : ℤ) :
    Fixed s (budAlloc ops s size).2 := by
  obtain ⟨r, hr⟩ : ∃ r, (if size > MM_PAGE_SIZE then _budAlloc s size else budLazyAlloc ops s) = r :=
    ⟨_, rfl⟩
  have hcall : Fixed s r.2 := by
    rw [← hr]
    split
    · exact (_budAlloc_same s size).fixed
    · have hfixed := (_budAlloc_same s 372).fixed
      rw [budLazyAlloc_fails h]
      generalize (_budAlloc s 372).2 = s' at hfixed
      exact hfixed
  simp only [budAlloc, hr]
  split
  · exact Fixed.refl s
  · split
    · exact hcall
    · exact hcall

theorem yalloc_fixed {s : Mm} (h : MmLayout s) (size : ℤ) : Fixed s (yalloc s size).2 := by
  by_cases hpos : size < 1
  · rw [yalloc, if_pos hpos]
    exact Fixed.refl s
  · by_cases hsize : 2048 ≤ size
    · rw [yalloc_of_ge s hsize]
      exact budAlloc_fixed h _ _
    · rw [yalloc_of_lt s (by omega) (by omega)]
      split <;> exact (same_plAlloc s size).fixed

/-- `yfree` returns. -/
theorem yfree_fixed {s : Mm} (h : MmLayout s) (addr : ℕ) :
    ∃ s', yfree s addr = some s' ∧ Fixed s s' := by
  have hbuddy : ∃ s', budFree P32.listOps s addr = some s' ∧ Fixed s s' := by
    obtain ⟨e, he⟩ := budLazyFree_fails h P32.listOps addr
    simp only [budFree, he, Option.map_some]
    split
    · exact ⟨s, rfl, Fixed.refl s⟩
    · split
      · exact ⟨s, rfl, Fixed.refl s⟩
      · split
        · exact ⟨s, rfl, Fixed.refl s⟩
        · exact ⟨_, rfl, (_budFree_same s addr).fixed⟩
  simp only [yfree]
  split
  · exact ⟨s, rfl, Fixed.refl s⟩
  · split
    · exact hbuddy
    · exact ⟨_, rfl, (same_plFree s addr).fixed⟩
    · exact ⟨s, rfl, Fixed.refl s⟩

end YohdaOS

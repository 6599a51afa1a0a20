import YohdaOS.Buddy.InitSpec

/-!
# The regions of the heap

`_bud_init` lays out descriptors, bitmaps, headers and blocks one behind another, up to the end of
the region at most, which may be the end of the address space.
-/

namespace YohdaOS

/-- How `size` bytes at `base` are laid out. -/
structure HeapRegions (base size : ℕ) (s : Mm) : Prop where
  dep : 1 ≤ s.bm.dep ∧ s.bm.dep ≤ 11
  rmd : 0 ≤ s.bm.rmdSize
  descriptors : base + sizeofBitmaps * s.bm.dep = (s.bud 0).bmp.base
  bitmaps : ∀ i, i + 1 < s.bm.dep →
    (s.bud i).bmp.base + 4 * (s.bud i).bmp.size = (s.bud (i + 1)).bmp.base
  headers : (s.bud (s.bm.dep - 1)).bmp.base + 4 * (s.bud (s.bm.dep - 1)).bmp.size = s.bm.hdrBase
  data : s.bm.hdrBase + s.bm.hdrSize = s.bm.heapBase
  inside : s.bm.heapBase + s.bm.heapSize ≤ base + size
  num_ge : ∀ i < s.bm.dep, 8 ≤ (s.bud i).num
  num_succ : ∀ i, i + 1 < s.bm.dep → (s.bud (i + 1)).num = (s.bud i).num / 2
  room : ∀ i < s.bm.dep, (s.bud i).num ≤ 8 * (4 * (s.bud i).bmp.size)
  header : ∀ k < (s.bud 0).num, s.bm.hdrBase + k < s.bm.heapBase
  block : ∀ i < s.bm.dep, ∀ k < (s.bud i).num,
    s.bm.heapBase + 2048 * 2 ^ i * (k + 1) ≤ s.bm.heapBase + s.bm.heapSize

/-- The blocks of an order lie in the data. -/
theorem block_le {r i k : ℕ} (hk : k < r / (2048 * 2 ^ i)) : 2048 * 2 ^ i * (k + 1) ≤ r :=
  le_trans (Nat.mul_le_mul_left _ hk) (Nat.mul_div_le r _)

theorem regions_initialized {s : Mm} {base size r d : ℕ} {bud : ℕ → Bitmaps} {m m' : ByteMem.Mem}
    (hd : IsDep r d) (hr : 65536 ≤ r) (hmeta : r + (24 * d + bitmapBytes r d + r / 2048) ≤ size)
    (ho : OrdersAt base r d bud m m') :
    HeapRegions base size (s.initialized base size r d bud m') := by
  have hpos := hd.pos (by omega)
  have hlast : bitmapBytes r (d - 1) + orderBytes r (d - 1) = bitmapBytes r d := by
    exact (congrArg (bitmapBytes r) (Nat.sub_add_cancel hpos) : bitmapBytes r (d - 1 + 1) = _)
  constructor <;> simp only [Mm.initialized, sizeofBitmaps]
  case dep => exact ⟨hpos, hd.le⟩
  case rmd => omega
  case descriptors =>
    rw [ho.desc 0 hpos]
    rfl
  case bitmaps =>
    intro i hi
    rw [ho.desc i (by omega), ho.desc (i + 1) hi]
    exact Nat.add_assoc _ _ _
  case headers =>
    rw [ho.desc (d - 1) (by omega), ← hlast]
    exact Nat.add_assoc _ _ _
  case data => omega
  case inside => omega
  case num_ge =>
    intro i hi
    rw [ho.desc i hi]
    exact hd.ge i hi
  case num_succ =>
    intro i hi
    rw [ho.desc i (by omega), ho.desc (i + 1) hi]
    simp only [orderDesc]
    exact div_double_chunk _ _ _
  case room =>
    intro i hi
    rw [ho.desc i hi]
    simp only [orderDesc]
    omega
  case header =>
    intro k hk
    rw [ho.desc 0 hpos] at hk
    simp only [orderDesc, pow_zero, Nat.mul_one] at hk
    omega
  case block =>
    intro i hi k hk
    rw [ho.desc i hi] at hk
    exact Nat.add_le_add_left (block_le hk) _

/-- Every region that `_bud_init` takes, up to the one that ends with the address space, is laid out
without overlap, each block with its bit and its header. -/
theorem _budInit_regions (s : Mm) (base size : ℕ) (hbase : base ≠ 0)
    (hmin : MM_HEAP_MIN_SIZE ≤ size) (hmax : size ≤ 2147483647) (hfits : base + size ≤ 4294967296) :
    0 ≤ (_budInit s base size 2048).1 ∧ HeapRegions base size (_budInit s base size 2048).2 := by
  have hmin' : 131072 ≤ size := by
    simp only [MM_HEAP_MIN_SIZE] at hmin
    omega
  obtain ⟨r, d, bud', m', hd, hr, hmeta, -, -, ho, heq⟩ :=
    _budInit_eq s hbase hmin' (by omega) hfits
  rw [heq]
  exact ⟨by simp only; omega, regions_initialized hd hr hmeta ho⟩

/-- The least region at the end of the address space. -/
theorem _budInit_regions_top :
    0 ≤ (_budInit (.boot ⟨fun _ => 0⟩ 4 12) 0xFFFE0000 (0x20000 : ℕ) 2048).1 ∧
      HeapRegions 0xFFFE0000 0x20000
        (_budInit (.boot ⟨fun _ => 0⟩ 4 12) 0xFFFE0000 (0x20000 : ℕ) 2048).2 :=
  _budInit_regions _ 0xFFFE0000 0x20000 (by decide) (by decide) (by decide) (by decide)

end YohdaOS

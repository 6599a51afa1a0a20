import YohdaOS.Buddy.Init
import YohdaOS.Lib.Counting

/-!
# What the bitmaps, counters and headers say

`Layout s` collects what `_bud_init` fixes for good: the descriptors and where the bitmaps, the
headers and the blocks lie.  Marking blocks changes only bits and counters, which `Marked` records
once for every function built from `bud_set_bit`.
-/

namespace YohdaOS

open ByteMem

/-- Bit `k` of order `i`. -/
def Mm.bit (s : Mm) (i k : ℕ) : Bool := bitAt s.mem (s.bud i).bmp.base k

/-- The number of bits of order `i`, the padding included. -/
def Mm.bits (s : Mm) (i : ℕ) : ℕ := 32 * (s.bud i).bmp.size

/-- The number of clear bits of order `i`. -/
def Mm.clearBits (s : Mm) (i : ℕ) : ℕ := Nat.count (fun k => s.bit i k = false) (s.bits i)

/-- The byte of the header table that belongs to block `k` of order 0. -/
def Mm.header (s : Mm) (k : ℕ) : ℕ := load8 s.mem (s.bm.hdrBase + k)

/-- What `_bud_init` fixes: the sizes, the descriptors and the places of the metadata. -/
structure Layout (s : Mm) : Prop where
  ll : s.bm.ll = 2048
  dep_pos : 0 < s.bm.dep
  dep_le : s.bm.dep ≤ 11
  ul : s.bm.ul = 2048 * 2 ^ (s.bm.dep - 1)
  heap_lt : s.bm.heapSize < 2147483648
  num : ∀ i < s.bm.dep, (s.bud i).num = s.bm.heapSize / (2048 * 2 ^ i)
  num_ge : ∀ i < s.bm.dep, 8 ≤ (s.bud i).num
  bit : ∀ i < s.bm.dep, (s.bud i).bmp.bit = 32
  size : ∀ i < s.bm.dep, (s.bud i).bmp.size = ((s.bud i).num + 31) / 32
  base_pos : ∀ i < s.bm.dep, 0 < (s.bud i).bmp.base
  base_lt : ∀ i j, i < j → j < s.bm.dep →
    (s.bud i).bmp.base + 4 * (s.bud i).bmp.size ≤ (s.bud j).bmp.base
  base_hdr : ∀ i < s.bm.dep, (s.bud i).bmp.base + 4 * (s.bud i).bmp.size ≤ s.bm.hdrBase
  hdr_near : s.bm.hdrBase ≤ (s.bud 0).bmp.base + 1048576
  heapBase : s.bm.heapBase = s.bm.hdrBase + s.bm.heapSize / 2048
  fits : s.bm.heapBase + s.bm.heapSize < 4294967296

/-- The buddy of `s'` differs from that of `s` in memory and in the `frees` counters at most. -/
structure SameBud (s s' : Mm) : Prop where
  bm : s'.bm = s.bm
  num : ∀ i, (s'.bud i).num = (s.bud i).num
  bmp : ∀ i, (s'.bud i).bmp = (s.bud i).bmp

/-- `s'` differs from `s` in memory and in the `frees` counters at most. -/
structure Same (s s' : Mm) : Prop extends SameBud s s' where
  lazy : s'.lazy = s.lazy
  links : s'.links = s.links
  pageAddr : s'.pageAddr = s.pageAddr
  pmm : s'.pmm = s.pmm
  pools : s'.pools = s.pools
  secBase : s'.secBase = s.secBase
  secSize : s'.secSize = s.secSize

/-- Every counter equals the number of clear bits of its order. -/
def FreesOk (s : Mm) : Prop := ∀ i < s.bm.dep, (s.bud i).frees = s.clearBits i

/-- `s'` arises from `s` by setting and clearing bits of the bitmaps. -/
structure Marked (s s' : Mm) : Prop where
  same : Same s s'
  frame : Frame (s.bud 0).bmp.base s.bm.hdrBase s.mem s'.mem
  frees : FreesOk s → FreesOk s'

/-- Changing the memory alone. -/
theorem same_withMem (s : Mm) (m : Mem) : Same s { s with mem := m } :=
  ⟨⟨rfl, fun _ => rfl, fun _ => rfl⟩, rfl, rfl, rfl, rfl, rfl, rfl, rfl⟩

theorem Same.refl (s : Mm) : Same s s := same_withMem s s.mem

theorem Same.trans {s₁ s₂ s₃ : Mm} (h₁ : Same s₁ s₂) (h₂ : Same s₂ s₃) : Same s₁ s₃ where
  bm := h₂.bm.trans h₁.bm
  lazy := h₂.lazy.trans h₁.lazy
  links := h₂.links.trans h₁.links
  pageAddr := h₂.pageAddr.trans h₁.pageAddr
  pmm := h₂.pmm.trans h₁.pmm
  pools := h₂.pools.trans h₁.pools
  secBase := h₂.secBase.trans h₁.secBase
  secSize := h₂.secSize.trans h₁.secSize
  num i := (h₂.num i).trans (h₁.num i)
  bmp i := (h₂.bmp i).trans (h₁.bmp i)

theorem SameBud.bits {s s' : Mm} (h : SameBud s s') (i : ℕ) : s'.bits i = s.bits i := by
  rw [Mm.bits, Mm.bits, h.bmp]

theorem SameBud.layout {s s' : Mm} (h : SameBud s s') (L : Layout s) : Layout s' := by
  constructor <;> simp only [h.bm, h.num, h.bmp]
  · exact L.ll
  · exact L.dep_pos
  · exact L.dep_le
  · exact L.ul
  · exact L.heap_lt
  · exact L.num
  · exact L.num_ge
  · exact L.bit
  · exact L.size
  · exact L.base_pos
  · exact L.base_lt
  · exact L.base_hdr
  · exact L.hdr_near
  · exact L.heapBase
  · exact L.fits

theorem Marked.refl (s : Mm) : Marked s s := ⟨Same.refl s, Frame.refl _ _ _, id⟩

theorem Marked.trans {s₁ s₂ s₃ : Mm} (h₁ : Marked s₁ s₂) (h₂ : Marked s₂ s₃) : Marked s₁ s₃ where
  same := h₁.same.trans h₂.same
  frame := by
    have h := h₂.frame
    rw [h₁.same.bmp, h₁.same.bm] at h
    exact h₁.frame.trans h
  frees := h₂.frees ∘ h₁.frees

/-- Headers lie past the bitmaps, so marking does not touch them. -/
theorem Marked.header {s s' : Mm} (h : Marked s s') (k : ℕ) : s'.header k = s.header k := by
  unfold Mm.header
  rw [h.same.bm]
  exact h.frame.load8 (Or.inr (Nat.le_add_right _ _))

/-! ## Writes past the bitmaps -/

/-- The state with the header byte of cell `k` set. -/
def Mm.setHeader (s : Mm) (k v : ℕ) : Mm :=
  { s with mem := store8 s.mem (s.bm.hdrBase + k) v }

theorem same_setHeader (s : Mm) (k v : ℕ) : Same s (s.setHeader k v) := same_withMem s _

theorem header_setHeader (s : Mm) (k v l : ℕ) :
    (s.setHeader k v).header l = if l = k then v % 256 else s.header l := by
  simp only [Mm.header, Mm.setHeader]
  split_ifs with h
  · rw [h, load8_store8]
  · exact load8_store8_of_ne _ _ (by omega)

/-- A write past the bitmaps changes no bit. -/
theorem bit_of_frame {s s' : Mm} (L : Layout s) (hs : SameBud s s') {hi : ℕ}
    (hf : Frame s.bm.hdrBase hi s.mem s'.mem) {i k : ℕ} (hi : i < s.bm.dep) (hk : k < s.bits i) :
    s'.bit i k = s.bit i k := by
  have hbase := L.base_hdr i hi
  rw [Mm.bits] at hk
  rw [Mm.bit, Mm.bit, hs.bmp]
  exact hf.bitAt (by omega)

theorem freesOk_of_frame {s s' : Mm} (L : Layout s) (hs : SameBud s s')
    (hfrees : ∀ i, (s'.bud i).frees = (s.bud i).frees) {hi : ℕ}
    (hf : Frame s.bm.hdrBase hi s.mem s'.mem) (h : FreesOk s) : FreesOk s' := by
  intro i hi
  rw [hs.bm] at hi
  rw [hfrees, h i hi, Mm.clearBits, Mm.clearBits, hs.bits]
  exact Counting.count_congr fun k hk => by rw [bit_of_frame L hs hf hi hk]

/-! ## Arithmetic of the layout -/

namespace Layout

variable {s : Mm} (L : Layout s)

include L

theorem num_succ {i : ℕ} (hi : i + 1 < s.bm.dep) : (s.bud (i + 1)).num = (s.bud i).num / 2 := by
  rw [L.num _ hi, L.num i (by omega), div_double_chunk]

theorem num_add {i d : ℕ} (hi : i + d < s.bm.dep) :
    (s.bud (i + d)).num = (s.bud i).num / 2 ^ d := by
  rw [L.num _ hi, L.num i (by omega), Nat.div_div_eq_div_mul, pow_add, Nat.mul_assoc]

theorem num_le_bits {i : ℕ} (hi : i < s.bm.dep) : (s.bud i).num ≤ s.bits i := by
  rw [Mm.bits, L.size i hi]
  omega

theorem num_lt_bits {i : ℕ} (hi : i < s.bm.dep) (hodd : ¬ 32 ∣ (s.bud i).num) :
    (s.bud i).num < s.bits i := by
  rw [Mm.bits, L.size i hi]
  omega

theorem bits_lt {i : ℕ} (hi : i < s.bm.dep) : s.bits i < 2147483648 := by
  have hpos : 0 < 2 ^ i := by positivity
  have hle : s.bm.heapSize / (2048 * 2 ^ i) ≤ s.bm.heapSize / 2048 :=
    Nat.div_le_div_left (by omega) (by decide)
  have hlt := L.heap_lt
  rw [Mm.bits, L.size i hi, L.num i hi]
  omega

theorem base_le {i : ℕ} (hi : i < s.bm.dep) : (s.bud 0).bmp.base ≤ (s.bud i).bmp.base := by
  rcases Nat.eq_zero_or_pos i with rfl | hpos
  · exact le_rfl
  · exact le_trans (Nat.le_add_right _ _) (L.base_lt 0 i hpos hi)

/-- The end of a block of the heap. -/
theorem block_end {i k : ℕ} (hi : i < s.bm.dep) (hk : k < (s.bud i).num) :
    2048 * 2 ^ i * k + 2048 * 2 ^ i ≤ s.bm.heapSize := by
  rw [L.num i hi] at hk
  have h := Nat.div_mul_le_self s.bm.heapSize (2048 * 2 ^ i)
  nlinarith [Nat.mul_le_mul_left (2048 * 2 ^ i) (Nat.succ_le_of_lt hk)]

theorem bitmapGet_eq {i : ℕ} (hi : i < s.bm.dep) (k : ℕ) :
    bitmapGet s.mem (s.bud i).bmp k = (s.bit i k).toInt :=
  YohdaOS.bitmapGet_eq (by have := L.base_pos i hi; omega) (L.bit i hi) k

/-- `bitmap_get_free` finds the first clear bit of an order. -/
theorem bitmapGetFree_cases {i : ℕ} (hi : i < s.bm.dep) :
    (∃ t < s.bits i, bitmapGetFree s.mem (s.bud i).bmp = (t : ℤ) ∧ s.bit i t = false ∧
      ∀ l < t, s.bit i l = true) ∨
    (bitmapGetFree s.mem (s.bud i).bmp = -4 ∧ ∀ l < s.bits i, s.bit i l = true) := by
  have hbase := L.base_pos i hi
  have hnum : (s.bud i).num ≤ s.bm.heapSize := by
    rw [L.num i hi]
    exact Nat.div_le_self _ _
  have hsize := L.size i hi
  have hheap := L.heap_lt
  exact YohdaOS.bitmapGetFree_cases (by omega) (L.bit i hi) (by omega)

end Layout

end YohdaOS

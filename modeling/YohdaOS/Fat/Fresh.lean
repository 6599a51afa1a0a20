import YohdaOS.Fat.Region
import YohdaOS.Mmi.Core

/-!
# New bitmaps

`bitmap_alloc` clears `sizeof(bit*size)` bytes, which is the size of a `u32`: the first word of the
bitmap.  What the memory held before stays in the words behind it.
-/

namespace YohdaOS

open ByteMem

/-- `bitmap_alloc`: the result, the descriptor and the state after the call. -/
def bitmapAlloc (s : Mm) (bmp : Bitmap) (bit size : ℕ) : ℤ × Bitmap × Mm :=
  if bit < 1 ∨ size < 1 then (-1, bmp, s)
  else
    let r := yalloc s (u32 (bit / 8 * size))
    let base := r.1.val
    if base = 0 then (-1, { bmp with base }, r.2)
    else (0, ⟨base, bit, size⟩, { r.2 with mem := fill r.2.mem base 0 4 })

/-- `yalloc` hands out memory in which the bits from 32 to `n` are clear. -/
def RestClear (s : Mm) (size n : ℕ) : Prop :=
  let r := yalloc s (u32 (32 / 8 * size))
  ∀ k, 32 ≤ k → k < n → bitAt r.2.mem r.1.val k = false

variable {s : Mm} {bmp : Bitmap} {size n : ℕ}

/-- A call that succeeds clears the first word, and no other. -/
theorem bitmapAlloc_eq (hret : (bitmapAlloc s bmp 32 size).1 = 0) :
    let r := yalloc s (u32 (32 / 8 * size))
    r.1.val ≠ 0 ∧ 1 ≤ size ∧ bitmapAlloc s bmp 32 size =
      (0, ⟨r.1.val, 32, size⟩, { r.2 with mem := fill r.2.mem r.1.val 0 4 }) := by
  intro r
  have hsize : ¬((32 : ℕ) < 1 ∨ size < 1) := by
    intro hsize
    rw [bitmapAlloc, if_pos hsize] at hret
    exact absurd hret (show (-1 : ℤ) ≠ 0 by decide)
  have hbase : r.1.val ≠ 0 := by
    intro hbase
    simp only [bitmapAlloc, if_neg hsize] at hret
    rw [if_pos hbase] at hret
    exact absurd hret (show (-1 : ℤ) ≠ 0 by decide)
  refine ⟨hbase, by omega, ?_⟩
  simp only [bitmapAlloc, if_neg hsize]
  exact if_neg hbase

theorem bitAt_fill (m : Mem) (base k : ℕ) :
    bitAt (fill m base 0 4) base k = if k < 32 then false else bitAt m base k := by
  by_cases hk : k < 32
  · have hword : base + 4 * (k / 32) = base := by omega
    have hzero : load32 (fill m base 0 4) base = 0 :=
      load32_eq_zero fun x hlo hhi => byte_fill_zero m hlo hhi
    rw [if_pos hk, bitAt, hword, hzero, Nat.zero_testBit]
  · rw [if_neg hk]
    exact (frame_fill m base 0 4).bitAt (.inr (by omega))

/-- The bits of a new bitmap are clear when those behind the first word were. -/
theorem bitmapAlloc_clear_iff (hret : (bitmapAlloc s bmp 32 size).1 = 0) :
    (∀ k < n, bitAt (bitmapAlloc s bmp 32 size).2.2.mem (bitmapAlloc s bmp 32 size).2.1.base k =
      false) ↔ RestClear s size n := by
  obtain ⟨-, -, heq⟩ := bitmapAlloc_eq hret
  rw [heq]
  simp only [bitAt_fill]
  constructor
  · intro h k hk hlt
    have hclear := h k hlt
    rw [if_neg (Nat.not_lt.2 hk)] at hclear
    exact hclear
  · intro h k hlt
    split_ifs with hk
    · rfl
    · exact h k (Nat.not_lt.1 hk) hlt

/-- `bitmap_get` reads every bit of a new bitmap as clear when all offsets are `int`s and the bits
behind the first word were clear. -/
theorem bitmapGet_bitmapAlloc_iff (hret : (bitmapAlloc s bmp 32 size).1 = 0) :
    let r := bitmapAlloc s bmp 32 size
    (∀ o < 32 * size, bitmapGet r.2.2.mem r.2.1 (toInt o) = 0) ↔
      size ≤ 67108864 ∧ RestClear s size (32 * size) := by
  intro r
  have hclear : (∀ k < 32 * size, bitAt r.2.2.mem r.2.1.base k = false) ↔
      RestClear s size (32 * size) := bitmapAlloc_clear_iff hret
  obtain ⟨hbase, -, heq⟩ := bitmapAlloc_eq hret
  have hr : r.2.1 = ⟨_, 32, size⟩ := congrArg (fun x => x.2.1) heq
  have hget (o : ℕ) (ho : o < 2147483648) :
      bitmapGet r.2.2.mem r.2.1 (toInt o) = 0 ↔ bitAt r.2.2.mem r.2.1.base o = false := by
    rw [toInt_natCast ho, bitmapGet_eq (by rw [hr]; exact hbase) (by rw [hr])]
    cases bitAt r.2.2.mem r.2.1.base o <;> decide
  rw [← hclear]
  constructor
  · intro h
    have hsize : size ≤ 67108864 := by
      by_contra hgt
      have hlast := h 2147483648 (by omega)
      rw [bitmapGet, if_neg (by rw [hr]; exact hbase), if_pos (by decide)] at hlast
      exact absurd hlast (by decide)
    exact ⟨hsize, fun o ho => (hget o (by omega)).1 (h o ho)⟩
  · rintro ⟨hsize, h⟩ o ho
    exact (hget o (by omega)).2 (h o ho)

namespace Fat

/-- What `fat_init` does for the FAT, and then for the clusters, with their number `nums`; it ignores
the result of `bitmap_alloc`. -/
def fatInitRegion (s : Mm) (rgn : FatRegion) (nums : ℕ) : ClusState × Mm :=
  let r := bitmapAlloc s rgn.bit 32 (u32 (nums + 31) / 32)
  (⟨r.2.2.mem, ⟨nums, nums, r.2.1⟩⟩, r.2.2)

/-- The free clusters of a new region are counted when the bits behind the first word were clear. -/
theorem fatInitRegion_accounted_iff {rgn : FatRegion} {nums : ℕ}
    (hret : (bitmapAlloc s rgn.bit 32 (u32 (nums + 31) / 32)).1 = 0) :
    (fatInitRegion s rgn nums).1.Accounted ↔ RestClear s (u32 (nums + 31) / 32) nums := by
  rw [← bitmapAlloc_clear_iff hret, ClusState.Accounted]
  exact eq_comm.trans Nat.count_iff_forall

/-- A pool that was not used yet. -/
def freshPool : Mm := (plInit (.boot ⟨fun _ => 0⟩ 4 12) 0x1000 2728).2

/-- The pool after a chunk of 8 bytes was used and given back. -/
def usedPool : Mm :=
  let r := yalloc freshPool 8
  (yfree { r.2 with mem := store32 r.2.mem (r.1.val + 4) 1 } r.1.val).getD freshPool

end Fat

end YohdaOS

import YohdaOS.Buddy.Layout

/-!
# What `_bud_init` sets up

The sizes first: `bud_get_real_size` reserves metadata for the blocks the whole region would have,
which is at least what the blocks of the data that remains need.  Then the loop over the orders:
each order gets its bitmap right after the one before.
-/

namespace YohdaOS

open ByteMem

/-- The bytes of the bitmap of order `i` over `n` bytes of data. -/
def orderBytes (n i : ℕ) : ℕ := 4 * ((n / (2048 * 2 ^ i) + 31) / 32)

/-- The bytes of the bitmaps of the orders below `i`. -/
def bitmapBytes (n : ℕ) : ℕ → ℕ
  | 0 => 0
  | i + 1 => bitmapBytes n i + orderBytes n i

theorem orderBytes_mono {n m : ℕ} (h : n ≤ m) (i : ℕ) : orderBytes n i ≤ orderBytes m i := by
  have := Nat.div_le_div_right (c := 2048 * 2 ^ i) h
  unfold orderBytes
  omega

theorem bitmapBytes_mono {n m i j : ℕ} (h : n ≤ m) (hij : i ≤ j) :
    bitmapBytes n i ≤ bitmapBytes m j := by
  induction hij with
  | refl =>
    induction i with
    | zero => exact le_rfl
    | succ i ih => exact Nat.add_le_add ih (orderBytes_mono h i)
  | step _ ih => exact le_trans ih (Nat.le_add_right _ _)

/-- Each bitmap has half the bits of the one before, so together they take little room. -/
theorem bitmapBytes_le (n i : ℕ) : bitmapBytes n i ≤ n / 2048 / 4 + 4 * i := by
  have hsum : 8 * bitmapBytes n i + 2 * (n / (2048 * 2 ^ i)) ≤ 2 * (n / 2048) + 32 * i := by
    induction i with
    | zero => simp [bitmapBytes]
    | succ i ih =>
      rw [div_double_chunk, bitmapBytes, orderBytes]
      omega
  omega

/-! ## Sizes -/

/-- `bud_get_dep` stops at the first order with fewer than eight blocks, or at the last one. -/
theorem budGetDepLoop_spec (n fuel i : ℕ) (hi : i + fuel = 11)
    (hpre : ∀ k < i, 8 ≤ n / (2048 * 2 ^ k)) :
    ∃ d : ℕ, d ≤ 11 ∧ budGetDepLoop n fuel (2048 * 2 ^ i : ℕ) = d ∧
      (∀ k < d, 8 ≤ n / (2048 * 2 ^ k)) ∧
      (d < 11 → n / (2048 * 2 ^ d) < 8) := by
  induction fuel generalizing i with
  | zero =>
    obtain rfl : i = 11 := hi
    exact ⟨11, le_rfl, rfl, hpre, fun h => absurd h (by decide)⟩
  | succ fuel ih =>
    have hidx : (BUD_MAX_ORD : ℤ) - ((fuel : ℕ) + 1 : ℤ) = i := by
      simp only [BUD_MAX_ORD]
      omega
    have hnext : toInt (((2048 * 2 ^ i : ℕ) : ℤ) * 2) = (2048 * 2 ^ (i + 1) : ℕ) :=
      toInt_double_chunk (show 2048 * 2 ^ 11 < 2147483648 by decide) (by omega)
    have hdiv : (n : ℤ) / (2048 * 2 ^ i : ℕ) = (n / (2048 * 2 ^ i) : ℕ) := by push_cast; rfl
    simp only [budGetDepLoop]
    rw [hidx, hnext, hdiv]
    by_cases hll : ((2048 * 2 ^ i : ℕ) : ℤ) ≤ n
    · rw [if_pos hll]
      by_cases hsmall : ((n / (2048 * 2 ^ i) : ℕ) : ℤ) < BUD_MIN_CHUNK
      · rw [if_pos hsmall]
        simp only [BUD_MIN_CHUNK] at hsmall
        exact ⟨i, by omega, rfl, hpre, fun _ => by omega⟩
      · rw [if_neg hsmall]
        simp only [BUD_MIN_CHUNK] at hsmall
        refine ih (i + 1) (by omega) fun k hk => ?_
        rcases Nat.lt_succ_iff_lt_or_eq.1 hk with h | rfl
        · exact hpre k h
        · omega
    · rw [if_neg hll]
      refine ⟨i, by omega, rfl, hpre, fun _ => ?_⟩
      rw [Nat.div_eq_of_lt (by omega)]
      decide

/-- The number of orders of a region. -/
structure IsDep (n d : ℕ) : Prop where
  le : d ≤ 11
  ge : ∀ k < d, 8 ≤ n / (2048 * 2 ^ k)
  lt : d < 11 → n / (2048 * 2 ^ d) < 8

theorem budGetDep_spec {n : ℕ} (hmin : 2048 < n) :
    ∃ d, IsDep n d ∧ budGetDep n 2048 = d := by
  obtain ⟨d, hle, heq, hge, hlt⟩ := budGetDepLoop_spec n 11 0 rfl (by simp)
  refine ⟨d, ⟨hle, hge, hlt⟩, ?_⟩
  rw [budGetDep, if_neg (by omega), if_neg (by omega)]
  exact heq

theorem IsDep.mono {n m d e : ℕ} (hd : IsDep n d) (he : IsDep m e) (h : n ≤ m) : d ≤ e := by
  by_contra hlt
  have h₁ := hd.ge e (by omega)
  have h₂ := he.lt (by have := hd.le; omega)
  have := Nat.div_le_div_right (c := 2048 * 2 ^ e) h
  omega

theorem IsDep.pos {n d : ℕ} (hd : IsDep n d) (h : 16384 ≤ n) : 0 < d := by
  by_contra h0
  obtain rfl : d = 0 := by omega
  have := hd.lt (by decide)
  omega

/-- The loop of `bud_get_real_size` takes off the bytes of the bitmaps. -/
theorem budGetRealSizeLoop_spec (n fuel i size : ℕ) (hn : n < 2147483648) (hi : i + fuel ≤ 11)
    (hsize : size ≤ n) (hfit : bitmapBytes n (i + fuel) ≤ bitmapBytes n i + size) :
    budGetRealSizeLoop 32 n fuel (2048 * 2 ^ i : ℕ) size =
      ((size - (bitmapBytes n (i + fuel) - bitmapBytes n i) : ℕ) : ℤ) := by
  induction fuel generalizing i size with
  | zero => simp [budGetRealSizeLoop]
  | succ fuel ih =>
    have hnext : toInt (((2048 * 2 ^ i : ℕ) : ℤ) * 2) = (2048 * 2 ^ (i + 1) : ℕ) :=
      toInt_double_chunk (show 2048 * 2 ^ 11 < 2147483648 by decide) (by omega)
    have hbytes : bitmapBytes n (i + 1) = bitmapBytes n i + orderBytes n i := rfl
    have hmono := bitmapBytes_mono (le_refl n) (show i + 1 ≤ i + (fuel + 1) by omega)
    have hnum : ((n : ℤ) / (2048 * 2 ^ i : ℕ) + ((32 : ℕ) - 1)) / (32 : ℕ) * BITMAP_DEF_BYTE =
        (orderBytes n i : ℕ) := by
      simp only [orderBytes, BITMAP_DEF_BYTE, BITMAP_DEF_BIT]
      push_cast
      ring_nf
    have hsub : toInt ((size : ℤ) - (orderBytes n i : ℕ)) = ((size - orderBytes n i : ℕ) : ℤ) := by
      rw [← Int.ofNat_sub (by omega), toInt_natCast (by omega)]
    simp only [budGetRealSizeLoop]
    rw [hnext, hnum, hsub, ih (i + 1) (size - orderBytes n i) (by omega) (by omega) (by
      rw [show i + 1 + fuel = i + (fuel + 1) by omega]
      omega)]
    rw [show i + 1 + fuel = i + (fuel + 1) by omega]
    exact congrArg Nat.cast (by omega)

/-- What is left for data: the region without the descriptors, the bitmaps and the headers of the
orders it would have. -/
theorem budGetRealSize_spec {n : ℕ} (hn : n < 2147483648) (hmin : 131072 ≤ n) :
    ∃ r D, IsDep n D ∧ budGetRealSize 2048 32 n 2048 = (r : ℕ) ∧ 65536 ≤ r ∧
      r + (24 * D + bitmapBytes n D + n / 2048) = n := by
  obtain ⟨D, hD, hdep⟩ := budGetDep_spec (n := n) (by omega)
  have hle := hD.le
  have hbytes := bitmapBytes_le n D
  refine ⟨n - (24 * D + bitmapBytes n D + n / 2048), D, hD, ?_, by omega, by omega⟩
  have hsub : toInt ((n : ℤ) - sizeofBitmaps * (D : ℕ)) = ((n - 24 * D : ℕ) : ℤ) := by
    rw [sizeofBitmaps, ← Nat.cast_mul, ← Int.ofNat_sub (by omega), toInt_natCast (by omega)]
  have hloop := budGetRealSizeLoop_spec n D 0 (n - 24 * D) hn (by omega) (by omega) (by
    rw [Nat.zero_add]
    simp only [bitmapBytes]
    omega)
  rw [Nat.zero_add, show bitmapBytes n 0 = 0 from rfl, Nat.sub_zero] at hloop
  have hhdr : toInt (((n - 24 * D - bitmapBytes n D : ℕ) : ℤ) - (n : ℤ) / (2048 : ℕ)) =
      ((n - (24 * D + bitmapBytes n D + n / 2048) : ℕ) : ℤ) := by
    rw [← Int.natCast_ediv, ← Int.ofNat_sub (by omega), toInt_natCast (by omega)]
    exact congrArg Nat.cast (by omega)
  unfold budGetRealSize
  rw [if_neg (by omega), show ((2048 : ℕ) : ℤ) = 2048 from rfl, hdep]
  simp only [hsub, Int.toNat_natCast]
  rw [if_neg (by omega)]
  rw [show (2048 : ℤ) = ((2048 * 2 ^ 0 : ℕ) : ℤ) from rfl, hloop,
    show ((2048 * 2 ^ 0 : ℕ) : ℤ) = ((2048 : ℕ) : ℤ) from rfl, hhdr, if_neg (by omega)]

/-! ## One order -/

/-- The first bit that the padding loop of `_bud_init` sets over `n` blocks. -/
def padStart (n : ℕ) : ℕ := ((n + 31) / 32 - 1) * 32 + n % 32

theorem padStart_of_not_dvd {n : ℕ} (h : ¬ 32 ∣ n) : padStart n = n := by
  unfold padStart
  omega

theorem padStart_le (n : ℕ) : padStart n ≤ n := by
  unfold padStart
  omega

/-- Over a whole number of words the loop sets the last word, which holds real blocks. -/
theorem padStart_of_dvd {n : ℕ} (h : 32 ∣ n) : padStart n = n - 32 := by
  unfold padStart
  omega

/-- The descriptor of order `i` over `n` bytes of data, its bitmap at `base`. -/
def orderDesc (n i base : ℕ) : Bitmaps :=
  ⟨n / (2048 * 2 ^ i), n / (2048 * 2 ^ i), ⟨base, 32, (n / (2048 * 2 ^ i) + 31) / 32⟩⟩

/-- Setting `k` bits from bit `n` on. -/
theorem bitmapSet_run {bmp : Bitmap} (hbase : bmp.base ≠ 0) (hbit : bmp.bit = 32) (m : Mem)
    (n k : ℕ) (hk : n + k ≤ 32 * bmp.size) :
    let m' := (List.range k).foldl (fun m d => (bitmapSet m bmp (n + d) true).2) m
    Frame bmp.base (bmp.base + 4 * bmp.size) m m' ∧
      ∀ l, bitAt m' bmp.base l = true ↔ bitAt m bmp.base l = true ∨ (n ≤ l ∧ l < n + k) := by
  induction k with
  | zero => exact ⟨Frame.refl _ _ _, fun l => (or_iff_left (by omega)).symm⟩
  | succ k ih =>
    obtain ⟨hf, hbits⟩ := ih (by omega)
    simp only [List.range_succ, List.foldl_append, List.foldl_cons, List.foldl_nil]
    refine ⟨hf.trans ((frame_bitmapSet hbase hbit (n + k) true).mono (by omega) (by omega)),
      fun l => ?_⟩
    rw [bitAt_bitmapSet hbase hbit]
    split_ifs with hl
    · exact iff_of_true rfl (Or.inr (by omega))
    · rw [hbits l]
      exact or_congr_right (by omega)

theorem bitAt_fill_zero (m : Mem) {base n k : ℕ} (hk : k < 32 * n) :
    bitAt (fill m base 0 (n * 4)) base k = false := by
  unfold bitAt
  rw [load32_eq_zero fun x hlo hhi => byte_fill_zero m (by omega) (by omega), Nat.zero_testBit]

theorem budInitOrder_spec (s : Mm) (n i base : ℕ) (hbit : s.bm.bitmapSize = 32) (hbase : 0 < base)
    (hnum : 0 < n / (2048 * 2 ^ i)) :
    ∃ m', budInitOrder s n (2048 * 2 ^ i) i base =
        { s with bud := Function.update s.bud i (orderDesc n i base), mem := m' } ∧
      Frame base (base + orderBytes n i) s.mem m' ∧
      ∀ k < 32 * (orderDesc n i base).bmp.size,
        bitAt m' base k = true ↔ padStart (n / (2048 * 2 ^ i)) ≤ k := by
  have hbytes : orderBytes n i = 4 * (orderDesc n i base).bmp.size := rfl
  simp only [budInitOrder, hbit]
  refine ⟨_, rfl, ?_⟩
  rw [hbytes]
  set bmp := (orderDesc n i base).bmp with hbmp
  set q := n / (2048 * 2 ^ i) with hq
  have hsize : bmp.size = (q + 31) / 32 := rfl
  have hbase₀ : bmp.base ≠ 0 := Nat.ne_of_gt hbase
  have hrun := bitmapSet_run hbase₀ rfl
    (fill s.mem base 0 ((q + 31) / 32 * 4)) (padStart q) (32 - q % 32) (by
      rw [hsize, padStart]
      omega)
  have hassoc (d : ℕ) : ((q + 31) / 32 - 1) * 32 + (q % 32 + d) = padStart q + d := by
    rw [padStart, Nat.add_assoc]
  simp only [hassoc, show (q + (32 - 1)) / 32 = (q + 31) / 32 from rfl,
    show 32 / 8 = 4 from rfl]
  obtain ⟨hf, hbits⟩ := hrun
  constructor
  · refine ((frame_fill s.mem base 0 _).mono le_rfl ?_).trans hf
    rw [hsize]
    omega
  · intro k hk
    have hzero : bitAt (fill s.mem base 0 ((q + 31) / 32 * 4)) base k = false :=
      bitAt_fill_zero s.mem (hsize ▸ hk)
    refine (hbits k).trans ?_
    rw [show bmp.base = base from rfl, hzero]
    rw [hsize] at hk
    simp only [Bool.false_eq_true, false_or]
    refine and_iff_left_of_imp fun _ => ?_
    rw [padStart]
    omega

/-! ## All orders -/

/-- From order `i` on the loop lays out one bitmap after the other. -/
theorem budInitLoop_spec (n b₀ : ℕ) (hb₀ : 0 < b₀) (fuel i : ℕ) (s : Mm)
    (hbit : s.bm.bitmapSize = 32) (hi : i + fuel ≤ 11)
    (hnum : ∀ k < i + fuel, 0 < n / (2048 * 2 ^ k)) :
    ∃ bud' m', budInitLoop n fuel i (2048 * 2 ^ i) (b₀ + bitmapBytes n i) (bitmapBytes n i) s =
        (bitmapBytes n (i + fuel), { s with bud := bud', mem := m' }) ∧
      Frame (b₀ + bitmapBytes n i) (b₀ + bitmapBytes n (i + fuel)) s.mem m' ∧
      (∀ j < i, bud' j = s.bud j) ∧
      ∀ j, i ≤ j → j < i + fuel → bud' j = orderDesc n j (b₀ + bitmapBytes n j) ∧
        ∀ k < 32 * (bud' j).bmp.size,
          bitAt m' (b₀ + bitmapBytes n j) k = true ↔ padStart (n / (2048 * 2 ^ j)) ≤ k := by
  induction fuel generalizing i s with
  | zero =>
    exact ⟨s.bud, s.mem, rfl, Frame.refl _ _ _, fun _ _ => rfl, fun j hj hj' => absurd hj' (by omega)⟩
  | succ fuel ih =>
    obtain ⟨m₁, hs₁, hf₁, hbits₁⟩ := budInitOrder_spec s n i (b₀ + bitmapBytes n i) hbit
      (by omega) (hnum i (by omega))
    have hll : u32 (2048 * 2 ^ i * 2) = 2048 * 2 ^ (i + 1) :=
      double_chunk (show 2048 * 2 ^ 11 < 2147483648 by decide) (by omega)
    have hbytes : (orderDesc n i (b₀ + bitmapBytes n i)).bmp.size *
        ((orderDesc n i (b₀ + bitmapBytes n i)).bmp.bit / 8) = orderBytes n i := by
      rw [Nat.mul_comm]
      simp [orderDesc, orderBytes]
    simp only [budInitLoop, hs₁, Function.update_self, hll, hbytes, Nat.add_assoc]
    rw [show bitmapBytes n i + orderBytes n i = bitmapBytes n (i + 1) from rfl]
    set s₁ : Mm := { s with
      bud := Function.update s.bud i (orderDesc n i (b₀ + bitmapBytes n i)), mem := m₁ }
    obtain ⟨bud', m', heq, hf, hlow, hhigh⟩ := ih (i + 1) s₁ hbit (by omega)
      fun k hk => hnum k (by omega)
    rw [show i + 1 + fuel = i + (fuel + 1) by omega] at *
    have hmono := bitmapBytes_mono (le_refl n) (show i + 1 ≤ i + (fuel + 1) by omega)
    have hstep : bitmapBytes n (i + 1) = bitmapBytes n i + orderBytes n i := rfl
    have hi' : bud' i = orderDesc n i (b₀ + bitmapBytes n i) := by
      rw [hlow i (by omega)]
      exact Function.update_self _ _ _
    refine ⟨bud', m', heq, (hf₁.mono le_rfl (by omega)).trans (hf.mono (by omega) le_rfl),
      fun j hj => ?_, fun j hj hj' => ?_⟩
    · rw [hlow j (by omega)]
      exact Function.update_of_ne (by omega) _ _
    · rcases Nat.eq_or_lt_of_le hj with rfl | hlt
      · refine ⟨hi', fun k hk => ?_⟩
        rw [hi'] at hk
        have hword : 4 * (k / 32) + 4 ≤ orderBytes n i := by
          rw [show orderBytes n i = 4 * (orderDesc n i (b₀ + bitmapBytes n i)).bmp.size from rfl]
          omega
        rw [hf.bitAt (by omega)]
        exact hbits₁ k hk
      · exact hhigh j hlt hj'

/-- The state after `_bud_init` has set up `H` in `s`. -/
structure InitPost (H : Heap) (s s' : Mm) : Prop where
  layout : Layout s'
  heapSize : budGetRealSize 2048 32 H.size 2048 = s'.bm.heapSize
  dep : budGetDep s'.bm.heapSize 2048 = s'.bm.dep
  heap_ge : 65536 ≤ s'.bm.heapSize
  bit : ∀ i < s'.bm.dep, ∀ k < s'.bits i, s'.bit i k = true ↔ padStart (s'.bud i).num ≤ k
  frees : ∀ i < s'.bm.dep, (s'.bud i).frees = (s'.bud i).num
  base_lt : H.base < (s'.bud 0).bmp.base
  end_le : s'.bm.heapBase + s'.bm.heapSize ≤ H.base + H.size
  frame : Frame H.base s'.bm.heapBase s.mem s'.mem
  lazy : s'.lazy = { s.lazy with
    batch := min ((s'.bm.heapSize : ℤ) / MM_PAGE_SIZE - 1) 31
    wmk := min ((s'.bm.heapSize : ℤ) / MM_PAGE_SIZE - 1) 31 * 6 }
  links : s'.links = listInitHead (listInitHead s.links s.lazy.frees) s.lazy.inuses
  pageAddr : s'.pageAddr = s.pageAddr
  pmm : s'.pmm = s.pmm
  pools : s'.pools = s.pools
  secBase : s'.secBase = s.secBase
  secSize : s'.secSize = s.secSize

/-- Where the blocks of a region of `n` bytes of data start: behind the descriptors and bitmaps of
its orders and behind the headers. -/
def heapStart (H : Heap) : ℕ :=
  let n := (budGetRealSize 2048 32 H.size 2048).toNat
  let d := (budGetDep n 2048).toNat
  H.base + sizeofBitmaps * d + bitmapBytes n d + n / 2048

theorem le_heapStart (H : Heap) : H.base ≤ heapStart H := by
  simp only [heapStart, Nat.add_assoc]
  exact Nat.le_add_right _ _

/-- The state after `_bud_init` over `size` bytes at `base` has left `r` bytes for data in `d`
orders, whose descriptors and memory are `bud` and `mem`. -/
def Mm.initialized (s : Mm) (base size r d : ℕ) (bud : ℕ → Bitmaps) (mem : Mem) : Mm :=
  let hdrBase := base + 24 * d + bitmapBytes r d
  let heapMetaSize := 24 * d + bitmapBytes r d + r / 2048
  { s with
    bm :=
      { s.bm with
        dep := d, bitmapSize := 32, ll := 2048, ul := 2048 * 2 ^ (d - 1), hdrBase
        hdrSize := r / 2048, orgSize := size, heapMetaBase := base, heapMetaSize
        heapBase := base + heapMetaSize, heapSize := r, rmdSize := size - (r + heapMetaSize : ℕ) }
    bud, mem
    lazy := { s.lazy with
      batch := min ((r : ℤ) / MM_PAGE_SIZE - 1) 31
      wmk := min ((r : ℤ) / MM_PAGE_SIZE - 1) 31 * 6 }
    links := listInitHead (listInitHead s.links s.lazy.frees) s.lazy.inuses }

/-- The descriptors and bitmaps of `d` orders over `r` bytes of data at `base`. -/
structure OrdersAt (base r d : ℕ) (bud : ℕ → Bitmaps) (m m' : Mem) : Prop where
  frame : Frame (base + 24 * d) (base + 24 * d + bitmapBytes r d) m m'
  desc : ∀ i < d, bud i = orderDesc r i (base + 24 * d + bitmapBytes r i)
  bit : ∀ i < d, ∀ k < 32 * (bud i).bmp.size,
    bitAt m' (base + 24 * d + bitmapBytes r i) k = true ↔ padStart (r / (2048 * 2 ^ i)) ≤ k

/-- The metadata of the data that is left takes no more than was taken off for it. -/
theorem metadata_le {n r D d : ℕ} (hD : IsDep n D) (hd : IsDep r d)
    (hsum : r + (24 * D + bitmapBytes n D + n / 2048) = n) :
    r + (24 * d + bitmapBytes r d + r / 2048) ≤ n := by
  have hdD := hd.mono hD (by omega)
  have hbytes := bitmapBytes_mono (show r ≤ n by omega) hdD
  have hhdr := Nat.div_le_div_right (c := 2048) (show r ≤ n by omega)
  omega

/-- What `_bud_init` returns and leaves. -/
theorem _budInit_eq (s : Mm) {base n : ℕ} (hbase : base ≠ 0) (hmin : 131072 ≤ n)
    (hn : n < 2147483648) (hfits : base + n ≤ 4294967296) :
    ∃ r d bud' m', IsDep r d ∧ 65536 ≤ r ∧ r + (24 * d + bitmapBytes r d + r / 2048) ≤ n ∧
      budGetRealSize 2048 32 n 2048 = (r : ℕ) ∧ budGetDep r 2048 = (d : ℕ) ∧
      OrdersAt base r d bud' s.mem m' ∧
      _budInit s base n 2048 = ((n : ℤ) - (r + (24 * d + bitmapBytes r d + r / 2048) : ℕ),
        s.initialized base n r d bud' m') := by
  obtain ⟨r, D, hD, hreal, hr, hsum⟩ := budGetRealSize_spec hn hmin
  obtain ⟨d, hd, hdep⟩ := budGetDep_spec (n := r) (by omega)
  have hdle := hd.le
  have hdpos := hd.pos (by omega)
  have hmeta := metadata_le hD hd hsum
  have hminSize : ¬ (n : ℤ) < MM_HEAP_MIN_SIZE := by
    simp only [MM_HEAP_MIN_SIZE]
    omega
  have hul : u32 (2048 * power 2 (toInt (u32 (d + 4294967295)))) = 2048 * 2 ^ (d - 1) := by
    have hpow : 2 ^ (d - 1) ≤ 2 ^ 10 := Nat.pow_le_pow_right (by decide) (by omega)
    have hsub : u32 (d + 4294967295) = d - 1 := by
      unfold u32
      omega
    rw [hsub, toInt_natCast (by omega), power_two (by omega), u32_of_lt (by omega)]
  have hnum (k : ℕ) (hk : k < d) : 0 < r / (2048 * 2 ^ k) := by
    have := hd.ge k hk
    omega
  set s₁ : Mm := { s with bm := { s.bm with
    dep := d, bitmapSize := 32, ll := 2048, ul := 2048 * 2 ^ (d - 1), orgSize := n,
    heapMetaBase := base, heapSize := r } } with hs₁
  obtain ⟨bud', m', heq, hf, -, hbud⟩ := budInitLoop_spec r (base + 24 * d) (by omega) d 0 s₁ rfl
    (by omega) (fun k hk => hnum k (by omega))
  have hloop : budInitLoop r d 0 2048 (base + sizeofBitmaps * d) 0 s₁ =
      (bitmapBytes r d, { s₁ with bud := bud', mem := m' }) := by
    simpa [bitmapBytes, sizeofBitmaps] using heq
  simp only [Nat.zero_le, Nat.zero_add, true_implies] at hbud hf
  have hbase₀ : (bud' 0).bmp.base = base + 24 * d := by
    rw [(hbud 0 hdpos).1]
    rfl
  have hheap : u32 (base + 24 * d + bitmapBytes r d + r / 2048) =
      base + 24 * d + bitmapBytes r d + r / 2048 := u32_of_lt (by omega)
  have hheapMeta : toInt (((base + 24 * d + bitmapBytes r d + r / 2048 : ℕ) : ℤ) - base) =
      (24 * d + bitmapBytes r d + r / 2048 : ℕ) := by
    rw [toInt_of_range (by omega) (by omega)]
    omega
  have hrmd : toInt ((n : ℤ) - (r + ((24 * d + bitmapBytes r d + r / 2048 : ℕ) : ℤ))) =
      n - (r + (24 * d + bitmapBytes r d + r / 2048) : ℕ) := by
    rw [toInt_of_range (by omega) (by omega)]
    omega
  refine ⟨r, d, bud', m', hd, hr, hmeta, hreal, hdep,
    ⟨hf, fun i hi => (hbud i hi).1, fun i hi => (hbud i hi).2⟩, ?_⟩
  unfold _budInit
  rw [if_neg hbase, if_neg hminSize, if_neg (by decide)]
  simp only [show toU32 2048 = 2048 from rfl, BITMAP_DEF_BIT, Nat.cast_ofNat, hreal,
    if_neg (show ¬ (r : ℤ) < 0 by omega), Int.toNat_natCast, hdep,
    toU32_natCast (show d < 4294967296 by omega), hul, ← hs₁, hloop, hbase₀, hheap, hheapMeta, hrmd]
  simp only [Mm.initialized, Nat.add_assoc, hs₁]

theorem _budInit_post (s : Mm) (H : Heap) (hbase : H.base ≠ 0) (hmin : 131072 ≤ H.size) :
    (0 ≤ (_budInit s H.base H.size 2048).1 ∧ (_budInit s H.base H.size 2048).1 ≤ H.size) ∧
      InitPost H s (_budInit s H.base H.size 2048).2 ∧
      (_budInit s H.base H.size 2048).2.bm.heapBase = heapStart H := by
  have hlt := H.size_lt
  have hfits := H.fits
  obtain ⟨r, d, bud', m', hd, hr, hmeta, hreal, hdep, ho, heq⟩ :=
    _budInit_eq s hbase hmin hlt hfits.le
  have hdpos := hd.pos (by omega)
  have hdle := hd.le
  have hbase₀ : (bud' 0).bmp.base = H.base + 24 * d := by
    rw [ho.desc 0 hdpos]
    rfl
  have hmono (i : ℕ) (hi : i < d) : bitmapBytes r i + orderBytes r i ≤ bitmapBytes r d :=
    bitmapBytes_mono (le_refl r) (show i + 1 ≤ d by omega)
  have hstart : heapStart H = H.base + (24 * d + bitmapBytes r d + r / 2048) := by
    simp only [heapStart, hreal, Int.toNat_natCast, hdep, sizeofBitmaps, Nat.add_assoc]
  rw [heq]
  refine ⟨by simp only; omega, ?_, hstart.symm⟩
  constructor
  case layout =>
    constructor <;> simp only [Mm.initialized]
    · exact hdpos
    · exact hdle
    · omega
    · intro i hi
      rw [ho.desc i hi]
      rfl
    · intro i hi
      rw [ho.desc i hi]
      exact hd.ge i hi
    · intro i hi
      rw [ho.desc i hi]
      rfl
    · intro i hi
      rw [ho.desc i hi]
      rfl
    · intro i hi
      rw [ho.desc i hi]
      simp only [orderDesc]
      omega
    · intro i j hij hj
      rw [ho.desc i (by omega), ho.desc j hj]
      have := bitmapBytes_mono (le_refl r) (show i + 1 ≤ j by omega)
      exact le_trans (Nat.add_assoc _ _ _).le (Nat.add_le_add_left this _)
    · intro i hi
      rw [ho.desc i hi]
      exact le_trans (Nat.add_assoc _ _ _).le (Nat.add_le_add_left (hmono i hi) _)
    · have := bitmapBytes_le r d
      omega
    · omega
    · omega
  case bit =>
    intro i hi k hk
    have hbits := ho.bit i hi k hk
    simp only [Mm.bit, Mm.initialized, ho.desc i hi]
    exact hbits
  case frees =>
    intro i hi
    simp only [Mm.initialized, ho.desc i hi, orderDesc]
  case base_lt =>
    simp only [Mm.initialized, hbase₀]
    omega
  case end_le =>
    simp only [Mm.initialized]
    omega
  case frame => exact ho.frame.mono (by omega) (by simp only [Mm.initialized]; omega)
  case heapSize => exact hreal
  case dep => exact hdep
  case heap_ge => exact hr
  all_goals rfl

/-- The sizes derived from `heap_size` leave no order with a whole number of bitmap words. -/
def PadsEvery (heapSize : ℤ) : Prop :=
  ∀ i < (budGetDep (budGetRealSize 2048 32 heapSize 2048) 2048).toNat,
    ¬ 32 ∣ (budGetRealSize 2048 32 heapSize 2048).toNat / (2048 * 2 ^ i)

instance (heapSize : ℤ) : Decidable (PadsEvery heapSize) := inferInstanceAs (Decidable (∀ i < _, _))

theorem InitPost.pads_iff {H : Heap} {s s' : Mm} (h : InitPost H s s') :
    PadsEvery H.size ↔ ∀ i < s'.bm.dep, ¬ 32 ∣ s'.bm.heapSize / (2048 * 2 ^ i) := by
  rw [PadsEvery, h.heapSize, h.dep, Int.toNat_natCast, Int.toNat_natCast]

/-- `_bud_init` refuses the null base and the regions below `MM_HEAP_MIN_SIZE`, and sets up all
others. -/
theorem _budInit_ok_iff (s : Mm) (H : Heap) :
    0 ≤ (_budInit s H.base H.size 2048).1 ↔ H.base ≠ 0 ∧ 131072 ≤ H.size := by
  refine ⟨fun hok => ?_, fun h => (_budInit_post s H h.1 h.2).1.1⟩
  have hbase : H.base ≠ 0 := by
    intro h
    simp [_budInit, h] at hok
  refine ⟨hbase, ?_⟩
  by_contra h
  have : (H.size : ℤ) < MM_HEAP_MIN_SIZE := by
    simp only [MM_HEAP_MIN_SIZE]
    omega
  simp [_budInit, hbase, this] at hok

theorem _budInit_spec (s : Mm) (H : Heap) (hok : 0 ≤ (_budInit s H.base H.size 2048).1) :
    InitPost H s (_budInit s H.base H.size 2048).2 := by
  obtain ⟨hbase, hmin⟩ := (_budInit_ok_iff s H).1 hok
  exact (_budInit_post s H hbase hmin).2.1

/-- The blocks start where the sizes say. -/
theorem _budInit_heapBase (s : Mm) (H : Heap) (hok : 0 ≤ (_budInit s H.base H.size 2048).1) :
    (_budInit s H.base H.size 2048).2.bm.heapBase = heapStart H := by
  obtain ⟨hbase, hmin⟩ := (_budInit_ok_iff s H).1 hok
  exact (_budInit_post s H hbase hmin).2.2

/-- The region that `main` hands to the memory manager. -/
def mainHeap : Heap := ⟨0xC2000000, 0x20000000, by decide, by decide⟩

theorem mainHeap_ok (s₀ : Mm) : 0 ≤ (_budInit s₀ mainHeap.base mainHeap.size 2048).1 :=
  (_budInit_ok_iff s₀ mainHeap).2 (by decide)

/-- The smallest region `bud_init` accepts, at `MM_BASE`. -/
def leastHeap : Heap := ⟨0x2000000, 0x20000, by decide, by decide⟩

theorem leastHeap_pads (s₀ : Mm) : ∀ i < (_budInit s₀ leastHeap.base leastHeap.size 2048).2.bm.dep,
    ¬ 32 ∣ (_budInit s₀ leastHeap.base leastHeap.size 2048).2.bm.heapSize / (2048 * 2 ^ i) :=
  (_budInit_spec s₀ leastHeap ((_budInit_ok_iff s₀ leastHeap).2 (by decide))).pads_iff.1
    (by decide +kernel)

end YohdaOS

import YohdaOS.Mmi.Wide

/-!
# Block addresses in buddy64.c

`bud_encode` takes a chunk and an offset to an address, `bud_decode` an address to a header slot.  The
heap size is an `s64`, and the distance of a block from the base of the heap a `u32`: it is recovered
from every address, but it is the distance only of the blocks below 4 GiB.
-/

namespace YohdaOS.Wide

open ByteMem

/-- The header slot of a block. -/
def hdrSlot (s : Mm) (chunk ost : ℕ) : ℕ := s.bm.hdrBase + u32 (chunk * ost) / s.bm.ll

/-- Two blocks of one order never get the same address, and the header of a block is found from its
address in the slot where `bud_encode` has written it. -/
def Coded (s : Mm) : Prop :=
  ∀ i < s.bm.dep, ∀ ost < (s.bud i).num,
    (∀ ost' < (s.bud i).num, ∀ dep dep' addr,
      (budEncode s (s.bm.ll * 2 ^ i) ost dep).1 = .addr addr →
        (budEncode s (s.bm.ll * 2 ^ i) ost' dep').1 = .addr addr → ost = ost') ∧
    ∀ dep addr, (budEncode s (s.bm.ll * 2 ^ i) ost dep).1 = .addr addr →
      (budEncode s (s.bm.ll * 2 ^ i) ost dep).2.mem =
          store8 s.mem (hdrSlot s (s.bm.ll * 2 ^ i) ost) dep ∧
        budDecode (budEncode s (s.bm.ll * 2 ^ i) ost dep).2 addr =
          hdrSlot s (s.bm.ll * 2 ^ i) ost

variable {s : Mm} {chunk ost dep addr i n d : ℕ}

/-! ## One block -/

theorem budEncode_eq (s : Mm) (chunk ost dep : ℕ) : budEncode s chunk ost dep =
    (if u32 (u32 (s.bm.heapBase + u32 (chunk * ost)) + chunk) > s.bm.heapBase + s.bm.heapSize then
      .code 0
    else .addr (u32 (s.bm.heapBase + u32 (chunk * ost))),
      { s with mem := store8 s.mem (hdrSlot s chunk ost) dep }) := by
  unfold budEncode hdrSlot
  dsimp only
  split_ifs <;> rfl

theorem addr_of_budEncode (h : (budEncode s chunk ost dep).1 = .addr addr) :
    addr = u32 (s.bm.heapBase + u32 (chunk * ost)) := by
  rw [budEncode_eq] at h
  dsimp only at h
  split_ifs at h
  exact (Ptr.addr.inj h).symm

/-- The distance is recovered whatever the sum has wrapped to. -/
theorem distance_of_addr (base x : ℕ) : toU32 ((u32 (base + u32 x) : ℕ) - (base : ℤ)) = u32 x := by
  unfold toU32 u32
  omega

theorem budDecode_encode (h : (budEncode s chunk ost dep).1 = .addr addr) :
    budDecode (budEncode s chunk ost dep).2 addr = hdrSlot s chunk ost := by
  rw [addr_of_budEncode h, budEncode_eq, budDecode]
  simp only [distance_of_addr, hdrSlot]

theorem distance_of_budEncode (h : (budEncode s chunk ost dep).1 = .addr addr) :
    toU32 ((addr : ℤ) - s.bm.heapBase) = u32 (chunk * ost) := by
  rw [addr_of_budEncode h, distance_of_addr]

/-- A block that ends inside the heap has an address. -/
theorem budEncode_ok (h : chunk * ost + chunk ≤ s.bm.heapSize) (dep : ℕ) :
    (budEncode s chunk ost dep).1 = .addr (u32 (s.bm.heapBase + u32 (chunk * ost))) := by
  rw [budEncode_eq]
  apply if_neg
  unfold u32
  omega

/-! ## The blocks of an order -/

theorem two_pow_split (hi : i ≤ 21) : 2048 * 2 ^ i * 2 ^ (21 - i) = 4294967296 := by
  rw [Nat.mul_assoc, ← pow_add, Nat.add_sub_cancel' hi]
  rfl

/-- The blocks of an order are told apart exactly if there are no more than 4 GiB of them. -/
theorem coded_iff (hll : s.bm.ll = 2048) (hdep : s.bm.dep ≤ 11)
    (hroom : ∀ i < s.bm.dep, 2048 * 2 ^ i * (s.bud i).num ≤ s.bm.heapSize) :
    Coded s ↔ ∀ i < s.bm.dep, (s.bud i).num ≤ 2 ^ (21 - i) := by
  rw [Coded, hll]
  constructor
  · intro h i hi
    by_contra hnum
    rw [not_le] at hnum
    have hall := two_pow_split (show i ≤ 21 by omega)
    have hle := hroom i hi
    have hpos : 0 < 2 ^ (21 - i) := Nat.two_pow_pos _
    -- the first block of the order, and the one 4 GiB behind it
    have hend {ost : ℕ} (host : ost < (s.bud i).num) :
        2048 * 2 ^ i * ost + 2048 * 2 ^ i ≤ s.bm.heapSize :=
      (Nat.mul_succ _ _).ge.trans ((Nat.mul_le_mul_left _ host).trans hle)
    have hblock {ost : ℕ} (host : ost < (s.bud i).num) := budEncode_ok (hend host) 0
    have hzero := hblock (show 0 < (s.bud i).num by omega)
    have hfar := hblock hnum
    rw [hall] at hfar
    have hsame := (h i hi 0 (by omega)).1 _ hnum 0 0 _ hzero hfar
    omega
  · intro h i hi ost host
    refine ⟨fun ost' host' dep dep' addr h₁ h₂ => ?_, fun dep addr h₁ => ⟨?_, budDecode_encode h₁⟩⟩
    · have hall := two_pow_split (show i ≤ 21 by omega)
      have hnum := h i hi
      have hlt {ost : ℕ} (host : ost < (s.bud i).num) : 2048 * 2 ^ i * ost < 4294967296 := by
        rw [← hall]
        exact Nat.mul_lt_mul_of_pos_left (by omega) (by positivity)
      have hsame := (distance_of_budEncode h₁).symm.trans (distance_of_budEncode h₂)
      rw [u32_of_lt (hlt host), u32_of_lt (hlt host')] at hsame
      exact Nat.eq_of_mul_eq_mul_left (by positivity) hsame
    · rw [budEncode_eq]

/-! ## What bud_init sets -/

theorem budInitLoop_num (n fuel i base size : ℕ) (s : Mm) (hi : i + fuel ≤ 11) (k : ℕ) :
    ((budInitLoop n fuel i (2048 * 2 ^ i) base size s).2.bud k).num =
      if i ≤ k ∧ k < i + fuel then u32 (n / (2048 * 2 ^ k)) else (s.bud k).num := by
  induction fuel generalizing i base size s with
  | zero => rw [if_neg (by omega)]; rfl
  | succ fuel ih =>
    have hnext : u32 (2048 * 2 ^ i * 2) = 2048 * 2 ^ (i + 1) :=
      double_chunk (show 2048 * 2 ^ 11 < 2147483648 by decide) (by omega)
    rw [budInitLoop]
    simp only [hnext]
    rw [ih _ _ _ _ (by omega)]
    by_cases hk : k = i
    · subst hk
      rw [if_neg (by omega), if_pos (by omega), budInitOrder]
      simp only [Function.update_self]
    · rw [budInitOrder]
      simp only [Function.update_of_ne hk]
      split_ifs <;> first | rfl | omega

/-- What the bitmaps take off the size is little. -/
theorem le_budGetRealSizeLoop (n fuel i : ℕ) (size : ℤ) (hi : i + fuel ≤ 11) :
    size - fuel * (n / 16384 + 4 : ℕ) ≤
      budGetRealSizeLoop 32 n fuel (2048 * 2 ^ i : ℕ) size := by
  induction fuel generalizing i size with
  | zero =>
    rw [budGetRealSizeLoop]
    omega
  | succ fuel ih =>
    have hnext : toInt (((2048 * 2 ^ i : ℕ) : ℤ) * 2) = (2048 * 2 ^ (i + 1) : ℕ) :=
      toInt_double_chunk (show 2048 * 2 ^ 11 < 2147483648 by decide) (by omega)
    have hone : (n : ℤ) / (2048 * 2 ^ i : ℕ) ≤ (n / 2048 : ℕ) := by
      rw [← Int.natCast_div, Nat.cast_le]
      exact Nat.div_le_div_left (Nat.le_mul_of_pos_right _ (Nat.two_pow_pos i)) (by decide)
    have hnum : (toU32 (((n : ℤ) / (2048 * 2 ^ i : ℕ) + ((32 : ℕ) - 1)) / (32 : ℕ) *
        BITMAP_DEF_BYTE) : ℤ) ≤ (n / 16384 + 4 : ℕ) := by
      have hpos : 0 ≤ (n : ℤ) / (2048 * 2 ^ i : ℕ) := Int.ediv_nonneg (by omega) (by omega)
      generalize (n : ℤ) / (2048 * 2 ^ i : ℕ) = z at hone hpos
      have hbyte : (BITMAP_DEF_BYTE : ℤ) = 4 := rfl
      rw [hbyte, toU32]
      omega
    rw [budGetRealSizeLoop, hnext]
    refine le_trans ?_ (ih (i + 1) _ (by omega))
    rw [Nat.cast_succ, add_mul, one_mul]
    omega

/-- Every heap that is large enough leaves more than a page for data. -/
theorem budGetRealSize_gt {n : ℕ} (hmin : 131072 ≤ n) : 2048 < budGetRealSize 2048 32 n 2048 := by
  obtain ⟨d, hd, hdep⟩ := budGetDep_spec (n := n) (by omega)
  have hle := hd.le
  have hloop := le_budGetRealSizeLoop n d 0 ((n : ℤ) - sizeofBitmaps * d) (by omega)
  have hbits : (d : ℤ) * (n / 16384 + 4 : ℕ) ≤ 11 * (n / 16384 + 4 : ℕ) :=
    mul_le_mul_of_nonneg_right (by omega) (by omega)
  have hsize : (sizeofBitmaps : ℤ) * d ≤ 32 * 11 :=
    mul_le_mul_of_nonneg_left (by omega) (by decide)
  rw [pow_zero, Nat.mul_one] at hloop
  rw [budGetRealSize, if_neg (by omega)]
  simp only [Nat.cast_ofNat, hdep, if_neg (show ¬ (d : ℤ) < 0 by omega), Int.toNat_natCast]
  push_cast at hloop hbits
  rw [if_neg (by omega)]
  omega

/-- What `_bud_init` leaves in the descriptors. -/
structure Limited (s : Mm) (n d : ℕ) : Prop where
  isDep : IsDep n d
  ll : s.bm.ll = 2048
  dep : s.bm.dep = d
  heapSize : s.bm.heapSize = n
  num : ∀ i < d, (s.bud i).num = u32 (n / (2048 * 2 ^ i))

theorem limited_init {s : Mm} {base : ℕ} {heapSize : ℤ}
    (h : 0 ≤ (_budInit s base heapSize 2048).1) :
    ∃ n d, budGetRealSize 2048 32 heapSize 2048 = (n : ℕ) ∧
      Limited (_budInit s base heapSize 2048).2 n d := by
  have hbase : base ≠ 0 := by
    rintro rfl
    rw [_budInit, if_pos rfl] at h
    exact absurd (show (0 : ℤ) ≤ -1 from h) (by decide)
  have hmin : MM_HEAP_MIN_SIZE ≤ heapSize := by
    by_contra hlt
    rw [_budInit, if_neg hbase, if_pos (not_le.1 hlt)] at h
    exact absurd (show (0 : ℤ) ≤ -4 from h) (by decide)
  have hlarge : 131072 ≤ heapSize := hmin
  obtain ⟨N, rfl⟩ : ∃ N : ℕ, heapSize = N := ⟨heapSize.toNat, by omega⟩
  have hdata := budGetRealSize_gt (n := N) (by omega)
  obtain ⟨n, hn⟩ : ∃ n : ℕ, budGetRealSize 2048 32 N 2048 = n :=
    ⟨_, (Int.toNat_of_nonneg (by omega)).symm⟩
  obtain ⟨d, hd, hdep⟩ := budGetDep_spec (n := n) (by omega)
  have hle := hd.le
  refine ⟨n, d, hn, ?_⟩
  unfold _budInit
  rw [if_neg hbase, if_neg (not_lt.2 hmin), if_neg (by decide)]
  simp only [show toU32 2048 = 2048 from rfl, BITMAP_DEF_BIT, Nat.cast_ofNat, hn,
    if_neg (show ¬ (n : ℤ) < 0 by omega), Int.toNat_natCast, hdep,
    toU32_natCast (show d < 4294967296 by omega)]
  refine ⟨hd, rfl, rfl, rfl, fun i hi => ?_⟩
  exact (budInitLoop_num n d 0 _ _ _ (by omega) i).trans (if_pos (by omega))

/-- The numbers of blocks are small enough in every order exactly if the number of pages is, up to
multiples of 2^42. -/
theorem num_le_iff (hd : IsDep n d) :
    (∀ i < d, u32 (n / (2048 * 2 ^ i)) ≤ 2 ^ (21 - i)) ↔ n / 2048 % 2 ^ 42 ≤ 2 ^ 21 := by
  have hle := hd.le
  simp only [← Nat.div_div_eq_div_mul, u32]
  by_cases hfull : d = 11
  · subst hfull
    constructor
    · intro h
      have hfirst := h 0 (by decide)
      have hlast := h 10 (by decide)
      omega
    · intro h i hi
      interval_cases i <;> omega
  · have hsmall := hd.lt (by omega)
    have hpow : 2 ^ d ≤ 2 ^ 10 := Nat.pow_le_pow_right (by decide) (by omega)
    rw [Nat.div_lt_iff_lt_mul (by positivity)] at hsmall
    have hn : n / 2048 < 8192 := by omega
    refine iff_of_true (fun i hi => ?_) (by omega)
    have hsplit : 2 ^ i * 2 ^ (21 - i) = 2 ^ 21 := by
      rw [← pow_add, Nat.add_sub_cancel' (by omega)]
    exact (Nat.mod_le _ _).trans (Nat.div_le_of_le_mul (by omega))

theorem Limited.coded_iff (h : Limited s n d) : Coded s ↔ n / 2048 % 2 ^ 42 ≤ 2 ^ 21 := by
  have hle := h.isDep.le
  rw [Wide.coded_iff h.ll (by rw [h.dep]; exact hle), ← num_le_iff h.isDep, h.dep]
  · exact forall₂_congr fun i hi => by rw [h.num i hi]
  · intro i hi
    rw [h.dep] at hi
    rw [h.num i hi, h.heapSize]
    exact (Nat.mul_le_mul_left _ (Nat.mod_le _ _)).trans (Nat.mul_div_le n _)

theorem Limited.congr {s' : Mm} (h : Limited s n d) (hs : SameBud s s') : Limited s' n d where
  isDep := h.isDep
  ll := by rw [hs.bm]; exact h.ll
  dep := by rw [hs.bm]; exact h.dep
  heapSize := by rw [hs.bm]; exact h.heapSize
  num := fun i hi => (hs.num i).trans (h.num i hi)

/-- Whatever heap `_bud_init` accepts, blocks are told apart by their addresses, and found from them,
exactly if the number of its pages is at most 2^21 up to multiples of 2^42. -/
theorem coded_init_iff (s : Mm) (base : ℕ) (heapSize : ℤ)
    (h : 0 ≤ (_budInit s base heapSize 2048).1) (s' : Mm)
    (hs : SameBud (_budInit s base heapSize 2048).2 s') :
    Coded s' ↔ (budGetRealSize 2048 32 heapSize 2048).toNat / 2048 % 2 ^ 42 ≤ 2 ^ 21 := by
  obtain ⟨n, d, hn, hlimited⟩ := limited_init h
  rw [hn, Int.toNat_natCast]
  exact (hlimited.congr hs).coded_iff

/-- A heap of 17 MiB. -/
theorem coded_init_iff_start : Coded start :=
  (coded_init_iff (.boot ⟨fun _ => 0⟩ 4 12) 0x2000000 0x1100000 (by decide +kernel) start
    ⟨rfl, fun _ => rfl, fun _ => rfl⟩).2 (by decide +kernel)

/-- A heap of 5 GiB. -/
theorem coded_init_fails : ¬∀ (s : Mm) (base : ℕ) (heapSize : ℤ),
    0 ≤ (_budInit s base heapSize 2048).1 → Coded (_budInit s base heapSize 2048).2 := by
  intro hall
  have haccept : 0 ≤ (_budInit (.boot ⟨fun _ => 0⟩ 4 12) 0x2000000 0x140000000 2048).1 := by
    decide +kernel
  obtain ⟨n, d, hn, hlimited⟩ := limited_init haccept
  have hcoded := hlimited.coded_iff.1 (hall _ _ _ haccept)
  have hsize : budGetRealSize 2048 32 0x140000000 2048 = 5365432288 := by decide +kernel
  obtain rfl : n = 5365432288 := Int.ofNat_inj.1 (hn.symm.trans hsize)
  exact absurd hcoded (by decide)

end YohdaOS.Wide

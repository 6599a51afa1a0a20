import YohdaOS.Buddy.Exhausted
import YohdaOS.Mmi.Spec
import YohdaOS.Pool.InitSpec

/-!
# What `mm_init` sets up

The buddy takes the region behind `_virt_base + MM_BASE`; the pools take the first block of 512 KB.
-/

namespace YohdaOS

open ByteMem BinaryBlocks

/-- The region that `mm_init` hands to `mmi_init`. -/
def mmHeap (n : ℕ) (h : n < 0x3E000000) : Heap :=
  ⟨vmmPhyToVirt MM_BASE, n, by omega, by
    rw [show vmmPhyToVirt MM_BASE = 0xC2000000 from rfl]
    omega⟩

theorem plGetInitSize_eq : plGetInitSize = 263848 := by decide

theorem budRndup_congr {s s' : Mm} (h : s'.bm = s.bm) (size : ℤ) : budRndup s' size = budRndup s size := by
  rw [budRndup, budRndup, h]

theorem Same.ite_code {s : Mm} {r : Ptr × Mm} (h : Same s r.2) (e : ℤ) :
    Same s (if r.1.val = 0 then (.code e, r.2) else r).2 := by
  split <;> exact h

/-- The request of `mmi_init` for the pools. -/
theorem budAlloc_init (ops : ListOps) (s : Mm) : budAlloc ops s 263848 =
    if (_budAlloc s 263848).1.val = 0 then (.code (-4), (_budAlloc s 263848).2)
    else _budAlloc s 263848 := by
  rw [budAlloc, if_neg (by decide), if_pos (show (263848 : ℤ) > MM_PAGE_SIZE by decide)]

/-- What `mmi_init` asks for is served by order 8, if there is such an order. -/
theorem isClass_init {s : Mm} (hdep : 9 ≤ s.bm.dep) : IsClass s 263848 8 :=
  ⟨by omega, by decide, by decide⟩

section Init

variable {s : Mm} {n : ℕ} {h : n < 0x3E000000} (hmin : 131072 ≤ n)

/-- The block that `mmi_init` gets for the pools: a block of the heap, or the bytes four such blocks
below the heap when order 8 starts without a free block. -/
theorem plBase_bounds {s s₁ : Mm} (hpost : InitPost (mmHeap n h) s s₁) (hdep : 9 ≤ s₁.bm.dep)
    (ops : ListOps) : (budAlloc ops s₁ 263848).1.val ≠ 0 ∧
      (budAlloc ops s₁ 263848).1.val + 524288 < 4294967296 := by
  have L := hpost.layout
  have ho : 8 < s₁.bm.dep := by omega
  have hclass := isClass_init hdep
  have hfits := L.fits
  have hlow : 0xC2000000 < s₁.bm.heapBase := by
    have hbase : 0xC2000000 < (s₁.bud 0).bmp.base := hpost.base_lt
    have := L.base_hdr 0 L.dep_pos
    have := L.hdr_le
    omega
  have hbuddy : (_budAlloc s₁ 263848).1.val ≠ 0 ∧
      (_budAlloc s₁ 263848).1.val + 524288 < 4294967296 := by
    have hbase := L.base_pos 8 ho
    obtain ⟨t, ht, hget, hclear, -⟩ | ⟨hget, -⟩ := L.bitmapGetFree_cases ho
    · have hreal : t < (s₁.bud 8).num := by
        by_contra hge
        have hset := (hpost.bit 8 ho t ht).2 (le_trans (padStart_le _) (not_lt.1 hge))
        rw [hclear] at hset
        cases hset
      have hsame := budFindFree_same s₁ (8 : ℕ)
      have hend := L.blockAddr_end (b := ⟨8, t⟩) ho hreal
      have hge : s₁.bm.heapBase ≤ s₁.blockAddr ⟨8, t⟩ := Nat.le_add_right _ _
      have hfind : (budFindFree s₁ (8 : ℕ)).1 = t := by
        simp only [budFindFree, Int.toNat_natCast, hget,
          if_neg (show ¬ ((8 : ℕ) : ℤ) < 0 by decide), if_neg (show ¬ (t : ℤ) < 0 by omega)]
      have ht32 : t < 4294967296 := by
        have := L.bits_lt ho
        have := L.num_le_bits ho
        omega
      have hval : (_budAlloc s₁ 263848).1.val = s₁.blockAddr ⟨8, t⟩ := by
        rw [_budAlloc_of_class L (by decide) hclass, hfind, toU32_natCast ht32,
          budEncode_spec (hsame.layout L) (by rw [hsame.bm]; exact ho)
            (by rw [hsame.num]; exact hreal), Ptr.val_addr, Mm.blockAddr, Mm.blockAddr, hsame.bm]
      rw [hval]
      simp only at hend
      omega
    · have hstray := (_budAlloc_stray L ho (by decide) hclass (by rw [hget]; decide)).1
      rw [if_neg (by omega)] at hstray
      rw [hstray, Ptr.val_addr, strayAddr_eq L ho, if_pos (by omega)]
      omega
  rw [budAlloc_init, if_neg hbuddy.1]
  exact hbuddy

include hmin

/-- `mm_init` succeeds exactly when order 8 exists, and then ends with `pl_init`. -/
theorem mmInit_eq {s₁ : Mm} (hs₁ : (_budInit s (mmHeap n h).base (mmHeap n h).size 2048).2 = s₁) :
    if 9 ≤ s₁.bm.dep then
      (mmInit s n).1 = 0 ∧
        PoolPost (budAlloc P32.listOps s₁ 263848).1.val (524288 : ℕ)
          (budAlloc P32.listOps s₁ 263848).2 (mmInit s n).2
    else (mmInit s n).1 < 0 := by
  have hbase : vmmPhyToVirt MM_BASE ≠ 0 := by decide
  obtain ⟨hrmd, hpost, -⟩ := _budInit_post s (mmHeap n h) hbase hmin
  have hbud : budInit s (vmmPhyToVirt MM_BASE) n =
      _budInit s (mmHeap n h).base (mmHeap n h).size 2048 := rfl
  obtain ⟨r₀, hr₀⟩ : ∃ r₀, _budInit s (mmHeap n h).base (mmHeap n h).size 2048 = r₀ := ⟨_, rfl⟩
  rw [hr₀] at hrmd hpost hbud hs₁
  rw [hs₁] at hpost
  have hsize : ((mmHeap n h).size : ℤ) = n := rfl
  have L := hpost.layout
  have hmin' : ¬ (n : ℤ) < MM_HEAP_MIN_SIZE := by
    simp only [MM_HEAP_MIN_SIZE]
    omega
  have hbounds := fun hdep => plBase_bounds hpost hdep P32.listOps
  have hne := budAlloc_val_ne_zero P32.listOps s₁ 263848
  have hbm : (budAlloc P32.listOps s₁ 263848).2.bm = s₁.bm := by
    rw [budAlloc_init]
    exact ((_budAlloc_same s₁ 263848).ite_code (-4)).bm
  obtain ⟨r₁, hr₁⟩ : ∃ r₁, budAlloc P32.listOps s₁ 263848 = r₁ := ⟨_, rfl⟩
  rw [hr₁] at hbounds hne hbm ⊢
  have hint : toInt 263848 = 263848 := by decide
  have hinit : mmiInit s (vmmPhyToVirt MM_BASE) n =
      if budRndup s₁ 263848 < 0 then (-14, r₁.2)
      else
        let r := plInit r₁.2 r₁.1.val (budRndup s₁ 263848)
        if r₀.1 + r.1 < 0 then (-18, r.2) else (toInt (r₀.1 + r.1), r.2) := by
    simp only [mmiInit, if_neg hbase, if_neg (show ¬ (n : ℤ) < 1 by omega),
      toInt_natCast (show n < 2147483648 by omega), hbud, if_neg (show ¬ r₀.1 < 0 by omega),
      plGetInitSize_eq, if_neg (show ¬ (263848 : ℤ) < 0 by decide), hint, hs₁, hr₁, if_neg hne,
      budRndup_congr hbm]
  split_ifs with hdep
  · obtain ⟨hpl, hfit⟩ := hbounds hdep
    have hfit' : ((r₁.1.val : ℕ) : ℤ) + (524288 : ℕ) < 4294967296 := by exact_mod_cast hfit
    obtain ⟨hrem, hpool⟩ := plInit_post r₁.2 hpl (by decide) (by decide) hfit'
    have hrnd : budRndup s₁ 263848 = (524288 : ℕ) :=
      (budRndup_of_class L (by decide) (isClass_init hdep)).1
    have hshare : share 0 = 2560 := rfl
    obtain ⟨r, hr⟩ : ∃ r, plInit r₁.2 r₁.1.val (524288 : ℕ) = r := ⟨_, rfl⟩
    rw [hr] at hrem hpool
    have heq : mmInit s n = (0, r.2) := by
      simp only [mmInit, if_neg hmin', hinit, hrnd,
        if_neg (show ¬ ((524288 : ℕ) : ℤ) < 0 by decide), hr,
        if_neg (show ¬ r₀.1 + r.1 < 0 by omega),
        toInt_of_range (show -2147483648 ≤ r₀.1 + r.1 by omega) (by omega)]
    rw [heq]
    exact ⟨rfl, hpool⟩
  · have hul : (s₁.bm.ul : ℤ) < 263848 := by
      have hpow : 2 ^ (s₁.bm.dep - 1) ≤ 2 ^ 7 := Nat.pow_le_pow_right (by decide) (by omega)
      rw [L.ul]
      omega
    have hneg := budRndup_neg L hul
    simp only [mmInit, if_neg hmin', hinit, if_pos hneg]
    exact (by decide : (-1 : ℤ) < 0)

end Init

/-! ## The start of a run -/

/-- A successful `mm_init` has set up a buddy with order 8 and the pools behind it. -/
theorem mmInit_post {s : Mm} {n : ℤ} (hfit : n < 0x3E000000) (hok : 0 ≤ (mmInit s n).1) :
    ∃ (m : ℕ) (h : m < 0x3E000000) (s₁ : Mm), n = m ∧ InitPost (mmHeap m h) s s₁ ∧ 9 ≤ s₁.bm.dep ∧
      PoolPost (budAlloc P32.listOps s₁ 263848).1.val (524288 : ℕ)
        (budAlloc P32.listOps s₁ 263848).2 (mmInit s n).2 := by
  have hmin : 131072 ≤ n := by
    by_contra hlt
    have : n < MM_HEAP_MIN_SIZE := by
      simp only [MM_HEAP_MIN_SIZE]
      omega
    rw [mmInit, if_pos this] at hok
    exact absurd hok (show ¬ (0 : ℤ) ≤ -1 by decide)
  obtain ⟨m, rfl⟩ := Int.eq_ofNat_of_zero_le (show 0 ≤ n by omega)
  have hm : m < 0x3E000000 := by omega
  have hpost := _budInit_spec s (mmHeap m hm)
    ((_budInit_ok_iff s (mmHeap m hm)).2 ⟨show vmmPhyToVirt MM_BASE ≠ 0 by decide,
      show 131072 ≤ m by omega⟩)
  obtain ⟨s₁, hs₁⟩ : ∃ s₁, (_budInit s (mmHeap m hm).base (mmHeap m hm).size 2048).2 = s₁ := ⟨_, rfl⟩
  have heq := mmInit_eq (by omega) hs₁
  rw [hs₁] at hpost
  split_ifs at heq with hdep
  · exact ⟨m, hm, s₁, rfl, hpost, hdep, heq.2⟩
  · exact absurd hok (not_le.2 heq)

theorem InitPost.high {n : ℕ} {h : n < 0x3E000000} {s s₁ : Mm} (hpost : InitPost (mmHeap n h) s s₁) :
    MM_BASE + s₁.bm.heapSize + 8192 ≤ s₁.bm.heapBase := by
  have L := hpost.layout
  have hbase : 0xC2000000 < (s₁.bud 0).bmp.base := hpost.base_lt
  have hend : s₁.bm.heapBase + s₁.bm.heapSize ≤ 0xC2000000 + n := hpost.end_le
  have := L.base_hdr 0 L.dep_pos
  have := L.hdr_le
  unfold MM_BASE
  omega

section Start

variable {s : Mm} (hfnum : s.lazy.fnum = 0) (hunum : s.lazy.unum = 0) {n : ℤ}
  (hfit : n < 0x3E000000) (hok : 0 ≤ (mmInit s n).1)

include hfnum hunum hfit hok

theorem mmInit_layout : MmLayout (mmInit s n).2 := by
  obtain ⟨m, hm, s₁, -, hpost, -, hpool⟩ := mmInit_post hfit hok
  have hhigh := hpost.high
  have hge := hpost.heap_ge
  have hsame : Same s₁ (budAlloc P32.listOps s₁ 263848).2 := by
    rw [budAlloc_init]
    exact (_budAlloc_same s₁ 263848).ite_code (-4)
  have hlazy : (mmInit s n).2.lazy = s₁.lazy := hpool.lazy.trans hsame.lazy
  have hbm : (mmInit s n).2.bm = s₁.bm := hpool.bm.trans hsame.bm
  refine ⟨?_, hpool.inv.layout, ?_, ?_, ?_, ?_⟩
  · refine SameBud.layout (s := s₁) ⟨hbm, fun i => ?_, fun i => ?_⟩ hpost.layout
    · rw [hpool.bud, hsame.num]
    · rw [hpool.bud, hsame.bmp]
  · rw [hlazy, hpost.lazy]
    exact hfnum
  · rw [hlazy, hpost.lazy]
    exact hunum
  · rw [hlazy, hpost.lazy]
    have : 31 ≤ (s₁.bm.heapSize : ℤ) / MM_PAGE_SIZE - 1 := by
      unfold MM_PAGE_SIZE
      omega
    show min ((s₁.bm.heapSize : ℤ) / MM_PAGE_SIZE - 1) 31 = 31
    unfold min
    omega
  · rw [hbm]
    exact hhigh

omit hfnum hunum in
/-- The buddy has the order of the pools. -/
theorem mmInit_dep : 9 ≤ (mmInit s n).2.bm.dep := by
  obtain ⟨m, hm, s₁, -, hpost, hdep, hpool⟩ := mmInit_post hfit hok
  have hsame : Same s₁ (budAlloc P32.listOps s₁ 263848).2 := by
    rw [budAlloc_init]
    exact (_budAlloc_same s₁ 263848).ite_code (-4)
  rwa [hpool.bm, hsame.bm]

/-- Over orders without a whole number of bitmap words the pools get a block of the buddy. -/
theorem mmInit_inv (hpads : PadsEvery n) : ∃ pb, MmInv (mmInit s n).2 pb [] [] fun _ => [] := by
  have hlayout := mmInit_layout hfnum hunum hfit hok
  obtain ⟨m, hm, s₁, rfl, hpost, hdep, hpool⟩ := mmInit_post hfit hok
  have L := hpost.layout
  have ho : 8 < s₁.bm.dep := by omega
  have hpad : Padded s₁ := fun i hi => by
    rw [L.num i hi]
    exact hpost.pads_iff.1 hpads i hi
  have hclass := isClass_init hdep
  have hfree : HasFree s₁ 263848 := by
    have hnum := L.num_ge 8 ho
    have hbits := L.num_le_bits ho
    refine ⟨8, hclass, 0, by omega, ?_⟩
    rw [← Bool.not_eq_true, hpost.bit 8 ho 0 (by omega), padStart_of_not_dvd (hpad 8 ho)]
    omega
  obtain ⟨pb, hclass', hptr, -, hinv, hsame, -⟩ :=
    budGrant_spec (budInv_init hpost hpad) (by decide) hfree
  obtain hord : pb.ord = 8 := hclass'.unique hclass
  have hne := BudInv.addr_pos L pb
  have hcall : budAlloc P32.listOps s₁ 263848 = _budAlloc s₁ 263848 := by
    rw [budAlloc_init, if_neg (by rw [hptr]; exact Nat.ne_of_gt hne)]
  rw [hcall, hptr, Ptr.val_addr] at hpool
  have hge : s₁.bm.heapBase ≤ s₁.blockAddr pb := Nat.le_add_right _ _
  have haddr : (mmInit s m).2.blockAddr pb = s₁.blockAddr pb := by
    rw [Mm.blockAddr, Mm.blockAddr, hpool.bm, hsame.bm]
  have hlen : 2048 * 2 ^ pb.ord = 524288 := by rw [hord]; rfl
  refine ⟨pb, hlayout, ?_, hpool.inv, by rw [hpool.secBase, haddr], ?_, ?_, ?_, by simp⟩
  · refine hinv.of_frame ⟨hpool.bm, fun i => by rw [hpool.bud], fun i => by rw [hpool.bud]⟩
      (fun i => by rw [hpool.bud]) (hpool.frame.mono ?_ le_rfl)
    rw [hsame.bm]
    exact hge
  · rw [hpool.secSize, hlen, if_neg (by decide)]
    decide
  · rw [hpool.secBase, hpool.base_eq]
    omega
  · rw [hpool.secBase, hlen]
    exact hpool.end_le

omit hfnum hunum in
/-- No pool starts exhausted. -/
theorem mmInit_pools {i : ℕ} (hi : i < 7) : ((mmInit s n).2.pools i).frees ≠ 0 := by
  obtain ⟨m, hm, s₁, -, -, -, hpool⟩ := mmInit_post hfit hok
  have L := hpool.inv.layout
  have hfrees := hpool.inv.frees hi
  have hshare := hpool.share (by decide) i hi
  have hpos := stride_pos i
  have hcap : 1 ≤ (mmInit s n).2.cap i := by
    rw [Mm.cap, L.chunk i hi, show 16 * 2 ^ i + POOL_HEADER_SIZE = stride i from rfl]
    refine (Nat.one_le_div_iff hpos).2 ?_
    unfold share at hshare
    omega
  rw [List.length_nil] at hfrees
  omega

end Start

/-- One block leaves something free in every order. -/
theorem BudInv.clear_of_one {s : Mm} {b : Block} (h : BudInv s [b]) {o : ℕ} (ho : o < s.bm.dep) :
    ∃ k < s.bits o, s.bit o k = false := by
  have L := h.layout
  have hnum := L.num_ge o ho
  have hbits := L.num_le_bits ho
  obtain ⟨hord, hidx⟩ := h.real b (List.mem_singleton_self b)
  suffices hk : ∃ k < (s.bud o).num, ¬ Block.Overlap ⟨o, k⟩ b by
    obtain ⟨k, hk, hov⟩ := hk
    refine ⟨k, by omega, ?_⟩
    rw [← Bool.not_eq_true, h.bits o ho k (by omega), used_cons, not_or, not_or]
    exact ⟨by omega, hov, not_used_nil o k⟩
  rcases le_total b.ord o with hle | hle
  · -- the block lies in a single block of the order
    have hov (k : ℕ) : Block.Overlap ⟨o, k⟩ b ↔ b.idx / 2 ^ (o - b.ord) = k := by
      rw [Block.overlap_comm, Block.overlap_iff (c := ⟨o, k⟩) hle]
    by_cases h0 : b.idx / 2 ^ (o - b.ord) = 0
    · exact ⟨1, by omega, by rw [hov]; omega⟩
    · exact ⟨0, by omega, by rw [hov]; omega⟩
  · -- the block is made up of blocks of the order
    have hpos : 0 < 2 ^ (b.ord - o) := by positivity
    have hov (k : ℕ) : Block.Overlap ⟨o, k⟩ b ↔ k / 2 ^ (b.ord - o) = b.idx :=
      Block.overlap_iff (b := ⟨o, k⟩) hle
    by_cases h0 : b.idx = 0
    · have hb := L.num_ge b.ord hord
      have hdiv := L.num_add (i := o) (d := b.ord - o) (by omega)
      rw [show o + (b.ord - o) = b.ord by omega] at hdiv
      refine ⟨2 ^ (b.ord - o), ?_, ?_⟩
      · by_contra hge
        have : (s.bud o).num / 2 ^ (b.ord - o) ≤ 1 :=
          Nat.div_le_of_le_mul (by omega)
        omega
      · rw [hov, Nat.div_self hpos]
        omega
    · refine ⟨0, by omega, ?_⟩
      rw [hov, Nat.zero_div]
      omega

/-- `main` passes 512 MB. -/
theorem mmInit_ok_main (s : Mm) : 0 ≤ (mmInit s 0x20000000).1 := by
  have hm : 0x20000000 < 0x3E000000 := by decide
  have hpost := _budInit_spec s (mmHeap 0x20000000 hm) (mainHeap_ok s)
  obtain ⟨s₁, hs₁⟩ : ∃ s₁, (_budInit s (mmHeap _ hm).base (mmHeap _ hm).size 2048).2 = s₁ := ⟨_, rfl⟩
  have heq := mmInit_eq (by decide) hs₁
  rw [hs₁] at hpost
  have hdep := hpost.dep
  rw [← hpost.heapSize] at hdep
  have : (11 : ℤ) = s₁.bm.dep := by
    rw [← hdep]
    show (11 : ℤ) = budGetDep (budGetRealSize 2048 32 (0x20000000 : ℕ) 2048) 2048
    decide +kernel
  rw [if_pos (by omega)] at heq
  exact heq.1.ge

theorem padsEvery_main : PadsEvery 0x20000000 := by decide +kernel

end YohdaOS

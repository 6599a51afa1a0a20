import YohdaOS.Pool.Layout
import YohdaOS.Lib.Chain
import YohdaOS.Lib.Recycle

/-!
# The pools against slots that are handed out

A class hands out its slots in order and reuses those that came back.  Its head is the first of the
freed headers, which are chained up to the first header never used; that one, like all behind it,
still holds zero.
-/

namespace YohdaOS

open ByteMem Chains Recycle

/-- Class `i` of the state is in the abstract state `r`. -/
structure ClassRep (s : Mm) (i : ℕ) {cap : ℕ} (r : Slots cap) : Prop where
  cap_eq : s.cap i = cap
  chain : Chain (load32 s.mem) (s.pools i).head (r.freed.map (s.slot i)) (s.slot i r.frontier)
  fresh : ∀ k, r.frontier ≤ k → k < cap → load32 s.mem (s.slot i k) = 0
  frees : (s.pools i).frees + r.used.length = cap

/-- The live chunks of class `i` are those at the addresses `live`. -/
def ClassOk (s : Mm) (i : ℕ) (live : List ℕ) : Prop :=
  ∃ cap, ∃ r : Slots cap, ClassRep s i r ∧ live = r.used.map fun k => s.slot i k + 4

/-- The state describes the live chunks `live i` of every class `i`. -/
structure PoolInv (s : Mm) (live : ℕ → List ℕ) : Prop where
  layout : PoolLayout s
  ok : ∀ i < 7, ClassOk s i (live i)

/-- Class `i` is the one whose chunk `size` needs. -/
def IsPoolClass (size : ℤ) (i : ℕ) : Prop := IsClassOf 16 7 size i

/-- The head of a class is the header of the slot that comes next. -/
theorem ClassRep.head_eq {s : Mm} {i cap : ℕ} {r : Slots cap} (hr : ClassRep s i r) :
    (s.pools i).head = s.slot i r.next := by
  rw [hr.chain.eq_headD, Slots.next]
  cases r.freed <;> rfl

/-! ## Classes -/

/-- A size up to the upper limit of the pools has a class. -/
theorem exists_isPoolClass {size : ℤ} (hle : size ≤ 1024) : ∃ i, IsPoolClass size i :=
  exists_isClassOf 16 7 (by decide) (by simpa using hle)

theorem poolGetOrdLoop_spec (n i d : ℕ) (hd : d < n) (hn : i + d < 7) :
    poolGetOrdLoop (16 * 2 ^ (i + d)) n i (16 * 2 ^ i : ℕ) = (i + d : ℕ) := by
  have hpow {k : ℕ} (hk : k ≤ 7) : 2 ^ k ≤ 2 ^ 7 := Nat.pow_le_pow_right (by decide) hk
  have hself {k : ℕ} (hk : k ≤ 7) : toU32 (16 * 2 ^ k : ℕ) = 16 * 2 ^ k := by
    have := hpow hk
    exact toU32_natCast (by omega)
  induction d generalizing n i with
  | zero =>
    obtain ⟨n, rfl⟩ := Nat.exists_eq_succ_of_ne_zero (by omega : n ≠ 0)
    rw [Nat.add_zero, poolGetOrdLoop, hself (by omega), if_pos rfl]
  | succ d ih =>
    obtain ⟨n, rfl⟩ := Nat.exists_eq_succ_of_ne_zero (by omega : n ≠ 0)
    have hlt : 2 ^ i < 2 ^ (i + (d + 1)) := Nat.pow_lt_pow_right (by decide) (by omega)
    have hnext : toInt (((16 * 2 ^ i : ℕ) : ℤ) * 2) = (16 * 2 ^ (i + 1) : ℕ) :=
      toInt_double_chunk (show 16 * 2 ^ 7 < 2147483648 by decide) (by omega)
    rw [poolGetOrdLoop, hself (by omega), if_neg (by omega), hnext,
      show i + (d + 1) = i + 1 + d by omega]
    exact ih n (i + 1) (by omega) (by omega)

section Classes

variable {s : Mm} (L : PoolLayout s)

include L

/-- `pl_get_chunk` and `pool_get_ord` find the class of a size. -/
theorem plGetChunk_of_class {size : ℤ} (hpos : 1 ≤ size) {i : ℕ} (hclass : IsPoolClass size i) :
    plGetChunk s size = (16 * 2 ^ i : ℕ) ∧ poolGetOrd s (16 * 2 ^ i) = i := by
  have hi := hclass.lt
  have hpow : 2 ^ i ≤ 2 ^ 6 := Nat.pow_le_pow_right (by decide) (by omega)
  have hge : 1 ≤ 2 ^ i := Nat.one_le_two_pow
  constructor
  · rw [plGetChunk, if_neg (by omega), L.num, L.chunk 0 (by decide)]
    exact chunkLoop_of_class (c := 16) (i := 0) (n := 7) (by decide) (Nat.zero_le i) (by omega)
      hclass.le hclass.least
  · rw [poolGetOrd, L.llc, L.ulc, if_neg, L.num]
    · simpa using poolGetOrdLoop_spec 7 0 i hi (by omega)
    · rw [show toU32 16 = 16 from rfl, show toU32 1024 = 1024 from rfl]
      omega

/-- A size past the upper limit of the pools is refused. -/
theorem plAlloc_large {size : ℤ} (hsize : 1024 < size) : plAlloc s size = (.code (-1), s) := by
  have hneg : plGetChunk s size = -1 := by
    rw [plGetChunk, if_neg (by omega), L.num, L.chunk 0 (by decide)]
    refine chunkLoop_eq_neg (c := 16) (i := 0) (n := 7) (by decide) fun k hk => ?_
    have : 2 ^ k ≤ 2 ^ 6 := Nat.pow_le_pow_right (by decide) (by omega)
    omega
  simp only [plAlloc, hneg, if_neg (show ¬ size < 1 by omega), if_pos (show (-1 : ℤ) < 0 by decide)]

/-- `pool_get_id` finds the class whose area an address lies in. -/
theorem poolGetId_of_area {i x : ℕ} (hi : i < 7) (hlo : (s.pools i).base ≤ x)
    (hhi : x < (s.pools i).base + (s.pools i).size) : poolGetId s x = i := by
  have hend := L.area_end hi
  have hfits := L.fits
  have hdiff (j : ℕ) (hj : (s.pools j).base ≤ x) :
      toU32 ((x : ℤ) - (s.pools j).base) = x - (s.pools j).base := by
    rw [← Int.ofNat_sub hj, toU32_natCast (by omega)]
  have hfind : (List.range 7).find? (fun j =>
      decide (toU32 ((x : ℤ) - (s.pools j).base) < (s.pools j).size)) = some i := by
    rw [List.find?_range_eq_some]
    refine ⟨?_, List.mem_range.2 hi, fun j hj => ?_⟩
    · rw [hdiff i hlo, decide_eq_true_eq]
      omega
    · have := L.area_le hj hi
      rw [hdiff j (by omega), Bool.not_eq_true', decide_eq_false_iff_not]
      omega
  rw [poolGetId, L.num, show (7 : ℤ).toNat = 7 from rfl, hfind]

theorem poolGetId_slot {i k : ℕ} (hi : i < 7) (hk : k < s.cap i) : poolGetId s (s.slot i k) = i :=
  poolGetId_of_area L hi (Nat.le_add_right _ _) (by
    have := L.slot_end hi hk
    have := stride_pos i
    omega)

/-- The head that replaces the slot handed out starts the chain that is left. -/
theorem ClassRep.chain_take {i : ℕ} {r : Slots (s.cap i)} (hr : ClassRep s i r) (hi : i < 7)
    (hused : r.used.length < s.cap i) :
    Chain (load32 s.mem)
      (if load32 s.mem (s.slot i r.next) = 0 then u32 (s.slot i r.next + stride i)
        else load32 s.mem (s.slot i r.next))
      ((r.take hused).freed.map (s.slot i)) (s.slot i (r.take hused).frontier) := by
  have hnext := r.next_lt hused
  have hch := hr.chain
  rw [show (r.take hused).frontier = if r.freed = [] then r.frontier + 1 else r.frontier from rfl,
    show (r.take hused).freed = r.freed.tail from rfl]
  cases hf : r.freed with
  | nil =>
    -- the header was never used: the next one lies a stride behind it
    have hend := L.slot_end hi hnext
    have hfit := lt_of_le_of_lt (L.area_end hi) L.fits
    have hzero := hr.fresh r.next (r.next_eq_of_nil hf).ge hnext
    rw [List.tail_nil, List.map_nil, chain_nil, if_pos rfl, if_pos hzero, ← r.next_eq_of_nil hf,
      u32_of_lt (lt_of_le_of_lt hend hfit), Mm.slot, Mm.slot, Nat.mul_succ, Nat.add_assoc]
  | cons x l =>
    have hx : r.next = x := by rw [Slots.next, hf, List.headD_cons]
    rw [hf, List.map_cons, chain_cons] at hch
    have hlink : load32 s.mem (s.slot i x) ≠ 0 := by
      rw [hch.2.eq_headD]
      cases l <;> exact Nat.ne_of_gt (L.slot_pos hi _)
    rw [List.tail_cons, if_neg (List.cons_ne_nil x l), hx, if_neg hlink]
    exact hch.2

end Classes

/-- The counter of a class and its live chunks make up its capacity. -/
theorem PoolInv.frees {s : Mm} {live : ℕ → List ℕ} (h : PoolInv s live) {i : ℕ} (hi : i < 7) :
    (s.pools i).frees + (live i).length = s.cap i := by
  obtain ⟨cap, r, hr, hlive⟩ := h.ok i hi
  rw [hlive, List.length_map, hr.cap_eq]
  exact hr.frees

/-! ## Frame -/

/-- A class keeps its state while its descriptor and its headers stay. -/
theorem ClassOk.congr {s s' : Mm} {i : ℕ} {live : List ℕ} (h : ClassOk s i live)
    (hpool : s'.pools i = s.pools i)
    (hmem : ∀ k < s.cap i, load32 s'.mem (s.slot i k) = load32 s.mem (s.slot i k)) :
    ClassOk s' i live := by
  obtain ⟨cap, r, hr, hlive⟩ := h
  have hslot : s'.slot i = s.slot i := by
    funext k
    rw [Mm.slot, Mm.slot, hpool]
  have hcap : s'.cap i = s.cap i := by rw [Mm.cap, Mm.cap, hpool]
  rw [hr.cap_eq] at hmem
  refine ⟨cap, r, ⟨hcap.trans hr.cap_eq, ?_, fun k hk hkc => ?_, by rw [hpool]; exact hr.frees⟩, ?_⟩
  · rw [hslot, hpool]
    refine hr.chain.congr fun x hx => ?_
    obtain ⟨k, hk, rfl⟩ := List.mem_map.1 hx
    exact hmem k (lt_of_lt_of_le (r.freed_lt hk) r.frontier_le)
  · rw [hslot, hmem k hkc]
    exact hr.fresh k hk hkc
  · rw [hslot]
    exact hlive

/-- Writes that spare every header keep the invariant. -/
theorem PoolInv.of_headers {s s' : Mm} {live : ℕ → List ℕ} (h : PoolInv s live)
    (hpmm : s'.pmm = s.pmm) (hpools : s'.pools = s.pools)
    (hmem : ∀ i < 7, ∀ k < s.cap i, load32 s'.mem (s.slot i k) = load32 s.mem (s.slot i k)) :
    PoolInv s' live :=
  ⟨h.layout.congr hpmm hpools, fun i hi => (h.ok i hi).congr (by rw [hpools]) (hmem i hi)⟩

/-! ## Allocation -/

/-- `pl_alloc` hands out the next slot of the class. -/
theorem plAlloc_spec {s : Mm} {live : ℕ → List ℕ} (h : PoolInv s live) {size : ℤ} (hpos : 1 ≤ size)
    {i : ℕ} (hclass : IsPoolClass size i) (hcap : (live i).length < s.cap i) :
    ∃ k < s.cap i, (plAlloc s size).1 = .addr (s.slot i k + 4) ∧ s.slot i k + 4 ∉ live i ∧
      PoolInv (plAlloc s size).2 (Function.update live i ((s.slot i k + 4) :: live i)) ∧
      PoolSame s (plAlloc s size).2 ∧ (plAlloc s size).2.mem = s.mem := by
  have L := h.layout
  have hi := hclass.lt
  obtain ⟨hchunk, hord⟩ := plGetChunk_of_class L hpos hclass
  obtain ⟨cap, r, hr, hlive⟩ := h.ok i hi
  obtain rfl := hr.cap_eq
  have hused : r.used.length < s.cap i := by
    rw [hlive, List.length_map] at hcap
    exact hcap
  have hnext := r.next_lt hused
  have hpow : 2 ^ i ≤ 2 ^ 6 := Nat.pow_le_pow_right (by decide) (by omega)
  have hend := L.slot_end hi hnext
  have hstride := stride_pos i
  have hfit := lt_of_le_of_lt (L.area_end hi) L.fits
  have hhead := hr.head_eq
  set p := s.pools i with hp
  set head' := if load32 s.mem (s.slot i r.next) = 0 then u32 (s.slot i r.next + stride i)
    else load32 s.mem (s.slot i r.next) with hhead'
  set s' : Mm := { s with
    pools := Function.update s.pools i { p with head := head', frees := u32 (p.frees + 4294967295) } }
    with hs'
  have hres : plAlloc s size = (.addr (s.slot i r.next + 4), s') := by
    have hneg (n : ℕ) : ¬ (n : ℤ) < 0 := by omega
    have hstr : 4 ≤ stride i := Nat.le_add_left _ _
    simp only [plAlloc, if_neg (show ¬ size < 1 by omega), hchunk, if_neg (hneg _),
      toU32_natCast (show 16 * 2 ^ i < 4294967296 by omega), hord, Int.toNat_natCast, ← hp, hhead,
      POOL_HEADER_SIZE, u32_of_lt (show s.slot i r.next + 4 < 4294967296 by omega)]
    rw [hs', hhead', hp, L.chunk i hi, stride]
  have hsame : PoolSame s s' := poolSame_update s _ i _ _
  have hpi : s'.pools i = { p with head := head', frees := u32 (p.frees + 4294967295) } :=
    Function.update_self _ _ _
  have hfrees' : u32 (p.frees + 4294967295) + (r.used.length + 1) = s.cap i := by
    have hfr := hr.frees
    have hlt := L.cap_lt hi
    rw [← hp] at hfr
    unfold u32
    omega
  rw [hres]
  refine ⟨r.next, hnext, rfl, ?_, ⟨hsame.layout L, fun j hj => ?_⟩, hsame, rfl⟩
  · rw [hlive, List.mem_map]
    rintro ⟨k, hk, heq⟩
    obtain rfl := PoolLayout.slot_injective (Nat.add_right_cancel heq)
    exact r.next_not_mem hk
  · by_cases hji : j = i
    · subst hji
      rw [Function.update_self]
      refine ⟨s.cap j, r.take hused, ⟨hsame.cap j, ?_, fun k hk hkc => ?_, ?_⟩, ?_⟩
      · rw [hsame.slot, hpi]
        exact hr.chain_take L hi hused
      · rw [hsame.slot]
        refine hr.fresh k (le_trans ?_ hk) hkc
        show r.frontier ≤ if r.freed = [] then r.frontier + 1 else r.frontier
        split_ifs <;> omega
      · rw [hpi]
        exact hfrees'
      · rw [hlive, hsame.slot]
        rfl
    · rw [Function.update_of_ne hji]
      exact (h.ok j hj).congr (Function.update_of_ne hji _ _) fun k _ => rfl

/-! ## Release -/

/-- A live chunk lies behind the header of a slot. -/
theorem PoolInv.slot_of_mem {s : Mm} {live : ℕ → List ℕ} (h : PoolInv s live) {i a : ℕ}
    (hi : i < 7) (ha : a ∈ live i) : ∃ k < s.cap i, a = s.slot i k + 4 := by
  obtain ⟨cap, r, hr, hlive⟩ := h.ok i hi
  rw [hlive] at ha
  obtain ⟨k, hk, rfl⟩ := List.mem_map.1 ha
  exact ⟨k, by rw [hr.cap_eq]; exact lt_of_lt_of_le (r.used_lt hk) r.frontier_le, rfl⟩

/-- A chunk that is not live meets no live one. -/
theorem PoolInv.apart {s : Mm} {live : ℕ → List ℕ} (h : PoolInv s live) {i k : ℕ} (hi : i < 7)
    (hk : k < s.cap i) (hnew : s.slot i k + 4 ∉ live i) {j b : ℕ} (hj : j < 7) (hb : b ∈ live j) :
    ¬ Meets (s.slot i k + 4) (16 * 2 ^ i) b (16 * 2 ^ j) := by
  obtain ⟨l, hl, rfl⟩ := h.slot_of_mem hj hb
  have hne : ¬ (i = j ∧ k = l) := by
    rintro ⟨rfl, rfl⟩
    exact hnew hb
  have hapart := h.layout.slot_apart hi hj hk hl hne
  have hstr (j : ℕ) : stride j = 16 * 2 ^ j + 4 := rfl
  rw [hstr, hstr] at hapart
  unfold Meets
  omega

/-- `pl_free` takes back the slot of a live chunk. -/
theorem plFree_spec {s : Mm} {live : ℕ → List ℕ} (h : PoolInv s live) {i a : ℕ} (hi : i < 7)
    (ha : a ∈ live i) :
    PoolInv (plFree s a) (Function.update live i ((live i).erase a)) ∧ PoolSame s (plFree s a) ∧
      Frame (a - 4) a s.mem (plFree s a).mem := by
  have L := h.layout
  obtain ⟨cap, r, hr, hlive⟩ := h.ok i hi
  obtain rfl := hr.cap_eq
  rw [hlive] at ha
  obtain ⟨k, hk, rfl⟩ := List.mem_map.1 ha
  have hkcap : k < s.cap i := lt_of_lt_of_le (r.used_lt hk) r.frontier_le
  have hkfreed : k ∉ r.freed := fun hc => List.disjoint_of_nodup_append r.nodup hc hk
  have hlt := L.slot_lt hi hkcap.le
  set p := s.pools i with hp
  set s' : Mm := { s with
    mem := store32 s.mem (s.slot i k) p.head
    pools := Function.update s.pools i
      { p with head := s.slot i k, frees := u32 (p.frees + 1) } } with hs'
  have hres : plFree s (s.slot i k + 4) = s' := by
    have hhdr : toU32 (((s.slot i k + 4 : ℕ) : ℤ) - POOL_HEADER_SIZE) = s.slot i k := by
      rw [show ((s.slot i k + 4 : ℕ) : ℤ) - POOL_HEADER_SIZE = (s.slot i k : ℤ) by
        simp only [POOL_HEADER_SIZE]
        omega]
      exact toU32_natCast hlt
    have hneg : ¬ (i : ℤ) < 0 := by omega
    simp only [plFree, if_neg (Nat.succ_ne_zero _), hhdr, poolGetId_slot L hi hkcap, if_neg hneg,
      Int.toNat_natCast]
    rfl
  have hsame : PoolSame s s' := poolSame_update s _ i _ _
  have hpi : s'.pools i = { p with head := s.slot i k, frees := u32 (p.frees + 1) } :=
    Function.update_self _ _ _
  -- only the header of the slot is written
  have hload (j l : ℕ) (hj : j < 7) (hl : l < s.cap j) (hne : ¬ (i = j ∧ k = l)) :
      load32 s'.mem (s.slot j l) = load32 s.mem (s.slot j l) := by
    have := L.slot_apart hi hj hkcap hl hne
    have hi4 : 4 ≤ stride i := Nat.le_add_left _ _
    have hj4 : 4 ≤ stride j := Nat.le_add_left _ _
    exact load32_store32_of_disjoint _ _ (by omega)
  have hheadlt : p.head < 4294967296 := by
    rw [hp, hr.head_eq]
    exact L.slot_lt hi (r.next_le.trans r.frontier_le)
  have hfrees' : u32 (p.frees + 1) + (r.used.erase k).length = s.cap i := by
    have hfr := hr.frees
    have hcap := L.cap_lt hi
    have hlen := List.length_erase_of_mem hk
    have hpos := List.length_pos_of_mem hk
    rw [← hp] at hfr
    unfold u32
    omega
  have herase : (r.used.map fun k => s.slot i k + 4).erase (s.slot i k + 4) =
      (r.used.erase k).map fun k => s.slot i k + 4 := by
    refine (List.map_erase (fun x y hxy => ?_) _).symm
    exact PoolLayout.slot_injective (Nat.add_right_cancel hxy)
  rw [hres]
  refine ⟨⟨hsame.layout L, fun j hj => ?_⟩, hsame, ?_⟩
  · by_cases hji : j = i
    · subst hji
      rw [Function.update_self, hlive, herase]
      refine ⟨s.cap j, r.put hk, ⟨hsame.cap j, ?_, fun l hl hlc => ?_, ?_⟩, ?_⟩
      · rw [hsame.slot, hpi]
        show Chain (load32 s'.mem) (s.slot j k) ((k :: r.freed).map (s.slot j))
          (s.slot j r.frontier)
        rw [List.map_cons, chain_cons]
        refine ⟨rfl, ?_⟩
        rw [show load32 s'.mem (s.slot j k) = p.head from load32_store32 _ _ hheadlt]
        refine hr.chain.congr fun x hx => ?_
        obtain ⟨l, hl, rfl⟩ := List.mem_map.1 hx
        refine hload j l hj (lt_of_lt_of_le (r.freed_lt hl) r.frontier_le) ?_
        rintro ⟨-, rfl⟩
        exact hkfreed hl
      · have hfl : r.frontier ≤ l := hl
        have hkf := r.used_lt hk
        rw [hsame.slot, hload j l hj hlc (by omega)]
        exact hr.fresh l hfl hlc
      · rw [hpi]
        exact hfrees'
      · rw [hsame.slot]
        rfl
    · rw [Function.update_of_ne hji]
      refine (h.ok j hj).congr (Function.update_of_ne hji _ _) fun l hl => hload j l hj hl ?_
      rintro ⟨rfl, -⟩
      exact hji rfl
  · rw [Nat.add_sub_cancel]
    exact frame_store32 _ _ _

/-- Writing into the bytes of a live chunk keeps the invariant. -/
theorem PoolInv.write {s : Mm} {live : ℕ → List ℕ} (h : PoolInv s live) {i a : ℕ} (hi : i < 7)
    (ha : a ∈ live i) {m : Mem} (hm : Frame a (a + 16 * 2 ^ i) s.mem m) :
    PoolInv { s with mem := m } live := by
  have L := h.layout
  obtain ⟨k, hk, rfl⟩ := h.slot_of_mem hi ha
  refine h.of_headers rfl rfl fun j hj l hl => hm.load32 ?_
  have hstr : stride i = 16 * 2 ^ i + 4 := rfl
  have hj4 : 4 ≤ stride j := Nat.le_add_left _ _
  by_cases hne : i = j ∧ k = l
  · obtain ⟨rfl, rfl⟩ := hne
    omega
  · have := L.slot_apart hi hj hk hl hne
    omega

end YohdaOS

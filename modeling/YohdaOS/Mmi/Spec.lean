import YohdaOS.Buddy.Run
import YohdaOS.Mmi.Layout

/-!
# The two-level allocator

The pools live inside one block of the buddy.  `MmInv` says that this block, the blocks of the users
and the blocks that were lost to failed requests are what the buddy describes, and the chunks of the
users what the pools describe.  A call to one allocator does not disturb the other.
-/

namespace YohdaOS

open ByteMem BinaryBlocks

/-- The pools lie in `pb`; the users hold `blocks` and `chunks`; nobody holds `lost`. -/
structure MmInv (s : Mm) (pb : Block) (lost blocks : List Block) (chunks : ℕ → List ℕ) :
    Prop where
  layout : MmLayout s
  bud : BudInv s (pb :: (lost ++ blocks))
  pool : PoolInv s chunks
  secBase : s.secBase = s.blockAddr pb
  secSize : s.secSize = (2048 * 2 ^ pb.ord : ℕ)
  area_lo : s.secBase ≤ (s.pools 0).base
  area_hi : (s.pools 6).base + (s.pools 6).size ≤ s.secBase + 2048 * 2 ^ pb.ord
  big : ∀ b ∈ blocks, 0 < b.ord

section Region

variable {s : Mm} {pb : Block} {lost blocks : List Block} {chunks : ℕ → List ℕ}
  (h : MmInv s pb lost blocks chunks)

include h

theorem MmInv.sec_bounds : s.bm.heapBase ≤ s.secBase ∧
    s.secBase + 2048 * 2 ^ pb.ord ≤ s.bm.heapBase + s.bm.heapSize := by
  obtain ⟨hord, hidx⟩ := h.bud.real pb List.mem_cons_self
  rw [h.secBase]
  exact ⟨Nat.le_add_right _ _, h.layout.buddy.blockAddr_end hord hidx⟩

/-- The slots of the pools lie in the block of the pools. -/
theorem MmInv.slot_bounds {i k : ℕ} (hi : i < 7) (hk : k < s.cap i) : s.secBase ≤ s.slot i k ∧
    s.slot i k + stride i ≤ s.secBase + 2048 * 2 ^ pb.ord := by
  have L := h.layout.pools
  have hlo := h.area_lo
  have hhi := h.area_hi
  have hbase := L.base_le hi
  have hend := L.area_end hi
  have hslot := L.slot_end hi hk
  have hge : (s.pools i).base ≤ s.slot i k := Nat.le_add_right _ _
  omega

/-- `mm_where_is_addr` tests for the block of the pools. -/
theorem MmInv.where_eq {x : ℕ} (hx : x ≠ 0) : mmWhereIsAddr s x =
    if s.secBase ≤ x ∧ x < s.secBase + 2048 * 2 ^ pb.ord then .sec else .pri := by
  have hbounds := h.sec_bounds
  have hfits := h.layout.buddy.fits
  rw [mmWhereIsAddr, if_neg hx, h.secSize, toU32_natCast (by omega), u32_of_lt (by omega)]

theorem MmInv.where_chunk {i a : ℕ} (hi : i < 7) (ha : a ∈ chunks i) :
    mmWhereIsAddr s a = .sec ∧ poolGetId s (a - POOL_HEADER_SIZE) = i ∧ poolGetId s a = i := by
  obtain ⟨k, hk, rfl⟩ := h.pool.slot_of_mem hi ha
  have hslot := h.slot_bounds hi hk
  have hend := h.layout.pools.slot_end hi hk
  have hstr : stride i = 16 * 2 ^ i + 4 := rfl
  have hpow : 0 < 2 ^ i := by positivity
  have hge : (s.pools i).base ≤ s.slot i k := Nat.le_add_right _ _
  refine ⟨?_, poolGetId_slot h.layout.pools hi hk,
    poolGetId_of_area h.layout.pools hi (by omega) (by omega)⟩
  rw [h.where_eq (by omega), if_pos (by omega)]

/-- No block of a user meets the block of the pools. -/
theorem MmInv.block_apart {b : Block} (hb : b ∈ blocks) :
    ¬ Meets (s.blockAddr b) (2048 * 2 ^ b.ord) s.secBase (2048 * 2 ^ pb.ord) := by
  intro hmeet
  rw [h.secBase] at hmeet
  exact (List.pairwise_cons.1 h.bud.apart).1 b (List.mem_append_right _ hb)
    ((overlap_iff_meets s b pb).2 hmeet).symm

theorem MmInv.where_block {b : Block} (hb : b ∈ blocks) :
    mmWhereIsAddr s (s.blockAddr b) = .pri := by
  have hpos := BudInv.addr_pos h.layout.buddy b
  have hapart := h.block_apart hb
  have hlen : 0 < 2 ^ b.ord := by positivity
  rw [h.where_eq (by omega), if_neg]
  unfold Meets at hapart
  omega

/-! ## One allocator at a time -/

/-- The buddy works below the blocks, so the pools do not notice. -/
theorem MmInv.of_bud {s' : Mm} {lost' blocks' : List Block} (hsame : Same s s') {lo : ℕ}
    (hf : Frame lo s.bm.heapBase s.mem s'.mem) (hbud : BudInv s' (pb :: (lost' ++ blocks')))
    (hbig : ∀ b ∈ blocks', 0 < b.ord) : MmInv s' pb lost' blocks' chunks where
  layout := hsame.fixed.layout h.layout
  bud := hbud
  pool := h.pool.of_headers hsame.pmm hsame.pools fun i hi k hk => by
    have hslot := h.slot_bounds hi hk
    have hsec := h.sec_bounds
    exact hf.load32 (Or.inr (by omega))
  secBase := by rw [hsame.secBase, h.secBase, Mm.blockAddr, Mm.blockAddr, hsame.bm]
  secSize := by rw [hsame.secSize, h.secSize]
  area_lo := by rw [hsame.secBase, hsame.pools]; exact h.area_lo
  area_hi := by rw [hsame.secBase, hsame.pools]; exact h.area_hi
  big := hbig

/-- The pools work inside their block, so the buddy does not notice. -/
theorem MmInv.of_pool {s' : Mm} {chunks' : ℕ → List ℕ} (hsame : PoolSame s s') {hi : ℕ}
    (hf : Frame s.bm.heapBase hi s.mem s'.mem) (hpool : PoolInv s' chunks') :
    MmInv s' pb lost blocks chunks' where
  layout := hsame.fixed.layout h.layout
  bud := h.bud.of_frame hsame.sameBud (fun i => by rw [hsame.bud]) hf
  pool := hpool
  secBase := by rw [hsame.secBase, h.secBase, Mm.blockAddr, Mm.blockAddr, hsame.bm]
  secSize := by rw [hsame.secSize, h.secSize]
  area_lo := by rw [hsame.secBase, hsame.base]; exact h.area_lo
  area_hi := by rw [hsame.secBase, hsame.base, hsame.size]; exact h.area_hi
  big := h.big

/-! ## Requests -/

/-- `yalloc` hands out a chunk of a pool. -/
theorem yalloc_chunk {size : ℤ} (hpos : 1 ≤ size) {i : ℕ} (hclass : IsPoolClass size i)
    (hfree : (s.pools i).frees ≠ 0) :
    yalloc s size = plAlloc s size ∧ ∃ k < s.cap i,
      (yalloc s size).1 = .addr (s.slot i k + 4) ∧ s.slot i k + 4 ∉ chunks i ∧
      MmInv (yalloc s size).2 pb lost blocks
        (Function.update chunks i ((s.slot i k + 4) :: chunks i)) := by
  have hi := hclass.lt
  have hle := hclass.le
  have hpow : 2 ^ i ≤ 2 ^ 6 := Nat.pow_le_pow_right (by decide) (by omega)
  have hfrees := h.pool.frees hi
  obtain ⟨k, hk, hptr, hnew, hinv, hsame, hmem⟩ := plAlloc_spec h.pool hpos hclass (by omega)
  have heq : yalloc s size = plAlloc s size := by
    rw [yalloc_of_lt s hpos (by omega), if_neg (by rw [hptr]; exact Nat.succ_ne_zero _)]
  rw [heq]
  have hf : Frame s.bm.heapBase s.bm.heapBase s.mem (plAlloc s size).2.mem := by
    rw [hmem]
    exact Frame.refl _ _ _
  exact ⟨rfl, k, hk, hptr, hnew, h.of_pool hsame hf hinv⟩

/-- `yalloc` hands out a block of the buddy. -/
theorem yalloc_block {size : ℤ} (hsize : 2048 ≤ size) (hbig : 2048 < toInt size)
    (hfree : HasFree s (toInt size)) :
    ∃ b, IsClass s (toInt size) b.ord ∧ (yalloc s size).1 = .addr (s.blockAddr b) ∧
      MmInv (yalloc s size).2 pb lost (b :: blocks) chunks := by
  obtain ⟨b, hclass, hptr, -, hinv, hsame, hf⟩ := budGrant_spec h.bud (by omega) hfree
  have hne := BudInv.addr_pos h.layout.buddy b
  have heq : yalloc s size = _budAlloc s (toInt size) := by
    rw [yalloc_of_ge s hsize, budAlloc, if_neg (by omega), if_pos (show toInt size > MM_PAGE_SIZE from hbig),
      if_neg (by rw [hptr]; exact Nat.ne_of_gt hne)]
  have hord : 0 < b.ord := by
    rcases Nat.eq_zero_or_pos b.ord with h0 | h0
    · have := hclass.le
      rw [h0, pow_zero] at this
      omega
    · exact h0
  rw [heq]
  refine ⟨b, hclass, hptr, h.of_bud hsame hf (hinv.perm ?_) fun c hc => ?_⟩
  · exact (List.Perm.swap _ _ _).trans (List.Perm.cons _ List.perm_middle.symm)
  · rcases List.mem_cons.1 hc with rfl | hc
    · exact hord
    · exact h.big c hc

/-- A request that is narrowed to at most a page fails and loses a block. -/
theorem yalloc_lost {size : ℤ} (hsize : 2048 ≤ size) (hpos : 1 ≤ toInt size)
    (hle : toInt size ≤ 2048) (hfree : HasFree s (toInt size)) :
    ∃ b, (yalloc s size).1 = .code (-4) ∧
      MmInv (yalloc s size).2 pb (b :: lost) blocks chunks := by
  obtain ⟨o, hclass, hclear⟩ := hfree
  have hzero (size : ℤ) (hle : size ≤ 2048) : IsClass s size 0 :=
    ⟨h.layout.buddy.dep_pos, by simpa using hle, by simp⟩
  obtain rfl := hclass.unique (hzero _ hle)
  have hfree : HasFree s 372 := ⟨0, hzero 372 (by decide), hclear⟩
  obtain ⟨b, -, -, -, hinv, hsame, hf⟩ := budGrant_spec h.bud (by decide) hfree
  have hbud : BudInv (_budAlloc s 372).2 (pb :: (b :: lost ++ blocks)) :=
    hinv.perm (List.Perm.swap _ _ _)
  have hinv' := h.of_bud hsame hf hbud h.big
  rw [yalloc_page h.layout hsize hpos hle]
  generalize (_budAlloc s 372).2 = s' at hinv'
  exact ⟨b, rfl, hinv'⟩

/-! ## Releases -/

/-- `yfree` gives a block back to the buddy. -/
theorem yfree_block {b : Block} (hb : b ∈ blocks) :
    yfree s (s.blockAddr b) = some (_budFree s (s.blockAddr b)) ∧
      MmInv (_budFree s (s.blockAddr b)) pb lost (blocks.erase b) chunks := by
  have L := h.layout.buddy
  have hperm : (pb :: (lost ++ blocks)).Perm (b :: pb :: (lost ++ blocks.erase b)) :=
    calc (pb :: (lost ++ blocks)).Perm (pb :: (lost ++ b :: blocks.erase b)) :=
          (List.perm_cons_erase hb).append_left lost |>.cons pb
      _ |>.Perm (pb :: b :: (lost ++ blocks.erase b)) := List.perm_middle.cons pb
      _ |>.Perm (b :: pb :: (lost ++ blocks.erase b)) := List.Perm.swap _ _ _
  have hbud := h.bud.perm hperm
  obtain ⟨hord, hidx⟩ := hbud.real b List.mem_cons_self
  obtain ⟨hinv, hmarked⟩ := _budFree_spec hbud (b := b) List.mem_cons_self
  rw [List.erase_cons_head] at hinv
  have hne := BudInv.addr_pos L b
  have hchunk := budGetChunk_spec L hord
  have hhdr : load8 s.mem (budDecode s (s.blockAddr b)) = b.ord := by
    rw [(budDecode_spec L hord hidx).1]
    exact hbud.header b List.mem_cons_self
  have hpow : 2 ^ 1 ≤ 2 ^ b.ord := Nat.pow_le_pow_right (by decide) (h.big b hb)
  refine ⟨?_, h.of_bud hmarked.same (hmarked.frame.mono le_rfl L.hdr_le) hinv
    fun c hc => h.big c (List.mem_of_mem_erase hc)⟩
  have hge : s.bm.heapBase ≤ s.blockAddr b := Nat.le_add_right _ _
  simp only [yfree, if_neg (Nat.ne_of_gt hne), h.where_block hb, budFree, hhdr, hchunk]
  rw [if_neg (by omega), if_neg (by omega), if_neg (by simp only [MM_PAGE_SIZE]; omega)]

/-- `yfree` gives a chunk back to its pool. -/
theorem yfree_chunk {i a : ℕ} (hi : i < 7) (ha : a ∈ chunks i) :
    yfree s a = some (plFree s a) ∧
      MmInv (plFree s a) pb lost blocks (Function.update chunks i ((chunks i).erase a)) := by
  obtain ⟨hinv, hsame, hf⟩ := plFree_spec h.pool hi ha
  obtain ⟨hwhere, -⟩ := h.where_chunk hi ha
  obtain ⟨k, hk, rfl⟩ := h.pool.slot_of_mem hi ha
  have hslot := h.slot_bounds hi hk
  have hsec := h.sec_bounds
  refine ⟨?_, h.of_pool hsame (hf.mono (by omega) le_rfl) hinv⟩
  simp only [yfree, if_neg (Nat.succ_ne_zero _), hwhere]

/-! ## Users -/

theorem MmInv.write_block {b : Block} (hb : b ∈ blocks) {m : Mem}
    (hm : Frame (s.blockAddr b) (s.blockAddr b + 2048 * 2 ^ b.ord) s.mem m) :
    MmInv { s with mem := m } pb lost blocks chunks := by
  have hsame := same_withMem s m
  have hapart := h.block_apart hb
  have hge : s.bm.heapBase ≤ s.blockAddr b := Nat.le_add_right _ _
  refine ⟨hsame.fixed.layout h.layout,
    h.bud.of_frame hsame.toSameBud (fun _ => rfl) (hm.mono hge le_rfl),
    h.pool.of_headers rfl rfl fun i hi k hk => hm.load32 ?_, h.secBase, h.secSize, h.area_lo,
    h.area_hi, h.big⟩
  have hslot := h.slot_bounds hi hk
  have hstr : 4 ≤ stride i := Nat.le_add_left _ _
  unfold Meets at hapart
  omega

theorem MmInv.write_chunk {i a : ℕ} (hi : i < 7) (ha : a ∈ chunks i) {m : Mem}
    (hm : Frame a (a + 16 * 2 ^ i) s.mem m) :
    MmInv { s with mem := m } pb lost blocks chunks := by
  obtain ⟨k, hk, hak⟩ := h.pool.slot_of_mem hi ha
  have hslot := h.slot_bounds hi hk
  have hsec := h.sec_bounds
  refine h.of_pool (by constructor <;> intros <;> rfl) (hm.mono ?_ le_rfl) (h.pool.write hi ha hm)
  omega

end Region

end YohdaOS

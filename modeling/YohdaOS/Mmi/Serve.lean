import YohdaOS.Mmi.Run

/-!
# What `yalloc` serves

Callers test the result of `yalloc` for NULL, which it never returns.  The pools serve up to 1024
bytes and the buddy more than a page; the sizes in between reach a class of neither.
-/

namespace YohdaOS

open ByteMem BinaryBlocks

/-! ## Refusals -/

/-- The request is refused: the size is no size, or the allocator it is routed to has no class for
it, or nothing free in that class. -/
def Refused (s : Mm) (size : ℤ) : Prop :=
  size < 1 ∨ if size < mmGetPriLlc then ∀ i, IsPoolClass size i → (s.pools i).frees = 0
    else ∀ o, IsClass s size o → ∀ k < s.bits o, s.bit o k = true

/-- A refused request gets NULL, and everything else a caller gets is `size` bytes of the heap. -/
structure YallocOk (s : Mm) (size : ℤ) : Prop where
  null : Refused s size → (yalloc s size).1.val = 0
  inside : (yalloc s size).1.val ≠ 0 → s.bm.heapBase ≤ (yalloc s size).1.val ∧
    ((yalloc s size).1.val : ℤ) + size ≤ s.bm.heapBase + s.bm.heapSize

/-- A page is never handed out, although the buddy has a class for it. -/
theorem yalloc_page_size {s : Mm} (h : MmLayout s) : (yalloc s 2048).1 = .code (-4) := by
  rw [yalloc_page h le_rfl (by decide) (by decide)]

/-- A size for which the allocator has something free, other than a page, is served by a pool or by
an order above the first. -/
theorem served_cases {s : Mm} (h : MmLayout s) {size : ℤ} (hserved : ¬ Refused s size)
    (hpage : size ≠ 2048) :
    (1 ≤ size ∧ ∃ i, IsPoolClass size i ∧ (s.pools i).frees ≠ 0) ∨
      (2048 < size ∧ toInt size = size ∧ HasFree s size) := by
  unfold Refused mmGetPriLlc at hserved
  rw [not_or] at hserved
  obtain ⟨hpos, hfree⟩ := hserved
  by_cases hlt : size < 2048
  · rw [if_pos hlt] at hfree
    push Not at hfree
    exact Or.inl ⟨by omega, hfree⟩
  · rw [if_neg hlt] at hfree
    push Not at hfree
    obtain ⟨o, hclass, k, hk, hclear⟩ := hfree
    have hle := hclass.le
    have hchunk := chunk_le (show o ≤ 11 by have := hclass.lt; have := h.buddy.dep_le; omega)
    exact Or.inr ⟨by omega, toInt_of_range (by omega) (by omega), o, hclass, k, hk, by simpa using hclear⟩

/-- The chunk or block that a served request gets: `size` bytes of the heap that nobody holds. -/
theorem yalloc_served {s₀ : Mm} {r : MmRun} (h : MmRunInv s₀ r) {size : ℤ}
    (hserved : ¬ Refused r.s size) (hpage : size ≠ 2048) :
    ∃ a, (yalloc r.s size).1 = .addr a ∧ r.s.bm.heapBase ≤ a ∧
      (a : ℤ) + size ≤ r.s.bm.heapBase + r.s.bm.heapSize ∧
      (∀ p ∈ r.blocks, ¬ Meets a size.toNat p.1 p.2) ∧
      ∀ i < 7, ∀ c ∈ r.chunks i, ¬ Meets a size.toNat c (16 * 2 ^ i) := by
  obtain ⟨pb, lost, B, hinv, hblocks, hfixed⟩ := h
  rw [← range_congr hfixed.toSameBud] at hblocks
  have hsec := hinv.sec_bounds
  have hchunk (i : ℕ) (hi : i < 7) (c : ℕ) (hc : c ∈ r.chunks i) :
      r.s.secBase ≤ c ∧ c + 16 * 2 ^ i ≤ r.s.secBase + 2048 * 2 ^ pb.ord := by
    obtain ⟨k, hk, rfl⟩ := hinv.pool.slot_of_mem hi hc
    have hslot := hinv.slot_bounds hi hk
    have hstr : stride i = 16 * 2 ^ i + 4 := rfl
    omega
  obtain ⟨hpos, i, hclass, hfree⟩ | ⟨hbig, hint, hfree⟩ := served_cases hinv.layout hserved hpage
  · obtain ⟨-, k, hk, hptr, hnew, hinv'⟩ := yalloc_chunk hinv hpos hclass hfree
    have hi := hclass.lt
    have hle := hclass.le
    have hslot := hinv.slot_bounds hi hk
    have hstr : stride i = 16 * 2 ^ i + 4 := rfl
    refine ⟨r.s.slot i k + 4, hptr, by omega, by omega, fun p hp hmeet => ?_, fun j hj c hc hmeet => ?_⟩
    · rw [hblocks] at hp
      obtain ⟨b, hb, rfl⟩ := List.mem_map.1 hp
      have hapart := hinv.block_apart hb
      unfold Meets at hmeet hapart
      simp only [Mm.range] at hmeet
      omega
    · refine hinv.pool.apart hi hk hnew hj hc ?_
      unfold Meets at hmeet ⊢
      omega
  · have hpri : 2048 ≤ size := by omega
    obtain ⟨b, hclass, hptr, hinv'⟩ := yalloc_block hinv hpri (by omega) (by rwa [hint])
    rw [hint] at hclass
    have hle := hclass.le
    have hsame := yalloc_fixed hinv.layout size
    obtain ⟨hord, hidx⟩ := hinv'.bud.real b (by simp)
    rw [hsame.bm] at hord
    rw [hsame.num] at hidx
    have hend := hinv.layout.buddy.blockAddr_end hord hidx
    have hrange := range_congr hsame.toSameBud
    have hge : r.s.bm.heapBase ≤ r.s.blockAddr b := Nat.le_add_right _ _
    refine ⟨r.s.blockAddr b, hptr, hge, by omega, fun p hp hmeet => ?_, fun i hi c hc hmeet => ?_⟩
    · rw [hblocks] at hp
      obtain ⟨c, hc, rfl⟩ := List.mem_map.1 hp
      have hapart := (List.pairwise_append.1 (List.pairwise_cons.1 hinv'.bud.apart).2).2.1
      refine (List.pairwise_cons.1 hapart).1 c hc ((overlap_iff_meets r.s b c).2 ?_)
      unfold Meets at hmeet ⊢
      simp only [Mm.range] at hmeet ⊢
      omega
    · have hapart := hinv'.block_apart (b := b) List.mem_cons_self
      have hbounds := hchunk i hi c hc
      have haddr : (yalloc r.s size).2.blockAddr b = r.s.blockAddr b := by
        rw [Mm.blockAddr, Mm.blockAddr, hsame.bm]
      rw [hsame.secBase, haddr] at hapart
      unfold Meets at hmeet hapart
      omega

/-- Every pool and every order has something free. -/
def AllFree (s : Mm) : Prop :=
  (∀ i < 7, (s.pools i).frees ≠ 0) ∧ ∀ o < s.bm.dep, ∃ k < s.bits o, s.bit o k = false

/-- The allocator that `size` is routed to has a class for it, and `yalloc` returns the address of
`size` bytes of the heap that nobody holds. -/
structure Usable (r : MmRun) (size : ℤ) : Prop where
  hasClass : if size < mmGetPriLlc then ∃ i, IsPoolClass size i else ∃ o, IsClass r.s size o
  block : ∃ a, (yalloc r.s size).1 = .addr a ∧ r.s.bm.heapBase ≤ a ∧
    (a : ℤ) + size ≤ r.s.bm.heapBase + r.s.bm.heapSize ∧
    (∀ p ∈ r.blocks, ¬ Meets a size.toNat p.1 p.2) ∧
    ∀ i < 7, ∀ c ∈ r.chunks i, ¬ Meets a size.toNat c (16 * 2 ^ i)

theorem AllFree.not_refused {s : Mm} (h : MmLayout s) (hfree : AllFree s) {size : ℤ} (hpos : 1 ≤ size)
    (hul : size ≤ s.bm.ul) (hrange : size ≤ 1024 ∨ 2048 < size) : ¬ Refused s size := by
  unfold Refused mmGetPriLlc
  rw [not_or]
  refine ⟨by omega, fun hnone => ?_⟩
  split_ifs at hnone with hlt
  · obtain ⟨i, hclass⟩ := exists_isPoolClass (show size ≤ 1024 by omega)
    exact hfree.1 i hclass.lt (hnone i hclass)
  · obtain ⟨o, hclass⟩ := exists_isClass h.buddy hul
    obtain ⟨k, hk, hclear⟩ := hfree.2 o hclass.lt
    rw [hnone o hclass k hk] at hclear
    cases hclear

theorem mmStart_allFree (mem : Mem) (frees inuses : ℕ) {heapSize : ℤ} (hfit : heapSize < 0x3E000000)
    (hok : 0 ≤ (mmInit (.boot mem frees inuses) heapSize).1) (hpads : PadsEvery heapSize) :
    AllFree (mmStart (.boot mem frees inuses) heapSize).s := by
  obtain ⟨pb, hinv⟩ := mmInit_inv (s := .boot mem frees inuses) rfl rfl hfit hok hpads
  exact ⟨fun i hi => mmInit_pools hfit hok hi, fun o ho => hinv.bud.clear_of_one ho⟩

theorem mmStart_ul (mem : Mem) (frees inuses : ℕ) {heapSize : ℤ} (hfit : heapSize < 0x3E000000)
    (hok : 0 ≤ (mmInit (.boot mem frees inuses) heapSize).1) :
    (2048 : ℤ) ≤ (mmStart (.boot mem frees inuses) heapSize).s.bm.ul := by
  have L := (mmInit_layout (s := .boot mem frees inuses) rfl rfl hfit hok).buddy
  have hle := L.chunk_le_ul L.dep_pos
  rw [mmStart_s]
  omega

theorem mmMain_ul : (2048 : ℤ) ≤ mmMain.s.bm.ul := by
  rw [mmMain]
  exact mmStart_ul _ _ _ (by decide) (mmInit_ok_main _)

end YohdaOS

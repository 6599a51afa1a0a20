import YohdaOS.Lib.Objects
import YohdaOS.Mmi.Run

/-!
# The heap as a store of objects

What a holder wrote into a block or a chunk is there until it gives it back, whatever the others ask
for, free and write: every run of `yalloc`, `yfree` and stores is one of the store of objects.
-/

namespace YohdaOS

open ByteMem BinaryBlocks Objects

/-- The ranges of addresses that users hold. -/
def MmRun.Holds (r : MmRun) (p : ℕ × ℕ) : Prop :=
  p ∈ r.blocks ∨ ∃ i < 7, ∃ a ∈ r.chunks i, p = (a, 16 * 2 ^ i)

/-- The bytes that a request of `size` is given. -/
def mmRoom (s : Mm) (size : ℤ) : ℕ :=
  if size ≥ mmGetPriLlc then (budRndup s (toInt size)).toNat else (plGetChunk s (toInt size)).toNat

/-- The steps of a run, one byte written at a time, with what they do.  A request that is served is
for a size that fits an `int`: the allocators narrow it to one. -/
inductive MmEvent : MmRun → Event → MmRun → Prop
  | grant (r : MmRun) (size : ℤ) (hfit : size < 2147483648) (hfree : NotExhausted r.s size) (a : ℕ)
      (ha : (yalloc r.s size).1 = .addr a) :
      MmEvent r (.alloc size.toNat (a, mmRoom r.s size)) (r.alloc size)
  | refuse (r : MmRun) (size : ℤ) (hfree : NotExhausted r.s size) (e : ℤ)
      (he : (yalloc r.s size).1 = .code e) : MmEvent r .refuse (r.alloc size)
  | freeBlock (r : MmRun) (p : ℕ × ℕ) (hp : p ∈ r.blocks) (s : Mm) (hs : yfree r.s p.1 = some s) :
      MmEvent r (.free p) { r with s, blocks := r.blocks.erase p }
  | freeChunk (r : MmRun) (i a : ℕ) (hi : i < 7) (ha : a ∈ r.chunks i) (s : Mm)
      (hs : yfree r.s a = some s) : MmEvent r (.free (a, 16 * 2 ^ i))
        { r with s, chunks := Function.update r.chunks i ((r.chunks i).erase a) }
  | writeBlock (r : MmRun) (p : ℕ × ℕ) (hp : p ∈ r.blocks) (x v : ℕ) (hx : Covers p x) :
      MmEvent r (.write p x v) { r with s := { r.s with mem := store8 r.s.mem x v } }
  | writeChunk (r : MmRun) (i a : ℕ) (hi : i < 7) (ha : a ∈ r.chunks i) (x v : ℕ)
      (hx : Covers (a, 16 * 2 ^ i) x) : MmEvent r (.write (a, 16 * 2 ^ i) x v)
        { r with s := { r.s with mem := store8 r.s.mem x v } }

theorem frame_store8_of_covers {p : ℕ × ℕ} {x : ℕ} (hx : Covers p x) (m : Mem) (v : ℕ) :
    Frame p.1 (p.1 + p.2) m (store8 m x v) :=
  (frame_store8 m x v).mono hx.1 hx.2

theorem MmEvent.step {r r' : MmRun} {e : Event} (h : MmEvent r e r') : MmStep r r' := by
  cases h with
  | grant size hfit hfree a ha => exact .alloc r size hfree
  | refuse size hfree e he => exact .alloc r size hfree
  | freeBlock p hp s hs => exact .freeBlock r p hp s hs
  | freeChunk i a hi ha s hs => exact .freeChunk r i a hi ha s hs
  | writeBlock p hp x v hx => exact .writeBlock r p hp _ (frame_store8_of_covers hx _ v)
  | writeChunk i a hi ha x v hx => exact .writeChunk r i a hi ha _ (frame_store8_of_covers hx _ v)

/-! ## Where the objects lie -/

section Region

variable {s : Mm} {pb : Block} {lost blocks : List Block} {chunks : ℕ → List ℕ}
  (h : MmInv s pb lost blocks chunks)

include h

/-- A chunk and its header lie in the block of the pools. -/
theorem MmInv.chunk_bounds {i a : ℕ} (hi : i < 7) (ha : a ∈ chunks i) :
    s.secBase + 4 ≤ a ∧ a + 16 * 2 ^ i ≤ s.secBase + 2048 * 2 ^ pb.ord := by
  obtain ⟨k, hk, rfl⟩ := h.pool.slot_of_mem hi ha
  have hslot := h.slot_bounds hi hk
  have hstr : stride i = 16 * 2 ^ i + 4 := rfl
  omega

theorem MmInv.blocks_apart : Apart blocks :=
  (List.pairwise_append.1 (List.pairwise_cons.1 h.bud.apart).2).2.1

/-- No chunk meets a block of a user. -/
theorem MmInv.block_chunk_apart {b : Block} (hb : b ∈ blocks) {i a : ℕ} (hi : i < 7)
    (ha : a ∈ chunks i) : ¬ Meets (s.range b).1 (s.range b).2 (a - 4) (16 * 2 ^ i + 4) := by
  have hapart := h.block_apart hb
  have hbounds := h.chunk_bounds hi ha
  unfold Mm.range
  unfold Meets at hapart ⊢
  omega

/-- No chunk meets another one or its header. -/
theorem MmInv.chunk_apart {i a : ℕ} (hi : i < 7) (ha : a ∈ chunks i) {j b : ℕ} (hj : j < 7)
    (hb : b ∈ chunks j) (hne : (b, 16 * 2 ^ j) ≠ (a, 16 * 2 ^ i)) :
    ¬ Meets (a - 4) (16 * 2 ^ i + 4) b (16 * 2 ^ j) := by
  obtain ⟨k, hk, rfl⟩ := h.pool.slot_of_mem hi ha
  obtain ⟨l, hl, rfl⟩ := h.pool.slot_of_mem hj hb
  have hneq : ¬ (i = j ∧ k = l) := by
    rintro ⟨rfl, rfl⟩
    exact hne rfl
  have hapart := h.layout.pools.slot_apart hi hj hk hl hneq
  have hstr (j : ℕ) : stride j = 16 * 2 ^ j + 4 := rfl
  rw [hstr, hstr] at hapart
  unfold Meets
  omega

theorem MmInv.chunks_nodup {i : ℕ} (hi : i < 7) : (chunks i).Nodup := by
  obtain ⟨cap, r, -, hlive⟩ := h.pool.ok i hi
  rw [hlive]
  refine r.nodup.of_append_right.map fun k l hkl => ?_
  exact PoolLayout.slot_injective (Nat.add_right_cancel hkl)

end Region

theorem mem_update_erase {f : ℕ → List ℕ} {i : ℕ} (hf : (f i).Nodup) {a b j : ℕ} :
    b ∈ Function.update f i ((f i).erase a) j ↔ b ∈ f j ∧ ¬ (j = i ∧ b = a) := by
  by_cases hji : j = i
  · subst hji
    rw [Function.update_self, hf.mem_erase_iff]
    tauto
  · rw [Function.update_of_ne hji]
    tauto

section Holds

variable {s₀ : Mm} {r : MmRun} (h : MmRunInv s₀ r)

include h

/-- The objects lie in the heap, behind what the allocators keep for themselves. -/
theorem MmRunInv.holds_ge {p : ℕ × ℕ} (hp : r.Holds p) : r.s.bm.heapBase ≤ p.1 := by
  obtain ⟨pb, lost, B, hinv, hblocks, hfixed⟩ := h
  rcases hp with hp | ⟨i, hi, a, ha, rfl⟩
  · rw [hblocks, ← range_congr hfixed.toSameBud] at hp
    obtain ⟨b, -, rfl⟩ := List.mem_map.1 hp
    exact Nat.le_add_right _ _
  · have hsec := hinv.sec_bounds
    have hbounds := hinv.chunk_bounds hi ha
    simp only
    omega

/-- A release writes the header of a chunk, and no other object meets it. -/
theorem MmRunInv.header_apart {i a : ℕ} (hi : i < 7) (ha : a ∈ r.chunks i) {p : ℕ × ℕ}
    (hp : r.Holds p) (hne : p ≠ (a, 16 * 2 ^ i)) {x : ℕ} (hx : Covers p x) : x < a - 4 ∨ a ≤ x := by
  obtain ⟨pb, lost, B, hinv, hblocks, hfixed⟩ := h
  rcases hp with hp | ⟨j, hj, b, hb, rfl⟩
  · rw [hblocks, ← range_congr hfixed.toSameBud] at hp
    obtain ⟨b, hb, rfl⟩ := List.mem_map.1 hp
    have hapart := hinv.block_chunk_apart hb hi ha
    unfold Covers at hx
    unfold Meets at hapart
    omega
  · have hapart := hinv.chunk_apart hi ha hj hb hne
    unfold Covers at hx
    unfold Meets at hapart
    simp only at hx
    omega

theorem MmRunInv.blocks_nodup : r.blocks.Nodup := by
  obtain ⟨pb, lost, B, hinv, hblocks, -⟩ := h
  rw [hblocks]
  exact hinv.blocks_apart.nodup.map (range_injective s₀)

/-- A block is no chunk. -/
theorem MmRunInv.block_ne_chunk {p : ℕ × ℕ} (hp : p ∈ r.blocks) {i a : ℕ} (hi : i < 7)
    (ha : a ∈ r.chunks i) : p ≠ (a, 16 * 2 ^ i) := by
  obtain ⟨pb, lost, B, hinv, hblocks, hfixed⟩ := h
  rw [hblocks, ← range_congr hfixed.toSameBud] at hp
  obtain ⟨b, hb, rfl⟩ := List.mem_map.1 hp
  have hapart := hinv.block_chunk_apart hb hi ha
  have hpow : 0 < 2 ^ i := by positivity
  intro heq
  rw [heq] at hapart
  unfold Meets at hapart
  simp only at hapart
  omega

theorem MmRunInv.chunks_nodup {i : ℕ} (hi : i < 7) : (r.chunks i).Nodup := by
  obtain ⟨pb, lost, B, hinv, -⟩ := h
  exact hinv.chunks_nodup hi

theorem MmRunInv.holds_freeBlock {p : ℕ × ℕ} (hp : p ∈ r.blocks) (s : Mm) (q : ℕ × ℕ) :
    MmRun.Holds { r with s, blocks := r.blocks.erase p } q ↔ r.Holds q ∧ q ≠ p := by
  unfold MmRun.Holds
  simp only [h.blocks_nodup.mem_erase_iff]
  constructor
  · rintro (⟨hne, hq⟩ | ⟨i, hi, a, ha, rfl⟩)
    · exact ⟨Or.inl hq, hne⟩
    · exact ⟨Or.inr ⟨i, hi, a, ha, rfl⟩, (h.block_ne_chunk hp hi ha).symm⟩
  · rintro ⟨hq | hq, hne⟩
    · exact Or.inl ⟨hne, hq⟩
    · exact Or.inr hq

theorem MmRunInv.holds_freeChunk {i a : ℕ} (hi : i < 7) (ha : a ∈ r.chunks i) (s : Mm)
    (q : ℕ × ℕ) : MmRun.Holds { r with
      s, chunks := Function.update r.chunks i ((r.chunks i).erase a) } q ↔
      r.Holds q ∧ q ≠ (a, 16 * 2 ^ i) := by
  unfold MmRun.Holds
  simp only [mem_update_erase (h.chunks_nodup hi)]
  constructor
  · rintro (hq | ⟨j, hj, b, ⟨hb, hne⟩, rfl⟩)
    · exact ⟨Or.inl hq, h.block_ne_chunk hq hi ha⟩
    · refine ⟨Or.inr ⟨j, hj, b, hb, rfl⟩, fun heq => hne ⟨?_, congrArg Prod.fst heq⟩⟩
      have hlen : 16 * 2 ^ j = 16 * 2 ^ i := congrArg Prod.snd heq
      exact Nat.pow_right_injective le_rfl (by simpa using hlen)
  · rintro ⟨hq | ⟨j, hj, b, hb, rfl⟩, hne⟩
    · exact Or.inl hq
    · refine Or.inr ⟨j, hj, b, ⟨hb, ?_⟩, rfl⟩
      rintro ⟨rfl, rfl⟩
      exact hne rfl

end Holds

/-! ## What the calls write -/

section Frames

variable {s₀ : Mm} {r : MmRun} (h : MmRunInv s₀ r)

include h

theorem MmRunInv.freeBlock_frame {p : ℕ × ℕ} (hp : p ∈ r.blocks) {s : Mm}
    (hs : yfree r.s p.1 = some s) :
    Frame (r.s.bud 0).bmp.base r.s.bm.heapBase r.s.mem s.mem := by
  obtain ⟨pb, lost, B, hinv, hblocks, hfixed⟩ := h
  rw [hblocks, ← range_congr hfixed.toSameBud] at hp
  obtain ⟨b, hb, rfl⟩ := List.mem_map.1 hp
  have hmem : b ∈ pb :: (lost ++ B) := List.mem_cons_of_mem _ (List.mem_append_right _ hb)
  have hmarked := (_budFree_spec hinv.bud hmem).2
  obtain rfl : _budFree r.s (r.s.blockAddr b) = s :=
    Option.some.inj ((yfree_block hinv hb).1.symm.trans hs)
  exact hmarked.frame.mono le_rfl hinv.layout.buddy.hdr_le

theorem MmRunInv.freeChunk_frame {i a : ℕ} (hi : i < 7) (ha : a ∈ r.chunks i) {s : Mm}
    (hs : yfree r.s a = some s) : Frame (a - 4) a r.s.mem s.mem := by
  obtain ⟨pb, lost, B, hinv, -⟩ := h
  obtain rfl : plFree r.s a = s := Option.some.inj ((yfree_chunk hinv hi ha).1.symm.trans hs)
  exact (plFree_spec hinv.pool hi ha).2.2

end Frames

/-- A request writes the bitmaps and the headers of the buddy at most. -/
theorem yalloc_frame {s : Mm} {pb : Block} {lost blocks : List Block} {chunks : ℕ → List ℕ}
    (h : MmInv s pb lost blocks chunks) {size : ℤ} (hfree : NotExhausted s size) :
    Frame (s.bud 0).bmp.base s.bm.heapBase s.mem (yalloc s size).2.mem := by
  have L := h.layout
  unfold NotExhausted mmGetPriLlc at hfree
  rcases lt_or_ge size 1 with hneg | hpos
  · rw [yalloc, if_pos hneg]
    exact Frame.refl _ _ _
  rcases lt_or_ge size 2048 with hlt | hge
  · have hmem : (plAlloc s size).2.mem = s.mem := by
      unfold plAlloc
      simp only
      split_ifs <;> rfl
    rw [yalloc_of_lt s hpos hlt]
    split_ifs <;> (rw [hmem]; exact Frame.refl _ _ _)
  · rw [if_neg (by omega)] at hfree
    rcases lt_or_ge (toInt size) 1 with hneg | hint
    · rw [yalloc_narrowed s hge hneg]
      exact Frame.refl _ _ _
    rcases lt_or_ge (s.bm.ul : ℤ) (toInt size) with hul | hul
    · rw [yalloc_large L hge hul]
      exact Frame.refl _ _ _
    obtain ⟨o, hclass⟩ := exists_isClass L.buddy hul
    have hclear : HasFree s (toInt size) := ⟨o, hclass, hfree o hclass⟩
    rcases le_or_gt (toInt size) 2048 with hle | hbig
    · rw [yalloc_page L hge hint hle]
      have hzero : IsClass s (toInt size) 0 := ⟨L.buddy.dep_pos, by simpa using hle, by simp⟩
      have hpage : HasFree s 372 := by
        refine ⟨0, ⟨L.buddy.dep_pos, by simp, by simp⟩, ?_⟩
        rw [← hclass.unique hzero]
        exact hfree o hclass
      obtain ⟨b, -, -, -, -, -, hf⟩ := budGrant_spec h.bud (by decide) hpage
      generalize (_budAlloc s 372).2 = s' at hf ⊢
      exact hf
    · obtain ⟨b, -, hptr, -, -, -, hf⟩ := budGrant_spec h.bud (by omega) hclear
      have hne := BudInv.addr_pos L.buddy b
      rw [yalloc_of_ge s hge, budAlloc, if_neg (by omega),
        if_pos (show toInt size > MM_PAGE_SIZE from hbig),
        if_neg (by rw [hptr]; exact Nat.ne_of_gt hne)]
      exact hf

theorem MmRun.alloc_addr (r : MmRun) {size : ℤ} {a : ℕ} (ha : (yalloc r.s size).1 = .addr a) :
    r.alloc size = if size ≥ mmGetPriLlc then
      { r with s := (yalloc r.s size).2, blocks := (a, mmRoom r.s size) :: r.blocks }
    else { r with
      s := (yalloc r.s size).2
      chunks := Function.update r.chunks (poolGetOrd r.s (toU32 (plGetChunk r.s (toInt size)))).toNat
        (a :: r.chunks (poolGetOrd r.s (toU32 (plGetChunk r.s (toInt size)))).toNat) } := by
  unfold MmRun.alloc mmRoom
  generalize yalloc r.s size = q at ha ⊢
  obtain ⟨p, s⟩ := q
  obtain rfl : p = .addr a := ha
  split_ifs <;> rfl

theorem MmRun.alloc_refused (r : MmRun) {size e : ℤ} (he : (yalloc r.s size).1 = .code e) :
    r.alloc size = { r with s := (yalloc r.s size).2 } := by
  unfold MmRun.alloc
  generalize yalloc r.s size = q at he ⊢
  obtain ⟨p, s⟩ := q
  obtain rfl : p = .code e := he
  rfl

theorem mmRoom_of_pool {s : Mm} (L : PoolLayout s) {size : ℤ} (hpos : 1 ≤ size) {i : ℕ}
    (hclass : IsPoolClass size i) : mmRoom s size = 16 * 2 ^ i := by
  have hi := hclass.lt
  have hle := hclass.le
  have hpow : 2 ^ i ≤ 2 ^ 6 := Nat.pow_le_pow_right (by decide) (by omega)
  obtain ⟨hchunk, -⟩ := plGetChunk_of_class L hpos hclass
  rw [mmRoom, if_neg (show ¬ size ≥ mmGetPriLlc by unfold mmGetPriLlc; omega),
    toInt_of_range (by omega) (by omega), hchunk, Int.toNat_natCast]

theorem mmRoom_of_buddy {s : Mm} (L : Layout s) {size : ℤ} (hsize : 2048 ≤ size)
    (hpos : 1 ≤ toInt size) {o : ℕ} (hclass : IsClass s (toInt size) o) :
    mmRoom s size = 2048 * 2 ^ o := by
  obtain ⟨hrnd, -⟩ := budRndup_of_class L hpos hclass
  rw [mmRoom, if_pos (show size ≥ mmGetPriLlc from hsize), hrnd, Int.toNat_natCast]

/-- What a request was given: room for it that meets nothing that is held. -/
structure Granted (r : MmRun) (n : ℕ) (p : ℕ × ℕ) (r' : MmRun) : Prop where
  pos : 0 < n
  room : n ≤ p.2
  apart : ∀ q, r.Holds q → ¬ Meets p.1 p.2 q.1 q.2
  holds : ∀ q, r'.Holds q ↔ q = p ∨ r.Holds q

section Grant

variable {s₀ : Mm} {r : MmRun} (h : MmRunInv s₀ r)

include h

theorem MmRunInv.grant_chunk {size : ℤ} (hpos : 1 ≤ size) {i : ℕ} (hclass : IsPoolClass size i)
    (hfree : (r.s.pools i).frees ≠ 0) {a : ℕ} (ha : (yalloc r.s size).1 = .addr a) :
    Granted r size.toNat (a, mmRoom r.s size) (r.alloc size) := by
  obtain ⟨pb, lost, B, hinv, hblocks, hfixed⟩ := h
  have hi := hclass.lt
  have hle := hclass.le
  have hpow : 2 ^ i ≤ 2 ^ 6 := Nat.pow_le_pow_right (by decide) (by omega)
  have hint : toInt size = size := toInt_of_range (by omega) (by omega)
  obtain ⟨hchunk, hord⟩ := plGetChunk_of_class hinv.layout.pools hpos hclass
  obtain ⟨-, k, hk, hptr, hnew, hinv'⟩ := yalloc_chunk hinv hpos hclass hfree
  obtain rfl : a = r.s.slot i k + 4 := Ptr.addr.inj (ha.symm.trans hptr)
  have hsmall : ¬ size ≥ mmGetPriLlc := by
    unfold mmGetPriLlc
    omega
  have hlen := mmRoom_of_pool hinv.layout.pools hpos hclass
  have hres := r.alloc_addr ha
  rw [if_neg hsmall, hint, hchunk, toU32_natCast (by omega), hord, Int.toNat_natCast] at hres
  rw [hlen, hres]
  refine ⟨by omega, by simp only; omega, ?_, fun q => ?_⟩
  · rintro q (hq | ⟨j, hj, b, hb, rfl⟩) hmeet
    · rw [hblocks, ← range_congr hfixed.toSameBud] at hq
      obtain ⟨b, hb, rfl⟩ := List.mem_map.1 hq
      have hslot := hinv.slot_bounds hi hk
      have hapart := hinv.block_apart hb
      have hstr : stride i = 16 * 2 ^ i + 4 := rfl
      unfold Mm.range at hmeet
      unfold Meets at hapart hmeet
      simp only at hmeet
      omega
    · exact hinv.pool.apart hi hk hnew hj hb hmeet
  · unfold MmRun.Holds
    simp only [Function.update_apply]
    constructor
    · rintro (hq | ⟨j, hj, b, hb, rfl⟩)
      · exact Or.inr (Or.inl hq)
      · split_ifs at hb with hji
        · subst hji
          rcases List.mem_cons.1 hb with rfl | hb
          · exact Or.inl rfl
          · exact Or.inr (Or.inr ⟨j, hj, b, hb, rfl⟩)
        · exact Or.inr (Or.inr ⟨j, hj, b, hb, rfl⟩)
    · rintro (rfl | hq | ⟨j, hj, b, hb, rfl⟩)
      · exact Or.inr ⟨i, hi, _, by rw [if_pos rfl]; exact List.mem_cons_self, rfl⟩
      · exact Or.inl hq
      · refine Or.inr ⟨j, hj, b, ?_, rfl⟩
        split_ifs with hji
        · subst hji
          exact List.mem_cons_of_mem _ hb
        · exact hb

theorem MmRunInv.grant_block {size : ℤ} (hsize : 2048 < size) (hfit : size < 2147483648)
    (hfree : HasFree r.s (toInt size)) {a : ℕ} (ha : (yalloc r.s size).1 = .addr a) :
    Granted r size.toNat (a, mmRoom r.s size) (r.alloc size) := by
  obtain ⟨pb, lost, B, hinv, hblocks, hfixed⟩ := h
  have hfixed' := yalloc_fixed hinv.layout size
  have hint : toInt size = size := toInt_of_range (by omega) (by omega)
  obtain ⟨b, hclass, hptr, hinv'⟩ := yalloc_block hinv hsize.le (by omega) hfree
  obtain rfl : a = r.s.blockAddr b := Ptr.addr.inj (ha.symm.trans hptr)
  have hlen := mmRoom_of_buddy hinv.layout.buddy hsize.le (by omega) hclass
  have hle := hclass.le
  rw [hint] at hle
  have hrange : (r.s.blockAddr b, 2048 * 2 ^ b.ord) = (yalloc r.s size).2.range b := by
    rw [range_congr hfixed'.toSameBud]
    rfl
  have hres := r.alloc_addr ha
  rw [if_pos (show size ≥ mmGetPriLlc from hsize.le)] at hres
  rw [hlen] at hres ⊢
  rw [hres]
  refine ⟨by omega, by simp only; omega, ?_, fun q => ?_⟩
  · rw [hrange]
    rintro q (hq | ⟨j, hj, c, hc, rfl⟩) hmeet
    · rw [hblocks, ← range_congr (hfixed.trans hfixed').toSameBud] at hq
      obtain ⟨c, hc, rfl⟩ := List.mem_map.1 hq
      exact (List.pairwise_cons.1 hinv'.blocks_apart).1 c hc ((overlap_iff_meets _ b c).2 hmeet)
    · have hapart := hinv'.block_chunk_apart List.mem_cons_self hj hc
      unfold Meets at hapart hmeet
      simp only at hmeet
      omega
  · unfold MmRun.Holds
    simp only [List.mem_cons, or_assoc]

theorem MmRunInv.grant {size : ℤ} (hfit : size < 2147483648) (hfree : NotExhausted r.s size) {a : ℕ}
    (ha : (yalloc r.s size).1 = .addr a) :
    Granted r size.toNat (a, mmRoom r.s size) (r.alloc size) := by
  obtain ⟨pb, lost, B, hinv, -⟩ := id h
  have L := hinv.layout
  have hcode {e : ℤ} {s : Mm} (heq : yalloc r.s size = (.code e, s)) : False := by
    rw [heq] at ha
    cases ha
  unfold NotExhausted mmGetPriLlc at hfree
  rcases lt_or_ge size 1 with hneg | hpos
  · exact (hcode (show yalloc r.s size = (.code (-1), r.s) by rw [yalloc, if_pos hneg])).elim
  rcases lt_or_ge size 2048 with hlt | hge
  · rw [if_pos hlt] at hfree
    rcases lt_or_ge 1024 size with hgap | hle
    · exact (hcode (yalloc_gap L hgap hlt)).elim
    · obtain ⟨i, hclass⟩ := exists_isPoolClass hle
      exact h.grant_chunk hpos hclass (hfree i hclass) ha
  · rw [if_neg (by omega)] at hfree
    rcases lt_or_ge (toInt size) 1 with hneg | hint
    · exact (hcode (yalloc_narrowed r.s hge hneg)).elim
    rcases lt_or_ge (r.s.bm.ul : ℤ) (toInt size) with hul | hul
    · exact (hcode (yalloc_large L hge hul)).elim
    rcases le_or_gt (toInt size) 2048 with hpage | hbig
    · exact (hcode (yalloc_page L hge hint hpage)).elim
    · obtain ⟨o, hclass⟩ := exists_isClass L.buddy hul
      have hsize : toInt size = size := toInt_of_range (by omega) (by omega)
      exact h.grant_block (by omega) hfit ⟨o, hclass, hfree o hclass⟩ ha

end Grant

/-! ## Whole runs -/

/-- The store `h` says what the users of `r` hold and what they wrote. -/
structure MmStore (s₀ : Mm) (r : MmRun) (h : Store) : Prop where
  inv : MmRunInv s₀ r
  live : ∀ p, p ∈ h.live ↔ r.Holds p
  owned : h.Owned
  agrees : h.Agrees r.s.mem

theorem MmStore.alloc_agrees {s₀ : Mm} {r : MmRun} {h : Store} (hR : MmStore s₀ r h) {size : ℤ}
    (hfree : NotExhausted r.s size) : h.Agrees (r.alloc size).s.mem := by
  obtain ⟨pb, lost, B, hinv, -⟩ := hR.inv
  refine hR.agrees.of_eq hR.owned fun p hp x hx => ?_
  have hge := hR.inv.holds_ge ((hR.live p).1 hp)
  rw [MmRun.alloc_state]
  exact yalloc_frame hinv hfree x (Or.inr (hge.trans hx.1))

theorem MmStore.write {s₀ : Mm} {r : MmRun} {h : Store} (hR : MmStore s₀ r h) {p : ℕ × ℕ}
    (hp : r.Holds p) {x v : ℕ} (hx : Covers p x)
    (hinv : MmRunInv s₀ { r with s := { r.s with mem := store8 r.s.mem x v } }) :
    ∃ h', Store.Step h (.write p x v) h' ∧
      MmStore s₀ { r with s := { r.s with mem := store8 r.s.mem x v } } h' := by
  have hstep := Store.Step.write (h := h) p x v ((hR.live p).2 hp) hx
  exact ⟨_, hstep, hinv, hR.live, hR.owned.step hstep, hR.agrees.write x v⟩

/-- Every step is one of the store. -/
theorem MmStore.step {s₀ : Mm} {r r' : MmRun} {e : Event} {h : Store} (hR : MmStore s₀ r h)
    (hev : MmEvent r e r') : ∃ h', Store.Step h e h' ∧ MmStore s₀ r' h' := by
  have hinv' := mmStep_inv hR.inv hev.step
  cases hev with
  | grant size hfit hfree a ha =>
    have hg := hR.inv.grant hfit hfree ha
    have hstep := Store.Step.alloc (h := h) _ _ hg.pos hg.room
      fun q hq => hg.apart q ((hR.live q).1 hq)
    refine ⟨_, hstep, hinv', fun q => ?_, hR.owned.step hstep, hR.alloc_agrees hfree⟩
    rw [hg.holds q, ← hR.live q]
    exact Set.mem_insert_iff
  | refuse size hfree e he =>
    refine ⟨h, .refuse, hinv', fun q => ?_, hR.owned, hR.alloc_agrees hfree⟩
    rw [hR.live q, r.alloc_refused he]
    rfl
  | freeBlock p hp s hs =>
    have hstep := Store.Step.free (h := h) p ((hR.live p).2 (Or.inl hp))
    refine ⟨_, hstep, hinv', fun q => ?_, hR.owned.step hstep, ?_⟩
    · rw [hR.inv.holds_freeBlock hp s q, ← hR.live q]
      rfl
    · refine (hR.agrees.forget p _).of_eq (hR.owned.step hstep) fun q hq x hx => ?_
      have hge := hR.inv.holds_ge ((hR.live q).1 hq.1)
      exact hR.inv.freeBlock_frame hp hs x (Or.inr (hge.trans hx.1))
  | freeChunk i a hi ha s hs =>
    have hold : r.Holds (a, 16 * 2 ^ i) := Or.inr ⟨i, hi, a, ha, rfl⟩
    have hstep := Store.Step.free (h := h) _ ((hR.live _).2 hold)
    refine ⟨_, hstep, hinv', fun q => ?_, hR.owned.step hstep, ?_⟩
    · rw [hR.inv.holds_freeChunk hi ha s q, ← hR.live q]
      rfl
    · refine (hR.agrees.forget _ _).of_eq (hR.owned.step hstep) fun q hq x hx => ?_
      have hapart := hR.inv.header_apart hi ha ((hR.live q).1 hq.1) hq.2 hx
      exact hR.inv.freeChunk_frame hi ha hs x hapart
  | writeBlock p hp x v hx => exact hR.write (Or.inl hp) hx hinv'
  | writeChunk i a hi ha x v hx => exact hR.write (Or.inr ⟨i, hi, a, ha, rfl⟩) hx hinv'

theorem mmTrace_store {s₀ : Mm} {r r' : MmRun} {tr : List Event} {h : Store}
    (hR : MmStore s₀ r h) (htr : Runs.Trace MmEvent r tr r') :
    ∃ h', Runs.Trace Store.Step h tr h' ∧ MmStore s₀ r' h' :=
  Runs.trace_sim (fun _ _ _ _ hR hev => hR.step hev) htr hR

/-- After `mm_init` every run does what the store does with the same events: the store ends with the
objects that are held, and what was written into them can be read back. -/
theorem mmTrace_refines (mem : Mem) (frees inuses : ℕ) (heapSize : ℤ) (hfit : heapSize < 0x3E000000)
    (hok : 0 ≤ (mmInit (.boot mem frees inuses) heapSize).1) (hpads : PadsEvery heapSize)
    (r : MmRun) (tr : List Event)
    (htr : Runs.Trace MmEvent (mmStart (.boot mem frees inuses) heapSize) tr r) :
    ∃ h, Runs.Trace Store.Step .empty tr h ∧ (∀ p, p ∈ h.live ↔ r.Holds p) ∧
      ∀ x v, h.known x = some v → r.s.mem.byte x = v := by
  have hinv := mmRun_inv rfl rfl hfit hok hpads .refl
  have hstart : MmStore (mmInit (.boot mem frees inuses) heapSize).2
      (mmStart (.boot mem frees inuses) heapSize) .empty := by
    refine ⟨hinv, fun p => ?_, Store.owned_empty, Store.agrees_empty _⟩
    simp [MmRun.Holds, mmStart, Store.empty]
  obtain ⟨h, hstore, hR⟩ := mmTrace_store hstart htr
  exact ⟨h, hstore, hR.live, hR.agrees⟩

/-- Two chunks and a block are taken; the block is written to, and a chunk is given back. -/
theorem mmTrace_refines_main : ∃ (r : MmRun) (a c p : ℕ) (h : Store),
    Runs.Trace Store.Step .empty [.alloc 10 (a, 16), .alloc 20 (c, 32), .alloc 3000 (p, 4096),
      .write (p, 4096) p 7, .free (c, 32)] h ∧
    r.blocks = [(p, 4096)] ∧ r.chunks = firstLive [a] [] ∧ (∀ q, q ∈ h.live ↔ r.Holds q) ∧
    ∀ x v, h.known x = some v → r.s.mem.byte x = v := by
  obtain ⟨pb, b, a, c, s₁, s₂, s₃, hfirst, hsecond, hthird, hinv, hord, ⟨hfree₁, ha⟩, ⟨hfree₂, hc⟩,
    hfree₃, hb⟩ := mmMain_third
  have hrange : s₃.range b = (s₃.blockAddr b, 4096) := by
    rw [Mm.range, hord]
    rfl
  rw [hrange] at hthird
  generalize s₃.blockAddr b = p at hb hrange hthird
  have hcovers : Covers (p, 4096) p := ⟨le_rfl, show p < p + 4096 by omega⟩
  have hwrite := frame_store8_of_covers hcovers s₃.mem 7
  rw [← hrange] at hwrite
  obtain ⟨hfreed, -⟩ := yfree_chunk (hinv.write_block List.mem_cons_self hwrite) (i := 1) (a := c)
    (by decide) List.mem_cons_self
  -- the rooms
  obtain ⟨_, hmain⟩ := mmMain_inv
  have hstep₁ := MmStep.alloc mmMain 10 hfree₁
  rw [hfirst] at hstep₁
  have L₁ : MmLayout s₁ := (mmStep_fixed hmain.layout hstep₁).layout hmain.layout
  have hstep₂ := MmStep.alloc ⟨s₁, [], firstLive [a] []⟩ 20 hfree₂
  rw [hsecond] at hstep₂
  have L₂ : MmLayout s₂ := (mmStep_fixed L₁ hstep₂).layout L₁
  have hroom₁ : mmRoom mmMain.s 10 = 16 :=
    mmRoom_of_pool hmain.layout.pools (i := 0) (by decide) ⟨by decide, by decide, by simp⟩
  have hroom₂ : mmRoom s₁ 20 = 32 :=
    mmRoom_of_pool L₁.pools (i := 1) (by decide) ⟨by decide, by decide, by decide⟩
  have hroom₃ : mmRoom s₂ 3000 = 4096 := by
    refine mmRoom_of_buddy L₂.buddy (o := 1) (by decide) (by decide) ⟨?_, by decide, by decide⟩
    have hdep := (mmStep_fixed hmain.layout hstep₁).trans (mmStep_fixed L₁ hstep₂)
    have := mmMain_dep
    rw [hdep.bm]
    omega
  -- the events
  have h₁ := MmEvent.grant mmMain 10 (by decide) hfree₁ a ha
  rw [hfirst, hroom₁] at h₁
  have h₂ := MmEvent.grant ⟨s₁, [], firstLive [a] []⟩ 20 (by decide) hfree₂ c hc
  rw [hsecond, hroom₂] at h₂
  have h₃ := MmEvent.grant ⟨s₂, [], firstLive [a] [c]⟩ 3000 (by decide) hfree₃ p hb
  rw [hthird, hroom₃] at h₃
  have h₄ := MmEvent.writeBlock ⟨s₃, [(p, 4096)], firstLive [a] [c]⟩ _ List.mem_cons_self p 7 hcovers
  have h₅ := MmEvent.freeChunk ⟨{ s₃ with mem := store8 s₃.mem p 7 }, [(p, 4096)],
    firstLive [a] [c]⟩ 1 c (by decide) List.mem_cons_self _ hfreed
  rw [firstLive_erase] at h₅
  obtain ⟨h, hstore, hholds, hread⟩ := mmTrace_refines ⟨fun _ => 0⟩ 4 12 0x20000000 (by decide)
    (mmInit_ok_main _) padsEvery_main _ _ (.cons h₁ (.cons h₂ (.cons h₃ (.cons h₄ (.cons h₅ (.nil _))))))
  exact ⟨_, a, c, p, h, hstore, rfl, rfl, hholds, hread⟩

end YohdaOS

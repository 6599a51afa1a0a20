import YohdaOS.Mmi.InitSpec
import YohdaOS.Pool.Run

/-!
# Runs of `yalloc` and `yfree`

Callers ask for any size, give back what they hold and write into it, in any order.  A run stops
short of the requests that meet an exhausted class.
-/

namespace YohdaOS

open ByteMem BinaryBlocks

/-- The two allocators, the addresses and lengths of the live blocks of the buddy, and the addresses
of the live chunks of every pool. -/
structure MmRun where
  s : Mm
  blocks : List (ℕ × ℕ)
  chunks : ℕ → List ℕ

/-- The class or the order that a request of `size` needs has something free. -/
def NotExhausted (s : Mm) (size : ℤ) : Prop :=
  if size < mmGetPriLlc then ∀ i, IsPoolClass size i → (s.pools i).frees ≠ 0
  else ∀ o, IsClass s (toInt size) o → ∃ k < s.bits o, s.bit o k = false

/-- A call of `yalloc`: an address goes to the live ones of the allocator, and of the pool, that the
request was routed to; an error value changes nothing but the state. -/
def MmRun.alloc (r : MmRun) (size : ℤ) : MmRun :=
  match yalloc r.s size with
  | (.code _, s) => { r with s }
  | (.addr a, s) =>
    if size ≥ mmGetPriLlc then
      { r with s, blocks := (a, (budRndup r.s (toInt size)).toNat) :: r.blocks }
    else
      let i := (poolGetOrd r.s (toU32 (plGetChunk r.s (toInt size)))).toNat
      { r with s, chunks := Function.update r.chunks i (a :: r.chunks i) }

inductive MmStep : MmRun → MmRun → Prop
  | alloc (r : MmRun) (size : ℤ) (hfree : NotExhausted r.s size) : MmStep r (r.alloc size)
  | freeBlock (r : MmRun) (p : ℕ × ℕ) (hp : p ∈ r.blocks) (s : Mm) (hs : yfree r.s p.1 = some s) :
      MmStep r { r with s, blocks := r.blocks.erase p }
  | freeChunk (r : MmRun) (i a : ℕ) (hi : i < 7) (ha : a ∈ r.chunks i) (s : Mm)
      (hs : yfree r.s a = some s) :
      MmStep r { r with s, chunks := Function.update r.chunks i ((r.chunks i).erase a) }
  | writeBlock (r : MmRun) (p : ℕ × ℕ) (hp : p ∈ r.blocks) (m : Mem)
      (hm : Frame p.1 (p.1 + p.2) r.s.mem m) : MmStep r { r with s := { r.s with mem := m } }
  | writeChunk (r : MmRun) (i a : ℕ) (hi : i < 7) (ha : a ∈ r.chunks i) (m : Mem)
      (hm : Frame a (a + 16 * 2 ^ i) r.s.mem m) : MmStep r { r with s := { r.s with mem := m } }

/-- The state that `mm_init` leaves behind, before the first request. -/
def mmStart (s : Mm) (heapSize : ℤ) : MmRun := ⟨(mmInit s heapSize).2, [], fun _ => []⟩

@[simp] theorem mmStart_s (s : Mm) (heapSize : ℤ) : (mmStart s heapSize).s = (mmInit s heapSize).2 :=
  rfl

/-! ## What every run keeps -/

theorem MmRun.alloc_state (r : MmRun) (size : ℤ) : (r.alloc size).s = (yalloc r.s size).2 := by
  unfold MmRun.alloc
  split
  · rename_i h
    rw [h]
  · rename_i h
    split <;> rw [h]

/-- On every heap a step changes nothing that `mm_init` has fixed. -/
theorem mmStep_fixed {r r' : MmRun} (h : MmLayout r.s) (hstep : MmStep r r') :
    Fixed r.s r'.s := by
  cases hstep with
  | alloc size _ =>
    rw [MmRun.alloc_state]
    exact yalloc_fixed h size
  | freeBlock p _ s hs =>
    obtain ⟨s', hs', hfixed⟩ := yfree_fixed h p.1
    rw [hs'] at hs
    obtain rfl := Option.some.inj hs
    exact hfixed
  | freeChunk i a _ _ s hs =>
    obtain ⟨s', hs', hfixed⟩ := yfree_fixed h a
    rw [hs'] at hs
    obtain rfl := Option.some.inj hs
    exact hfixed
  | writeBlock p _ m _ => exact (same_withMem r.s m).fixed
  | writeChunk i a _ _ m _ => exact (same_withMem r.s m).fixed

theorem mmRun_layout {r₀ r : MmRun} (h : MmLayout r₀.s)
    (hrun : Relation.ReflTransGen MmStep r₀ r) : MmLayout r.s := by
  induction hrun with
  | refl => exact h
  | tail _ hstep ih => exact (mmStep_fixed ih hstep).layout ih

/-! ## What runs keep on a heap that pads every order -/

section Served

variable {r : MmRun} {pb : Block} {lost blocks : List Block} (h : MmInv r.s pb lost blocks r.chunks)

include h

/-- A request that a pool serves. -/
theorem MmInv.alloc_chunk {size : ℤ} (hpos : 1 ≤ size) {i : ℕ} (hclass : IsPoolClass size i)
    (hfree : (r.s.pools i).frees ≠ 0) : ∃ a, (yalloc r.s size).1 = .addr a ∧
      r.alloc size =
        ⟨(yalloc r.s size).2, r.blocks, Function.update r.chunks i (a :: r.chunks i)⟩ ∧
      MmInv (yalloc r.s size).2 pb lost blocks (Function.update r.chunks i (a :: r.chunks i)) := by
  obtain ⟨-, k, -, hptr, -, hinv'⟩ := yalloc_chunk h hpos hclass hfree
  have hi := hclass.lt
  have hle := hclass.le
  have hpow : 2 ^ i ≤ 2 ^ 6 := Nat.pow_le_pow_right (by decide) (by omega)
  obtain ⟨hchunk, hord⟩ := plGetChunk_of_class h.layout.pools hpos hclass
  refine ⟨_, hptr, ?_, hinv'⟩
  obtain ⟨q, hq⟩ : ∃ q, yalloc r.s size = q := ⟨_, rfl⟩
  rw [hq] at hptr ⊢
  obtain ⟨p, s⟩ := q
  obtain rfl : p = .addr (r.s.slot i k + 4) := hptr
  simp only [MmRun.alloc, hq, mmGetPriLlc, if_neg (show ¬ size ≥ 2048 by omega),
    toInt_of_range (show -2147483648 ≤ size by omega) (by omega), hchunk,
    toU32_natCast (show 16 * 2 ^ i < 4294967296 by omega), hord, Int.toNat_natCast]

/-- A request that the buddy serves. -/
theorem MmInv.alloc_block {size : ℤ} (hsize : 2048 ≤ size) (hbig : 2048 < toInt size)
    (hfree : HasFree r.s (toInt size)) : ∃ b, IsClass r.s (toInt size) b.ord ∧
      (yalloc r.s size).1 = .addr (r.s.blockAddr b) ∧
      r.alloc size = ⟨(yalloc r.s size).2, r.s.range b :: r.blocks, r.chunks⟩ ∧
      MmInv (yalloc r.s size).2 pb lost (b :: blocks) r.chunks := by
  obtain ⟨b, hclass, hptr, hinv'⟩ := yalloc_block h hsize hbig hfree
  obtain ⟨hrnd, -⟩ := budRndup_of_class h.layout.buddy (by omega) hclass
  refine ⟨b, hclass, hptr, ?_, hinv'⟩
  obtain ⟨q, hq⟩ : ∃ q, yalloc r.s size = q := ⟨_, rfl⟩
  rw [hq] at hptr ⊢
  obtain ⟨p, s⟩ := q
  obtain rfl : p = .addr (r.s.blockAddr b) := hptr
  simp only [MmRun.alloc, hq, mmGetPriLlc, if_pos (show size ≥ 2048 from hsize), hrnd,
    Int.toNat_natCast, Mm.range]

end Served

/-- The live ranges are those of a family of blocks that the state describes. -/
def MmRunInv (s₀ : Mm) (r : MmRun) : Prop :=
  ∃ pb lost B, MmInv r.s pb lost B r.chunks ∧ r.blocks = B.map s₀.range ∧ Fixed s₀ r.s

section Step

variable {s₀ : Mm} {r : MmRun} (h : MmRunInv s₀ r)

include h

theorem alloc_chunk {size : ℤ} (hpos : 1 ≤ size) {i : ℕ} (hclass : IsPoolClass size i)
    (hfree : (r.s.pools i).frees ≠ 0) : MmRunInv s₀ (r.alloc size) := by
  obtain ⟨pb, lost, B, hinv, hblocks, hfixed⟩ := h
  obtain ⟨a, -, hres, hinv'⟩ := hinv.alloc_chunk hpos hclass hfree
  rw [hres]
  exact ⟨pb, lost, B, hinv', hblocks, hfixed.trans (yalloc_fixed hinv.layout size)⟩

theorem alloc_block {size : ℤ} (hsize : 2048 ≤ size) (hbig : 2048 < toInt size)
    (hfree : HasFree r.s (toInt size)) : MmRunInv s₀ (r.alloc size) := by
  obtain ⟨pb, lost, B, hinv, hblocks, hfixed⟩ := h
  obtain ⟨b, -, -, hres, hinv'⟩ := hinv.alloc_block hsize hbig hfree
  rw [hres]
  exact ⟨pb, lost, b :: B, hinv', by rw [List.map_cons, hblocks, range_congr hfixed.toSameBud],
    hfixed.trans (yalloc_fixed hinv.layout size)⟩

/-- A call that is refused loses a block at most. -/
theorem alloc_code {size e : ℤ} (hres : (yalloc r.s size).1 = .code e)
    (hinv : ∀ pb lost B, MmInv r.s pb lost B r.chunks →
      ∃ lost', MmInv (yalloc r.s size).2 pb lost' B r.chunks) : MmRunInv s₀ (r.alloc size) := by
  obtain ⟨pb, lost, B, hold, hblocks, hfixed⟩ := h
  have hfixed' := yalloc_fixed hold.layout size
  obtain ⟨lost', hnew⟩ := hinv pb lost B hold
  have heq : r.alloc size = { r with s := (yalloc r.s size).2 } := by
    obtain ⟨q, hq⟩ : ∃ q, yalloc r.s size = q := ⟨_, rfl⟩
    rw [hq] at hres ⊢
    obtain ⟨p, s⟩ := q
    obtain rfl : p = .code e := hres
    simp only [MmRun.alloc, hq]
  rw [heq]
  exact ⟨pb, lost', B, hnew, hblocks, hfixed.trans hfixed'⟩

theorem alloc_inv {size : ℤ} (hfree : NotExhausted r.s size) : MmRunInv s₀ (r.alloc size) := by
  obtain ⟨pb, lost, B, hinv, -⟩ := id h
  have L := hinv.layout
  have hsame {e : ℤ} (heq : yalloc r.s size = (.code e, r.s)) : MmRunInv s₀ (r.alloc size) :=
    alloc_code h (e := e) (by rw [heq]) fun pb lost B hold => ⟨lost, by rw [heq]; exact hold⟩
  unfold NotExhausted mmGetPriLlc at hfree
  rcases lt_or_ge size 1 with hneg | hpos
  · exact hsame (show yalloc r.s size = (.code (-1), r.s) by rw [yalloc, if_pos hneg])
  rcases lt_or_ge size 2048 with hlt | hge
  · rw [if_pos hlt] at hfree
    rcases le_or_gt size 1024 with hle | hgap
    · obtain ⟨i, hclass⟩ := exists_isPoolClass hle
      exact alloc_chunk h hpos hclass (hfree i hclass)
    · exact hsame (yalloc_gap L hgap hlt)
  · rw [if_neg (by omega)] at hfree
    rcases lt_or_ge (toInt size) 1 with hneg | hint
    · exact hsame (yalloc_narrowed r.s hge hneg)
    rcases lt_or_ge (r.s.bm.ul : ℤ) (toInt size) with hul | hul
    · exact hsame (yalloc_large L hge hul)
    · obtain ⟨o, hclass⟩ := exists_isClass L.buddy hul
      have hclear : HasFree r.s (toInt size) := ⟨o, hclass, hfree o hclass⟩
      rcases le_or_gt (toInt size) 2048 with hle | hbig
      · obtain ⟨b, hcode, -⟩ := yalloc_lost hinv hge hint hle hclear
        refine alloc_code h hcode fun pb lost B hold => ?_
        obtain ⟨b, -, hnew⟩ := yalloc_lost hold hge hint hle hclear
        exact ⟨b :: lost, hnew⟩
      · exact alloc_block h hge hbig hclear

end Step

theorem mmStep_inv {s₀ : Mm} {r r' : MmRun} (h : MmRunInv s₀ r) (hstep : MmStep r r') :
    MmRunInv s₀ r' := by
  obtain ⟨pb, lost, B, hinv, hblocks, hfixed⟩ := id h
  have hfixed' := mmStep_fixed hinv.layout hstep
  have hrange := range_congr hfixed.toSameBud
  cases hstep with
  | alloc size hfree => exact alloc_inv h hfree
  | freeBlock p hp s hs =>
    rw [hblocks] at hp
    obtain ⟨b, hb, rfl⟩ := List.mem_map.1 hp
    obtain ⟨hfree, hinv'⟩ := yfree_block hinv hb
    have haddr : (s₀.range b).1 = r.s.blockAddr b := by rw [← hrange]; rfl
    rw [haddr, hfree] at hs
    obtain rfl := Option.some.inj hs
    refine ⟨pb, lost, B.erase b, hinv', ?_, hfixed.trans hfixed'⟩
    rw [hblocks]
    exact (List.map_erase (range_injective s₀) _).symm
  | freeChunk i a hi ha s hs =>
    obtain ⟨hfree, hinv'⟩ := yfree_chunk hinv hi ha
    rw [hfree] at hs
    obtain rfl := Option.some.inj hs
    exact ⟨pb, lost, B, hinv', hblocks, hfixed.trans hfixed'⟩
  | writeBlock p hp m hm =>
    rw [hblocks] at hp
    obtain ⟨b, hb, rfl⟩ := List.mem_map.1 hp
    rw [← hrange] at hm
    exact ⟨pb, lost, B, hinv.write_block hb hm, hblocks, hfixed.trans hfixed'⟩
  | writeChunk i a hi ha m hm =>
    exact ⟨pb, lost, B, hinv.write_chunk hi ha hm, hblocks, hfixed.trans hfixed'⟩

section Start

variable {s : Mm} (hfnum : s.lazy.fnum = 0) (hunum : s.lazy.unum = 0) {n : ℤ}
  (hfit : n < 0x3E000000) (hok : 0 ≤ (mmInit s n).1)

include hfnum hunum hfit hok

theorem mmRun_inv (hpads : PadsEvery n) {r : MmRun}
    (hrun : Relation.ReflTransGen MmStep (mmStart s n) r) : MmRunInv (mmInit s n).2 r := by
  obtain ⟨pb, hinv⟩ := mmInit_inv hfnum hunum hfit hok hpads
  exact Runs.invariant_of_run hrun ⟨pb, [], [], hinv, rfl, Fixed.refl _⟩
    fun _ _ hx hstep => mmStep_inv hx hstep

end Start

/-! ## Whole runs -/

/-- Address `a` is held by a user. -/
def MmRun.Live (r : MmRun) (a : ℕ) : Prop := (∃ p ∈ r.blocks, p.1 = a) ∨ ∃ i < 7, a ∈ r.chunks i

/-- Releases find their way back to the allocator that served the request. -/
structure MmRunOk (r : MmRun) : Prop where
  sec : ∀ a, r.Live a → (mmWhereIsAddr r.s a = .sec ↔ ∃ i < 7, a ∈ r.chunks i)
  chunk : ∀ i < 7, ∀ a ∈ r.chunks i,
    poolGetId r.s (a - POOL_HEADER_SIZE) = i ∧ yfree r.s a = some (plFree r.s a)
  block : ∀ p ∈ r.blocks, yfree r.s p.1 = some (_budFree r.s p.1)
  apart : ∀ p ∈ r.blocks, ¬ Meets p.1 p.2 r.s.secBase r.s.secSize.toNat

theorem mmRunInv_ok {s₀ : Mm} {r : MmRun} (h : MmRunInv s₀ r) : MmRunOk r := by
  obtain ⟨pb, lost, B, hinv, hblocks, hfixed⟩ := h
  rw [← range_congr hfixed.toSameBud] at hblocks
  have hblock (p : ℕ × ℕ) (hp : p ∈ r.blocks) : ∃ b ∈ B, r.s.range b = p := by
    rw [hblocks] at hp
    exact List.mem_map.1 hp
  refine ⟨fun a ha => ?_, fun i hi a ha => ?_, fun p hp => ?_, fun p hp => ?_⟩
  · obtain ⟨p, hp, rfl⟩ | hchunk := ha
    · obtain ⟨b, hb, rfl⟩ := hblock p hp
      have hpri : mmWhereIsAddr r.s (r.s.range b).1 = .pri := hinv.where_block hb
      rw [hpri]
      refine iff_of_false (by decide) ?_
      rintro ⟨i, hi, ha⟩
      rw [(hinv.where_chunk hi ha).1] at hpri
      cases hpri
    · refine iff_of_true ?_ hchunk
      obtain ⟨i, hi, ha⟩ := hchunk
      exact (hinv.where_chunk hi ha).1
  · exact ⟨(hinv.where_chunk hi ha).2.1, (yfree_chunk hinv hi ha).1⟩
  · obtain ⟨b, hb, rfl⟩ := hblock p hp
    exact (yfree_block hinv hb).1
  · obtain ⟨b, hb, rfl⟩ := hblock p hp
    rw [hinv.secSize, Int.toNat_natCast]
    exact hinv.block_apart hb

/-- After `mm_init` on a heap without an order of a whole number of bitmap words, every run routes
its releases to the allocator and the pool they came from. -/
theorem mmRun_ok (mem : Mem) (frees inuses : ℕ) (heapSize : ℤ) (hfit : heapSize < 0x3E000000)
    (hok : 0 ≤ (mmInit (.boot mem frees inuses) heapSize).1) (hpads : PadsEvery heapSize)
    (r : MmRun)
    (hrun : Relation.ReflTransGen MmStep (mmStart (.boot mem frees inuses) heapSize) r) :
    MmRunOk r :=
  mmRunInv_ok (mmRun_inv rfl rfl hfit hok hpads hrun)

/-! ## A run on the heap of `main` -/

/-- The heap of `main` before the first request. -/
def mmMain : MmRun := mmStart (.boot ⟨fun _ => 0⟩ 4 12) 0x20000000

theorem mmMain_blocks : mmMain.blocks = [] := by rw [mmMain, mmStart]

theorem mmMain_chunks : mmMain.chunks = firstLive [] [] := by rw [mmMain, mmStart, firstLive_nil]

theorem mmMain_inv : ∃ pb, MmInv mmMain.s pb [] [] mmMain.chunks := by
  rw [mmMain_chunks, firstLive_nil, mmMain, mmStart_s]
  exact mmInit_inv (s := .boot ⟨fun _ => 0⟩ 4 12) rfl rfl (by decide) (mmInit_ok_main _)
    padsEvery_main

theorem mmMain_frees {i : ℕ} (hi : i < 7) : (mmMain.s.pools i).frees ≠ 0 := by
  rw [mmMain, mmStart_s]
  exact mmInit_pools (by decide) (mmInit_ok_main _) hi

theorem mmMain_dep : 9 ≤ mmMain.s.bm.dep := by
  rw [mmMain, mmStart_s]
  exact mmInit_dep (by decide) (mmInit_ok_main _)

/-- A pool without live chunks has something free. -/
theorem frees_of_nil {s : Mm} {pb : Block} {lost blocks : List Block} {chunks : ℕ → List ℕ}
    (h : MmInv s pb lost blocks chunks) (hfixed : Fixed mmMain.s s) {i : ℕ} (hi : i < 7)
    (hnil : chunks i = []) : (s.pools i).frees ≠ 0 := by
  obtain ⟨pb₀, hmain⟩ := mmMain_inv
  have hpos := mmMain_frees hi
  have hstart := hmain.pool.frees hi
  have hfrees := h.pool.frees hi
  have hcap : s.cap i = mmMain.s.cap i := by rw [Mm.cap, Mm.cap, hfixed.size, hfixed.chunk]
  rw [hnil, List.length_nil] at hfrees
  omega

theorem notExhausted_of_class {s : Mm} {size : ℤ} {i : ℕ} (hlt : size < 2048)
    (hclass : IsPoolClass size i) (hfree : (s.pools i).frees ≠ 0) : NotExhausted s size := by
  rw [NotExhausted, mmGetPriLlc, if_pos hlt]
  intro j hj
  rwa [hj.unique hclass]

/-- A chunk of 16 bytes is taken. -/
theorem mmMain_first : ∃ pb a s, mmMain.alloc 10 = ⟨s, [], firstLive [a] []⟩ ∧
    MmInv s pb [] [] (firstLive [a] []) ∧ Fixed mmMain.s s ∧
    NotExhausted mmMain.s 10 ∧ (yalloc mmMain.s 10).1 = .addr a := by
  have hclass : IsPoolClass 10 0 := ⟨by decide, by decide, by simp⟩
  obtain ⟨pb, hinv⟩ := mmMain_inv
  have hfree := mmMain_frees (i := 0) (by decide)
  obtain ⟨a, ha, hres, hinv'⟩ := hinv.alloc_chunk (by decide) hclass hfree
  have hlive : Function.update mmMain.chunks 0 (a :: mmMain.chunks 0) = firstLive [a] [] := by
    rw [mmMain_chunks]
    funext j
    rw [Function.update_apply, firstLive_zero [a] [] []]
    rfl
  rw [hlive, mmMain_blocks] at hres
  rw [hlive] at hinv'
  exact ⟨pb, a, _, hres, hinv', yalloc_fixed hinv.layout 10,
    notExhausted_of_class (by decide) hclass hfree, ha⟩

/-- And one of 32 bytes. -/
theorem mmMain_second : ∃ pb a c s₁ s₂, mmMain.alloc 10 = ⟨s₁, [], firstLive [a] []⟩ ∧
    MmRun.alloc ⟨s₁, [], firstLive [a] []⟩ 20 = ⟨s₂, [], firstLive [a] [c]⟩ ∧
    MmInv s₂ pb [] [] (firstLive [a] [c]) ∧ Fixed mmMain.s s₂ ∧
    (NotExhausted mmMain.s 10 ∧ (yalloc mmMain.s 10).1 = .addr a) ∧
    NotExhausted s₁ 20 ∧ (yalloc s₁ 20).1 = .addr c := by
  have hclass : IsPoolClass 20 1 := ⟨by decide, by decide, by decide⟩
  obtain ⟨pb, a, s, hfirst, hinv, hfixed, hgrant⟩ := mmMain_first
  have hfree := frees_of_nil hinv hfixed (i := 1) (by decide) rfl
  obtain ⟨c, hc, hres, hinv'⟩ := MmInv.alloc_chunk (r := ⟨s, [], firstLive [a] []⟩) hinv (by decide)
    hclass hfree
  have hlive : Function.update (firstLive [a] []) 1 (c :: firstLive [a] [] 1) =
      firstLive [a] [c] := by
    funext j
    rw [Function.update_apply, firstLive_one [c] [a] []]
    rfl
  rw [hlive] at hres hinv'
  exact ⟨pb, a, c, s, _, hfirst, hres, hinv', hfixed.trans (yalloc_fixed hinv.layout 20), hgrant,
    notExhausted_of_class (by decide) hclass hfree, hc⟩

/-- And a block of 4096. -/
theorem mmMain_third : ∃ pb b a c s₁ s₂ s₃, mmMain.alloc 10 = ⟨s₁, [], firstLive [a] []⟩ ∧
    MmRun.alloc ⟨s₁, [], firstLive [a] []⟩ 20 = ⟨s₂, [], firstLive [a] [c]⟩ ∧
    MmRun.alloc ⟨s₂, [], firstLive [a] [c]⟩ 3000 = ⟨s₃, [s₃.range b], firstLive [a] [c]⟩ ∧
    MmInv s₃ pb [] [b] (firstLive [a] [c]) ∧ b.ord = 1 ∧
    (NotExhausted mmMain.s 10 ∧ (yalloc mmMain.s 10).1 = .addr a) ∧
    (NotExhausted s₁ 20 ∧ (yalloc s₁ 20).1 = .addr c) ∧
    NotExhausted s₂ 3000 ∧ (yalloc s₂ 3000).1 = .addr (s₃.blockAddr b) := by
  obtain ⟨pb, a, c, s₁, s₂, hfirst, hsecond, hinv, hfixed, hgrant₁, hgrant₂⟩ := mmMain_second
  have hint : toInt 3000 = 3000 := by decide
  have hdep : 1 < s₂.bm.dep := by
    have := mmMain_dep
    rw [hfixed.bm]
    omega
  have hclass : IsClass s₂ (toInt 3000) 1 := by
    rw [hint]
    exact ⟨hdep, by decide, by decide⟩
  have hclear := hinv.bud.clear_of_one hdep
  obtain ⟨b, hord, hb, hres, hinv'⟩ := MmInv.alloc_block (r := ⟨s₂, [], firstLive [a] [c]⟩) hinv
    (show (2048 : ℤ) ≤ 3000 by decide) (by rw [hint]; decide) ⟨1, hclass, hclear⟩
  have hsame := (yalloc_fixed hinv.layout 3000).toSameBud
  have hfree : NotExhausted s₂ 3000 := by
    rw [NotExhausted, mmGetPriLlc, if_neg (by decide)]
    intro o ho
    rwa [ho.unique hclass]
  rw [← range_congr hsame] at hres
  refine ⟨pb, b, a, c, s₁, s₂, _, hfirst, hsecond, hres, hinv', hord.unique hclass, hgrant₁, hgrant₂,
    hfree, hb.trans ?_⟩
  rw [Mm.blockAddr, Mm.blockAddr, hsame.bm]

theorem mmMain_reach : ∃ pb b a c s,
    ((mmMain.alloc 10).alloc 20).alloc 3000 = ⟨s, [s.range b], firstLive [a] [c]⟩ ∧
    MmInv s pb [] [b] (firstLive [a] [c]) ∧
    Relation.ReflTransGen MmStep mmMain ⟨s, [s.range b], firstLive [a] [c]⟩ := by
  obtain ⟨pb, b, a, c, s₁, s₂, s₃, hfirst, hsecond, hthird, hinv, -, ⟨hfree₁, -⟩, ⟨hfree₂, -⟩,
    hfree₃, -⟩ := mmMain_third
  have h₁ := MmStep.alloc mmMain 10 hfree₁
  rw [hfirst] at h₁
  have h₂ := MmStep.alloc ⟨s₁, [], firstLive [a] []⟩ 20 hfree₂
  rw [hsecond] at h₂
  have h₃ := MmStep.alloc ⟨s₂, [], firstLive [a] [c]⟩ 3000 hfree₃
  rw [hthird] at h₃
  exact ⟨pb, b, a, c, s₃, by rw [hfirst, hsecond, hthird], hinv,
    ((Relation.ReflTransGen.refl.tail h₁).tail h₂).tail h₃⟩

theorem firstLive_erase (a c : ℕ) :
    Function.update (firstLive [a] [c]) 1 ((firstLive [a] [c] 1).erase c) = firstLive [a] [] := by
  funext j
  rw [Function.update_apply, firstLive_one [] [a] [c]]
  simp [firstLive]

/-- Two chunks and a block are taken; the block is written to, and a chunk is given back. -/
theorem mmRun_ok_main : ∃ s s' a c p,
    ((mmMain.alloc 10).alloc 20).alloc 3000 = ⟨s, [p], firstLive [a] [c]⟩ ∧
    yfree { s with mem := store8 s.mem p.1 7 } c = some s' ∧
    MmRunOk ⟨s', [p], firstLive [a] []⟩ := by
  obtain ⟨pb, b, a, c, s, htaken, hinv, hrun⟩ := mmMain_reach
  have hwrite : Frame (s.range b).1 ((s.range b).1 + (s.range b).2) s.mem
      (store8 s.mem (s.range b).1 7) := by
    refine (frame_store8 _ _ _).mono le_rfl ?_
    have hpow : 1 ≤ 2 ^ b.ord := Nat.one_le_two_pow
    simp only [Mm.range]
    omega
  obtain ⟨hfreed, -⟩ := yfree_chunk (hinv.write_block List.mem_cons_self hwrite) (i := 1) (a := c)
    (by decide) List.mem_cons_self
  have h₁ := MmStep.writeBlock ⟨s, [s.range b], firstLive [a] [c]⟩ _ List.mem_cons_self _ hwrite
  have h₂ := MmStep.freeChunk ⟨{ s with mem := store8 s.mem (s.range b).1 7 }, [s.range b],
    firstLive [a] [c]⟩ 1 c (by decide) List.mem_cons_self _ hfreed
  rw [firstLive_erase] at h₂
  refine ⟨s, _, a, c, s.range b, htaken, hfreed, ?_⟩
  exact mmRun_ok ⟨fun _ => 0⟩ 4 12 0x20000000 (by decide) (mmInit_ok_main _) padsEvery_main _
    ((hrun.tail h₁).tail h₂)

end YohdaOS

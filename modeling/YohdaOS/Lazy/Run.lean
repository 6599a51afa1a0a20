import YohdaOS.Lazy.Free

/-!
# Runs of the lazy layer

A run allocates and frees pages and writes into those it has.  As long as no `bud_free` meets the
head of the free pages linked back to itself, and no node `list_get` hands out is refused by
`IS_MEM_ERR`, the two lists and counters say where every page is.
-/

namespace YohdaOS

open ByteMem Chains

/-- The state, the pages that are outstanding and those the lazy layer manages. -/
structure LazyRun where
  s : Mm
  out : List ℕ
  held : List ℕ

inductive LazyEvent where
  /-- `bud_alloc(size)` -/
  | alloc (size : ℤ)
  /-- `bud_free(addr)` -/
  | free (addr : ℕ)
  /-- a write into a page -/
  | write

/-- The pages outstanding after a call of `bud_alloc`. -/
def pagesOut : Ptr → List ℕ → List ℕ
  | .addr p, out => p :: out
  | .code _, out => out

inductive LazyStep : LazyRun → LazyEvent → LazyRun → Prop
  | alloc (r : LazyRun) (size : ℤ) (hle : size ≤ MM_PAGE_SIZE) (hok : AllocOk r.s size) :
      LazyStep r (.alloc size) ⟨(budAlloc listOps r.s size).2,
        pagesOut (budAlloc listOps r.s size).1 r.out, r.held ++ lazyGot r.s size⟩
  | free (r : LazyRun) (p : ℕ) (hp : p ∈ r.out) (s' : Mm) (hs : budFree listOps r.s p = some s') :
      LazyStep r (.free p) ⟨s', r.out.erase p, r.held.filter (· ∉ lazyGave r.s p)⟩
  | write (r : LazyRun) (p : ℕ) (hp : p ∈ r.out) (m : Mem) (hm : Frame p (p + 2048) r.s.mem m) :
      LazyStep r .write ⟨{ r.s with mem := m }, r.out, r.held⟩

/-- The state before a call lets it do its work. -/
def LazyEvent.Clean (s : Mm) : LazyEvent → Prop
  | .alloc size => 1 ≤ size → 0 < s.lazy.fnum → isMemErr s (s.links.next s.lazy.frees) = false
  | .free _ => FreeClean s
  | .write => True

/-- The nodes that the links lead through from the two heads and back are `F` and `U`; the counters
count them, every managed page is on exactly one list, and the next `bud_alloc` that finds a free
page returns one that is not outstanding. -/
structure LazyOk (r : LazyRun) (F U : List ℕ) : Prop where
  frees : Chain r.s.links.next (r.s.links.next r.s.lazy.frees) F r.s.lazy.frees
  inuses : Chain r.s.links.next (r.s.links.next r.s.lazy.inuses) U r.s.lazy.inuses
  simple : (r.s.lazy.frees :: F).Nodup ∧ (r.s.lazy.inuses :: U).Nodup
  fnum : r.s.lazy.fnum = F.length
  unum : r.s.lazy.unum = U.length
  pages : ((F ++ U).map r.s.pageAddr).Perm r.held ∧ r.held.Nodup
  alloc : ∀ size, 1 ≤ size → size ≤ MM_PAGE_SIZE → 0 < r.s.lazy.fnum →
    (LazyEvent.alloc size).Clean r.s →
      ∃ p, (budAlloc listOps r.s size).1 = .addr p ∧ p ∈ r.held ∧ p ∉ r.out
  free : ∀ p ∈ r.out, (LazyEvent.free p).Clean r.s → ∃ s', budFree listOps r.s p = some s'

/-- What the steps keep. -/
def LazyInv (r : LazyRun) : Prop :=
  ∃ B D F U, World r.s B D F U ∧ ((F ++ U).map r.s.pageAddr).Perm r.held ∧ r.out.Nodup ∧
    ∀ p ∈ r.out, p ∈ U.map r.s.pageAddr

/-! ## One step -/

theorem budAlloc_eq (ops : ListOps) {s : Mm} {size : ℤ} (hpos : 1 ≤ size) (hle : size ≤ MM_PAGE_SIZE) :
    budAlloc ops s size = if (budLazyAlloc ops s).1.val = 0 then
      (.code (-4), (budLazyAlloc ops s).2) else budLazyAlloc ops s := by
  rw [budAlloc, if_neg (by omega)]
  simp only [if_neg (show ¬ size > MM_PAGE_SIZE by omega)]

theorem World.single_right {s : Mm} {B D F U : List ℕ} (h : World s B D F U) :
    (U.map s.pageAddr).Nodup := by
  have hs := h.single
  rw [List.map_append] at hs
  exact (List.nodup_append.1 hs).2.1

/-- What `bud_alloc` returns goes to the pages outstanding. -/
theorem lazyInv_served {s : Mm} {out held U got B D F U' : List ℕ} {size : ℤ} (hpos : 1 ≤ size)
    (hle : size ≤ MM_PAGE_SIZE) (hout : out.Nodup) (hin : ∀ p ∈ out, p ∈ U.map s.pageAddr)
    (hs : World.Served s (budLazyAlloc listOps s) U got B D F U') (hgot : got.Perm held) :
    LazyInv ⟨(budAlloc listOps s size).2, pagesOut (budAlloc listOps s size).1 out, held⟩ := by
  obtain ⟨hw, hheld, hpage⟩ := hs
  have hnodup := hw.single_right
  rw [budAlloc_eq listOps hpos hle]
  generalize budLazyAlloc listOps s = q at *
  rcases hpage with ⟨hres, hmap⟩ | ⟨p, hres, hp0, hmap⟩
  · have hval : q.1.val = 0 := by
      rw [hres]
      rfl
    rw [if_pos hval]
    refine ⟨B, D, F, U', hw, hheld.trans hgot, hout, fun p hp => ?_⟩
    rw [hmap]
    exact hin p hp
  · have hval : q.1.val ≠ 0 := by
      rw [hres]
      exact hp0
    rw [if_neg hval, hres]
    refine ⟨B, D, F, U', hw, hheld.trans hgot, ?_, fun q' hq' => ?_⟩
    · apply hout.cons
      intro hp
      rw [hmap, List.nodup_append] at hnodup
      exact hnodup.2.2 p (hin p hp) p (List.mem_singleton_self p) rfl
    · rw [hmap, List.mem_append, List.mem_singleton]
      rcases List.mem_cons.1 hq' with rfl | hq'
      · exact Or.inr rfl
      · exact Or.inl (hin q' hq')

theorem lazyInv_alloc {r : LazyRun} (h : LazyInv r) {size : ℤ} (hle : size ≤ MM_PAGE_SIZE)
    (hok : AllocOk r.s size) (hclean : (LazyEvent.alloc size).Clean r.s) :
    LazyInv ⟨(budAlloc listOps r.s size).2, pagesOut (budAlloc listOps r.s size).1 r.out,
      r.held ++ lazyGot r.s size⟩ := by
  obtain ⟨B, D, F, U, hw, hheld, hout, hin⟩ := h
  by_cases hpos : 1 ≤ size
  · have hgot := hheld.append_right (lazyGot r.s size)
    by_cases h0 : r.s.lazy.fnum = 0
    · obtain ⟨B', D', F', U', hs⟩ := hw.served_of_eq h0 hpos hok
      exact lazyInv_served hpos hle hout hin hs hgot
    · have hfnum := hw.fnum
      obtain ⟨F', x, hs, -⟩ := hw.served_of_ne h0 (hclean hpos (by omega)) size
      exact lazyInv_served hpos hle hout hin hs hgot
  · have halloc : budAlloc listOps r.s size = (.code (-EINVAL), r.s) := by
      rw [budAlloc, if_pos (by omega)]
    have hgot : lazyGot r.s size = [] := by rw [lazyGot, if_pos (Or.inl (by omega))]
    rw [halloc, hgot, List.append_nil]
    exact ⟨B, D, F, U, hw, hheld, hout, hin⟩

theorem lazyInv_free {r : LazyRun} (h : LazyInv r) {p : ℕ} (hp : p ∈ r.out) {s' : Mm}
    (hs : budFree listOps r.s p = some s') (hclean : FreeClean r.s) :
    LazyInv ⟨s', r.out.erase p, r.held.filter (· ∉ lazyGave r.s p)⟩ := by
  obtain ⟨B, D, F, U, hw, hheld, hout, hin⟩ := h
  obtain ⟨s₁, B', F', U', hs₁, hw', hgave, hkeep⟩ := hw.free (hin p hp) hclean
  obtain rfl : s₁ = s' := Option.some.inj (hs₁.symm.trans hs)
  refine ⟨B', D, F', U', hw', ?_, hout.erase p, fun q hq => ?_⟩
  · have hperm := (hgave.trans hheld).filter (· ∉ lazyGave r.s p)
    have hnodup := hgave.nodup_iff.2 hw.single
    rw [List.nodup_append] at hnodup
    have hstay : ((F' ++ U').map s₁.pageAddr).filter (· ∉ lazyGave r.s p) =
        (F' ++ U').map s₁.pageAddr := by
      rw [List.filter_eq_self]
      intro q hq
      exact decide_eq_true fun hq' => hnodup.2.2 q hq q hq' rfl
    have hgone : (lazyGave r.s p).filter (· ∉ lazyGave r.s p) = [] := by
      rw [List.filter_eq_nil_iff]
      intro q hq
      simpa using hq
    rwa [List.filter_append, hstay, hgone, List.append_nil] at hperm
  · rw [hout.mem_erase_iff] at hq
    exact hkeep q (hin q hq.2) hq.1

/-- A page in use belongs to its user. -/
theorem World.write {s : Mm} {B D F U : List ℕ} {p : ℕ} (h : World s B D F U)
    (hp : p ∈ U.map s.pageAddr) {m : Mem} (hm : Frame p (p + 2048) s.mem m) :
    World { s with mem := m } B D F U := by
  obtain ⟨x, hx, hxp⟩ := List.mem_map.1 hp
  obtain ⟨k, -, -, -, hpage⟩ := h.pages x (List.mem_append_right F hx)
  have hge : s.bm.heapBase ≤ p := by
    rw [← hxp, hpage]
    exact Nat.le_add_right _ _
  exact h.mono rfl rfl rfl (h.order0.of_frame hge hm) (fun _ _ => rfl) (List.Subset.refl B)

theorem lazyInv_write {r : LazyRun} (h : LazyInv r) {p : ℕ} (hp : p ∈ r.out) {m : Mem}
    (hm : Frame p (p + 2048) r.s.mem m) : LazyInv ⟨{ r.s with mem := m }, r.out, r.held⟩ := by
  obtain ⟨B, D, F, U, hw, hheld, hout, hin⟩ := h
  exact ⟨B, D, F, U, hw.write (hin p hp) hm, hheld, hout, hin⟩

theorem lazyStep_inv {r r' : LazyRun} {e : LazyEvent} (h : LazyInv r) (hclean : e.Clean r.s)
    (hstep : LazyStep r e r') : LazyInv r' := by
  cases hstep with
  | alloc size hle hok => exact lazyInv_alloc h hle hok hclean
  | free p hp s' hs => exact lazyInv_free h hp hs hclean
  | write p hp m hm => exact lazyInv_write h hp hm

/-! ## The start -/

/-- The linker places the two list heads apart, outside the heap. -/
structure ListHeads (H : Heap) (frees inuses : ℕ) : Prop where
  frees_ne : frees ≠ 0
  inuses_ne : inuses ≠ 0
  ne : frees ≠ inuses
  frees_out : frees < H.base ∨ H.base + H.size ≤ frees
  inuses_out : inuses < H.base ∨ H.base + H.size ≤ inuses

/-- The run that has done nothing after `bud_init`. -/
def lazyStart (mem : Mem) (H : Heap) (frees inuses : ℕ) : LazyRun :=
  ⟨(budInit (.boot mem frees inuses) H.base H.size).2, [], []⟩

theorem rings_init (l : Links) {h k : ℕ} (hh : h ≠ 0) (hk : k ≠ 0) (hhk : h ≠ k) :
    Rings (listInitHead (listInitHead l h) k) h k [] [] where
  left := by
    apply Ring.empty <;>
      simp [listInitHead, Links.setNext, Links.setPrev, Function.update_of_ne hhk]
  right := by
    apply Ring.empty <;> simp [listInitHead, Links.setNext, Links.setPrev]
  apart := by simpa using Ne.symm hhk
  zero := by simpa using Ne.symm hh
  zero' := by simpa using Ne.symm hk

/-- No page is out, and both lists are empty rings. -/
theorem world_init {mem : Mem} {H : Heap} {frees inuses : ℕ} (hh : ListHeads H frees inuses)
    (hok : 0 ≤ (budInit (.boot mem frees inuses) H.base H.size).1) :
    World (lazyStart mem H frees inuses).s [] [] [] [] ∧
      Rings (lazyStart mem H frees inuses).s.links (lazyStart mem H frees inuses).s.lazy.frees
        (lazyStart mem H frees inuses).s.lazy.inuses [] [] := by
  have hpost := _budInit_spec (.boot mem frees inuses) H hok
  have hbase := hpost.base_lt
  have hhdr := hpost.layout.base_hdr 0 hpost.layout.dep_pos
  have hheap := hpost.layout.heapBase
  have hend := hpost.end_le
  have hge := hpost.heap_ge
  have hlazy := hpost.lazy
  have hbatch : min (((_budInit (.boot mem frees inuses) H.base H.size 2048).2.bm.heapSize : ℤ) /
      MM_PAGE_SIZE - 1) 31 = 31 := by
    unfold min MM_PAGE_SIZE
    omega
  rw [hbatch] at hlazy
  have hf : (_budInit (.boot mem frees inuses) H.base H.size 2048).2.lazy.frees = frees := by
    rw [hlazy]
    rfl
  have hu : (_budInit (.boot mem frees inuses) H.base H.size 2048).2.lazy.inuses = inuses := by
    rw [hlazy]
    rfl
  have hrings : Rings (lazyStart mem H frees inuses).s.links (lazyStart mem H frees inuses).s.lazy.frees
      (lazyStart mem H frees inuses).s.lazy.inuses [] [] := by
    simp only [lazyStart, budInit]
    rw [hf, hu, hpost.links]
    exact rings_init _ hh.frees_ne hh.inuses_ne hh.ne
  refine ⟨⟨⟨order0_init hpost, by simp, by simp, by simp, by simp, by simp⟩, hrings.lists, ?_,
    ?_, ?_, ?_, ?_, ?_, by simp⟩, hrings⟩
  all_goals simp only [lazyStart, budInit]
  · rw [hlazy]
    rfl
  · rw [hlazy]
    rfl
  · rw [hlazy]
  · rw [hlazy]
    rfl
  · have hout := hh.frees_out
    rw [hf, Mm.Outside]
    omega
  · have hout := hh.inuses_out
    rw [hu, Mm.Outside]
    omega

theorem lazyInv_init {mem : Mem} {H : Heap} {frees inuses : ℕ} (hh : ListHeads H frees inuses)
    (hok : 0 ≤ (budInit (.boot mem frees inuses) H.base H.size).1) :
    LazyInv (lazyStart mem H frees inuses) :=
  ⟨[], [], [], [], (world_init hh hok).1, by simp [lazyStart], List.nodup_nil, by simp [lazyStart]⟩

/-! ## Whole runs -/

theorem lazyInv_ok {r : LazyRun} (h : LazyInv r) : ∃ F U, LazyOk r F U := by
  obtain ⟨B, D, F, U, hw, hheld, hout, hin⟩ := h
  refine ⟨F, U, hw.lists.fwd, hw.lists.inuses.fwd, ⟨hw.lists.nodup, hw.lists.inuses.nodup⟩, hw.fnum,
    hw.unum, ⟨hheld, hheld.nodup_iff.1 hw.single⟩, fun size hpos hle hf hclean => ?_,
    fun p hp hclean => ?_⟩
  · obtain ⟨F', x, hs, p, hp⟩ := hw.served_of_ne (by omega) (hclean hpos hf) size
    obtain ⟨hw', hgot, hpage⟩ := hs
    rw [lazyGot, if_pos (Or.inr (Or.inl (by omega))), List.append_nil] at hgot
    have hnodup := hw'.single_right
    rw [budAlloc_eq listOps hpos hle]
    generalize budLazyAlloc listOps r.s = q at *
    rcases hpage with ⟨hres, -⟩ | ⟨p, hres, hp0, hmap⟩
    · rw [hres] at hp
      cases hp
    · have hval : q.1.val ≠ 0 := by
        rw [hres]
        exact hp0
      rw [if_neg hval]
      have hmem : p ∈ (U ++ [x]).map q.2.pageAddr := by
        rw [hmap]
        simp
      refine ⟨p, hres, (hgot.trans hheld).mem_iff.1 ?_, fun hpo => ?_⟩
      · rw [List.map_append]
        exact List.mem_append_right _ hmem
      · rw [hmap, List.nodup_append] at hnodup
        exact hnodup.2.2 p (hin p hpo) p (List.mem_singleton_self p) rfl
  · obtain ⟨s', -, -, -, hs, -⟩ := hw.free (hin p hp) hclean
    exact ⟨s', hs⟩

/-- A step that meets its condition. -/
def CleanStep (r r' : LazyRun) : Prop := ∃ e : LazyEvent, e.Clean r.s ∧ LazyStep r e r'

/-- A run of steps that meet their conditions keeps the lists and the counters in step. -/
theorem lazyRun_ok (mem : Mem) (H : Heap) (frees inuses : ℕ) (hh : ListHeads H frees inuses)
    (hok : 0 ≤ (budInit (.boot mem frees inuses) H.base H.size).1) (r : LazyRun)
    (hrun : Relation.ReflTransGen CleanStep (lazyStart mem H frees inuses) r) :
    ∃ F U, LazyOk r F U := by
  apply lazyInv_ok
  apply Runs.invariant_of_run hrun (lazyInv_init hh hok)
  rintro x y hx ⟨e, hclean, hstep⟩
  exact lazyStep_inv hx hclean hstep

/-- Below the watermark a `bud_free` that meets the head linked back to itself loses a node. -/
theorem lazyStep_loses {r : LazyRun} (h : LazyInv r) {p : ℕ} (hp : p ∈ r.out)
    (hprev : r.s.links.prev r.s.lazy.frees = r.s.lazy.frees)
    (hnext : r.s.links.next r.s.lazy.frees ≠ r.s.lazy.frees)
    (hle : r.s.lazy.fnum + 1 ≤ r.s.lazy.wmk) :
    ∃ r', LazyStep r (.free p) r' ∧ ¬ ∃ F U, LazyOk r' F U := by
  obtain ⟨B, D, F, U, hw, -, -, hin⟩ := h
  obtain ⟨x, hx, rfl⟩ := List.mem_map.1 (hin p hp)
  obtain ⟨A, C, rfl⟩ := List.append_of_mem hx
  refine ⟨_, .free r _ hp _ (hw.budFree_below hle), ?_⟩
  rintro ⟨F', U', hok⟩
  have hheads : (lazyMoved r.s x).lazy.frees = r.s.lazy.frees := rfl
  have hfnum : (lazyMoved r.s x).lazy.fnum = r.s.lazy.fnum + 1 := rfl
  have hchain := hok.frees
  have hsimple := (List.nodup_cons.1 hok.simple.1).1
  have hcount := hok.fnum
  simp only [hheads, hfnum] at hchain hsimple hcount
  have hxh : r.s.lazy.frees ∉ [x] := by
    rw [List.mem_singleton]
    exact fun e => hw.lists.apart (List.mem_cons_self (a := r.s.lazy.frees)) (e ▸ by simp)
  have hF' := hchain.unique (hw.moved_alone hprev) hsimple hxh
  rw [hF', List.length_singleton, hw.fnum] at hcount
  rw [hw.lists.next_head] at hnext
  cases F with
  | nil => exact hnext rfl
  | cons y F =>
    rw [List.length_cons] at hcount
    omega

/-! ## The smallest heap -/

/-- `bud_init` on it, then `n` pages. -/
def leastPages (n : ℕ) : Mm :=
  (fun s => (budAlloc listOps s MM_PAGE_SIZE).2)^[n] (lazyStart ⟨fun _ => 0⟩ leastHeap 4 12).s

theorem leastHeap_heads : ListHeads leastHeap 4 12 :=
  ⟨by decide, by decide, by decide, by decide, by decide⟩

theorem leastHeap_ok :
    0 ≤ (budInit (.boot ⟨fun _ => 0⟩ 4 12) leastHeap.base leastHeap.size).1 :=
  (_budInit_ok_iff _ leastHeap).2 (by decide)

/-- The requests of a refill all find a clear bit. -/
def refillBits (pages : ℕ) : ℕ → ℕ → Mm → Bool
  | 0, _, _ => true
  | fuel + 1, i, s => 0 ≤ bitmapGetFree s.mem (s.bud 0).bmp &&
    refillBits pages fuel (i + 1) (lazyQueue (pages + sizeofLazyPage * i) (lazyAsk pages i s).2)

theorem hasFree_of_get {s : Mm} (L : Layout s) {size : ℤ} (hle : size ≤ 2048)
    (hget : 0 ≤ bitmapGetFree s.mem (s.bud 0).bmp) : HasFree s size := by
  refine ⟨0, ⟨L.dep_pos, by simpa using hle, by simp⟩, ?_⟩
  rcases L.bitmapGetFree_cases L.dep_pos with ⟨t, ht, -, hclear, -⟩ | ⟨hneg, -⟩
  · exact ⟨t, ht, hclear⟩
  · rw [hneg] at hget
    cases hget

theorem refillOk_of_bits (pages fuel i : ℕ) {s : Mm} (L : Layout s)
    (h : refillBits pages fuel i s = true) : RefillOk pages fuel i s := by
  induction fuel generalizing i s with
  | zero => trivial
  | succ fuel ih =>
    rw [refillBits, Bool.and_eq_true, decide_eq_true_eq] at h
    have hsame := (_budAlloc_same s MM_PAGE_SIZE).toSameBud
    obtain ⟨q, hq⟩ : ∃ q, _budAlloc s MM_PAGE_SIZE = q := ⟨_, rfl⟩
    rw [hq] at hsame
    have hbud : SameBud s (lazyQueue (pages + sizeofLazyPage * i) (lazyAsk pages i s).2) := by
      simp only [lazyQueue, lazyAsk, hq]
      exact ⟨hsame.bm, hsame.num, hsame.bmp⟩
    exact ⟨hasFree_of_get L le_rfl h.1, fun _ => ih (i + 1) (hbud.layout L) h.2⟩

theorem leastPages_allocOk (n : ℕ) (hn : n < 30) : AllocOk (leastPages n) MM_PAGE_SIZE := by
  intro _ h0
  have hpos : ∀ n < 30, n ≠ 0 → (leastPages n).lazy.fnum ≠ 0 := by decide +kernel
  obtain rfl : n = 0 := by
    by_contra hne
    exact hpos n hn hne h0
  have L := (_budInit_spec (.boot ⟨fun _ => 0⟩ 4 12) leastHeap leastHeap_ok).layout
  have hsame := _budAlloc_same (leastPages 0) (toInt (sizeofLazyPage * (leastPages 0).lazy.batch))
  refine ⟨hasFree_of_get L (by decide +kernel) (by decide +kernel), fun _ => ?_⟩
  exact refillOk_of_bits _ _ _ (hsame.layout L) (by decide +kernel)

/-- Thirty allocations, each of which meets its condition. -/
theorem leastPages_run (n : ℕ) (hn : n ≤ 30) : ∃ out held,
    Relation.ReflTransGen CleanStep (lazyStart ⟨fun _ => 0⟩ leastHeap 4 12)
      ⟨leastPages n, out, held⟩ ∧
    ∀ p, 0 < n → (budAlloc listOps (leastPages (n - 1)) MM_PAGE_SIZE).1 = .addr p → p ∈ out := by
  induction n with
  | zero => exact ⟨[], [], .refl, fun p h => absurd h (by decide)⟩
  | succ n ih =>
    obtain ⟨out, held, hrun, -⟩ := ih (by omega)
    have hvalid : ∀ n < 30, 0 < (leastPages n).lazy.fnum →
        isMemErr (leastPages n) ((leastPages n).links.next (leastPages n).lazy.frees) = false := by
      decide +kernel
    have hstep := LazyStep.alloc ⟨leastPages n, out, held⟩ MM_PAGE_SIZE le_rfl
      (leastPages_allocOk n (by omega))
    have hnext : leastPages (n + 1) = (budAlloc listOps (leastPages n) MM_PAGE_SIZE).2 :=
      Function.iterate_succ_apply' _ _ _
    rw [← hnext] at hstep
    have hclean : (LazyEvent.alloc MM_PAGE_SIZE).Clean (leastPages n) :=
      fun _ h => hvalid n (by omega) h
    refine ⟨_, _, hrun.tail ⟨_, hclean, hstep⟩, fun p _ hp => ?_⟩
    rw [Nat.add_sub_cancel] at hp
    rw [hp]
    exact List.mem_cons_self

theorem lazyRun_ok_least : ∃ out held F U, LazyOk ⟨leastPages 30, out, held⟩ F U := by
  obtain ⟨out, held, hrun, -⟩ := leastPages_run 30 le_rfl
  exact ⟨out, held, lazyRun_ok ⟨fun _ => 0⟩ leastHeap 4 12 leastHeap_heads leastHeap_ok _ hrun⟩

/-- Thirty pages are taken and one is given back: `lazy.fnum` is 2, and one node is on the list. -/
theorem lazyRun_fails : ∃ r,
    Relation.ReflTransGen (fun r r' => ∃ e, LazyStep r e r')
      (lazyStart ⟨fun _ => 0⟩ leastHeap 4 12) r ∧ ¬ ∃ F U, LazyOk r F U := by
  obtain ⟨out, held, hrun, hout⟩ := leastPages_run 30 le_rfl
  have hinv : LazyInv ⟨leastPages 30, out, held⟩ := by
    apply Runs.invariant_of_run hrun (lazyInv_init leastHeap_heads leastHeap_ok)
    rintro x y hx ⟨e, hclean, hstep⟩
    exact lazyStep_inv hx hclean hstep
  have hp := hout 33616023 (by decide) (by decide +kernel)
  have hlinks : (leastPages 30).links.prev (leastPages 30).lazy.frees = (leastPages 30).lazy.frees ∧
      (leastPages 30).links.next (leastPages 30).lazy.frees ≠ (leastPages 30).lazy.frees := by
    decide +kernel
  have hle : (leastPages 30).lazy.fnum + 1 ≤ (leastPages 30).lazy.wmk := by decide +kernel
  generalize leastPages 30 = s at *
  obtain ⟨r', hstep, hbad⟩ := lazyStep_loses hinv hp hlinks.1 hlinks.2 hle
  refine ⟨r', .tail (Relation.ReflTransGen.mono (fun _ _ h => ?_) _ _ hrun) ⟨_, hstep⟩, hbad⟩
  obtain ⟨e, -, hstep'⟩ := h
  exact ⟨e, hstep'⟩

end YohdaOS

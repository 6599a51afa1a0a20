import YohdaOS.Lazy.Queue
import YohdaOS.Lazy.Run

/-!
# The lazy layer over the 32-bit list functions

`archtecture/x86/p32/buddy.c` has the same text over a `list_get` that keeps the links back right.
The two lists are rings at all times there, and every run is one of the queues.
-/

namespace YohdaOS

open ByteMem Chains

/-- The world where both lists are rings. -/
structure RingWorld (s : Mm) (B D F U : List ℕ) : Prop extends World s B D F U where
  rings : Rings s.links s.lazy.frees s.lazy.inuses F U

/-- The queues of the pages on the lists, with the pages of descriptors. -/
def queueOf (s : Mm) (D F U : List ℕ) : LazyQueue :=
  ⟨F.map s.pageAddr, U.map s.pageAddr, s.lazy.fnum, s.lazy.unum, D.map s.page⟩

variable {s s' : Mm} {B D F U N A C : List ℕ} {d i p x : ℕ} {size : ℤ}

theorem World.queueOf_eq (h : World s B D F U) : queueOf s D F U =
    ⟨F.map s.pageAddr, U.map s.pageAddr, F.length, U.length, D.map s.page⟩ := by
  rw [queueOf, h.fnum, h.unum]

theorem World.counts (h : World s B D F U) : (queueOf s D F U).Counts := by
  rw [h.queueOf_eq]
  exact ⟨by simp, by simp⟩

/-- Only the lists and the counters change. -/
theorem RingWorld.relink {F' U' : List ℕ} {l : Links} {f u : ℤ} (h : RingWorld s B D F U)
    (hperm : (F ++ U).Perm (F' ++ U')) (hr : Rings l s.lazy.frees s.lazy.inuses F' U')
    (hf : f = F'.length) (hu : u = U'.length) (htaken : ∀ n ∈ U', isMemErr s n = false) :
    RingWorld { s with links := l, lazy := { s.lazy with fnum := f, unum := u } } B D F' U' :=
  ⟨h.toWorld.relink (h.toNodes.perm hperm) hr.lists hf hu htaken, hr⟩

/-! ## Allocation -/

/-- A page is taken from the list of the free ones. -/
theorem RingWorld.take (h : RingWorld s B D (x :: F) U) (hx : isMemErr s x = false) :
    ∃ s', budLazyTake P32.listOps s = (.addr (s.pageAddr x), s') ∧ RingWorld s' B D F (U ++ [x]) ∧
      (queueOf s D (x :: F) U).take = (some (s.pageAddr x), queueOf s' D F (U ++ [x])) := by
  obtain ⟨hnode, hr⟩ := h.rings.listGet_p32
  have hxF : x ∉ s.lazy.frees :: F := by
    rw [List.mem_cons, not_or]
    exact ⟨h.lists.ne_head, (List.nodup_cons.1 (List.nodup_cons.1 h.lists.nodup).2).1⟩
  have hxU : x ∉ s.lazy.inuses :: U := fun hx' => h.lists.apart (by simp) hx'
  have hx0 : x ≠ 0 := h.rings.ne_zero List.mem_cons_self
  have hperm : ((x :: F) ++ U).Perm (F ++ (U ++ [x])) := by
    rw [← List.append_assoc]
    exact (List.perm_append_singleton x (F ++ U)).symm
  have hmem : isMemErr { s with links := (P32.listGet s.links s.lazy.frees).2 } x = false := hx
  refine ⟨_, ?_, h.relink hperm (hr.swap.listAdd_p32 hxU hxF hx0).swap (f := s.lazy.fnum - 1)
    (u := s.lazy.unum + 1) ?_ ?_ ?_, ?_⟩
  · simp only [budLazyTake, show P32.listOps.get = P32.listGet from rfl,
      show P32.listOps.add = P32.listAdd from rfl, hnode, hmem, Bool.false_eq_true, if_false]
  · rw [h.fnum, List.length_cons]
    push_cast
    ring
  · rw [h.unum, List.length_append, List.length_singleton]
    push_cast
    ring
  · intro n hn
    rcases List.mem_append.1 hn with hn | hn
    · exact h.taken n hn
    · exact List.mem_singleton.1 hn ▸ hx
  · simp only [queueOf, List.map_cons, List.map_append, List.map_nil, LazyQueue.take]
    rfl

theorem RingWorld.take_of_err (h : RingWorld s B D (x :: F) U) (hx : isMemErr s x = true) :
    (budLazyTake P32.listOps s).1 = .code 0 := by
  obtain ⟨hnode, -⟩ := h.rings.listGet_p32
  have hmem : isMemErr { s with links := (P32.listGet s.links s.lazy.frees).2 } x = true := hx
  simp only [budLazyTake, show P32.listOps.get = P32.listGet from rfl, hnode, hmem, if_true]

/-- No page of a node holds descriptors. -/
theorem Nodes.pageAddr_notMem (h : Nodes s B D N) {n : ℕ} (hn : n ∈ N) :
    s.pageAddr n ∉ D.map s.page := by
  obtain ⟨k, -, hkD, -, hnk⟩ := h.pages n hn
  intro hmem
  obtain ⟨e, he, heq⟩ := List.mem_map.1 hmem
  rw [hnk] at heq
  exact hkD (page_injective s heq ▸ he)

/-- The nodes of a page that was not out before are on neither list. -/
theorem World.node_notMem (h : World s B D F U) (hd : d ∈ D) (hi : sizeofLazyPage * i < 2048)
    (hnew : s.page d + sizeofLazyPage * i ∉ F ++ U) :
    s.page d + sizeofLazyPage * i ∉ s.lazy.frees :: F ∧
      s.page d + sizeofLazyPage * i ∉ s.lazy.inuses :: U := by
  have hheads := h.node_ne_heads hd hi
  rw [List.mem_append, not_or] at hnew
  simp only [List.mem_cons, not_or]
  exact ⟨⟨hheads.1, hnew.1⟩, hheads.2, hnew.2⟩

theorem lazyAsk_same (pages i : ℕ) (s : Mm) :
    (lazyAsk pages i s).2.links = s.links ∧ (lazyAsk pages i s).2.lazy = s.lazy := by
  have hsame := _budAlloc_same s MM_PAGE_SIZE
  obtain ⟨r, hr⟩ : ∃ r, _budAlloc s MM_PAGE_SIZE = r := ⟨_, rfl⟩
  rw [hr] at hsame
  simp only [lazyAsk, hr]
  exact ⟨hsame.links, hsame.lazy⟩

/-- The refill only queues nodes, so it is the same over both lists. -/
theorem refill_p32 (pages fuel i : ℕ) {s : Mm} {F U : List ℕ} (hpages : pages ≠ 0)
    (hr : Rings s.links s.lazy.frees s.lazy.inuses F U)
    (hnew : ∀ j, i ≤ j → j < i + fuel → pages + sizeofLazyPage * j ∉ s.lazy.frees :: F ∧
      pages + sizeofLazyPage * j ∉ s.lazy.inuses :: U) :
    budLazyRefill P32.listOps pages fuel i s = budLazyRefill listOps pages fuel i s ∧
      ((budLazyRefill listOps pages fuel i s).1 = false →
        Rings (budLazyRefill listOps pages fuel i s).2.links
          (budLazyRefill listOps pages fuel i s).2.lazy.frees
          (budLazyRefill listOps pages fuel i s).2.lazy.inuses
          (F ++ (List.range' i fuel).map fun j => pages + sizeofLazyPage * j) U) := by
  induction fuel generalizing i s F with
  | zero => exact ⟨rfl, fun _ => by simpa [budLazyRefill] using hr⟩
  | succ fuel ih =>
    obtain ⟨hlinks, hlazy⟩ := lazyAsk_same pages i s
    obtain ⟨hF, hU⟩ := hnew i le_rfl (by omega)
    have hadd : P32.listAdd s.links s.lazy.frees (pages + sizeofLazyPage * i) =
        listAdd s.links s.lazy.frees (pages + sizeofLazyPage * i) := P32.listAdd_eq hr.left hr.zero
    have hstep : budLazyRefill P32.listOps pages (fuel + 1) i s =
        if isMemErr (lazyAsk pages i s).2 (lazyAsk pages i s).1 then (true, (lazyAsk pages i s).2)
        else budLazyRefill P32.listOps pages fuel (i + 1)
          (lazyQueue (pages + sizeofLazyPage * i) (lazyAsk pages i s).2) := by
      obtain ⟨r, hr⟩ : ∃ r, _budAlloc s MM_PAGE_SIZE = r := ⟨_, rfl⟩
      simp only [lazyAsk, hr] at hlinks hlazy
      simp only [budLazyRefill, lazyAsk, lazyQueue, hr, hlinks, hlazy, ← hadd]
      rfl
    rw [hstep, budLazyRefill_succ]
    cases isMemErr (lazyAsk pages i s).2 (lazyAsk pages i s).1 with
    | true => exact ⟨rfl, fun h => by cases h⟩
    | false =>
      rw [if_neg Bool.false_ne_true, if_neg Bool.false_ne_true]
      have hr' : Rings (lazyQueue (pages + sizeofLazyPage * i) (lazyAsk pages i s).2).links
          (lazyQueue (pages + sizeofLazyPage * i) (lazyAsk pages i s).2).lazy.frees
          (lazyQueue (pages + sizeofLazyPage * i) (lazyAsk pages i s).2).lazy.inuses
          (F ++ [pages + sizeofLazyPage * i]) U := by
        rw [lazyQueue, hlinks, hlazy]
        exact hr.listAdd hF hU (by omega)
      have hheads : (lazyQueue (pages + sizeofLazyPage * i) (lazyAsk pages i s).2).lazy.frees =
            s.lazy.frees ∧
          (lazyQueue (pages + sizeofLazyPage * i) (lazyAsk pages i s).2).lazy.inuses =
            s.lazy.inuses := by
        rw [lazyQueue, hlazy]
        exact ⟨rfl, rfl⟩
      obtain ⟨heq, hrings⟩ := ih (i + 1) hr' fun j hj hlt => by
        obtain ⟨hF', hU'⟩ := hnew j (by omega) (by omega)
        have hne : pages + sizeofLazyPage * j ≠ pages + sizeofLazyPage * i := by
          unfold sizeofLazyPage
          omega
        rw [hheads.1, hheads.2, ← List.cons_append, List.mem_append, List.mem_singleton, not_or]
        exact ⟨⟨hF', hne⟩, hU'⟩
      refine ⟨heq, fun hok => ?_⟩
      rw [List.range'_succ, List.map_cons, ← List.singleton_append, ← List.append_assoc]
      exact hrings hok

/-- The refill gives new blocks to the queues: a block of descriptors and a page for each of these. -/
theorem RingWorld.refilled (h : RingWorld s B D [] U)
    (hfree : HasFree s (toInt (sizeofLazyPage * s.lazy.batch)))
    (hok : RefillOk (lazyDescs s).1.val 31 0 (lazyDescs s).2)
    (hdone : (budLazyRefill P32.listOps (lazyDescs s).1.val 31 0 (lazyDescs s).2).1 = false) :
    ∃ d B' N, N.length = 31 ∧
      RingWorld (budLazyRefill P32.listOps (lazyDescs s).1.val 31 0 (lazyDescs s).2).2 B' (d :: D)
        N U ∧
      ∃ pages, pages.length = 31 ∧ (s.page d :: pages).Nodup ∧
        (∀ b ∈ s.page d :: pages, b ∉ (queueOf s D [] U).blocks) ∧
        (queueOf s D [] U).refill (s.page d) pages =
          queueOf (budLazyRefill P32.listOps (lazyDescs s).1.val 31 0 (lazyDescs s).2).2 (d :: D)
            N U := by
  obtain ⟨d, B', N, hd, hval, hwd, hw, hpage, -, hbm, hfull⟩ := h.toWorld.refilled hfree hok
  have hsame := _budAlloc_same s (toInt (sizeofLazyPage * s.lazy.batch))
  have hrings : Rings (lazyDescs s).2.links (lazyDescs s).2.lazy.frees (lazyDescs s).2.lazy.inuses
      [] U := by
    have hlinks : (lazyDescs s).2.links = s.links := hsame.links
    have hlazy : (lazyDescs s).2.lazy = s.lazy := hsame.lazy
    rw [hlinks, hlazy]
    exact h.rings
  have hpg : (lazyDescs s).2.page d = s.page d := page_congr hsame.bm d
  have hpos := h.order0.page_pos d
  have hnew (j : ℕ) (hj : j < 31) :
      s.page d + sizeofLazyPage * j ∉ (lazyDescs s).2.lazy.frees :: ([] : List ℕ) ∧
        s.page d + sizeofLazyPage * j ∉ (lazyDescs s).2.lazy.inuses :: U := by
    have hj' : sizeofLazyPage * j < 2048 := by
      unfold sizeofLazyPage
      omega
    have hout := h.toNodes.node_new (fun hdD => hd (h.descs hdD)) hj'
    rw [← hpg] at hout ⊢
    exact hwd.node_notMem List.mem_cons_self hj' hout
  obtain ⟨heq, hrings'⟩ := refill_p32 (s.page d) 31 0 (by omega) hrings
    fun j _ hj => hnew j (by omega)
  rw [hval] at hdone ⊢
  rw [heq] at hdone ⊢
  have hN := hfull hdone
  have hrings'' := hrings' hdone
  rw [List.nil_append, ← hN] at hrings''
  generalize budLazyRefill listOps (s.page d) 31 0 (lazyDescs s).2 = q at *
  have hlen : N.length = 31 := by
    rw [hN]
    rfl
  have hmapU : U.map q.2.pageAddr = U.map s.pageAddr := List.map_congr_left hpage
  have hmapD : D.map q.2.page = D.map s.page := List.map_congr_left fun k _ => page_congr hbm k
  have hsingle := hw.single
  rw [List.map_append, hmapU, List.nodup_append] at hsingle
  -- no page of the layer is the new page of descriptors or another one
  have hpages (n : ℕ) (hn : n ∈ N ++ U) : q.2.pageAddr n ∉ (d :: D).map s.page := by
    rw [← List.map_congr_left fun k _ => page_congr hbm k]
    exact hw.toNodes.pageAddr_notMem hn
  have hdD : s.page d ∉ D.map s.page := by
    intro hmem
    obtain ⟨e, he, heq⟩ := List.mem_map.1 hmem
    exact hd (h.descs (page_injective s heq ▸ he))
  have hlen' : (N.map q.2.pageAddr).length = 31 := by rw [List.length_map, hlen]
  refine ⟨d, B', N, hlen, ⟨hw, hrings''⟩, N.map q.2.pageAddr, hlen', ?_, ?_, ?_⟩
  · refine List.nodup_cons.2 ⟨fun hmem => ?_, hsingle.1⟩
    obtain ⟨n, hn, heq⟩ := List.mem_map.1 hmem
    exact hpages n (List.mem_append_left U hn) (by rw [heq]; exact List.mem_cons_self)
  · intro b hb
    simp only [LazyQueue.blocks, queueOf, List.map_nil, List.nil_append, List.mem_append, not_or]
    rcases List.mem_cons.1 hb with rfl | hb
    · refine ⟨fun hmem => ?_, hdD⟩
      obtain ⟨n, hn, heq⟩ := List.mem_map.1 hmem
      exact hpages n (List.mem_append_right N hn) (by rw [hpage n hn, heq]; exact List.mem_cons_self)
    · refine ⟨fun hmem => hsingle.2.2 b hb b hmem rfl, fun hmem => ?_⟩
      obtain ⟨n, hn, rfl⟩ := List.mem_map.1 hb
      exact hpages n (List.mem_append_left U hn) (List.mem_cons_of_mem _ hmem)
  · rw [LazyQueue.refill_eq, h.queueOf_eq, hw.queueOf_eq]
    simp only [List.map_nil, List.nil_append, List.length_nil, List.length_map, hmapU, hmapD,
      List.map_cons, page_congr hbm]
    simp

/-- The rest of `bud_alloc` takes the first page. -/
theorem RingWorld.serve (h : RingWorld s B D (x :: F) U)
    (hp : (budLazyTake P32.listOps s).1 = .addr p) :
    RingWorld (budLazyTake P32.listOps s).2 B D F (U ++ [x]) ∧
      (queueOf s D (x :: F) U).take =
        (some p, queueOf (budLazyTake P32.listOps s).2 D F (U ++ [x])) := by
  cases hx : isMemErr s x with
  | true =>
    rw [h.take_of_err hx] at hp
    cases hp
  | false =>
    obtain ⟨s', htake, hw, hq⟩ := h.take hx
    rw [htake] at hp ⊢
    obtain rfl := Ptr.addr.inj hp
    exact ⟨hw, hq⟩

/-- A `bud_alloc` that returns a page is an allocation from the queues. -/
theorem RingWorld.alloc (h : RingWorld s B D F U) (hpos : 1 ≤ size) (hle : size ≤ MM_PAGE_SIZE)
    (hok : AllocOk s size) (hs : budAlloc P32.listOps s size = (.addr p, s')) :
    ∃ B' D' F' U' desc pages, RingWorld s' B' D' F' U' ∧ pages.length = 31 ∧
      (desc :: pages).Nodup ∧ (∀ b ∈ desc :: pages, b ∉ (queueOf s D F U).blocks) ∧
      (queueOf s D F U).lazyAlloc desc pages = (some p, queueOf s' D' F' U') := by
  have hlazy : budLazyAlloc P32.listOps s = (.addr p, s') := by
    rw [budAlloc_eq P32.listOps hpos hle] at hs
    split at hs
    · cases hs
    · exact hs
  cases F with
  | cons x F =>
    have h0 : ¬s.lazy.fnum = 0 := by
      rw [h.fnum, List.length_cons]
      omega
    rw [budLazyAlloc, if_neg h0] at hlazy
    obtain ⟨hw, htake⟩ := h.serve (congrArg Prod.fst hlazy)
    rw [hlazy] at hw htake
    obtain ⟨desc, pages, hlen, hnodup, hnew⟩ := (queueOf s D (x :: F) U).exists_new 31
    refine ⟨B, D, F, U ++ [x], desc, pages, hw, hlen, hnodup, hnew, ?_⟩
    rw [h.counts.alloc_of_ne (List.cons_ne_nil _ _)]
    exact htake
  | nil =>
    obtain ⟨hfree, hfill⟩ := hok hpos h.fnum
    rw [h.budLazyAlloc_of_eq P32.listOps h.fnum] at hlazy
    cases herr : isMemErr (lazyDescs s).2 (lazyDescs s).1.val with
    | true =>
      rw [herr, if_pos rfl] at hlazy
      cases hlazy
    | false =>
      have hbatch : s.lazy.batch.toNat = 31 := by
        rw [h.batch]
        rfl
      have hfill := hfill herr
      rw [hbatch] at hfill
      rw [herr, if_neg Bool.false_ne_true] at hlazy
      cases hdone : (budLazyRefill P32.listOps (lazyDescs s).1.val 31 0 (lazyDescs s).2).1 with
      | true =>
        rw [hdone, if_pos rfl] at hlazy
        cases hlazy
      | false =>
        rw [hdone, if_neg Bool.false_ne_true] at hlazy
        obtain ⟨d, B', N, hN, hw, pages, hlen, hnodup, hnew, hq⟩ := h.refilled hfree hfill hdone
        generalize (budLazyRefill P32.listOps (lazyDescs s).1.val 31 0 (lazyDescs s).2).2 = s₁ at *
        obtain ⟨x, N, rfl⟩ := List.exists_cons_of_length_eq_add_one hN
        obtain ⟨hw', htake⟩ := hw.serve (congrArg Prod.fst hlazy)
        rw [hlazy] at hw' htake
        refine ⟨B', d :: D, N, U ++ [x], s.page d, pages, hw', hlen, hnodup, hnew, ?_⟩
        rw [h.counts.alloc_of_eq rfl, hq]
        exact htake

/-! ## Release -/

/-- Past the watermark, the nodes that go back to the buddy pass `IS_MEM_ERR`. -/
def ReleaseOk (s : Mm) : Prop :=
  s.lazy.fnum + 1 > s.lazy.wmk →
    ∀ i < s.lazy.batch.toNat, isMemErr s (s.links.next^[i + 1] s.lazy.frees) = false

/-- The loop of `bud_lazy_free` gives back the first pages. -/
theorem RingWorld.release (h : RingWorld s B D (N ++ F) U) (hN : ∀ y ∈ N, isMemErr s y = false) :
    ∃ s' B', budLazyRelease P32.listOps N.length s = (0, s') ∧ RingWorld s' B' D F U ∧
      s'.pageAddr = s.pageAddr ∧ s'.bm = s.bm := by
  induction N generalizing s B with
  | nil => exact ⟨s, B, rfl, h, rfl, rfl⟩
  | cons x N ih =>
    obtain ⟨hnode, hr⟩ := h.rings.listGet_p32
    have hx := hN x List.mem_cons_self
    obtain ⟨B', hw, hpa, hbm, hlinks, hlazy⟩ := h.drop_of hr.lists
    have hw' : RingWorld (droppedNode s (P32.listGet s.links s.lazy.frees).2 x) B' D (N ++ F) U := by
      refine ⟨hw, ?_⟩
      rw [hlinks, hlazy]
      exact hr
    have hN' (y : ℕ) (hy : y ∈ N) :
        isMemErr (droppedNode s (P32.listGet s.links s.lazy.frees).2 x) y = false := by
      rw [isMemErr_congr hbm]
      exact hN y (List.mem_cons_of_mem x hy)
    obtain ⟨s', B'', hrel, hw'', hpa', hbm'⟩ := ih hw' hN'
    refine ⟨s', B'', ?_, hw'', hpa'.trans hpa, hbm'.trans hbm⟩
    have hstep : budLazyRelease P32.listOps (N.length + 1) s =
        if isMemErr s (P32.listGet s.links s.lazy.frees).1 then
          (-8, { s with links := (P32.listGet s.links s.lazy.frees).2 })
        else budLazyRelease P32.listOps N.length
          (droppedNode s (P32.listGet s.links s.lazy.frees).2
            (P32.listGet s.links s.lazy.frees).1) := rfl
    rw [List.length_cons, hstep, hnode, if_neg (by rw [hx]; decide), hrel]

/-- The links back are right, so the node that is freed goes to the end. -/
theorem RingWorld.moved (h : RingWorld s B D F (A ++ x :: C)) :
    RingWorld (lazyMoved s x) B D (F ++ [x]) (A ++ C) := by
  refine ⟨h.toWorld.moved fun hprev => ?_, ?_⟩
  · cases F with
    | nil => exact h.rings.left.next_head
    | cons y F =>
      rw [h.rings.left.prev_head] at hprev
      have hmem : (y :: F).getLastD s.lazy.frees ∈ y :: F := by
        rw [List.getLastD_cons]
        exact Lists.getLastD_mem F y
      exact absurd (hprev ▸ hmem) h.rings.left.head_not_mem
  · have hd := h.lists.inuses.nodup
    rw [List.nodup_cons, List.nodup_middle, List.nodup_cons] at hd
    have hrest : x ∉ s.lazy.inuses :: (A ++ C) := by
      rw [List.mem_cons, not_or]
      exact ⟨fun e => hd.1 (e ▸ by simp), hd.2.1⟩
    have hout : x ∉ s.lazy.frees :: F := fun hx => h.rings.apart hx (by simp)
    exact h.rings.swap.listDel.swap.listAdd hout hrest (h.rings.swap.ne_zero (by simp))

theorem RingWorld.budLazyFree_eq (h : RingWorld s B D F (A ++ x :: C)) :
    budLazyFree P32.listOps s (s.pageAddr x) =
      if s.lazy.fnum + 1 > s.lazy.wmk then
        some (budLazyRelease P32.listOps s.lazy.batch.toNat (lazyMoved s x))
      else some (0, lazyMoved s x) := by
  have hvalid := h.valid x (by simp)
  have hunum : s.lazy.unum ≠ 0 := by
    rw [h.unum, List.length_append, List.length_cons]
    omega
  have hr := h.rings.swap.listDel.swap
  have hadd : P32.listAdd (listDel s.links s.lazy.inuses x).2 s.lazy.frees x =
      listAdd (listDel s.links s.lazy.inuses x).2 s.lazy.frees x := P32.listAdd_eq hr.left hr.zero
  rw [budLazyFree, if_neg (by rw [hvalid]; decide), if_neg hunum, h.find]
  simp only [ne_eq, not_true_eq_false, if_false, show P32.listOps.del = listDel from rfl,
    show P32.listOps.add = P32.listAdd from rfl, hadd]
  rfl

/-- The queues after the move, before pages are given back. -/
theorem RingWorld.lazyFree_eq (h : RingWorld s B D F (A ++ x :: C)) :
    (queueOf s D F (A ++ x :: C)).lazyFree 31 (s.pageAddr x) =
      if s.lazy.fnum + 1 > s.lazy.wmk then (queueOf (lazyMoved s x) D (F ++ [x]) (A ++ C)).release 31
      else queueOf (lazyMoved s x) D (F ++ [x]) (A ++ C) := by
  have hunum : s.lazy.unum ≠ 0 := by
    rw [h.unum, List.length_append, List.length_cons]
    omega
  have hsplit := h.single_right
  rw [List.map_append, List.map_cons, List.nodup_append] at hsplit
  have hA : s.pageAddr x ∉ A.map s.pageAddr :=
    fun hx => hsplit.2.2 _ hx _ List.mem_cons_self rfl
  have hmem : ¬s.pageAddr x ∉ A.map s.pageAddr ++ s.pageAddr x :: C.map s.pageAddr := by simp
  have hmoved : queueOf (lazyMoved s x) D (F ++ [x]) (A ++ C) =
      ⟨F.map s.pageAddr ++ [s.pageAddr x], A.map s.pageAddr ++ C.map s.pageAddr, s.lazy.fnum + 1,
        s.lazy.unum - 1, D.map s.page⟩ := by
    simp only [queueOf, List.map_append, List.map_singleton]
    rfl
  rw [hmoved, h.wmk, LazyQueue.lazyFree]
  simp only [queueOf, List.map_append, List.map_cons, if_neg hunum, if_neg hmem,
    List.erase_append_right _ hA, List.erase_cons_head]
  rfl

/-- A `bud_free` of a page in use is a release to the queues. -/
theorem RingWorld.free (h : RingWorld s B D F U) (hp : p ∈ U.map s.pageAddr) (hok : ReleaseOk s) :
    ∃ s' B' F' U', budFree P32.listOps s p = some s' ∧ RingWorld s' B' D F' U' ∧
      (queueOf s D F U).lazyFree 31 p = queueOf s' D F' U' := by
  obtain ⟨x, hx, rfl⟩ := List.mem_map.1 hp
  rw [h.budFree_eq P32.listOps hx]
  obtain ⟨A, C, rfl⟩ := List.append_of_mem hx
  have hw := h.moved
  have hpa : (lazyMoved s x).pageAddr = s.pageAddr := rfl
  have hbatch : s.lazy.batch.toNat = 31 := by
    rw [h.batch]
    rfl
  rw [h.budLazyFree_eq, h.lazyFree_eq, hbatch]
  by_cases hover : s.lazy.fnum + 1 > s.lazy.wmk
  · rw [if_pos hover, if_pos hover]
    obtain ⟨htake, hfirst⟩ := h.first_batch hover (hok hover)
    have hsplit : F ++ [x] = F.take 31 ++ (F.drop 31 ++ [x]) := by
      rw [← List.append_assoc, List.take_append_drop]
    have hcount := hw.queueOf_eq
    rw [hsplit] at hw hcount ⊢
    obtain ⟨s', B', hrel, hw', hpa', hbm'⟩ := hw.release hfirst
    rw [htake] at hrel
    refine ⟨s', B', _, _, by rw [hrel]; rfl, hw', ?_⟩
    have hmap : (F.take 31 ++ (F.drop 31 ++ [x])).map (lazyMoved s x).pageAddr =
        (F.take 31).map s.pageAddr ++ (F.drop 31 ++ [x]).map s.pageAddr := by
      rw [List.map_append, hpa]
    have hdrop : ((F.take 31 ++ (F.drop 31 ++ [x])).map (lazyMoved s x).pageAddr).drop 31 =
        (F.drop 31 ++ [x]).map s.pageAddr := by
      rw [hmap, List.drop_left']
      rw [List.length_map, htake]
    have hle : 31 ≤
        (queueOf (lazyMoved s x) D (F.take 31 ++ (F.drop 31 ++ [x])) (A ++ C)).frees.length := by
      rw [queueOf, List.length_map, List.length_append, htake]
      omega
    rw [LazyQueue.release_eq 31 hle, hcount, hw'.queueOf_eq, hdrop, hpa', hpa]
    have hpage : D.map s'.page = D.map (lazyMoved s x).page :=
      List.map_congr_left fun k _ => page_congr hbm' k
    rw [hpage]
    congr 1
    simp only [List.length_append, htake]
    push_cast
    ring
  · rw [if_neg hover, if_neg hover]
    exact ⟨_, B, _, _, rfl, hw, rfl⟩

/-! ## Runs -/

/-- The state and the pages that are outstanding. -/
structure PageRun where
  s : Mm
  out : List ℕ

inductive PageStep : PageRun → PageRun → Prop
  | alloc (r : PageRun) (size : ℤ) (hpos : 1 ≤ size) (hle : size ≤ MM_PAGE_SIZE)
      (hok : AllocOk r.s size) (p : ℕ) (s' : Mm)
      (hs : budAlloc P32.listOps r.s size = (.addr p, s')) : PageStep r ⟨s', p :: r.out⟩
  | free (r : PageRun) (p : ℕ) (hp : p ∈ r.out) (hok : ReleaseOk r.s) (s' : Mm)
      (hs : budFree P32.listOps r.s p = some s') : PageStep r ⟨s', r.out.erase p⟩
  | write (r : PageRun) (p : ℕ) (hp : p ∈ r.out) (m : Mem) (hm : Frame p (p + 2048) r.s.mem m) :
      PageStep r ⟨{ r.s with mem := m }, r.out⟩

/-- A step after which at most `K` pages are outstanding. -/
def PageWithin (K : ℕ) (r r' : PageRun) : Prop := PageStep r r' ∧ r'.out.length ≤ K

/-- The queues of the state; the pages in use are those outstanding. -/
structure Shows (r : PageRun) (B D F U : List ℕ) (q : LazyQueue) : Prop where
  world : RingWorld r.s B D F U
  queue : queueOf r.s D F U = q
  out : r.out.Perm q.inuses

/-- A step is one of the queues, or leaves them alone. -/
theorem Shows.step {K : ℕ} {r r' : PageRun} {q : LazyQueue} (h : Shows r B D F U q)
    (hstep : PageWithin K r r') : ∃ B' D' F' U' q', Shows r' B' D' F' U' q' ∧
      Relation.ReflTransGen (LazyQueue.Within 31 K) q q' := by
  obtain ⟨hw, rfl, hout⟩ := h
  obtain ⟨hstep, hK⟩ := hstep
  cases hstep with
  | alloc size hpos hle hok p s' hs =>
    obtain ⟨B', D', F', U', desc, pages, hw', hlen, hnodup, hnew, hq⟩ := hw.alloc hpos hle hok hs
    have hin := LazyQueue.inuses_lazyAlloc (congrArg Prod.fst hq)
    rw [hq] at hin
    have hout' : (p :: r.out).Perm (queueOf s' D' F' U').inuses := by
      rw [hin]
      exact (hout.cons p).trans (List.perm_append_singleton p _).symm
    have hstep : LazyQueue.Step 31 (queueOf r.s D F U) (queueOf s' D' F' U') := by
      have := LazyQueue.Step.alloc (queueOf r.s D F U) desc pages hlen ⟨hnodup, hnew⟩
      rwa [hq] at this
    exact ⟨B', D', F', U', _, ⟨hw', rfl, hout'⟩, .single ⟨hstep, hout'.length_eq ▸ hK⟩⟩
  | free p hp hok s' hs =>
    have hin : p ∈ (queueOf r.s D F U).inuses := hout.mem_iff.1 hp
    obtain ⟨s₁, B', F', U', hs₁, hw', hq⟩ := hw.free hin hok
    obtain rfl : s₁ = s' := Option.some.inj (hs₁.symm.trans hs)
    have herase : ((queueOf r.s D F U).lazyFree 31 p).inuses = (queueOf r.s D F U).inuses.erase p :=
      LazyQueue.inuses_lazyFree hw.counts hin
    rw [hq] at herase
    have hout' : (r.out.erase p).Perm (queueOf s₁ D F' U').inuses := by
      rw [herase]
      exact hout.erase p
    have hstep : LazyQueue.Step 31 (queueOf r.s D F U) (queueOf s₁ D F' U') :=
      hq ▸ LazyQueue.Step.free _ p hin
    exact ⟨B', D, F', U', _, ⟨hw', rfl, hout'⟩, .single ⟨hstep, hout'.length_eq ▸ hK⟩⟩
  | write p hp m hm =>
    have hw' := hw.toWorld.write (hout.mem_iff.1 hp) hm
    exact ⟨B, D, F, U, _, ⟨⟨hw', hw.rings⟩, rfl, hout⟩, .refl⟩

/-- Every run of the 32-bit code with at most `K` pages outstanding is one of the queues. -/
theorem pages_refine_queue (mem : Mem) (H : Heap) (frees inuses : ℕ) (hh : ListHeads H frees inuses)
    (hok : 0 ≤ (budInit (.boot mem frees inuses) H.base H.size).1) (K : ℕ) (r : PageRun)
    (hrun : Relation.ReflTransGen (PageWithin K) ⟨(lazyStart mem H frees inuses).s, []⟩ r) :
    ∃ B D F U q, Shows r B D F U q ∧
      Relation.ReflTransGen (LazyQueue.Within 31 K) LazyQueue.empty q := by
  apply Runs.invariant_of_run hrun
  · obtain ⟨hw, hr⟩ := world_init hh hok
    have hw' : RingWorld (lazyStart mem H frees inuses).s [] [] [] [] := ⟨hw, hr⟩
    exact ⟨[], [], [], [], LazyQueue.empty, ⟨hw', hw.queueOf_eq, .refl _⟩, .refl⟩
  · rintro x y ⟨B, D, F, U, q, hq, hrun⟩ hstep
    obtain ⟨B', D', F', U', q', hq', hstep'⟩ := hq.step hstep
    exact ⟨B', D', F', U', q', hq', hrun.trans hstep'⟩

/-- With at most 186 pages outstanding the 32-bit code holds 192 blocks at most. -/
theorem pages_bounded (mem : Mem) (H : Heap) (frees inuses : ℕ) (hh : ListHeads H frees inuses)
    (hok : 0 ≤ (budInit (.boot mem frees inuses) H.base H.size).1) (K : ℕ) (hK : K ≤ 186)
    (r : PageRun)
    (hrun : Relation.ReflTransGen (PageWithin K) ⟨(lazyStart mem H frees inuses).s, []⟩ r) :
    ∃ B D F U, RingWorld r.s B D F U ∧ F.length + U.length + D.length ≤ 192 := by
  obtain ⟨B, D, F, U, q, ⟨hw, rfl, -⟩, hq⟩ := pages_refine_queue mem H frees inuses hh hok K r hrun
  refine ⟨B, D, F, U, hw, ?_⟩
  have hle := LazyQueue.blocks_length_le (by decide) hK hq
  simpa [LazyQueue.blocks, queueOf, Nat.add_assoc] using hle

end YohdaOS

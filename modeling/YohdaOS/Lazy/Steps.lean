import YohdaOS.Lazy.World

/-!
# What a call of the lazy layer does

`bud_lazy_alloc` in its two halves, the refill and the taking of a page, and `bud_lazy_free` with the
search, the move and the release of a batch.  `lazyGot` and `lazyGave` are the pages a call gets from
the buddy and gives back to it.
-/

namespace YohdaOS

open ByteMem

/-- The request of one round of the loop of `bud_lazy_alloc`: the page and the state after it. -/
def lazyAsk (pages i : ℕ) (s : Mm) : ℕ × Mm :=
  let r := _budAlloc s MM_PAGE_SIZE
  (r.1.val, { r.2 with
    pageAddr := Function.update r.2.pageAddr (pages + sizeofLazyPage * i) r.1.val })

/-- The rest of the round: the descriptor is queued. -/
def lazyQueue (node : ℕ) (s : Mm) : Mm :=
  { s with
    links := (listAdd s.links s.lazy.frees node).2
    lazy := { s.lazy with fnum := s.lazy.fnum + 1 } }

@[simp] theorem bm_lazyQueue (node : ℕ) (s : Mm) : (lazyQueue node s).bm = s.bm := rfl

@[simp] theorem pageAddr_lazyQueue (node : ℕ) (s : Mm) :
    (lazyQueue node s).pageAddr = s.pageAddr := rfl

theorem budLazyRefill_succ (pages fuel i : ℕ) (s : Mm) :
    budLazyRefill listOps pages (fuel + 1) i s =
      if isMemErr (lazyAsk pages i s).2 (lazyAsk pages i s).1 then (true, (lazyAsk pages i s).2)
      else budLazyRefill listOps pages fuel (i + 1)
        (lazyQueue (pages + sizeofLazyPage * i) (lazyAsk pages i s).2) := by
  obtain ⟨r, hr⟩ : ∃ r, _budAlloc s MM_PAGE_SIZE = r := ⟨_, rfl⟩
  simp only [budLazyRefill, lazyAsk, lazyQueue, hr]
  rfl

/-- The requests of the loop of `bud_lazy_alloc` succeed. -/
def RefillOk (pages : ℕ) : ℕ → ℕ → Mm → Prop
  | 0, _, _ => True
  | fuel + 1, i, s =>
    HasFree s MM_PAGE_SIZE ∧ (isMemErr (lazyAsk pages i s).2 (lazyAsk pages i s).1 = false →
      RefillOk pages fuel (i + 1)
        (lazyQueue (pages + sizeofLazyPage * i) (lazyAsk pages i s).2))

/-- The pages the loop of `bud_lazy_alloc` gets. -/
def refillGot (pages : ℕ) : ℕ → ℕ → Mm → List ℕ
  | 0, _, _ => []
  | fuel + 1, i, s =>
    if isMemErr (lazyAsk pages i s).2 (lazyAsk pages i s).1 then []
    else (lazyAsk pages i s).1 :: refillGot pages fuel (i + 1)
      (lazyQueue (pages + sizeofLazyPage * i) (lazyAsk pages i s).2)

/-- The request for descriptors in `bud_lazy_alloc`. -/
def lazyDescs (s : Mm) : Ptr × Mm := _budAlloc s (toInt (sizeofLazyPage * s.lazy.batch))

/-- Every request that `bud_alloc(size)` makes of the buddy succeeds. -/
def AllocOk (s : Mm) (size : ℤ) : Prop :=
  1 ≤ size → s.lazy.fnum = 0 → HasFree s (toInt (sizeofLazyPage * s.lazy.batch)) ∧
    (isMemErr (lazyDescs s).2 (lazyDescs s).1.val = false →
      RefillOk (lazyDescs s).1.val s.lazy.batch.toNat 0 (lazyDescs s).2)

/-- The pages `bud_alloc(size)` gets from the buddy. -/
def lazyGot (s : Mm) (size : ℤ) : List ℕ :=
  if size < 1 ∨ s.lazy.fnum ≠ 0 ∨ isMemErr (lazyDescs s).2 (lazyDescs s).1.val then []
  else refillGot (lazyDescs s).1.val s.lazy.batch.toNat 0 (lazyDescs s).2

/-- `bud_lazy_free` after it has moved `node`. -/
def lazyMoved (s : Mm) (node : ℕ) : Mm :=
  let links := (listDel s.links s.lazy.inuses node).2
  { s with
    links := (listAdd links s.lazy.frees node).2
    lazy := { s.lazy with fnum := s.lazy.fnum + 1, unum := s.lazy.unum - 1 } }

/-- One round of the loop of `bud_lazy_free`, where `list_get` has taken a node. -/
def lazyDrop (s : Mm) : Mm :=
  let r := listGet s.links s.lazy.frees
  let s := _budFree { s with links := r.2 } (s.pageAddr r.1)
  { s with lazy := { s.lazy with fnum := s.lazy.fnum - 1 } }

/-- The state behind a round of the loop of `bud_lazy_free` that has taken the node `x` and left the
links `l`. -/
def droppedNode (s : Mm) (l : Links) (x : ℕ) : Mm :=
  let s := _budFree { s with links := l } (s.pageAddr x)
  { s with lazy := { s.lazy with fnum := s.lazy.fnum - 1 } }

theorem budLazyRelease_succ (batch : ℕ) (s : Mm) : budLazyRelease listOps (batch + 1) s =
    if isMemErr s (listGet s.links s.lazy.frees).1 then
      (-8, { s with links := (listGet s.links s.lazy.frees).2 })
    else budLazyRelease listOps batch (lazyDrop s) := rfl

/-- The pages the loop of `bud_lazy_free` gives back. -/
def releaseGave : ℕ → Mm → List ℕ
  | 0, _ => []
  | batch + 1, s =>
    let node := (listGet s.links s.lazy.frees).1
    if isMemErr s node then [] else s.pageAddr node :: releaseGave batch (lazyDrop s)

/-- The pages `bud_free(addr)` gives back to the buddy. -/
def lazyGave (s : Mm) (addr : ℕ) : List ℕ :=
  if isMemErr s addr ∨ s.lazy.unum = 0 then []
  else
    match budLazyFind s addr 4294967296 (s.links.next s.lazy.inuses) 0 with
    | some (.ok (node, lp)) =>
      if s.pageAddr lp ≠ addr ∨ (lazyMoved s node).lazy.fnum ≤ s.lazy.wmk then []
      else releaseGave s.lazy.batch.toNat (lazyMoved s node)
    | _ => []

namespace World

variable {s s' : Mm} {B B' D F U N A C : List ℕ} {d i k n p x : ℕ}

theorem mem_append_mid : n ∈ F ++ [x] ++ U ↔ n = x ∨ n ∈ F ++ U := by
  simp only [List.mem_append, List.mem_singleton]
  tauto

/-- The heads, the batch and the watermark stay what they are. -/
theorem rebuild {F' U' : List ℕ} (h : World s B D F U) (hbm : s'.bm = s.bm)
    (hlazy : s'.lazy = { s.lazy with fnum := F'.length, unum := U'.length })
    (hnodes : Nodes s' B' D (F' ++ U')) (hl : Lists s'.links s.lazy.frees s.lazy.inuses F' U')
    (htaken : ∀ n ∈ U', isMemErr s n = false) : World s' B' D F' U' where
  toNodes := hnodes
  lists := by
    rw [hlazy]
    exact hl
  fnum := by rw [hlazy]
  unum := by rw [hlazy]
  batch := by
    rw [hlazy]
    exact h.batch
  wmk := by
    rw [hlazy]
    exact h.wmk
  frees_out := by
    rw [hlazy, Mm.Outside, hbm]
    exact h.frees_out
  inuses_out := by
    rw [hlazy, Mm.Outside, hbm]
    exact h.inuses_out
  taken n hn := by
    rw [isMemErr_congr hbm]
    exact htaken n hn

/-- More pages are out, and the buddy has changed nothing else. -/
theorem mono (h : World s B D F U) (hbm : s'.bm = s.bm) (hlazy : s'.lazy = s.lazy)
    (hlinks : s'.links = s.links) (ho : Order0 s' B')
    (hpage : ∀ n ∈ F ++ U, s'.pageAddr n = s.pageAddr n) (hB : B ⊆ B') : World s' B' D F U := by
  apply h.rebuild hbm _ (h.toNodes.mono hbm ho hpage hB) _ h.taken
  · rw [hlazy, ← h.fnum, ← h.unum]
  · rw [hlinks]
    exact h.lists

/-- Only the lists and the counters change. -/
theorem relink {F' U' : List ℕ} {l : Links} {f u : ℤ} (h : World s B D F U)
    (hnodes : Nodes s B D (F' ++ U')) (hl : Lists l s.lazy.frees s.lazy.inuses F' U')
    (hf : f = F'.length) (hu : u = U'.length) (htaken : ∀ n ∈ U', isMemErr s n = false) :
    World { s with links := l, lazy := { s.lazy with fnum := f, unum := u } } B D F' U' := by
  have hlazy : ({ s.lazy with fnum := f, unum := u } : LazyBuddy) =
      { s.lazy with fnum := F'.length, unum := U'.length } := by rw [hf, hu]
  exact h.rebuild rfl hlazy (hnodes.mono rfl
    (hnodes.order0.congr ⟨rfl, fun _ => rfl, fun _ => rfl⟩ rfl) (fun _ _ => rfl)
    (List.Subset.refl B)) hl htaken

/-- A descriptor of a page of `D` is none of the heads. -/
theorem node_ne_heads (h : World s B D F U) (hd : d ∈ D) (hi : sizeofLazyPage * i < 2048) :
    s.page d + sizeofLazyPage * i ≠ s.lazy.frees ∧
      s.page d + sizeofLazyPage * i ≠ s.lazy.inuses := by
  obtain ⟨hlo, hhi⟩ := h.node_mem hd hi
  have hf := h.frees_out
  have hu := h.inuses_out
  unfold Mm.Outside at hf hu
  omega

/-! ### Allocation -/

/-- A new descriptor is queued. -/
theorem push (h : World s B D F U) (ht : s.links.prev s.lazy.frees = F.getLastD s.lazy.frees)
    (hd : d ∈ D) (hi : sizeofLazyPage * i < 2048) (hn : s.page d + sizeofLazyPage * i ∉ F ++ U)
    (hk : k ∈ B) (hkD : k ∉ D) (hk0 : k ≠ 0)
    (hpage : s.pageAddr (s.page d + sizeofLazyPage * i) = s.page k)
    (hnew : ∀ n ∈ F ++ U, s.pageAddr n ≠ s.page k) (hvalid : isMemErr s (s.page k) = false) :
    World (lazyQueue (s.page d + sizeofLazyPage * i) s) B D
      (F ++ [s.page d + sizeofLazyPage * i]) U := by
  obtain ⟨hf, hu⟩ := h.node_ne_heads hd hi
  have h0 := h.node_ne_zero d i
  have hnodes := h.toNodes.cons hd hi hk hkD hk0 hpage hnew hvalid
  generalize s.page d + sizeofLazyPage * i = node at *
  rw [List.mem_append, not_or] at hn
  apply h.relink (hnodes.perm _) (h.lists.add_frees ht _ _ h0) _ h.unum h.taken
  · rw [List.append_assoc]
    exact List.perm_middle.symm
  · simpa [hf] using hn.1
  · simpa [hu] using hn.2
  · simp [h.fnum]

theorem prev_queue (h : World s B D F U) (n : ℕ) (h0 : n ≠ 0) (hn : n ≠ s.lazy.frees) :
    (lazyQueue n s).links.prev (lazyQueue n s).lazy.frees =
      (F ++ [n]).getLastD (lazyQueue n s).lazy.frees := by
  have hh : s.lazy.frees ≠ 0 := fun e => h.lists.zero (e ▸ List.mem_cons_self)
  change (listAdd s.links s.lazy.frees n).2.prev s.lazy.frees = _
  rw [listAdd_links hh h0 hn]
  simp

/-- The buddy answers a request for a page. -/
theorem ask (h : World s B D F U) (hne : B ≠ []) (hfree : HasFree s MM_PAGE_SIZE) (pages i : ℕ)
    (hn : pages + sizeofLazyPage * i ∉ F ++ U) :
    ∃ k, k ∉ B ∧ k ≠ 0 ∧ (lazyAsk pages i s).1 = s.page k ∧
      World (lazyAsk pages i s).2 (k :: B) D F U ∧ (lazyAsk pages i s).2.bm = s.bm ∧
      (lazyAsk pages i s).2.lazy = s.lazy ∧ (lazyAsk pages i s).2.links = s.links ∧
      (lazyAsk pages i s).2.pageAddr =
        Function.update s.pageAddr (pages + sizeofLazyPage * i) (s.page k) := by
  obtain ⟨k, hk, hk0, hptr, ho⟩ := h.order0.alloc (show (1 : ℤ) ≤ MM_PAGE_SIZE by decide) le_rfl
    (hfree.clear le_rfl)
  have hsame := _budAlloc_same s MM_PAGE_SIZE
  obtain ⟨r, hr⟩ : ∃ r, _budAlloc s MM_PAGE_SIZE = r := ⟨_, rfl⟩
  rw [hr] at hptr ho hsame
  have hask : lazyAsk pages i s = (s.page k, { r.2 with
      pageAddr := Function.update r.2.pageAddr (pages + sizeofLazyPage * i) (s.page k) }) := by
    simp only [lazyAsk, hr, hptr, Ptr.val_addr]
  have hpa : (lazyAsk pages i s).2.pageAddr =
      Function.update s.pageAddr (pages + sizeofLazyPage * i) (s.page k) := by
    rw [hask, ← hsame.pageAddr]
  have ho' : Order0 (lazyAsk pages i s).2 (k :: B) := by
    rw [hask]
    exact ho.congr ⟨rfl, fun _ => rfl, fun _ => rfl⟩ rfl
  have hbm : (lazyAsk pages i s).2.bm = s.bm := by
    rw [hask]
    exact hsame.bm
  have hlazy : (lazyAsk pages i s).2.lazy = s.lazy := by
    rw [hask]
    exact hsame.lazy
  have hlinks : (lazyAsk pages i s).2.links = s.links := by
    rw [hask]
    exact hsame.links
  refine ⟨k, hk, ?_, by rw [hask], h.mono hbm hlazy hlinks ho' ?_ (List.subset_cons_self k B), hbm,
    hlazy, hlinks, hpa⟩
  · rintro rfl
    exact hk (h.order0.first.resolve_left hne)
  · intro n hn'
    rw [hpa]
    exact Function.update_of_ne (ne_of_mem_of_not_mem hn' hn) _ _

/-- The refill queues descriptors of the page `d`, each with a page of its own. -/
theorem refill (fuel i : ℕ) {s : Mm} {B F : List ℕ} (h : World s B D F U)
    (ht : s.links.prev s.lazy.frees = F.getLastD s.lazy.frees) (hd : d ∈ D)
    (hi : sizeofLazyPage * (i + fuel) ≤ 2048)
    (hnew : ∀ j, i ≤ j → j < i + fuel → s.page d + sizeofLazyPage * j ∉ F ++ U)
    (hok : RefillOk (s.page d) fuel i s) :
    ∃ B' N, World (budLazyRefill listOps (s.page d) fuel i s).2 B' D (F ++ N) U ∧
      (∀ n ∈ F ++ U, (budLazyRefill listOps (s.page d) fuel i s).2.pageAddr n = s.pageAddr n) ∧
      N.map (budLazyRefill listOps (s.page d) fuel i s).2.pageAddr =
        refillGot (s.page d) fuel i s ∧
      (budLazyRefill listOps (s.page d) fuel i s).2.bm = s.bm ∧
      ((budLazyRefill listOps (s.page d) fuel i s).1 = false →
        N = (List.range' i fuel).map fun j => s.page d + sizeofLazyPage * j) := by
  induction fuel generalizing i s B F with
  | zero => exact ⟨B, [], by simpa [budLazyRefill] using h, fun _ _ => rfl, rfl, rfl, fun _ => rfl⟩
  | succ fuel ih =>
    have hin := hnew i le_rfl (by omega)
    have hi' : sizeofLazyPage * i < 2048 := by
      unfold sizeofLazyPage at *
      omega
    obtain ⟨hfree, hok⟩ := hok
    obtain ⟨k, hk, hk0, hval, hw, hbm, hlazy, hlinks, hpa⟩ :=
      h.ask (List.ne_nil_of_mem (h.descs hd)) hfree (s.page d) i hin
    rw [budLazyRefill_succ, refillGot]
    cases herr : isMemErr (lazyAsk (s.page d) i s).2 (lazyAsk (s.page d) i s).1 with
    | true =>
      rw [if_pos rfl, if_pos rfl]
      refine ⟨k :: B, [], by simpa using hw, fun n hn => ?_, rfl, hbm, fun e => by cases e⟩
      rw [hpa]
      exact Function.update_of_ne (ne_of_mem_of_not_mem hn hin) _ _
    | false =>
      rw [if_neg Bool.false_ne_true, if_neg Bool.false_ne_true]
      have hok := hok herr
      rw [hval] at herr ⊢
      set s₁ := (lazyAsk (s.page d) i s).2
      have hpg (j : ℕ) : s₁.page j = s.page j := page_congr hbm j
      have hnewpage (n : ℕ) (hn : n ∈ F ++ U) : s₁.pageAddr n ≠ s₁.page k := by
        obtain ⟨j, hj, -, -, hnj⟩ := h.pages n hn
        rw [hpa, Function.update_of_ne (ne_of_mem_of_not_mem hn hin), hnj, hpg]
        exact fun e => hk (page_injective s e ▸ hj)
      have ht₁ : s₁.links.prev s₁.lazy.frees = F.getLastD s₁.lazy.frees := by
        rw [hlazy, hlinks]
        exact ht
      have hq := hw.push (d := d) (i := i) (k := k) ht₁ hd hi' (by rw [hpg]; exact hin)
        List.mem_cons_self (fun hkD => hk (h.descs hkD)) hk0
        (by rw [hpg, hpa, Function.update_self, hpg]) hnewpage (by rw [hpg]; exact herr)
      have hne := hw.node_ne_heads hd hi'
      have ht₂ := hw.prev_queue (s₁.page d + sizeofLazyPage * i) (hw.node_ne_zero d i) hne.1
      rw [hpg] at hq ht₂
      have hpd : (lazyQueue (s.page d + sizeofLazyPage * i) s₁).page d = s.page d :=
        (page_congr (bm_lazyQueue _ s₁) d).trans (hpg d)
      have hi'' : sizeofLazyPage * (i + 1 + fuel) ≤ 2048 := by
        rw [show i + 1 + fuel = i + (fuel + 1) by omega]
        exact hi
      have hstep := ih (i + 1) hq ht₂ hi'' (fun j hj hj' => ?_) (by rw [hpd]; exact hok)
      · rw [hpd] at hstep
        obtain ⟨B', N, hw', hpage', hgot, hbm', hfull⟩ := hstep
        refine ⟨B', (s.page d + sizeofLazyPage * i) :: N, by simpa using hw', fun n hn => ?_, ?_,
          (hbm'.trans (bm_lazyQueue _ s₁)).trans hbm, fun e => ?_⟩
        · rw [hpage' n (mem_append_mid.2 (Or.inr hn)), pageAddr_lazyQueue, hpa]
          exact Function.update_of_ne (ne_of_mem_of_not_mem hn hin) _ _
        · rw [List.map_cons, hgot, hpage' _ (mem_append_mid.2 (Or.inl rfl)), pageAddr_lazyQueue, hpa,
            Function.update_self]
        · rw [hfull e, List.range'_succ, List.map_cons]
      · rw [hpd]
        have hj' := hnew j (by omega) (by omega)
        have hne' : s.page d + sizeofLazyPage * j ≠ s.page d + sizeofLazyPage * i := by
          unfold sizeofLazyPage
          omega
        rw [mem_append_mid, not_or]
        exact ⟨hne', hj'⟩

/-- The first free page is taken. -/
theorem take (h : World s B D (x :: F) U) (hx : isMemErr s x = false) :
    ∃ s', budLazyTake listOps s = (.addr (s.pageAddr x), s') ∧ World s' B D F (U ++ [x]) ∧
      s'.pageAddr = s.pageAddr := by
  obtain ⟨hnode, hl⟩ := h.lists.get_frees
  have hxF : x ∉ s.lazy.frees :: F := by
    rw [List.mem_cons, not_or]
    exact ⟨h.lists.ne_head, (List.nodup_cons.1 (List.nodup_cons.1 h.lists.nodup).2).1⟩
  have hxU : x ∉ s.lazy.inuses :: U := fun hx' => h.lists.apart (by simp) hx'
  have hx0 : x ≠ 0 := fun e => h.lists.zero (e ▸ by simp)
  have hperm : ((x :: F) ++ U).Perm (F ++ (U ++ [x])) := by
    rw [← List.append_assoc]
    exact (List.perm_append_singleton x (F ++ U)).symm
  have hmem : isMemErr { s with links := (listGet s.links s.lazy.frees).2 } x = false := hx
  refine ⟨_, ?_, h.relink (h.toNodes.perm hperm) (hl.add_inuses hxF hxU hx0) (f := s.lazy.fnum - 1)
    (u := s.lazy.unum + 1) ?_ ?_ ?_, rfl⟩
  · simp only [budLazyTake, show listOps.get = listGet from rfl, show listOps.add = listAdd from rfl,
      hnode, hmem, Bool.false_eq_true, if_false]
  · rw [h.fnum, List.length_cons]
    push_cast
    ring
  · rw [h.unum, List.length_append, List.length_singleton]
    push_cast
    ring
  · intro n hn
    rcases List.mem_append.1 hn with hn | hn
    · exact h.taken n hn
    · exact List.mem_singleton.1 hn ▸ hx

/-- A page that a node has is not at address 0. -/
theorem pageAddr_ne_zero (h : Nodes s B D N) (hx : x ∈ N) : s.pageAddr x ≠ 0 := by
  obtain ⟨k, -, -, -, hk⟩ := h.pages x hx
  have hpos := h.order0.page_pos k
  omega

/-- The buddy answers the request for descriptors. -/
theorem descs_alloc (h : World s B D F U)
    (hfree : HasFree s (toInt (sizeofLazyPage * s.lazy.batch))) :
    ∃ d, d ∉ B ∧ (lazyDescs s).1.val = s.page d ∧ World (lazyDescs s).2 (d :: B) D F U ∧
      Same s (lazyDescs s).2 := by
  have hsize : toInt (sizeofLazyPage * s.lazy.batch) = 372 := by
    rw [h.batch]
    decide
  rw [hsize] at hfree
  rw [lazyDescs, hsize]
  obtain ⟨d, hd, -, hptr, ho⟩ := h.order0.alloc (show (1 : ℤ) ≤ 372 by decide)
    (show (372 : ℤ) ≤ 2048 by decide) (hfree.clear (by decide))
  have hsame := _budAlloc_same s 372
  refine ⟨d, hd, by rw [hptr, Ptr.val_addr], ?_, hsame⟩
  exact h.mono hsame.bm hsame.lazy hsame.links ho (fun n _ => by rw [hsame.pageAddr])
    (List.subset_cons_self d B)

/-- A page of the world is a page of descriptors from now on. -/
theorem addDesc (h : World s B D F U) (hd : d ∈ B)
    (hnew : ∀ n ∈ F ++ U, s.pageAddr n ≠ s.page d) : World s B (d :: D) F U :=
  { h with toNodes := h.toNodes.desc hd hnew }

/-- What `bud_lazy_alloc` leaves behind, and the page it returns if it returns one. -/
structure Served (s : Mm) (r : Ptr × Mm) (U : List ℕ) (got : List ℕ) (B D F U' : List ℕ) :
    Prop where
  world : World r.2 B D F U'
  held : ((F ++ U').map r.2.pageAddr).Perm got
  page : (r.1 = .code 0 ∧ U'.map r.2.pageAddr = U.map s.pageAddr) ∨
    ∃ p, r.1 = .addr p ∧ p ≠ 0 ∧ U'.map r.2.pageAddr = U.map s.pageAddr ++ [p]

theorem served_take (h : World s B D (x :: F) U) (hx : isMemErr s x = false) :
    Served s (budLazyTake listOps s) U (((x :: F) ++ U).map s.pageAddr) B D F (U ++ [x]) ∧
      ∃ p, (budLazyTake listOps s).1 = .addr p := by
  obtain ⟨s', htake, hw, hpa⟩ := h.take hx
  have hperm : (F ++ (U ++ [x])).Perm ((x :: F) ++ U) := by
    rw [← List.append_assoc]
    exact List.perm_append_singleton x (F ++ U)
  rw [htake]
  refine ⟨⟨hw, ?_, Or.inr ⟨_, rfl, pageAddr_ne_zero h.toNodes (by simp), ?_⟩⟩, _, rfl⟩
  · rw [hpa]
    exact hperm.map _
  · rw [hpa, List.map_append, List.map_singleton]

/-- `bud_lazy_alloc` with a page on `lazy.frees`. -/
theorem served_of_ne (h : World s B D F U) (hne : s.lazy.fnum ≠ 0)
    (hclean : isMemErr s (s.links.next s.lazy.frees) = false) (size : ℤ) :
    ∃ F' x, Served s (budLazyAlloc listOps s) U ((F ++ U).map s.pageAddr ++ lazyGot s size) B D F'
      (U ++ [x]) ∧ ∃ p, (budLazyAlloc listOps s).1 = .addr p := by
  cases F with
  | nil => exact absurd h.fnum hne
  | cons x F =>
    have hx : s.links.next s.lazy.frees = x := h.lists.next_head
    rw [hx] at hclean
    obtain ⟨hserved, hp⟩ := h.served_take hclean
    rw [budLazyAlloc, if_neg hne, lazyGot, if_pos (Or.inr (Or.inl hne)), List.append_nil]
    exact ⟨F, x, hserved, hp⟩

/-- The refill of an empty list, with descriptors in a new page. -/
theorem refilled (h : World s B D [] U) (hfree : HasFree s (toInt (sizeofLazyPage * s.lazy.batch)))
    (hok : RefillOk (lazyDescs s).1.val 31 0 (lazyDescs s).2) :
    ∃ d B' N, d ∉ B ∧ (lazyDescs s).1.val = s.page d ∧
      World (lazyDescs s).2 (d :: B) (d :: D) [] U ∧
      World (budLazyRefill listOps (s.page d) 31 0 (lazyDescs s).2).2 B' (d :: D) N U ∧
      (∀ n ∈ U, (budLazyRefill listOps (s.page d) 31 0 (lazyDescs s).2).2.pageAddr n =
        s.pageAddr n) ∧
      N.map (budLazyRefill listOps (s.page d) 31 0 (lazyDescs s).2).2.pageAddr =
        refillGot (s.page d) 31 0 (lazyDescs s).2 ∧
      (budLazyRefill listOps (s.page d) 31 0 (lazyDescs s).2).2.bm = s.bm ∧
      ((budLazyRefill listOps (s.page d) 31 0 (lazyDescs s).2).1 = false →
        N = (List.range' 0 31).map fun j => s.page d + sizeofLazyPage * j) := by
  obtain ⟨d, hd, hval, hw, hsame⟩ := h.descs_alloc hfree
  rw [hval] at hok
  refine ⟨d, ?_⟩
  generalize lazyDescs s = r at *
  have hpg : r.2.page d = s.page d := page_congr hsame.bm d
  rw [← hpg] at hok ⊢
  have hnew : ∀ n ∈ ([] : List ℕ) ++ U, r.2.pageAddr n ≠ r.2.page d := by
    intro n hn
    obtain ⟨j, hj, -, -, hnj⟩ := h.pages n hn
    rw [hsame.pageAddr, hnj, hpg]
    exact fun e => hd (page_injective s e ▸ hj)
  have hwd := hw.addDesc List.mem_cons_self hnew
  have ht : r.2.links.prev r.2.lazy.frees = ([] : List ℕ).getLastD r.2.lazy.frees := by
    rcases hw.lists.tail with ht | ⟨hlen, -⟩
    · exact ht
    · cases hlen
  have hfresh (j : ℕ) (hj : j < 31) : r.2.page d + sizeofLazyPage * j ∉ ([] : List ℕ) ++ U := by
    apply hw.node_new (fun hdD => hd (h.descs hdD))
    unfold sizeofLazyPage
    omega
  obtain ⟨B', N, hw', hpage, hgot, hbm, hfull⟩ := hwd.refill 31 0 ht List.mem_cons_self (by decide)
    (fun j _ hj => hfresh j (by omega)) hok
  refine ⟨B', N, hd, by rw [hval, hpg], hwd, hw', fun n hn => ?_, hgot, hbm.trans hsame.bm, hfull⟩
  rw [hpage n hn, hsame.pageAddr]

theorem budLazyAlloc_of_eq (ops : ListOps) (h : World s B D F U) (h0 : s.lazy.fnum = 0) :
    budLazyAlloc ops s =
      if isMemErr (lazyDescs s).2 (lazyDescs s).1.val then (.code 0, (lazyDescs s).2)
      else if (budLazyRefill ops (lazyDescs s).1.val 31 0 (lazyDescs s).2).1 then
        (.code 0, (budLazyRefill ops (lazyDescs s).1.val 31 0 (lazyDescs s).2).2)
      else budLazyTake ops (budLazyRefill ops (lazyDescs s).1.val 31 0 (lazyDescs s).2).2 := by
  have hbatch : s.lazy.batch.toNat = 31 := by
    rw [h.batch]
    rfl
  rw [budLazyAlloc, if_pos h0, ← hbatch]
  rfl

/-- `bud_lazy_alloc` with no page on `lazy.frees`. -/
theorem served_of_eq (h : World s B D F U) (h0 : s.lazy.fnum = 0) {size : ℤ} (hpos : 1 ≤ size)
    (hok : AllocOk s size) :
    ∃ B' D' F' U', Served s (budLazyAlloc listOps s) U
      ((F ++ U).map s.pageAddr ++ lazyGot s size) B' D' F' U' := by
  obtain rfl : F = [] := by
    have hf := h.fnum
    rw [h0] at hf
    exact List.length_eq_zero_iff.1 (by omega)
  obtain ⟨hfree, hok⟩ := hok hpos h0
  have hbatch : s.lazy.batch.toNat = 31 := by
    rw [h.batch]
    rfl
  have hgot : lazyGot s size = if isMemErr (lazyDescs s).2 (lazyDescs s).1.val then []
      else refillGot (lazyDescs s).1.val 31 0 (lazyDescs s).2 := by
    rw [lazyGot, hbatch]
    simp only [show ¬ size < 1 by omega, h0, ne_eq, not_true_eq_false, false_or]
  rw [h.budLazyAlloc_of_eq listOps h0, hgot]
  cases herr : isMemErr (lazyDescs s).2 (lazyDescs s).1.val with
  | true =>
    obtain ⟨d, -, -, hw, hsame⟩ := h.descs_alloc hfree
    have hmapU : U.map (lazyDescs s).2.pageAddr = U.map s.pageAddr := by rw [hsame.pageAddr]
    rw [if_pos rfl, if_pos rfl]
    refine ⟨_, _, _, U, hw, ?_, Or.inl ⟨rfl, hmapU⟩⟩
    rw [List.append_nil]
    change (U.map _).Perm (U.map _)
    rw [hmapU]
  | false =>
    rw [if_neg Bool.false_ne_true, if_neg Bool.false_ne_true]
    have hok := hok herr
    rw [hbatch] at hok
    obtain ⟨d, B', N, -, hval, -, hw', hpage, hgotN, hbm, hfull⟩ := h.refilled hfree hok
    have hbm' : (lazyDescs s).2.bm = s.bm := (_budAlloc_same s _).bm
    rw [isMemErr_congr hbm'] at herr
    rw [hval] at herr ⊢
    generalize budLazyRefill listOps (s.page d) 31 0 (lazyDescs s).2 = q at *
    have hmapU : U.map q.2.pageAddr = U.map s.pageAddr := List.map_congr_left hpage
    have hperm : ((N ++ U).map q.2.pageAddr).Perm
        (U.map s.pageAddr ++ refillGot (s.page d) 31 0 (lazyDescs s).2) := by
      rw [List.map_append, hmapU, hgotN]
      exact List.perm_append_comm
    rw [List.nil_append]
    cases hq : q.1 with
    | true =>
      rw [if_pos rfl]
      exact ⟨B', d :: D, N, U, hw', hperm, Or.inl ⟨rfl, hmapU⟩⟩
    | false =>
      rw [if_neg Bool.false_ne_true]
      have hN := hfull hq
      rw [List.range'_succ, List.map_cons, Nat.mul_zero, Nat.add_zero] at hN
      rw [hN] at hw' hperm
      obtain ⟨hserved, -⟩ := hw'.served_take (by rw [isMemErr_congr hbm]; exact herr)
      obtain ⟨hworld, hheld, hres⟩ := hserved
      refine ⟨B', d :: D, _, _, hworld, hheld.trans hperm, ?_⟩
      rw [← hmapU]
      exact hres

end World

end YohdaOS

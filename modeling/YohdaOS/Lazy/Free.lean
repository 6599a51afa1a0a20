import YohdaOS.Lazy.Steps

/-!
# What `bud_lazy_free` does

The search finds the page among those in use; the node moves to the free pages; past the watermark
the first batch of these goes back to the buddy.
-/

namespace YohdaOS

open ByteMem Chains

/-- Nothing in the way of `bud_free`: the head of the free pages is linked back to their end, and
the nodes that go back past the watermark pass `IS_MEM_ERR`. -/
structure FreeClean (s : Mm) : Prop where
  tail : s.links.prev s.lazy.frees = s.lazy.frees → s.links.next s.lazy.frees = s.lazy.frees
  nodes : s.lazy.fnum + 1 > s.lazy.wmk →
    ∀ i < s.lazy.batch.toNat, isMemErr s (s.links.next^[i + 1] s.lazy.frees) = false

namespace World

variable {s s' : Mm} {B B' D F U N A C : List ℕ} {a d i k lp n p x fuel : ℕ}

/-- The search stops at the node of the page. -/
theorem budLazyFind_of_chain (hc : Chain s.links.next a (A ++ x :: C) s.lazy.inuses)
    (hhead : s.lazy.inuses ∉ A ++ [x]) (h0 : 0 ∉ A ++ [x])
    (hok : ∀ y ∈ A ++ [x], isMemErr s y = false) (hA : ∀ y ∈ A, s.pageAddr y ≠ p)
    (hx : s.pageAddr x = p) (hlt : A.length < fuel) :
    budLazyFind s p fuel a lp = some (.ok (x, x)) := by
  induction A generalizing a lp fuel with
  | nil =>
    obtain ⟨fuel, rfl⟩ := Nat.exists_eq_succ_of_ne_zero (Nat.ne_zero_of_lt hlt)
    obtain ⟨rfl, -⟩ := hc
    have hne : ¬ (a = 0 ∨ a = s.lazy.inuses) := by
      rw [List.nil_append, List.mem_singleton] at hhead h0
      exact not_or.2 ⟨Ne.symm h0, Ne.symm hhead⟩
    rw [budLazyFind, if_neg hne, if_neg (by rw [hok a (by simp)]; decide), if_pos hx]
  | cons y A ih =>
    obtain ⟨fuel, rfl⟩ := Nat.exists_eq_succ_of_ne_zero (Nat.ne_zero_of_lt hlt)
    obtain ⟨rfl, hc⟩ := hc
    rw [List.cons_append, List.mem_cons, not_or] at hhead h0
    have hne : ¬ (a = 0 ∨ a = s.lazy.inuses) := not_or.2 ⟨Ne.symm h0.1, Ne.symm hhead.1⟩
    rw [budLazyFind, if_neg hne, if_neg (by rw [hok a (by simp)]; decide),
      if_neg (hA a List.mem_cons_self)]
    apply ih hc hhead.2 h0.2
    · exact fun z hz => hok z (List.mem_cons_of_mem a hz)
    · exact fun z hz => hA z (List.mem_cons_of_mem a hz)
    · simp only [List.length_cons] at hlt
      omega

/-- The lists are shorter than the address space. -/
theorem length_lt (h : World s B D F (A ++ x :: C)) : A.length < 4294967296 := by
  have hd := (List.nodup_cons.1 h.lists.inuses.nodup).2
  have hfits := h.order0.layout.fits
  have hsub : A ++ x :: C ⊆ List.range 4294967296 := by
    intro n hn
    obtain ⟨d, hd, i, hi, rfl⟩ := h.nodes n (List.mem_append_right F hn)
    have := (h.node_mem hd hi).2
    rw [List.mem_range]
    omega
  have hle := (hd.subperm hsub).length_le
  rw [List.length_range, List.length_append, List.length_cons] at hle
  omega

/-- `bud_lazy_free` finds the node of a page in use. -/
theorem find (h : World s B D F (A ++ x :: C)) :
    budLazyFind s (s.pageAddr x) 4294967296 (s.links.next s.lazy.inuses) 0 =
      some (.ok (x, x)) := by
  have hsub : A ++ [x] ⊆ A ++ x :: C := by
    intro y hy
    rw [List.mem_append] at hy ⊢
    refine hy.imp_right fun hyx => ?_
    rw [List.mem_singleton.1 hyx]
    exact List.mem_cons_self
  have hnodup := h.single
  rw [List.map_append, List.map_append, List.map_cons] at hnodup
  have hsplit := (List.nodup_append.1 (List.nodup_append.1 hnodup).2.1).2.2
  apply budLazyFind_of_chain h.lists.inuses.fwd
  · exact fun hy => h.lists.inuses.head_not_mem (hsub hy)
  · exact fun hy => h.lists.zero' (List.mem_cons_of_mem _ (hsub hy))
  · exact fun y hy => h.taken y (hsub hy)
  · exact fun y hy => hsplit _ (List.mem_map_of_mem hy) _ List.mem_cons_self
  · rfl
  · exact h.length_lt

/-- The node moves to the end of the free pages. -/
theorem moved (h : World s B D F (A ++ x :: C))
    (hclean : s.links.prev s.lazy.frees = s.lazy.frees → s.links.next s.lazy.frees = s.lazy.frees) :
    World (lazyMoved s x) B D (F ++ [x]) (A ++ C) := by
  have hd := h.lists.inuses.nodup
  rw [List.nodup_cons, List.nodup_middle, List.nodup_cons] at hd
  have hperm : (F ++ (A ++ x :: C)).Perm ((F ++ [x]) ++ (A ++ C)) := by
    rw [List.append_assoc]
    exact List.perm_middle.append_left F
  have hout : x ∉ s.lazy.frees :: F := fun hx => h.lists.apart hx (by simp)
  have hrest : x ∉ s.lazy.inuses :: (A ++ C) := by
    rw [List.mem_cons, not_or]
    exact ⟨fun e => hd.1 (e ▸ by simp), hd.2.1⟩
  have hdel := h.lists.del_inuses
  have ht := hdel.tail_of_ne (by
    rw [h.lists.prev_del, hdel.next_head, ← h.lists.next_head]
    exact hclean)
  apply h.relink (h.toNodes.perm hperm) (hdel.add_frees ht hout hrest fun e => h.lists.zero' (e ▸ by simp))
  · simp [h.fnum]
  · rw [h.unum]
    simp only [List.length_append, List.length_cons]
    push_cast
    ring
  · intro n hn
    apply h.taken
    rw [List.mem_append] at hn ⊢
    exact hn.imp_right (List.mem_cons_of_mem x)

/-! ### The release of a batch -/

/-- A free page that a list function has taken goes back to the buddy. -/
theorem drop_of {l : Links} (h : World s B D (x :: F) U)
    (hl : Lists l s.lazy.frees s.lazy.inuses F U) :
    ∃ B', World (droppedNode s l x) B' D F U ∧ (droppedNode s l x).pageAddr = s.pageAddr ∧
      (droppedNode s l x).bm = s.bm ∧ (droppedNode s l x).links = l ∧
      (droppedNode s l x).lazy = { s.lazy with fnum := s.lazy.fnum - 1 } := by
  obtain ⟨s₁, hs₁⟩ : ∃ s₁, { s with links := l } = s₁ := ⟨_, rfl⟩
  have hdrop : droppedNode s l x = { _budFree s₁ (s.pageAddr x) with
      lazy := { (_budFree s₁ (s.pageAddr x)).lazy with
        fnum := (_budFree s₁ (s.pageAddr x)).lazy.fnum - 1 } } := by
    rw [← hs₁]
    rfl
  have ho₁ : Order0 s₁ B := by
    rw [← hs₁]
    exact h.order0.congr ⟨rfl, fun _ => rfl, fun _ => rfl⟩ rfl
  have hbm₁ : s₁.bm = s.bm := by rw [← hs₁]
  have hpa₁ : s₁.pageAddr = s.pageAddr := by rw [← hs₁]
  have hn₁ : Nodes s₁ B D (x :: (F ++ U)) :=
    h.toNodes.mono hbm₁ ho₁ (fun n _ => by rw [hpa₁]) (List.Subset.refl B)
  obtain ⟨k, hk⟩ := hn₁.budFree
  have hsame := _budFree_same s₁ (s₁.pageAddr x)
  rw [hpa₁] at hk hsame
  generalize _budFree s₁ (s.pageAddr x) = s₂ at *
  have hlazy₂ : s₂.lazy = s.lazy := by rw [hsame.lazy, ← hs₁]
  have hlinks₂ : s₂.links = l := by rw [hsame.links, ← hs₁]
  rw [hdrop]
  refine ⟨B.erase k, h.rebuild (hsame.bm.trans hbm₁) ?_ (hk.mono rfl
    (hk.order0.congr ⟨rfl, fun _ => rfl, fun _ => rfl⟩ rfl) (fun _ _ => rfl) (List.Subset.refl _)) ?_
    h.taken, hsame.pageAddr.trans hpa₁, hsame.bm.trans hbm₁, hlinks₂, by rw [hlazy₂]⟩
  · rw [hlazy₂, h.fnum, ← h.unum]
    simp
  · change Lists s₂.links _ _ _ _
    rw [hlinks₂]
    exact hl

/-- The first free page goes back to the buddy. -/
theorem drop (h : World s B D (x :: F) U) :
    ∃ B', World (lazyDrop s) B' D F U ∧ (lazyDrop s).pageAddr = s.pageAddr ∧
      (lazyDrop s).bm = s.bm := by
  obtain ⟨hnode, hl⟩ := h.lists.get_frees
  have hdrop : lazyDrop s = droppedNode s (listGet s.links s.lazy.frees).2 x := by
    rw [← hnode]
    rfl
  obtain ⟨B', hw, hpa, hbm, -⟩ := h.drop_of hl
  rw [hdrop]
  exact ⟨B', hw, hpa, hbm⟩

/-- The loop of `bud_lazy_free` gives back the pages of the first nodes. -/
theorem release (h : World s B D (N ++ F) U) (hN : ∀ y ∈ N, isMemErr s y = false) :
    ∃ s' B', budLazyRelease listOps N.length s = (0, s') ∧ World s' B' D F U ∧
      s'.pageAddr = s.pageAddr ∧ releaseGave N.length s = N.map s.pageAddr := by
  induction N generalizing s B with
  | nil => exact ⟨s, B, rfl, h, rfl, rfl⟩
  | cons x N ih =>
    obtain ⟨hnode, -⟩ := h.lists.get_frees
    have hx := hN x List.mem_cons_self
    obtain ⟨B', hw, hpa, hbm⟩ := h.drop
    have hN' (y : ℕ) (hy : y ∈ N) : isMemErr (lazyDrop s) y = false := by
      rw [isMemErr_congr hbm]
      exact hN y (List.mem_cons_of_mem x hy)
    obtain ⟨s', B'', hrel, hw', hpa', hgave⟩ := ih hw hN'
    refine ⟨s', B'', ?_, hw', hpa'.trans hpa, ?_⟩
    · rw [List.length_cons, budLazyRelease_succ, hnode, if_neg (by rw [hx]; decide), hrel]
    · rw [List.length_cons, releaseGave]
      simp only [hnode, hx, Bool.false_eq_true, if_false, hgave, hpa, List.map_cons]

/-! ### The call -/

theorem budLazyFree_eq (h : World s B D F (A ++ x :: C)) :
    budLazyFree listOps s (s.pageAddr x) =
      if (lazyMoved s x).lazy.fnum > (lazyMoved s x).lazy.wmk then
        some (budLazyRelease listOps (lazyMoved s x).lazy.batch.toNat (lazyMoved s x))
      else some (0, lazyMoved s x) := by
  have hvalid := h.valid x (by simp)
  have hunum : s.lazy.unum ≠ 0 := by
    rw [h.unum, List.length_append, List.length_cons]
    omega
  rw [budLazyFree, if_neg (by rw [hvalid]; decide), if_neg hunum, h.find]
  simp only [ne_eq, not_true_eq_false, if_false]
  rfl

/-- `bud_free` of a page goes to the lazy layer. -/
theorem budFree_eq (ops : ListOps) (h : World s B D F U) (hx : x ∈ U) :
    budFree ops s (s.pageAddr x) = (budLazyFree ops s (s.pageAddr x)).map Prod.snd := by
  obtain ⟨k, hk, -, hk0, hpage⟩ := h.pages x (List.mem_append_right F hx)
  have hpos := h.order0.page_pos k
  have hge : s.bm.heapBase ≤ s.page k := Nat.le_add_right _ _
  have hchunk := h.order0.budGetChunk_zero
  rw [budFree, hpage, if_neg (by omega), h.order0.header_of_mem hk hk0]
  simp only [hchunk, if_neg (show ¬ (2048 : ℤ) < 0 by decide),
    if_pos (show (2048 : ℤ) ≤ MM_PAGE_SIZE by decide)]

theorem lazyGave_eq (h : World s B D F (A ++ x :: C)) : lazyGave s (s.pageAddr x) =
    if (lazyMoved s x).lazy.fnum ≤ s.lazy.wmk then []
    else releaseGave s.lazy.batch.toNat (lazyMoved s x) := by
  have hvalid := h.valid x (by simp)
  have hunum : s.lazy.unum ≠ 0 := by
    rw [h.unum, List.length_append, List.length_cons]
    omega
  rw [lazyGave, if_neg (by simp [hvalid, hunum]), h.find]
  simp only [ne_eq, not_true_eq_false, false_or]

/-- Past the watermark there is a batch of free pages, and its nodes pass `IS_MEM_ERR`. -/
theorem first_batch (h : World s B D F U) (hover : s.lazy.fnum + 1 > s.lazy.wmk)
    (hok : ∀ i < s.lazy.batch.toNat, isMemErr s (s.links.next^[i + 1] s.lazy.frees) = false) :
    (F.take 31).length = 31 ∧ ∀ y ∈ F.take 31, isMemErr s y = false := by
  have hlen : 186 ≤ F.length := by
    rw [h.fnum, h.wmk] at hover
    omega
  have htake : (F.take 31).length = 31 := by
    rw [List.length_take]
    omega
  refine ⟨htake, fun y hy => ?_⟩
  obtain ⟨i, hi, rfl⟩ := List.mem_iff_getElem.1 hy
  rw [htake] at hi
  have hnode := hok i (by rw [h.batch]; exact hi)
  rw [Function.iterate_succ_apply, h.lists.fwd.iterate (by omega)] at hnode
  rw [List.getElem_take]
  exact hnode

/-- `bud_free` of a page in use. -/
theorem free (h : World s B D F U) (hp : p ∈ U.map s.pageAddr) (hclean : FreeClean s) :
    ∃ s' B' F' U', budFree listOps s p = some s' ∧ World s' B' D F' U' ∧
      ((F' ++ U').map s'.pageAddr ++ lazyGave s p).Perm ((F ++ U).map s.pageAddr) ∧
      ∀ q ∈ U.map s.pageAddr, q ≠ p → q ∈ U'.map s'.pageAddr := by
  obtain ⟨x, hx, rfl⟩ := List.mem_map.1 hp
  rw [h.budFree_eq listOps hx]
  obtain ⟨A, C, rfl⟩ := List.append_of_mem hx
  have hw := h.moved hclean.tail
  have hpa : (lazyMoved s x).pageAddr = s.pageAddr := rfl
  have hbm : (lazyMoved s x).bm = s.bm := rfl
  have hwmk : (lazyMoved s x).lazy.wmk = s.lazy.wmk := rfl
  have hfnum : (lazyMoved s x).lazy.fnum = s.lazy.fnum + 1 := rfl
  have hbatch : s.lazy.batch.toNat = 31 := by
    rw [h.batch]
    rfl
  have hbatch' : (lazyMoved s x).lazy.batch.toNat = 31 := by
    rw [hw.batch]
    rfl
  have hkeep (q : ℕ) (hq : q ∈ (A ++ x :: C).map s.pageAddr) (hne : q ≠ s.pageAddr x) :
      q ∈ (A ++ C).map s.pageAddr := by
    obtain ⟨y, hy, rfl⟩ := List.mem_map.1 hq
    apply List.mem_map_of_mem
    rw [List.mem_append, List.mem_cons] at hy
    rw [List.mem_append]
    exact hy.imp_right fun hy => hy.resolve_left fun e => hne (e ▸ rfl)
  have hmid : ((F ++ [x]) ++ (A ++ C)).Perm (F ++ (A ++ x :: C)) := by
    rw [List.append_assoc, List.singleton_append]
    exact (List.perm_middle.append_left F).symm
  rw [h.budLazyFree_eq, h.lazyGave_eq, hbatch, hbatch', hwmk]
  by_cases hover : (lazyMoved s x).lazy.fnum ≤ s.lazy.wmk
  · rw [if_neg (not_lt.2 hover), if_pos hover]
    refine ⟨_, B, _, _, rfl, hw, ?_, hkeep⟩
    rw [List.append_nil]
    exact hmid.map _
  · have hover' : s.lazy.fnum + 1 > s.lazy.wmk := by
      rw [hfnum] at hover
      exact not_le.1 hover
    obtain ⟨htake, hfirst⟩ := h.first_batch hover' (hclean.nodes hover')
    rw [if_pos (not_le.1 hover), if_neg hover]
    have hsplit : F ++ [x] = F.take 31 ++ (F.drop 31 ++ [x]) := by
      rw [← List.append_assoc, List.take_append_drop]
    rw [hsplit] at hw
    obtain ⟨s', B', hrel, hw', hpa', hgave⟩ := hw.release hfirst
    rw [htake] at hrel hgave
    rw [hpa] at hpa'
    refine ⟨s', B', _, _, by rw [hrel]; rfl, hw', ?_, ?_⟩
    · rw [hgave, hpa, hpa', ← List.map_append]
      apply List.Perm.map
      apply List.perm_append_comm.trans
      rw [← List.append_assoc, ← hsplit]
      exact hmid
    · rw [hpa']
      exact hkeep

/-- When the head of the free pages is linked back to itself, the node that is freed becomes the
only one on the list. -/
theorem moved_alone (h : World s B D F (A ++ x :: C))
    (hprev : s.links.prev s.lazy.frees = s.lazy.frees) :
    Chain (lazyMoved s x).links.next ((lazyMoved s x).links.next s.lazy.frees) [x] s.lazy.frees := by
  have hne : x ≠ s.lazy.frees := fun e => h.lists.apart (List.mem_cons_self (a := s.lazy.frees))
    (e ▸ by simp)
  have hx : x ≠ 0 := fun e => h.lists.zero' (e ▸ by simp)
  have hh : s.lazy.frees ≠ 0 := fun e => h.lists.zero (e ▸ List.mem_cons_self)
  have hlinks : (lazyMoved s x).links =
      (listAdd (listDel s.links s.lazy.inuses x).2 s.lazy.frees x).2 := rfl
  rw [hlinks, listAdd_links hh hx hne, h.lists.prev_del, hprev]
  simp [Function.update_of_ne hne]

/-- `bud_free` below the watermark. -/
theorem budFree_below (h : World s B D F (A ++ x :: C)) (hle : s.lazy.fnum + 1 ≤ s.lazy.wmk) :
    budFree listOps s (s.pageAddr x) = some (lazyMoved s x) := by
  rw [h.budFree_eq listOps (by simp), h.budLazyFree_eq]
  change Option.map Prod.snd (if s.lazy.fnum + 1 > s.lazy.wmk then _ else _) = _
  rw [if_neg (by omega)]
  rfl

end World

end YohdaOS

import YohdaOS.Rings

/-!
# The two lists of the lazy layer

`bud_lazy_alloc` takes from `lazy.frees` with `list_get`, which reads `head->next` a second time after
it has moved it: the links forward stay right, the links back do not.  Of these the layer reads only
that of the head, when it queues a node.  It is wrong after a `list_get` from two nodes, until the
next one.
-/

namespace YohdaOS

open Chains

/-- The links lead from `h` through `F` and back; the head `k` has the ring `U`. -/
structure Lists (l : Links) (h k : ℕ) (F U : List ℕ) : Prop where
  fwd : Chain l.next (l.next h) F h
  nodup : (h :: F).Nodup
  inuses : Ring l.next l.prev k U
  apart : List.Disjoint (h :: F) (k :: U)
  zero : 0 ∉ h :: F
  zero' : 0 ∉ k :: U
  tail : l.prev h = F.getLastD h ∨ F.length = 1 ∧ l.prev h = h

/-- Two rings are such lists. -/
theorem Rings.lists {l : Links} {h k : ℕ} {F U : List ℕ} (hr : Rings l h k F U) : Lists l h k F U :=
  ⟨hr.left.fwd, hr.left.nodup, hr.right, hr.apart, hr.zero, hr.zero', Or.inl hr.left.prev_head⟩

namespace Lists

variable {l : Links} {h k n x y : ℕ} {F U A C : List ℕ}

theorem next_head (hl : Lists l h k F U) : l.next h = F.headD h := hl.fwd.eq_headD

theorem ne_head (hl : Lists l h k (x :: F) U) : x ≠ h := by
  rintro rfl
  exact (List.nodup_cons.1 hl.nodup).1 List.mem_cons_self

/-- A list that is not empty and whose head is linked back to itself was shortened to one node. -/
theorem tail_of_ne (hl : Lists l h k F U) (hclean : l.prev h = h → l.next h = h) :
    l.prev h = F.getLastD h := by
  rcases hl.tail with ht | ⟨hlen, hprev⟩
  · exact ht
  · have hnext := hclean hprev
    rw [hl.next_head] at hnext
    cases F with
    | nil => exact hprev
    | cons x F => exact absurd hnext hl.ne_head

theorem getLastD_mem (F : List ℕ) (h : ℕ) : F.getLastD h ∈ h :: F := by
  rcases List.eq_nil_or_concat F with rfl | ⟨F, z, rfl⟩ <;> simp

/-- The ring `U` depends on the links of its own nodes only. -/
theorem inuses_congr (hl : Lists l h k F U) {l' : Links}
    (hnext : ∀ y ∈ k :: U, l'.next y = l.next y) (hprev : ∀ y ∈ k :: U, l'.prev y = l.prev y) :
    Ring l'.next l'.prev k U := hl.inuses.congr hnext hprev

/-- `list_add` queues a node at the end of `F`, if the head is linked back to that end. -/
theorem add_frees (hl : Lists l h k F U) (ht : l.prev h = F.getLastD h) (hn : n ∉ h :: F)
    (hn' : n ∉ k :: U) (h0 : n ≠ 0) : Lists (listAdd l h n).2 h k (F ++ [n]) U := by
  have hne : n ≠ h := fun e => hn (e ▸ List.mem_cons_self)
  have hh : h ≠ 0 := fun e => hl.zero (e ▸ List.mem_cons_self)
  have hout (y : ℕ) (hy : y ∈ k :: U) : y ∉ h :: F ∧ y ≠ n :=
    ⟨fun hy' => hl.apart hy' hy, fun e => hn' (e ▸ hy)⟩
  have hlast := getLastD_mem F h
  rw [listAdd_links hh h0 hne, ht]
  refine ⟨hl.fwd.link_last hl.nodup hn, ?_, ?_, ?_, ?_, hl.zero', Or.inl ?_⟩
  · rw [← List.cons_append]
    apply List.Nodup.append hl.nodup (List.nodup_singleton n)
    simpa using hn
  · apply hl.inuses_congr
    · intro y hy
      have hyn := hout y hy
      dsimp only
      rw [Function.update_of_ne (ne_of_mem_of_not_mem hlast hyn.1).symm, Function.update_of_ne hyn.2]
    · intro y hy
      have hyn := hout y hy
      dsimp only
      rw [Function.update_of_ne (ne_of_mem_of_not_mem List.mem_cons_self hyn.1).symm,
        Function.update_of_ne hyn.2]
  · rw [← List.cons_append, List.disjoint_append_left]
    exact ⟨hl.apart, by simpa using hn'⟩
  · rw [← List.cons_append, List.mem_append, List.mem_singleton, not_or]
    exact ⟨hl.zero, Ne.symm h0⟩
  · simp

/-- `list_get` takes the first node of `F`. -/
theorem get_frees (hl : Lists l h k (x :: F) U) :
    (listGet l h).1 = x ∧ Lists (listGet l h).2 h k F U := by
  have hne := hl.ne_head
  have hh : h ≠ 0 := fun e => hl.zero (e ▸ List.mem_cons_self)
  have hnext : l.next h = x := hl.next_head
  have hd := hl.nodup
  have hsub : h :: F ⊆ h :: x :: F := List.cons_subset_cons h (List.subset_cons_self x F)
  have hx : l.next x = F.headD h := hl.fwd.2.eq_headD
  -- the second node, read after `head->next` has moved
  obtain ⟨z, hz⟩ : ∃ z, Function.update l.next h (l.next x) (l.next x) = z := ⟨_, rfl⟩
  have hget : listGet l h = (x, ⟨Function.update l.next h (l.next x), Function.update l.prev z h⟩) := by
    simp [listGet, hh, hnext, hne, Links.setNext, Links.setPrev, hz]
  have hz' : z ∈ h :: F ∧ (Function.update l.prev z h h = F.getLastD h ∨
      F.length = 1 ∧ Function.update l.prev z h h = h) := by
    cases F with
    | nil =>
      obtain rfl : l.next x = h := hx
      rw [Function.update_self] at hz
      obtain rfl : l.next x = z := hz
      simp
    | cons y F =>
      obtain rfl : l.next x = y := hx
      have hy : l.next x ≠ h := by
        intro e
        rw [e] at hd
        simp at hd
      rw [Function.update_of_ne hy] at hz
      have hnexty : l.next (l.next x) = F.headD h := hl.fwd.2.2.eq_headD
      rw [hz] at hnexty
      cases F with
      | nil =>
        obtain rfl : z = h := hnexty
        simp
      | cons w F =>
        obtain rfl : z = w := hnexty
        have hzh : h ≠ z := by
          rintro rfl
          simp at hd
        rw [Function.update_of_ne hzh]
        have ht : l.prev h = (x :: l.next x :: z :: F).getLastD h := by
          rcases hl.tail with ht | ⟨hlen, -⟩
          · exact ht
          · simp at hlen
        refine ⟨by simp, Or.inl ?_⟩
        rw [ht]
        simp
  have hout (y : ℕ) (hy : y ∈ k :: U) : y ∉ h :: F := fun hy' => hl.apart (hsub hy') hy
  rw [hget]
  refine ⟨rfl, ?_, hd.sublist ((List.sublist_cons_self x F).cons_cons h), ?_,
    fun y hy => hl.apart (hsub hy), fun h0 => hl.zero (hsub h0), hl.zero', hz'.2⟩
  · exact hl.fwd.unlink (A := []) hd
  · apply hl.inuses_congr
    · intro y hy
      exact Function.update_of_ne (ne_of_mem_of_not_mem List.mem_cons_self (hout y hy)).symm _ _
    · intro y hy
      exact Function.update_of_ne (ne_of_mem_of_not_mem hz'.1 (hout y hy)).symm _ _

/-- Changing the ring `U` alone. -/
theorem with_inuses (hl : Lists l h k F U) {l' : Links} {U' : List ℕ}
    (hring : Ring l'.next l'.prev k U') (hnext : ∀ y ∈ h :: F, l'.next y = l.next y)
    (hprev : l'.prev h = l.prev h) (hapart : List.Disjoint (h :: F) (k :: U')) (hzero : 0 ∉ k :: U') :
    Lists l' h k F U' where
  fwd := by
    rw [hnext h List.mem_cons_self]
    exact hl.fwd.congr fun y hy => hnext y (List.mem_cons_of_mem h hy)
  nodup := hl.nodup
  inuses := hring
  apart := hapart
  zero := hl.zero
  zero' := hzero
  tail := by
    rw [hprev]
    exact hl.tail

/-- `list_add` queues a node at the end of `U`. -/
theorem add_inuses (hl : Lists l h k F U) (hn : n ∉ h :: F) (hn' : n ∉ k :: U) (h0 : n ≠ 0) :
    Lists (listAdd l k n).2 h k F (U ++ [n]) := by
  have hne : n ≠ k := fun e => hn' (e ▸ List.mem_cons_self)
  have hk : k ≠ 0 := fun e => hl.zero' (e ▸ List.mem_cons_self)
  have hout (y : ℕ) (hy : y ∈ h :: F) : y ∉ k :: U ∧ y ≠ n :=
    ⟨fun hy' => hl.apart hy hy', fun e => hn (e ▸ hy)⟩
  have hh := hout h List.mem_cons_self
  rw [listAdd_links hk h0 hne]
  apply hl.with_inuses (hl.inuses.add hn')
  · intro y hy
    have hyn := hout y hy
    dsimp only
    rw [Function.update_of_ne (ne_of_mem_of_not_mem hl.inuses.head_prev_mem hyn.1).symm,
      Function.update_of_ne hyn.2]
  · dsimp only
    rw [Function.update_of_ne (ne_of_mem_of_not_mem List.mem_cons_self hh.1).symm, Function.update_of_ne hh.2]
  · rw [← List.cons_append, List.disjoint_append_right]
    exact ⟨hl.apart, by simpa using hn⟩
  · rw [← List.cons_append, List.mem_append, List.mem_singleton, not_or]
    exact ⟨hl.zero', Ne.symm h0⟩

theorem del_links (hl : Lists l h k F (A ++ x :: C)) :
    (listDel l k x).2 = ⟨Function.update l.next (l.prev x) (l.next x),
      Function.update l.prev (l.next x) (l.prev x)⟩ := by
  have hx : x ≠ 0 := fun e => hl.zero' (e ▸ by simp)
  have hk : k ≠ 0 := fun e => hl.zero' (e ▸ List.mem_cons_self)
  have hempty : ¬(l.prev k = k ∧ l.next k = k) := by
    rintro ⟨-, hnext⟩
    rw [hl.inuses.next_head] at hnext
    apply hl.inuses.head_not_mem
    cases A with
    | nil => exact hnext ▸ List.mem_cons_self
    | cons y A => exact hnext ▸ List.mem_cons_self
  simp [listDel, hk, hx, hempty, Links.setNext, Links.setPrev,
    Function.update_of_ne (Ne.symm hl.inuses.next_ne)]

theorem prev_del (hl : Lists l h k F (A ++ x :: C)) : (listDel l k x).2.prev h = l.prev h := by
  have hnext : l.next x ∈ k :: (A ++ x :: C) := hl.inuses.next_mem (by simp)
  have hh : h ∉ k :: (A ++ x :: C) := fun hy => hl.apart List.mem_cons_self hy
  rw [hl.del_links]
  exact Function.update_of_ne (ne_of_mem_of_not_mem hnext hh).symm _ _

/-- `list_del` unlinks a node of `U`. -/
theorem del_inuses (hl : Lists l h k F (A ++ x :: C)) : Lists (listDel l k x).2 h k F (A ++ C) := by
  have hsub : k :: (A ++ C) ⊆ k :: (A ++ x :: C) :=
    (((List.sublist_cons_self x C).append_left A).cons_cons k).subset
  have hprev : l.prev x ∈ k :: (A ++ x :: C) := by
    rw [hl.inuses.prev_eq]
    rcases List.eq_nil_or_concat A with rfl | ⟨A, z, rfl⟩ <;> simp
  have hring := hl.inuses.del
  have hnext (y : ℕ) (hy : y ∈ h :: F) : (listDel l k x).2.next y = l.next y := by
    have hout : y ∉ k :: (A ++ x :: C) := fun hy' => hl.apart hy hy'
    rw [hl.del_links]
    exact Function.update_of_ne (ne_of_mem_of_not_mem hprev hout).symm _ _
  apply hl.with_inuses _ hnext hl.prev_del
  · exact fun y hy hy' => hl.apart hy (hsub hy')
  · exact fun h0 => hl.zero' (hsub h0)
  · rw [hl.del_links]
    exact hring

end Lists

end YohdaOS

import YohdaOS.Lib.Ring
import YohdaOS.Links

/-!
# Two lists on one set of nodes

The users of list.c keep a node on one of two lists.  `Rings l h k R B` says that the head `h` has
the ring `R`, the head `k` the ring `B`, and no node is on both.
-/

namespace YohdaOS

open Chains

structure Rings (l : Links) (h k : ℕ) (R B : List ℕ) : Prop where
  left : Ring l.next l.prev h R
  right : Ring l.next l.prev k B
  apart : List.Disjoint (h :: R) (k :: B)
  zero : 0 ∉ h :: R
  zero' : 0 ∉ k :: B

variable {l : Links} {h k n x : ℕ} {R B A C : List ℕ}

namespace Rings

theorem swap (hr : Rings l h k R B) : Rings l k h B R :=
  ⟨hr.right, hr.left, hr.apart.symm, hr.zero', hr.zero⟩

theorem head_ne (hr : Rings l h k R B) : h ≠ 0 := fun h0 => hr.zero (by simp [h0])

theorem ne_zero (hr : Rings l h k R B) (hx : x ∈ R) : x ≠ 0 := by
  rintro rfl
  exact hr.zero (List.mem_cons_of_mem h hx)

theorem prev_mem (hr : Rings l h k (A ++ x :: C) B) : l.prev x ∈ h :: (A ++ x :: C) := by
  rw [hr.left.prev_eq]
  rcases List.eq_nil_or_concat A with rfl | ⟨A, z, rfl⟩ <;> simp

/-- Only the links of the first ring and of a node on neither list change. -/
theorem right_congr (hr : Rings l h k R B) {l' : Links}
    (hnext : ∀ y, y ∉ h :: R → y ≠ n → l'.next y = l.next y)
    (hprev : ∀ y, y ∉ h :: R → y ≠ n → l'.prev y = l.prev y) (hn : n ∉ k :: B) :
    Ring l'.next l'.prev k B := by
  have hy (y : ℕ) (hy : y ∈ k :: B) : y ∉ h :: R ∧ y ≠ n :=
    ⟨fun hy' => hr.apart hy' hy, by rintro rfl; exact hn hy⟩
  exact hr.right.congr (fun y h => hnext y (hy y h).1 (hy y h).2)
    fun y h => hprev y (hy y h).1 (hy y h).2

end Rings

/-! ## The list functions -/

theorem listAdd_links (hh : h ≠ 0) (hn : n ≠ 0) (hne : n ≠ h) :
    (listAdd l h n).2 = ⟨Function.update (Function.update l.next n h) (l.prev h) n,
      Function.update (Function.update l.prev n (l.prev h)) h n⟩ := by
  simp [listAdd, hh, hn, Links.setNext, Links.setPrev, Function.update_of_ne (Ne.symm hne)]

theorem ring_not_empty (hr : Ring l.next l.prev h (A ++ x :: C)) :
    ¬(l.prev h = h ∧ l.next h = h) := by
  rintro ⟨-, hnext⟩
  rw [hr.next_head] at hnext
  apply hr.head_not_mem
  cases A with
  | nil =>
    obtain rfl : x = h := hnext
    simp
  | cons y A =>
    obtain rfl : y = h := hnext
    simp

theorem listDel_eq (hr : Ring l.next l.prev h (A ++ x :: C)) (hh : h ≠ 0) (hx : x ≠ 0) :
    listDel l h x = (x, ⟨Function.update l.next (l.prev x) (l.next x),
      Function.update l.prev (l.next x) (l.prev x)⟩) := by
  simp [listDel, hh, hx, ring_not_empty hr, Links.setNext, Links.setPrev,
    Function.update_of_ne (Ne.symm hr.next_ne)]

/-- `list_add` queues a node at the tail. -/
theorem Rings.listAdd (hr : Rings l h k R B) (hn : n ∉ h :: R) (hn' : n ∉ k :: B) (h0 : n ≠ 0) :
    Rings (listAdd l h n).2 h k (R ++ [n]) B := by
  have hne : n ≠ h := List.ne_of_not_mem_cons hn
  rw [listAdd_links hr.head_ne h0 hne]
  refine ⟨hr.left.add hn, ?_, ?_, ?_, hr.zero'⟩
  · apply hr.right_congr (n := n) _ _ hn'
    · intro y hy hyn
      dsimp only
      rw [Function.update_of_ne (by rintro rfl; exact hy hr.left.head_prev_mem), Function.update_of_ne hyn]
    · intro y hy hyn
      simp only
      rw [Function.update_of_ne (by rintro rfl; simp at hy), Function.update_of_ne hyn]
  · intro y hy hy'
    rw [← List.cons_append, List.mem_append, List.mem_singleton] at hy
    rcases hy with hy | rfl
    · exact hr.apart hy hy'
    · exact hn' hy'
  · rw [← List.cons_append, List.mem_append, List.mem_singleton, not_or]
    exact ⟨hr.zero, Ne.symm h0⟩

theorem Rings.unlink (hr : Rings l h k (A ++ x :: C) B) :
    Rings ⟨Function.update l.next (l.prev x) (l.next x),
      Function.update l.prev (l.next x) (l.prev x)⟩ h k (A ++ C) B := by
  have hsub : h :: (A ++ C) ⊆ h :: (A ++ x :: C) :=
    (((List.sublist_cons_self x C).append_left A).cons_cons h).subset
  refine ⟨hr.left.del, ?_, fun y hy => hr.apart (hsub hy), fun h0 => hr.zero (hsub h0), hr.zero'⟩
  apply hr.right_congr (n := x)
  · intro y hy _
    exact Function.update_of_ne (by rintro rfl; exact hy hr.prev_mem) _ _
  · intro y hy _
    exact Function.update_of_ne (by rintro rfl; exact hy (hr.left.next_mem (by simp))) _ _
  · exact fun hx => hr.apart (by simp) hx

/-- `list_del` unlinks a node of the list. -/
theorem Rings.listDel (hr : Rings l h k (A ++ x :: C) B) :
    Rings (listDel l h x).2 h k (A ++ C) B := by
  rw [listDel_eq hr.left hr.head_ne (hr.ne_zero (by simp))]
  exact hr.unlink

/-! ## The 32-bit kernel's copies -/

/-- On a ring the check of the links lets every call pass. -/
theorem P32.listAdd_eq (hr : Ring l.next l.prev h R) (hz : 0 ∉ h :: R) :
    P32.listAdd l h n = YohdaOS.listAdd l h n := by
  have hp : l.prev h ≠ 0 := fun e => hz (e ▸ hr.head_prev_mem)
  have hn : l.next h ≠ 0 := fun e => hz (e ▸ hr.next_mem List.mem_cons_self)
  unfold P32.listAdd YohdaOS.listAdd
  rw [if_neg (not_or.2 ⟨hp, hn⟩)]

theorem P32.listGet_eq (hr : Ring l.next l.prev h (x :: R)) (hh : h ≠ 0) :
    P32.listGet l h = (x, ⟨Function.update l.next (l.prev x) (l.next x),
      Function.update l.prev (l.next x) (l.prev x)⟩) := by
  have hnext : l.next h = x := hr.next_head
  have hprev : l.prev x = h := hr.prev_eq (A := [])
  have hne : x ≠ h := by
    rintro rfl
    exact hr.head_not_mem List.mem_cons_self
  simp [P32.listGet, hh, Links.setNext, Links.setPrev, hnext, hprev, hne]

theorem P32.listGet_nil (hr : Ring l.next l.prev h []) : P32.listGet l h = (0, l) := by
  simp [P32.listGet, hr.next_head, hr.prev_head]

theorem Rings.listAdd_p32 (hr : Rings l h k R B) (hn : n ∉ h :: R) (hn' : n ∉ k :: B)
    (h0 : n ≠ 0) : Rings (P32.listAdd l h n).2 h k (R ++ [n]) B := by
  rw [P32.listAdd_eq hr.left hr.zero]
  exact hr.listAdd hn hn' h0

/-- The 32-bit kernel's `list_get` takes the first node. -/
theorem Rings.listGet_p32 (hr : Rings l h k (x :: R) B) :
    (P32.listGet l h).1 = x ∧ Rings (P32.listGet l h).2 h k R B := by
  rw [P32.listGet_eq hr.left hr.head_ne]
  exact ⟨rfl, hr.unlink (A := [])⟩

end YohdaOS

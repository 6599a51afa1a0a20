import Mathlib.Tactic

/-!
# bstree.c

The comparison that the caller passes decides, at every node, for a side, for a match, or for an
error; the last two are the same number.  The third link of a node is NULL for ever, so that a
descent stops at the first node that matches.
-/

namespace YohdaOS

/-- The link a comparison selects; `BST_MATCH` is also `BST_ERROR`. -/
inductive BstDir where
  | left
  | right
  | isMatch
deriving DecidableEq, Repr

/-- The nodes under a link. -/
inductive Bst (α : Type) where
  | nil
  | node (a : α) (left right : Bst α)
deriving Repr

variable {α : Type}

/-- The loop of `bst_insert`, where `dir` is the comparison with the new node. -/
def bstInsertAt (dir : α → BstDir) (new : α) : Bst α → Option α × Bst α
  | .nil => (some new, .node new .nil .nil)
  | .node a l r =>
    match dir a with
    | .left => ((bstInsertAt dir new l).1, .node a (bstInsertAt dir new l).2 r)
    | .right => ((bstInsertAt dir new r).1, .node a l (bstInsertAt dir new r).2)
    | .isMatch => (none, .node a l r)

/-- `bst_insert`: the node it returns and the tree. -/
def bstInsert (root : Bst α) (new : α) (comp : α → α → BstDir) : Option α × Bst α :=
  match root with
  | .nil => (none, .nil)
  | .node a l r => bstInsertAt (fun tmp => comp tmp new) new (.node a l r)

/-- The loop of `bst_search`, where `dir` is the comparison with the key. -/
def bstFind (dir : α → BstDir) : Bst α → Option α
  | .nil => none
  | .node a l r =>
    match dir a with
    | .left => bstFind dir l
    | .right => bstFind dir r
    | .isMatch => some a

def bstSearch {κ : Type} (root : Bst α) (key : κ) (comp : α → κ → BstDir) : Option α :=
  bstFind (fun tmp => comp tmp key) root

/-- The node is in the tree. -/
def Bst.Mem (x : α) : Bst α → Prop
  | .nil => False
  | .node a l r => x = a ∨ l.Mem x ∨ r.Mem x

variable {dir dir' : α → BstDir} {t : Bst α} {new x : α}

/-- What is found matches. -/
theorem bstFind_eq_some (h : bstFind dir t = some x) : t.Mem x ∧ dir x = .isMatch := by
  induction t with
  | nil => cases h
  | node a l r ihl ihr =>
    rw [bstFind] at h
    cases hdir : dir a with
    | left =>
      rw [hdir] at h
      exact ⟨Or.inr (Or.inl (ihl h).1), (ihl h).2⟩
    | right =>
      rw [hdir] at h
      exact ⟨Or.inr (Or.inr (ihr h).1), (ihr h).2⟩
    | isMatch =>
      rw [hdir] at h
      obtain rfl := Option.some.inj h
      exact ⟨Or.inl rfl, hdir⟩

/-- A tree without a match on the way takes the new node, and it is found there. -/
theorem bstInsertAt_of_none (h : bstFind dir t = none) (hnew : dir new = .isMatch) :
    (bstInsertAt dir new t).1 = some new ∧ bstFind dir (bstInsertAt dir new t).2 = some new := by
  induction t with
  | nil =>
    refine ⟨rfl, ?_⟩
    rw [bstInsertAt, bstFind, hnew]
  | node a l r ihl ihr =>
    rw [bstFind] at h
    rw [bstInsertAt]
    cases hdir : dir a with
    | left =>
      rw [hdir] at h
      simp only [bstFind, hdir]
      exact ihl h
    | right =>
      rw [hdir] at h
      simp only [bstFind, hdir]
      exact ihr h
    | isMatch =>
      rw [hdir] at h
      cases h

/-- A match on the way keeps the new node out. -/
theorem bstInsertAt_of_some (h : bstFind dir t = some x) : (bstInsertAt dir new t).1 = none := by
  induction t with
  | nil => cases h
  | node a l r ihl ihr =>
    rw [bstFind] at h
    rw [bstInsertAt]
    cases hdir : dir a with
    | left =>
      rw [hdir] at h
      exact ihl h
    | right =>
      rw [hdir] at h
      exact ihr h
    | isMatch => rfl

/-- An insertion leaves the way to every other node as it was. -/
theorem bstFind_insertAt (h : bstFind dir' t = some x) :
    bstFind dir' (bstInsertAt dir new t).2 = some x := by
  induction t with
  | nil => cases h
  | node a l r ihl ihr =>
    rw [bstInsertAt]
    rw [bstFind] at h
    cases hdir : dir a <;> cases hdir' : dir' a <;> rw [hdir'] at h <;> simp only [bstFind, hdir']
    · exact ihl h
    · exact h
    · exact h
    · exact h
    · exact ihr h
    · exact h
    · exact h
    · exact h
    · exact h

/-- A comparison that goes, at every node, where another one does, or stops, stops before the node
that the other one finds. -/
theorem bstFind_of_follows (h : bstFind dir t = some x)
    (hdir : ∀ a, t.Mem a → dir' a = .isMatch ∨ dir' a = dir a) : ∃ y, bstFind dir' t = some y := by
  induction t with
  | nil => cases h
  | node a l r ihl ihr =>
    rw [bstFind] at h ⊢
    rcases hdir a (Or.inl rfl) with hstop | hsame
    · rw [hstop]
      exact ⟨a, rfl⟩
    · rw [hsame]
      cases hda : dir a with
      | left =>
        rw [hda] at h
        exact ihl h fun b hb => hdir b (Or.inr (Or.inl hb))
      | right =>
        rw [hda] at h
        exact ihr h fun b hb => hdir b (Or.inr (Or.inr hb))
      | isMatch => exact ⟨a, rfl⟩

/-- Only the comparisons with nodes of the tree count. -/
theorem bstInsertAt_congr (h : ∀ a, t.Mem a → dir a = dir' a) :
    bstInsertAt dir new t = bstInsertAt dir' new t := by
  induction t with
  | nil => rfl
  | node a l r ihl ihr =>
    rw [bstInsertAt, bstInsertAt, h a (Or.inl rfl), ihl fun b hb => h b (Or.inr (Or.inl hb)),
      ihr fun b hb => h b (Or.inr (Or.inr hb))]

theorem mem_bstInsertAt (h : (bstInsertAt dir new t).2.Mem x) : x = new ∨ t.Mem x := by
  induction t with
  | nil =>
    rcases h with rfl | h | h
    · exact Or.inl rfl
    · exact h.elim
    · exact h.elim
  | node a l r ihl ihr =>
    rw [bstInsertAt] at h
    cases hdir : dir a with
    | left =>
      rw [hdir] at h
      rcases h with rfl | h | h
      · exact Or.inr (Or.inl rfl)
      · exact (ihl h).imp_right fun hl => Or.inr (Or.inl hl)
      · exact Or.inr (Or.inr (Or.inr h))
    | right =>
      rw [hdir] at h
      rcases h with rfl | h | h
      · exact Or.inr (Or.inl rfl)
      · exact Or.inr (Or.inr (Or.inl h))
      · exact (ihr h).imp_right fun hr => Or.inr (Or.inr hr)
    | isMatch =>
      rw [hdir] at h
      exact Or.inr h

end YohdaOS

import YohdaOS.Bst
import YohdaOS.Machine

/-!
# The nodes of bstree.c

A node is an array of three links.  `bst_insert` and `bst_search` follow the link that the comparison
selects, until it is NULL.  `Represents m p t` says that the links from `p` on form the tree `t`; in an
ordered tree a descent ends at the node of the key, or where a node of that key belongs.
-/

namespace YohdaOS

variable {κ : Type} [LinearOrder κ]

/-- A comparison of two keys says on which side of the first the second belongs. -/
structure Follows (comp : κ → κ → BstDir) : Prop where
  left : ∀ {a b}, b < a → comp a b = .left
  right : ∀ {a b}, a < b → comp a b = .right
  same : ∀ a, comp a a = .isMatch

def dirOf (a b : κ) : BstDir := if b < a then .left else if a < b then .right else .isMatch

theorem follows_dirOf : Follows (dirOf : κ → κ → BstDir) where
  left h := if_pos h
  right h := (if_neg (lt_asymm h)).trans (if_pos h)
  same _ := (if_neg (lt_irrefl _)).trans (if_neg (lt_irrefl _))

namespace Bst

variable {α : Type} {key key' : α → κ} {comp : κ → κ → BstDir} {k : κ} {new x : α} {t : Bst α}

/-- The keys on the left of a node are less than its own, those on the right are greater. -/
def Ordered (key : α → κ) : Bst α → Prop
  | .nil => True
  | .node a l r => (∀ x, l.Mem x → key x < key a) ∧ (∀ x, r.Mem x → key a < key x) ∧
      l.Ordered key ∧ r.Ordered key

/-- No node is in the tree twice. -/
def Distinct : Bst α → Prop
  | .nil => True
  | .node a l r => ¬l.Mem a ∧ ¬r.Mem a ∧ (∀ x, l.Mem x → ¬r.Mem x) ∧ l.Distinct ∧ r.Distinct

/-- The number of nodes. -/
def size : Bst α → ℕ
  | .nil => 0
  | .node _ l r => l.size + r.size + 1

theorem Ordered.distinct (h : t.Ordered key) : t.Distinct := by
  induction t with
  | nil => trivial
  | node a l r ihl ihr =>
    obtain ⟨hl, hr, hol, hor⟩ := h
    refine ⟨fun ha => lt_irrefl _ (hl a ha), fun ha => lt_irrefl _ (hr a ha), ?_, ihl hol, ihr hor⟩
    exact fun x hxl hxr => lt_asymm (hl x hxl) (hr x hxr)

theorem Ordered.congr (h : t.Ordered key) (hkey : ∀ x, t.Mem x → key' x = key x) :
    t.Ordered key' := by
  induction t with
  | nil => trivial
  | node a l r ihl ihr =>
    obtain ⟨hl, hr, hol, hor⟩ := h
    have hleft (x : α) (hx : l.Mem x) : key' x = key x := hkey x (Or.inr (Or.inl hx))
    have hright (x : α) (hx : r.Mem x) : key' x = key x := hkey x (Or.inr (Or.inr hx))
    have hroot : key' a = key a := hkey a (Or.inl rfl)
    refine ⟨fun x hx => ?_, fun x hx => ?_, ihl hol hleft, ihr hor hright⟩
    · rw [hroot, hleft x hx]
      exact hl x hx
    · rw [hroot, hright x hx]
      exact hr x hx

theorem mem_insertAt_of_mem (dir : α → BstDir) (new : α) (h : t.Mem x) :
    (bstInsertAt dir new t).2.Mem x := by
  induction t with
  | nil => exact h.elim
  | node a l r ihl ihr =>
    rw [bstInsertAt]
    rcases h with rfl | h | h
    · cases dir x <;> exact Or.inl rfl
    · cases dir a with
      | left => exact Or.inr (Or.inl (ihl h))
      | right => exact Or.inr (Or.inl h)
      | isMatch => exact Or.inr (Or.inl h)
    · cases dir a with
      | left => exact Or.inr (Or.inr h)
      | right => exact Or.inr (Or.inr (ihr h))
      | isMatch => exact Or.inr (Or.inr h)

theorem insertAt_of_find {dir : α → BstDir} (h : bstFind dir t = some x) :
    (bstInsertAt dir new t).2 = t := by
  induction t with
  | nil => cases h
  | node a l r ihl ihr =>
    rw [bstFind] at h
    rw [bstInsertAt]
    cases hdir : dir a with
    | left =>
      rw [hdir] at h
      simp only [ihl h]
    | right =>
      rw [hdir] at h
      simp only [ihr h]
    | isMatch => rfl

/-- The descent finds the node of a key. -/
theorem Ordered.find (hc : Follows comp) (h : t.Ordered key) (hx : t.Mem x) :
    bstFind (fun a => comp (key a) (key x)) t = some x := by
  induction t with
  | nil => exact hx.elim
  | node a l r ihl ihr =>
    obtain ⟨hl, hr, hol, hor⟩ := h
    rw [bstFind]
    rcases hx with rfl | hx | hx
    · rw [hc.same]
    · rw [hc.left (hl x hx)]
      exact ihl hol hx
    · rw [hc.right (hr x hx)]
      exact ihr hor hx

theorem find_none (hc : Follows comp) (h : ∀ x, t.Mem x → key x ≠ k) :
    bstFind (fun a => comp (key a) k) t = none := by
  cases hfind : bstFind (fun a => comp (key a) k) t with
  | none => rfl
  | some x =>
    obtain ⟨hx, hmatch⟩ := bstFind_eq_some hfind
    rcases lt_or_gt_of_ne (h x hx) with hlt | hlt
    · rw [hc.right hlt] at hmatch
      cases hmatch
    · rw [hc.left hlt] at hmatch
      cases hmatch

/-- The place of a new node keeps the order. -/
theorem Ordered.insertAt (hc : Follows comp) (h : t.Ordered key) :
    (bstInsertAt (fun a => comp (key a) (key new)) new t).2.Ordered key := by
  induction t with
  | nil => exact ⟨fun _ hx => hx.elim, fun _ hx => hx.elim, trivial, trivial⟩
  | node a l r ihl ihr =>
    obtain ⟨hl, hr, hol, hor⟩ := h
    rw [bstInsertAt]
    rcases lt_trichotomy (key new) (key a) with hlt | heq | hlt
    · rw [hc.left hlt]
      refine ⟨fun x hx => ?_, hr, ihl hol, hor⟩
      rcases mem_bstInsertAt hx with rfl | hx
      · exact hlt
      · exact hl x hx
    · rw [heq, hc.same]
      exact ⟨hl, hr, hol, hor⟩
    · rw [hc.right hlt]
      refine ⟨hl, fun x hx => ?_, hol, ihr hor⟩
      rcases mem_bstInsertAt hx with rfl | hx
      · exact hlt
      · exact hr x hx

end Bst

/-! ## Links -/

/-- The links of the `struct bst_node` at an address; 0 is NULL. -/
structure BstMem where
  node : ℕ → BstDir → ℕ

namespace BstMem

def bstNodeInit (m : BstMem) (_node : ℕ) : ℤ × BstMem :=
  if _node = 0 then (-1, m) else (0, ⟨Function.update m.node _node fun _ => 0⟩)

/-- The loop of `bst_insert` and `bst_search`: the last node and the direction there. -/
def descend (m : BstMem) (comp : ℕ → BstDir) : ℕ → ℕ → Option (ℕ × BstDir)
  | 0, _ => none
  | fuel + 1, tmp =>
    if m.node tmp (comp tmp) ≠ 0 then m.descend comp fuel (m.node tmp (comp tmp))
    else some (tmp, comp tmp)

def setNode (m : BstMem) (tmp : ℕ) (dir : BstDir) (v : ℕ) : BstMem :=
  ⟨Function.update m.node tmp (Function.update (m.node tmp) dir v)⟩

/-- `bst_insert`: the pointer it returns and the links. -/
def bstInsert (m : BstMem) (fuel root new : ℕ) (comp : Option (ℕ → ℕ → BstDir)) :
    Option (ℕ × BstMem) :=
  if root = 0 ∨ new = 0 then some (0, m)
  else
    match comp with
    | none => some (0, m)
    | some comp =>
      let r := m.bstNodeInit new
      if r.1 < 0 then some (toU32 (-1), r.2)
      else
        (r.2.descend (fun tmp => comp tmp new) fuel root).map fun (tmp, dir) =>
          let m := r.2.setNode tmp dir (if dir = .isMatch then 0 else new)
          (m.node tmp dir, m)

/-- `bst_search`; a key that is not there is a null pointer. -/
def bstSearch {κ : Type} (m : BstMem) (fuel root : ℕ) (key : Option κ)
    (comp : Option (ℕ → κ → BstDir)) : Option ℕ :=
  if root = 0 then some 0
  else
    match key, comp with
    | some key, some comp =>
      (m.descend (fun tmp => comp tmp key) fuel root).map fun (tmp, dir) =>
        if dir = .isMatch then tmp else 0
    | _, _ => some 0

/-- The links from `p` on form the tree `t`. -/
def Represents (m : BstMem) : ℕ → Bst ℕ → Prop
  | p, .nil => p = 0
  | p, .node a l r => p = a ∧ a ≠ 0 ∧ m.node a .isMatch = 0 ∧
      m.Represents (m.node a .left) l ∧ m.Represents (m.node a .right) r

/-- The node is reached from `p` by links. -/
def Linked (m : BstMem) : ℕ → ℕ → Prop :=
  Relation.ReflTransGen fun a b => b ≠ 0 ∧ ∃ dir, m.node a dir = b

variable {m m' : BstMem} {comp : ℕ → BstDir} {p new x fuel : ℕ} {t : Bst ℕ} {dir : BstDir}

theorem Represents.root_mem (h : m.Represents p t) (hp : p ≠ 0) : t.Mem p := by
  cases t with
  | nil => exact absurd h hp
  | node a l r => exact Or.inl h.1

theorem Represents.nil_iff (h : m.Represents p t) : t = .nil ↔ p = 0 := by
  cases t with
  | nil => exact iff_of_true rfl h
  | node a l r => exact iff_of_false (fun ht => by cases ht) (h.1 ▸ h.2.1)

theorem Represents.ne_zero (h : m.Represents p t) (hx : t.Mem x) : x ≠ 0 := by
  induction t generalizing p with
  | nil => exact hx.elim
  | node a l r ihl ihr =>
    obtain ⟨-, ha, -, hl, hr⟩ := h
    rcases hx with rfl | hx | hx
    · exact ha
    · exact ihl hl hx
    · exact ihr hr hx

/-- The third link of every node of a tree is NULL. -/
theorem Represents.isMatch (h : m.Represents p t) (hx : t.Mem x) : m.node x .isMatch = 0 := by
  induction t generalizing p with
  | nil => exact hx.elim
  | node a l r ihl ihr =>
    obtain ⟨-, -, hmatch, hl, hr⟩ := h
    rcases hx with rfl | hx | hx
    · exact hmatch
    · exact ihl hl hx
    · exact ihr hr hx

theorem Represents.congr (h : m.Represents p t) (heq : ∀ x, t.Mem x → m'.node x = m.node x) :
    m'.Represents p t := by
  induction t generalizing p with
  | nil => exact h
  | node a l r ihl ihr =>
    obtain ⟨hp, ha, hmatch, hl, hr⟩ := h
    have hroot : m'.node a = m.node a := heq a (Or.inl rfl)
    rw [Represents, hroot]
    exact ⟨hp, ha, hmatch, ihl hl fun x hx => heq x (Or.inr (Or.inl hx)),
      ihr hr fun x hx => heq x (Or.inr (Or.inr hx))⟩

theorem Represents.linked (h : m.Represents p t) (hx : t.Mem x) : m.Linked p x := by
  induction t generalizing p with
  | nil => exact hx.elim
  | node a l r ihl ihr =>
    obtain ⟨rfl, -, -, hl, hr⟩ := h
    rcases hx with rfl | hx | hx
    · exact .refl
    · have hne : m.node p .left ≠ 0 := fun h0 => by
        rw [hl.nil_iff.2 h0] at hx
        exact hx
      exact (ihl hl hx).head ⟨hne, .left, rfl⟩
    · have hne : m.node p .right ≠ 0 := fun h0 => by
        rw [hr.nil_iff.2 h0] at hx
        exact hx
      exact (ihr hr hx).head ⟨hne, .right, rfl⟩

/-- The links of a tree stay in it. -/
theorem Represents.mem_of_link (h : m.Represents p t) {dir : BstDir} (hx : t.Mem x)
    (hne : m.node x dir ≠ 0) : t.Mem (m.node x dir) := by
  induction t generalizing p with
  | nil => exact hx.elim
  | node a l r ihl ihr =>
    obtain ⟨-, -, hmatch, hl, hr⟩ := h
    rcases hx with rfl | hx | hx
    · cases dir with
      | left => exact Or.inr (Or.inl (hl.root_mem hne))
      | right => exact Or.inr (Or.inr (hr.root_mem hne))
      | isMatch => exact absurd hmatch hne
    · exact Or.inr (Or.inl (ihl hl hx))
    · exact Or.inr (Or.inr (ihr hr hx))

theorem Represents.mem_of_linked (h : m.Represents p t) (hp : p ≠ 0) (hx : m.Linked p x) :
    t.Mem x := by
  induction hx with
  | refl => exact h.root_mem hp
  | tail _ hlink ih =>
    obtain ⟨hne, dir, rfl⟩ := hlink
    exact h.mem_of_link ih hne

/-- A tree is in memory in one way. -/
theorem Represents.ptr_eq {q : ℕ} (h : m.Represents p t) (h' : m'.Represents q t) : q = p := by
  cases t with
  | nil => exact Eq.trans h' h.symm
  | node a l r => exact h'.1.trans h.1.symm

theorem Represents.node_eq {q : ℕ} (h : m.Represents p t) (h' : m'.Represents q t) (hx : t.Mem x) :
    m'.node x = m.node x := by
  induction t generalizing p q with
  | nil => exact hx.elim
  | node a l r ihl ihr =>
    obtain ⟨-, -, hmatch, hl, hr⟩ := h
    obtain ⟨-, -, hmatch', hl', hr'⟩ := h'
    rcases hx with rfl | hx | hx
    · funext dir
      cases dir with
      | left => exact hl.ptr_eq hl'
      | right => exact hr.ptr_eq hr'
      | isMatch => rw [hmatch, hmatch']
    · exact ihl hl hl' hx
    · exact ihr hr hr' hx

theorem setNode_self (m : BstMem) (x : ℕ) (dir : BstDir) (v : ℕ) :
    (m.setNode x dir v).node x dir = v := by
  simp only [setNode, Function.update_self]

theorem setNode_dir (m : BstMem) (x : ℕ) (v : ℕ) {dir dir' : BstDir} (h : dir' ≠ dir) :
    (m.setNode x dir v).node x dir' = m.node x dir' := by
  simp only [setNode, Function.update_self, Function.update_of_ne h]

theorem setNode_of_ne (m : BstMem) (dir : BstDir) (v : ℕ) {x y : ℕ} (h : y ≠ x) :
    (m.setNode x dir v).node y = m.node y := Function.update_of_ne h _ _

/-- A null link set to NULL. -/
theorem setNode_zero (h : m.node x dir = 0) : m.setNode x dir 0 = m := by
  rw [setNode, ← h, Function.update_eq_self, Function.update_eq_self]

theorem represents_leaf (hnew : new ≠ 0) (hzero : m.node new = fun _ => 0) :
    m.Represents new (.node new .nil .nil) := by
  refine ⟨rfl, hnew, ?_, ?_, ?_⟩ <;> rw [hzero] <;> rfl

/-- A leaf linked on the left of a node that has nothing there. -/
theorem Represents.link_left (h : m.Represents p (.node p .nil r)) (hr : ¬r.Mem p) (hnew : new ≠ 0)
    (hne : new ≠ p) (hzero : m.node new = fun _ => 0) :
    (m.setNode p .left new).Represents p (.node p (.node new .nil .nil) r) := by
  obtain ⟨-, hp, hmatch, -, hright⟩ := h
  refine ⟨rfl, hp, ?_, ?_, ?_⟩
  · rw [setNode_dir _ _ _ (by decide), hmatch]
  · rw [setNode_self]
    exact represents_leaf hnew ((setNode_of_ne _ _ _ hne).trans hzero)
  · rw [setNode_dir _ _ _ (by decide)]
    exact hright.congr fun x hx => setNode_of_ne _ _ _ fun e => hr (e ▸ hx)

theorem Represents.link_right (h : m.Represents p (.node p l .nil)) (hl : ¬l.Mem p) (hnew : new ≠ 0)
    (hne : new ≠ p) (hzero : m.node new = fun _ => 0) :
    (m.setNode p .right new).Represents p (.node p l (.node new .nil .nil)) := by
  obtain ⟨-, hp, hmatch, hleft, -⟩ := h
  refine ⟨rfl, hp, ?_, ?_, ?_⟩
  · rw [setNode_dir _ _ _ (by decide), hmatch]
  · rw [setNode_dir _ _ _ (by decide)]
    exact hleft.congr fun x hx => setNode_of_ne _ _ _ fun e => hl (e ▸ hx)
  · rw [setNode_self]
    exact represents_leaf hnew ((setNode_of_ne _ _ _ hne).trans hzero)

/-- A change of a node on the left is a change of the tree on the left. -/
theorem Represents.below_left {t : Bst ℕ} (h : m.Represents p (.node p l r)) (hp : x ≠ p)
    (hr : ¬r.Mem x) (ht : (m.setNode x dir v).Represents (m.node p .left) t) :
    (m.setNode x dir v).Represents p (.node p t r) := by
  obtain ⟨-, hzero, hmatch, -, hright⟩ := h
  refine ⟨rfl, hzero, ?_, ?_, ?_⟩ <;> rw [setNode_of_ne _ _ _ hp.symm]
  · exact hmatch
  · exact ht
  · exact hright.congr fun y hy => setNode_of_ne _ _ _ fun e => hr (e ▸ hy)

theorem Represents.below_right {t : Bst ℕ} (h : m.Represents p (.node p l r)) (hp : x ≠ p)
    (hl : ¬l.Mem x) (ht : (m.setNode x dir v).Represents (m.node p .right) t) :
    (m.setNode x dir v).Represents p (.node p l t) := by
  obtain ⟨-, hzero, hmatch, hleft, -⟩ := h
  refine ⟨rfl, hzero, ?_, ?_, ?_⟩ <;> rw [setNode_of_ne _ _ _ hp.symm]
  · exact hmatch
  · exact hleft.congr fun y hy => setNode_of_ne _ _ _ fun e => hl (e ▸ hy)
  · exact ht

/-- The descent ends at the node of the key, or at one to which a new node is linked. -/
theorem Represents.descend (comp : ℕ → BstDir) (h : m.Represents p t) (hp : p ≠ 0) (ht : t.Distinct)
    (hfuel : t.size ≤ fuel) : ∃ tmp, t.Mem tmp ∧ m.descend comp fuel p = some (tmp, comp tmp) ∧
      bstFind comp t = (if comp tmp = .isMatch then some tmp else none) ∧
      ∀ new, new ≠ 0 → ¬t.Mem new → m.node new = (fun _ => 0) →
        (m.setNode tmp (comp tmp) (if comp tmp = .isMatch then 0 else new)).Represents p
          (bstInsertAt comp new t).2 := by
  induction t generalizing p fuel with
  | nil => exact absurd h hp
  | node a l r ihl ihr =>
    obtain rfl := h.1
    have hnode := h
    obtain ⟨-, -, hmatch, hl, hr⟩ := hnode
    obtain ⟨hal, har, hlr, hdl, hdr⟩ := ht
    obtain ⟨fuel, rfl⟩ := Nat.exists_eq_succ_of_ne_zero (Nat.ne_zero_of_lt hfuel)
    rw [Bst.size] at hfuel
    rw [BstMem.descend, bstFind]
    cases hdir : comp p with
    | left =>
      by_cases hz : m.node p .left = 0
      · obtain rfl := hl.nil_iff.2 hz
        refine ⟨p, Or.inl rfl, by rw [if_neg (not_not.2 hz), hdir], by rw [hdir]; rfl, ?_⟩
        intro new hnew hfresh hzero
        rw [bstInsertAt, hdir]
        exact h.link_left har hnew (fun e => hfresh (Or.inl e)) hzero
      · obtain ⟨tmp, hmem, hrun, hfind, hput⟩ := ihl hl hz hdl (show l.size ≤ fuel by omega)
        refine ⟨tmp, Or.inr (Or.inl hmem), by rw [if_pos hz, hrun], hfind, ?_⟩
        intro new hnew hfresh hzero
        rw [bstInsertAt, hdir]
        apply h.below_left (fun e => hal (e ▸ hmem)) (hlr _ hmem)
        exact hput new hnew (fun hx => hfresh (Or.inr (Or.inl hx))) hzero
    | right =>
      by_cases hz : m.node p .right = 0
      · obtain rfl := hr.nil_iff.2 hz
        refine ⟨p, Or.inl rfl, by rw [if_neg (not_not.2 hz), hdir], by rw [hdir]; rfl, ?_⟩
        intro new hnew hfresh hzero
        rw [bstInsertAt, hdir]
        exact h.link_right hal hnew (fun e => hfresh (Or.inl e)) hzero
      · obtain ⟨tmp, hmem, hrun, hfind, hput⟩ := ihr hr hz hdr (show r.size ≤ fuel by omega)
        refine ⟨tmp, Or.inr (Or.inr hmem), by rw [if_pos hz, hrun], hfind, ?_⟩
        intro new hnew hfresh hzero
        rw [bstInsertAt, hdir]
        apply h.below_right (fun e => har (e ▸ hmem)) (fun hx => hlr _ hx hmem)
        exact hput new hnew (fun hx => hfresh (Or.inr (Or.inr hx))) hzero
    | isMatch =>
      refine ⟨p, Or.inl rfl, by rw [if_neg (not_not.2 hmatch), hdir], by rw [hdir]; rfl, ?_⟩
      intro new _ _ _
      rw [bstInsertAt, hdir, if_pos rfl, setNode_zero hmatch]
      exact h

/-- More fuel does not change where a descent ends. -/
theorem descend_mono {fuel' : ℕ} {r : ℕ × BstDir} (h : m.descend comp fuel p = some r)
    (hle : fuel ≤ fuel') : m.descend comp fuel' p = some r := by
  induction fuel generalizing p fuel' with
  | zero => cases h
  | succ fuel ih =>
    obtain ⟨fuel', rfl⟩ := Nat.exists_eq_succ_of_ne_zero (Nat.ne_zero_of_lt hle)
    rw [BstMem.descend] at h ⊢
    split_ifs at h ⊢
    · exact ih h (Nat.le_of_succ_le_succ hle)
    · exact h

end BstMem

/-! ## Runs -/

/-- The links, and the keys in the records around the nodes. -/
structure BstState (κ : Type) where
  mem : BstMem
  key : ℕ → κ

namespace BstState

/-- `bst_insert` of a node that the caller has given the key `k`. -/
def insert {κ : Type} (s : BstState κ) (ins : κ → κ → BstDir) (fuel root new : ℕ) (k : κ) :
    Option (ℕ × BstState κ) :=
  let key := Function.update s.key new k
  (s.mem.bstInsert fuel root new (some fun tmp new => ins (key tmp) (key new))).map
    fun r => (r.1, ⟨r.2, key⟩)

def search {κ : Type} (s : BstState κ) (find : κ → κ → BstDir) (fuel root : ℕ) (k : κ) : Option ℕ :=
  s.mem.bstSearch fuel root (some k) (some fun tmp k => find (s.key tmp) k)

/-- The states that insertions of fresh nodes lead to from a root. -/
inductive Reach {κ : Type} (ins : κ → κ → BstDir) (root : ℕ) : BstState κ → Prop
  | init (mem : BstMem) (key : ℕ → κ) : Reach ins root ⟨(mem.bstNodeInit root).2, key⟩
  | insert {s s' : BstState κ} {fuel new ret : ℕ} {k : κ} (h : Reach ins root s) (hnew : new ≠ 0)
      (hfresh : ¬s.mem.Linked root new) (hrun : s.insert ins fuel root new k = some (ret, s')) :
      Reach ins root s'

/-- The links from the root are those of an ordered tree. -/
structure Tree (s : BstState κ) (root : ℕ) (t : Bst ℕ) : Prop where
  ne_zero : root ≠ 0
  represents : s.mem.Represents root t
  ordered : t.Ordered s.key

variable {s s' : BstState κ} {ins find : κ → κ → BstDir} {root new x fuel fuel' : ℕ} {k : κ}
  {t : Bst ℕ}

omit [LinearOrder κ] in
theorem insert_mono {r : ℕ × BstState κ} (h : s.insert ins fuel root new k = some r)
    (hle : fuel ≤ fuel') : s.insert ins fuel' root new k = some r := by
  unfold insert BstMem.bstInsert at h ⊢
  dsimp only at h ⊢
  split_ifs at h ⊢
  · exact h
  · exact h
  · obtain ⟨r', hr', hr⟩ := Option.map_eq_some_iff.1 h
    obtain ⟨r'', hrun, hr''⟩ := Option.map_eq_some_iff.1 hr'
    rw [BstMem.descend_mono hrun hle, Option.map_some, hr'', Option.map_some, hr]

/-- A fresh node is linked where its key belongs, unless the key is there. -/
theorem Tree.insert (h : s.Tree root t) (hc : Follows ins) (hnew : new ≠ 0) (hfresh : ¬t.Mem new)
    (k : κ) : ∃ (ret : ℕ) (s' : BstState κ) (t' : Bst ℕ), s'.key = Function.update s.key new k ∧
      (∀ fuel, t.size ≤ fuel → s.insert ins fuel root new k = some (ret, s')) ∧ s'.Tree root t' ∧
      ((∀ x, t.Mem x → s.key x ≠ k) → ret = new ∧ ∀ x, t'.Mem x ↔ x = new ∨ t.Mem x) ∧
      ((∃ x, t.Mem x ∧ s.key x = k) → ret = 0 ∧ t' = t) := by
  have hne (x : ℕ) (hx : t.Mem x) : x ≠ new := by
    rintro rfl
    exact hfresh hx
  have hkey (x : ℕ) (hx : t.Mem x) : Function.update s.key new k x = s.key x :=
    Function.update_of_ne (hne x hx) _ _
  have hordered := h.ordered.congr hkey
  have hinit : s.mem.bstNodeInit new = (0, ⟨Function.update s.mem.node new fun _ => 0⟩) := if_neg hnew
  generalize hm : BstMem.mk (Function.update s.mem.node new fun _ => 0) = m at hinit
  have hrep : m.Represents root t := by
    rw [← hm]
    exact h.represents.congr fun x hx => Function.update_of_ne (hne x hx) _ _
  have hzero : m.node new = fun _ => 0 := by
    rw [← hm]
    exact Function.update_self _ _ _
  generalize hkey' : Function.update s.key new k = key' at hkey hordered
  have hnewKey : key' new = k := by rw [← hkey', Function.update_self]
  obtain ⟨tmp, -, hrun, hfind, hput⟩ :=
    hrep.descend (fun tmp => ins (key' tmp) (key' new)) h.ne_zero hordered.distinct le_rfl
  refine ⟨if ins (key' tmp) (key' new) = .isMatch then 0 else new, ⟨m.setNode tmp
    (ins (key' tmp) (key' new)) (if ins (key' tmp) (key' new) = .isMatch then 0 else new), key'⟩,
    (bstInsertAt (fun tmp => ins (key' tmp) (key' new)) new t).2, rfl, fun fuel hfuel => ?_,
    ⟨h.ne_zero, hput new hnew hfresh hzero, hordered.insertAt hc⟩, fun habsent => ?_,
    fun ⟨x, hx, hk⟩ => ?_⟩
  · simp only [BstState.insert, BstMem.bstInsert, if_neg (not_or.2 ⟨h.ne_zero, hnew⟩), hinit,
      lt_irrefl, if_false, hkey', BstMem.descend_mono hrun hfuel, Option.map_some,
      BstMem.setNode_self]
  · have hnone : bstFind (fun tmp => ins (key' tmp) (key' new)) t = none := by
      apply Bst.find_none hc
      intro x hx
      rw [hkey x hx, hnewKey]
      exact habsent x hx
    have hmatch : ins (key' tmp) (key' new) ≠ .isMatch := by
      intro he
      rw [hnone, if_pos he] at hfind
      cases hfind
    refine ⟨if_neg hmatch, fun x => ⟨mem_bstInsertAt, ?_⟩⟩
    rintro (rfl | hx)
    · exact (bstFind_eq_some (bstInsertAt_of_none hnone (hc.same _)).2).1
    · exact Bst.mem_insertAt_of_mem _ _ hx
  · have hsome := hordered.find hc hx
    rw [hkey x hx, hk, ← hnewKey] at hsome
    have hmatch : ins (key' tmp) (key' new) = .isMatch := by
      by_contra he
      rw [hsome, if_neg he] at hfind
      cases hfind
    exact ⟨if_pos hmatch, Bst.insertAt_of_find hsome⟩

theorem Tree.search (h : s.Tree root t) (hc : Follows find) (k : κ) (hfuel : t.size ≤ fuel) :
    (∀ x, t.Mem x → s.key x = k → s.search find fuel root k = some x) ∧
      ((∀ x, t.Mem x → s.key x ≠ k) → s.search find fuel root k = some 0) := by
  obtain ⟨tmp, -, hrun, hfind, -⟩ := h.represents.descend
    (fun tmp => find (s.key tmp) k) h.ne_zero h.ordered.distinct hfuel
  have hsearch : s.search find fuel root k = some (if find (s.key tmp) k = .isMatch then tmp else 0) := by
    simp only [BstState.search, BstMem.bstSearch, if_neg h.ne_zero, hrun, Option.map_some]
  rw [hsearch]
  refine ⟨fun x hx hk => ?_, fun habsent => ?_⟩
  · have hsome := h.ordered.find hc hx
    rw [hk, hfind] at hsome
    split_ifs at hsome ⊢
    exact hsome
  · rw [Bst.find_none hc habsent] at hfind
    split_ifs at hfind ⊢
    rfl

theorem Reach.tree (h : Reach ins root s) (hc : Follows ins) (hroot : root ≠ 0) :
    ∃ t, s.Tree root t := by
  induction h with
  | init mem key =>
    refine ⟨.node root .nil .nil, hroot, BstMem.represents_leaf hroot ?_, ?_⟩
    · simp only [BstMem.bstNodeInit, if_neg hroot, Function.update_self]
    · exact ⟨fun _ hx => hx.elim, fun _ hx => hx.elim, trivial, trivial⟩
  | @insert s s' fuel new ret k _ hnew hfresh hrun ih =>
    obtain ⟨t, ht⟩ := ih
    obtain ⟨ret', s'', t', -, hrun', ht', -⟩ :=
      ht.insert hc hnew (fun hx => hfresh (ht.represents.linked hx)) k
    have hsame := insert_mono hrun (Nat.le_add_right fuel t.size)
    rw [hrun' _ (Nat.le_add_left _ _)] at hsame
    obtain ⟨-, rfl⟩ := Prod.mk.inj (Option.some.inj hsame)
    exact ⟨t', ht'⟩

/-- Whatever fresh nodes are inserted at a root, the links from it form an ordered tree: a node with a
new key is added to it and returned, one with a key that is there is refused and changes nothing, and
a search returns the node with the key. -/
theorem bst_ok (ins find : κ → κ → BstDir) (hins : Follows ins) (hfind : Follows find) (root : ℕ)
    (hroot : root ≠ 0) (s : BstState κ) (h : Reach ins root s) :
    ∃ t : Bst ℕ, s.mem.Represents root t ∧ t.Ordered s.key ∧
      (∀ x, t.Mem x → s.mem.node x .isMatch = 0) ∧
      (∀ new k, new ≠ 0 → ¬s.mem.Linked root new → ∃ (ret : ℕ) (s' : BstState κ) (t' : Bst ℕ),
        (∀ fuel, t.size ≤ fuel → s.insert ins fuel root new k = some (ret, s')) ∧
        s'.mem.Represents root t' ∧ s'.key new = k ∧ (∀ x, t.Mem x → s'.key x = s.key x) ∧
        ((∀ x, t.Mem x → s.key x ≠ k) → ret = new ∧ ∀ x, t'.Mem x ↔ x = new ∨ t.Mem x) ∧
        ((∃ x, t.Mem x ∧ s.key x = k) →
          ret = 0 ∧ t' = t ∧ ∀ x, t.Mem x → s'.mem.node x = s.mem.node x)) ∧
      ∀ k fuel, t.size ≤ fuel → (∀ x, t.Mem x → s.key x = k → s.search find fuel root k = some x) ∧
        ((∀ x, t.Mem x → s.key x ≠ k) → s.search find fuel root k = some 0) := by
  obtain ⟨t, ht⟩ := h.tree hins hroot
  refine ⟨t, ht.represents, ht.ordered, fun x => ht.represents.isMatch, fun new k hnew hfresh => ?_,
    fun k fuel hfuel => ht.search hfind k hfuel⟩
  have hmem : ¬t.Mem new := fun hx => hfresh (ht.represents.linked hx)
  obtain ⟨ret, s', t', hkey, hrun, ht', habsent, hpresent⟩ := ht.insert hins hnew hmem k
  refine ⟨ret, s', t', hrun, ht'.represents, ?_, fun x hx => ?_, habsent, fun hx => ?_⟩
  · rw [hkey, Function.update_self]
  · rw [hkey, Function.update_of_ne]
    rintro rfl
    exact hmem hx
  · obtain ⟨hret, rfl⟩ := hpresent hx
    exact ⟨hret, rfl, fun x => ht.represents.node_eq ht'.represents⟩

/-- The node 1, with the key 10. -/
def oneNode : BstState ℕ := ⟨((⟨fun _ _ => 0⟩ : BstMem).bstNodeInit 1).2, fun _ => 10⟩

theorem oneNode_tree : oneNode.Tree 1 (.node 1 .nil .nil) :=
  ⟨one_ne_zero, ⟨rfl, one_ne_zero, rfl, rfl, rfl⟩,
    fun _ hx => hx.elim, fun _ hx => hx.elim, trivial, trivial⟩

/-- The node 2 is inserted with the key 5 and the node 3 with the key 7.  Then the key 5 is refused, 7
is found behind 10 and 5, and 6 is not found. -/
theorem bst_ok_three : ∃ fuel s₂ s₃ s₄, oneNode.insert dirOf fuel 1 2 5 = some (2, s₂) ∧
    s₂.insert dirOf fuel 1 3 7 = some (3, s₃) ∧ s₃.insert dirOf fuel 1 4 5 = some (0, s₄) ∧
    s₃.search dirOf fuel 1 7 = some 3 ∧ s₃.search dirOf fuel 1 6 = some 0 := by
  -- the node 2
  obtain ⟨ret₂, s₂, t₂, hkey₂, hrun₂, h₂, hnew₂, -⟩ :=
    oneNode_tree.insert follows_dirOf two_ne_zero (by simp [Bst.Mem]) 5
  obtain ⟨rfl, hmem₂⟩ := hnew₂ fun x _ => by simp [oneNode]
  have hmem₂' (x : ℕ) : t₂.Mem x ↔ x = 2 ∨ x = 1 := by simp [hmem₂, Bst.Mem]
  have hkeys₂ (x : ℕ) : s₂.key x = if x = 2 then 5 else 10 := by
    rw [hkey₂, Function.update_apply, oneNode]
  -- the node 3
  obtain ⟨ret₃, s₃, t₃, hkey₃, hrun₃, h₃, hnew₃, -⟩ :=
    h₂.insert follows_dirOf three_ne_zero (by simp [hmem₂']) 7
  obtain ⟨rfl, hmem₃⟩ := hnew₃ fun x _ => by
    rw [hkeys₂]
    split_ifs <;> decide
  have hmem₃' (x : ℕ) : t₃.Mem x ↔ x = 3 ∨ x = 2 ∨ x = 1 := by rw [hmem₃, hmem₂']
  have hkeys₃ (x : ℕ) : s₃.key x = if x = 3 then 7 else if x = 2 then 5 else 10 := by
    rw [hkey₃, Function.update_apply, hkeys₂]
  -- the state is one that insertions lead to
  have hreach₂ : Reach dirOf 1 s₂ := by
    refine (Reach.init _ _).insert two_ne_zero (fun hx => ?_) (hrun₂ _ le_rfl)
    exact absurd (oneNode_tree.represents.mem_of_linked one_ne_zero hx) (by simp [Bst.Mem])
  have hreach₃ : Reach dirOf 1 s₃ := by
    refine hreach₂.insert three_ne_zero (fun hx => ?_) (hrun₃ _ le_rfl)
    exact absurd (h₂.represents.mem_of_linked one_ne_zero hx) (by simp [hmem₂'])
  obtain ⟨t, ht, -, -, hinsert, hsearch⟩ := bst_ok dirOf dirOf follows_dirOf follows_dirOf 1
    one_ne_zero s₃ hreach₃
  have hmem (x : ℕ) : t.Mem x ↔ x = 3 ∨ x = 2 ∨ x = 1 := by
    rw [← hmem₃']
    exact ⟨fun hx => h₃.represents.mem_of_linked one_ne_zero (ht.linked hx),
      fun hx => ht.mem_of_linked one_ne_zero (h₃.represents.linked hx)⟩
  have hfresh : ¬s₃.mem.Linked 1 4 := fun hx =>
    absurd (ht.mem_of_linked one_ne_zero hx) (by simp [hmem])
  obtain ⟨ret, s₄, _, hrun, -, -, -, -, hpresent⟩ := hinsert 4 5 four_ne_zero hfresh
  obtain ⟨rfl, -⟩ := hpresent ⟨2, by simp [hmem], by simp [hkeys₃]⟩
  have hfuel : t.size ≤ Bst.size (.node 1 .nil .nil) + t₂.size + t.size := Nat.le_add_left _ _
  refine ⟨Bst.size (.node 1 .nil .nil) + t₂.size + t.size, s₂, s₃, s₄, hrun₂ _ (by omega),
    hrun₃ _ (by omega), hrun _ hfuel, ?_, ?_⟩
  · exact (hsearch 7 _ hfuel).1 3 (by simp [hmem]) (by simp [hkeys₃])
  · refine (hsearch 6 _ hfuel).2 fun x _ => ?_
    rw [hkeys₃]
    split_ifs <;> decide

end BstState

end YohdaOS

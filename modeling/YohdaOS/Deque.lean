import YohdaOS.Lib.Runs
import YohdaOS.Rings

/-!
# Rings as plain lists

A ring stands for the list of its nodes.  What the functions of the 32-bit kernel do to the links is
what `DequeOp.apply` does to the list.  The `list_get` of list.c takes the links of the third node
for those of the second.
-/

namespace YohdaOS

open Chains Runs

/-- A call on one list. -/
inductive DequeOp where
  | add (new : ℕ)
  | addHead (new : ℕ)
  | del (node : ℕ)
  | get
deriving DecidableEq

/-- The call on a head, with the functions of one kernel. -/
def ListOps.step (ops : ListOps) (head : ℕ) (l : Links) : DequeOp → ℕ × Links
  | .add new => ops.add l head new
  | .addHead new => listAddHead l head new
  | .del node => ops.del l head node
  | .get => ops.get l head

namespace DequeOp

/-- The call on the list of the nodes: what it returns, 0 being NULL, and what it leaves. -/
def apply (xs : List ℕ) : DequeOp → ℕ × List ℕ
  | add n => (n, xs ++ [n])
  | addHead n => (n, n :: xs)
  | del n => (n, xs.erase n)
  | get => (xs.headD 0, xs.tail)

/-- New nodes come from outside the list, nodes that leave are in it. -/
def Valid (head : ℕ) (xs : List ℕ) : DequeOp → Prop
  | add n => n ≠ 0 ∧ n ∉ head :: xs
  | addHead n => n ≠ 0 ∧ n ∉ head :: xs
  | del n => n ∈ xs
  | get => True

instance (head : ℕ) (xs : List ℕ) : DecidablePred (Valid head xs)
  | add n => inferInstanceAs (Decidable (n ≠ 0 ∧ n ∉ head :: xs))
  | addHead n => inferInstanceAs (Decidable (n ≠ 0 ∧ n ∉ head :: xs))
  | del n => inferInstanceAs (Decidable (n ∈ xs))
  | get => inferInstanceAs (Decidable True)

end DequeOp

/-- The links of the head and of the nodes form the ring of the list. -/
structure RingOf (l : Links) (head : ℕ) (xs : List ℕ) : Prop where
  ring : Ring l.next l.prev head xs
  zero : 0 ∉ head :: xs

variable {l : Links} {h n x y : ℕ} {xs : List ℕ} {op : DequeOp}

namespace RingOf

theorem head_ne (hr : RingOf l h xs) : h ≠ 0 := fun h0 => hr.zero (by simp [h0])

theorem zero_concat (hr : RingOf l h xs) (hn : n ≠ 0) : 0 ∉ h :: (xs ++ [n]) := by
  rw [← List.cons_append, List.mem_append, List.mem_singleton, not_or]
  exact ⟨hr.zero, Ne.symm hn⟩

/-! ## The 32-bit kernel -/

theorem listAdd (hr : RingOf l h xs) (h0 : n ≠ 0) (hn : n ∉ h :: xs) :
    (P32.listAdd l h n).1 = n ∧ RingOf (P32.listAdd l h n).2 h (xs ++ [n]) := by
  have hne : n ≠ h := List.ne_of_not_mem_cons hn
  rw [P32.listAdd_eq hr.ring hr.zero]
  refine ⟨?_, ?_, hr.zero_concat h0⟩
  · simp [YohdaOS.listAdd, hr.head_ne, h0]
  · rw [listAdd_links hr.head_ne h0 hne]
    exact hr.ring.add hn

theorem listAddHead (hr : RingOf l h xs) (h0 : n ≠ 0) (hn : n ∉ h :: xs) :
    (listAddHead l h n).1 = n ∧ RingOf (listAddHead l h n).2 h (n :: xs) := by
  have hne : n ≠ h := List.ne_of_not_mem_cons hn
  have hlinks : YohdaOS.listAddHead l h n =
      (n, ⟨Function.update (Function.update l.next n (l.next h)) h n,
        Function.update (Function.update l.prev n h) (l.next h) n⟩) := by
    simp [YohdaOS.listAddHead, hr.head_ne, h0, Links.setNext, Links.setPrev,
      Function.update_of_ne (Ne.symm hne)]
  rw [hlinks]
  refine ⟨rfl, hr.ring.addHead hn, ?_⟩
  rw [List.mem_cons, List.mem_cons, not_or, not_or]
  exact ⟨Ne.symm hr.head_ne, Ne.symm h0, fun hz => hr.zero (List.mem_cons_of_mem h hz)⟩

theorem listDel (hr : RingOf l h xs) (hx : x ∈ xs) :
    (listDel l h x).1 = x ∧ RingOf (listDel l h x).2 h (xs.erase x) := by
  have h0 : x ≠ 0 := by
    rintro rfl
    exact hr.zero (List.mem_cons_of_mem h hx)
  obtain ⟨A, C, rfl⟩ := List.append_of_mem hx
  have hA : x ∉ A := by
    have hd := (List.nodup_cons.1 hr.ring.nodup).2
    rw [List.nodup_append] at hd
    exact fun hxA => hd.2.2 x hxA x List.mem_cons_self rfl
  rw [listDel_eq hr.ring hr.head_ne h0, List.erase_append_right _ hA, List.erase_cons_head]
  refine ⟨rfl, hr.ring.del, fun hz => hr.zero ?_⟩
  exact (((List.sublist_cons_self x C).append_left A).cons_cons h).subset hz

theorem listGet (hr : RingOf l h (x :: xs)) :
    (P32.listGet l h).1 = x ∧ RingOf (P32.listGet l h).2 h xs := by
  rw [P32.listGet_eq hr.ring hr.head_ne]
  refine ⟨rfl, hr.ring.del (A := []), fun hz => hr.zero ?_⟩
  exact ((List.sublist_cons_self x xs).cons_cons h).subset hz

/-- One call. -/
theorem step (hr : RingOf l h xs) (hop : op.Valid h xs) :
    (P32.listOps.step h l op).1 = (op.apply xs).1 ∧
      RingOf (P32.listOps.step h l op).2 h (op.apply xs).2 := by
  cases op with
  | add n => exact hr.listAdd hop.1 hop.2
  | addHead n => exact hr.listAddHead hop.1 hop.2
  | del n => exact hr.listDel hop
  | get =>
    cases xs with
    | nil =>
      have hnil : P32.listOps.step h l .get = (0, l) := P32.listGet_nil hr.ring
      rw [hnil]
      exact ⟨rfl, hr⟩
    | cons x xs => exact hr.listGet

end RingOf

/-- Each function of the 32-bit kernel does to a ring what it is to do to the list of its nodes, and
leaves an empty ring alone when a node is taken from it; so does any sequence of calls. -/
theorem deque_ok (l : Links) (h : ℕ) (xs : List ℕ) (hr : RingOf l h xs) :
    (∀ op : DequeOp, op.Valid h xs → (P32.listOps.step h l op).1 = (op.apply xs).1 ∧
      RingOf (P32.listOps.step h l op).2 h (op.apply xs).2) ∧
    (xs = [] → P32.listOps.step h l .get = (0, l)) ∧
    ∀ ops : List DequeOp, Admitted (DequeOp.Valid h) DequeOp.apply xs ops →
      (runOps (P32.listOps.step h) l ops).1 = (runOps DequeOp.apply xs ops).1 ∧
        RingOf (runOps (P32.listOps.step h) l ops).2 h (runOps DequeOp.apply xs ops).2 := by
  refine ⟨fun op => hr.step, ?_, fun ops hops => ?_⟩
  · rintro rfl
    exact P32.listGet_nil hr.ring
  · exact runOps_sim (R := fun l xs => RingOf l h xs) (fun _ _ _ hrel hok => hrel.step hok) hr hops

theorem ringOf_init (l : Links) (hh : h ≠ 0) : RingOf (listInitHead l h) h [] := by
  refine ⟨Ring.empty ?_ ?_, by simpa using hh.symm⟩ <;> simp [listInitHead]

/-- Three nodes queued, one of them at the front, one deleted and one taken. -/
theorem deque_ok_three :
    (runOps (P32.listOps.step 1) (listInitHead ⟨fun _ => 0, fun _ => 0⟩ 1)
      [.add 2, .add 3, .addHead 4, .del 2, .get]).1 = [2, 3, 4, 2, 4] ∧
    RingOf (runOps (P32.listOps.step 1) (listInitHead ⟨fun _ => 0, fun _ => 0⟩ 1)
      [.add 2, .add 3, .addHead 4, .del 2, .get]).2 1 [3] :=
  (deque_ok _ 1 [] (ringOf_init _ (by decide))).2.2 [.add 2, .add 3, .addHead 4, .del 2, .get]
    ⟨by decide, by decide, by decide, by decide, by decide, trivial⟩

/-! ## list.c -/

/-- The two kernels' calls return the same node and leave the same links in the nodes that are on the
ring afterwards. -/
def Agree (l : Links) (h : ℕ) (xs : List ℕ) (op : DequeOp) : Prop :=
  (listOps.step h l op).1 = (P32.listOps.step h l op).1 ∧
    ∀ y ∈ h :: (op.apply xs).2,
      (listOps.step h l op).2.next y = (P32.listOps.step h l op).2.next y ∧
        (listOps.step h l op).2.prev y = (P32.listOps.step h l op).2.prev y

theorem Agree.of_eq (he : listOps.step h l op = P32.listOps.step h l op) : Agree l h xs op := by
  rw [Agree, he]
  exact ⟨rfl, fun _ _ => ⟨rfl, rfl⟩⟩

/-- list.c sets `prev` of the node behind the new first one. -/
theorem listGet_eq (hr : RingOf l h (x :: xs)) : listGet l h =
    (x, ⟨Function.update l.next h (l.next x),
      Function.update l.prev (Function.update l.next h (l.next x) (l.next x)) h⟩) := by
  have hnext : l.next h = x := hr.ring.next_head
  have hne : x ≠ h := by
    rintro rfl
    exact hr.ring.head_not_mem List.mem_cons_self
  simp [listGet, hr.head_ne, hne, hnext, Links.setNext, Links.setPrev]

theorem listGet_one (hr : RingOf l h [x]) : listGet l h = P32.listGet l h := by
  have hnext : l.next x = h := hr.ring.next_eq (A := []) (B := [])
  have hprev : l.prev x = h := hr.ring.prev_eq (A := []) (B := [])
  rw [listGet_eq hr, P32.listGet_eq hr.ring hr.head_ne, hnext, hprev, Function.update_self]

/-- The new first node keeps its `prev`. -/
theorem listGet_prev (hr : RingOf l h (x :: y :: xs)) : (listGet l h).2.prev y = x := by
  have hnext : l.next x = y := hr.ring.next_eq (A := [])
  have hprev : l.prev y = x := hr.ring.prev_eq (A := [x])
  have hyh : y ≠ h := by
    rintro rfl
    exact hr.ring.head_not_mem (by simp)
  have hne : l.next y ≠ y := hr.ring.next_ne (A := [x])
  rw [listGet_eq hr, hnext]
  dsimp only
  rw [Function.update_of_ne hyh, Function.update_of_ne (Ne.symm hne), hprev]

theorem P32.listGet_prev (hr : RingOf l h (x :: y :: xs)) : (P32.listGet l h).2.prev y = h := by
  have hnext : l.next x = y := hr.ring.next_eq (A := [])
  have hprev : l.prev x = h := hr.ring.prev_eq (A := [])
  rw [P32.listGet_eq hr.ring hr.head_ne, hnext, hprev]
  exact Function.update_self _ _ _

theorem not_agree_get (hr : RingOf l h (x :: y :: xs)) : ¬Agree l h (x :: y :: xs) .get := by
  rintro ⟨-, hlinks⟩
  have hxy := (hlinks y (by simp [DequeOp.apply])).2
  have hx : (listOps.step h l .get).2.prev y = x := YohdaOS.listGet_prev hr
  have hh : (P32.listOps.step h l .get).2.prev y = h := P32.listGet_prev hr
  rw [hx, hh] at hxy
  exact hr.ring.head_not_mem (by simp [hxy])

/-- The two kernels' functions agree on every ring except that the `list_get` of list.c breaks the
links of a ring of two nodes or more. -/
theorem copies_agree_iff (l : Links) (h : ℕ) (xs : List ℕ) (hr : RingOf l h xs) (op : DequeOp)
    (hop : op.Valid h xs) : Agree l h xs op ↔ (op = .get → xs.length ≤ 1) := by
  cases op with
  | add n =>
    have he : listOps.step h l (.add n) = P32.listOps.step h l (.add n) :=
      (P32.listAdd_eq hr.ring hr.zero).symm
    exact iff_of_true (.of_eq he) (by simp)
  | addHead n => exact iff_of_true (.of_eq rfl) (by simp)
  | del n => exact iff_of_true (.of_eq rfl) (by simp)
  | get =>
    match xs, hr with
    | [], hr =>
      have he : listOps.step h l .get = P32.listOps.step h l .get := by
        refine Eq.trans ?_ (P32.listGet_nil hr.ring).symm
        simp [ListOps.step, listOps, listGet, hr.ring.next_head, hr.ring.prev_head]
      exact iff_of_true (.of_eq he) (by simp)
    | [x], hr => exact iff_of_true (.of_eq (listGet_one hr)) (by simp)
    | x :: y :: xs, hr => exact iff_of_false (not_agree_get hr) (by simp)

/-- The ring of the nodes 2 and 3. -/
def twoNodes : Links := ⟨fun n => if n = 1 then 2 else if n = 2 then 3 else 1,
  fun n => if n = 1 then 3 else if n = 2 then 1 else 2⟩

theorem ringOf_twoNodes : RingOf twoNodes 1 [2, 3] :=
  ⟨⟨⟨rfl, rfl, rfl⟩, ⟨rfl, rfl, rfl⟩, by decide⟩, by decide⟩

/-- A third node is queued on it the same way by both. -/
theorem copies_agree_iff_add : Agree twoNodes 1 [2, 3] (.add 4) :=
  (copies_agree_iff twoNodes 1 [2, 3] ringOf_twoNodes (.add 4) (by decide)).2 (by decide)

/-- Its first node is taken: list.c leaves the second one with a link back to it. -/
theorem copies_agree_fails : ¬∀ (l : Links) (h : ℕ) (xs : List ℕ), RingOf l h xs →
    ∀ op : DequeOp, op.Valid h xs → Agree l h xs op := by
  intro hall
  exact not_agree_get ringOf_twoNodes (hall _ _ _ ringOf_twoNodes .get trivial)

end YohdaOS

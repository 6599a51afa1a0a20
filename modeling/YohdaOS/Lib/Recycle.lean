import Mathlib.Tactic

/-!
# Handing out numbered slots

`cap` slots are handed out in order; a slot that comes back is handed out again before a new one.
The state carries that the slots below the frontier are exactly those freed and those in use.
-/

namespace Recycle

/-- The slots in use, those that came back, and the first slot never handed out. -/
structure Slots (cap : ℕ) where
  frontier : ℕ
  freed : List ℕ
  used : List ℕ
  frontier_le : frontier ≤ cap
  perm : (freed ++ used).Perm (List.range frontier)

namespace Slots

variable {cap : ℕ} (s : Slots cap)

def empty (cap : ℕ) : Slots cap := ⟨0, [], [], Nat.zero_le cap, List.Perm.refl _⟩

/-- The slot that is handed out next. -/
def next : ℕ := s.freed.headD s.frontier

theorem length_eq : s.freed.length + s.used.length = s.frontier := by
  simpa using s.perm.length_eq

theorem nodup : (s.freed ++ s.used).Nodup := s.perm.nodup_iff.2 List.nodup_range

theorem used_lt {k : ℕ} (hk : k ∈ s.used) : k < s.frontier :=
  List.mem_range.1 (s.perm.mem_iff.1 (List.mem_append_right _ hk))

theorem freed_lt {k : ℕ} (hk : k ∈ s.freed) : k < s.frontier :=
  List.mem_range.1 (s.perm.mem_iff.1 (List.mem_append_left _ hk))

theorem next_eq_of_nil (h : s.freed = []) : s.next = s.frontier := by
  rw [next, h]
  rfl

theorem next_le : s.next ≤ s.frontier := by
  unfold next
  cases hf : s.freed with
  | nil => exact le_refl _
  | cons x l => exact le_of_lt (s.freed_lt (by rw [hf]; exact List.mem_cons_self))

/-- Below capacity the next slot exists. -/
theorem next_lt (h : s.used.length < cap) : s.next < cap := by
  have hlen := s.length_eq
  have hle := s.frontier_le
  unfold next
  cases hf : s.freed with
  | nil =>
    rw [hf, List.length_nil] at hlen
    rw [List.headD_nil]
    omega
  | cons x l => exact lt_of_lt_of_le (s.freed_lt (by rw [hf]; exact List.mem_cons_self)) hle

theorem next_not_mem : s.next ∉ s.used := by
  have hnd := List.disjoint_of_nodup_append s.nodup
  unfold next
  cases hf : s.freed with
  | nil => exact fun h => Nat.lt_irrefl _ (s.used_lt h)
  | cons x l => exact fun h => hnd (by rw [hf]; exact List.mem_cons_self) h

/-- Hand out the next slot. -/
def take (h : s.used.length < cap) : Slots cap where
  frontier := if s.freed = [] then s.frontier + 1 else s.frontier
  freed := s.freed.tail
  used := s.next :: s.used
  frontier_le := by
    split_ifs with hf
    · have := s.next_lt h
      rw [s.next_eq_of_nil hf] at this
      omega
    · exact s.frontier_le
  perm := by
    have hperm := s.perm
    unfold next
    cases hf : s.freed with
    | nil =>
      rw [hf, List.nil_append] at hperm
      simp only [if_true, List.tail_nil, List.nil_append, List.headD_nil, List.range_succ]
      exact (List.perm_append_singleton _ _).symm.trans
        (List.Perm.append_right _ hperm) |>.trans (List.Perm.refl _)
    | cons x l =>
      rw [hf, List.cons_append] at hperm
      simp only [reduceCtorEq, if_false, List.tail_cons, List.headD_cons]
      exact List.perm_middle.trans hperm

/-- Take back a slot in use. -/
def put {k : ℕ} (hk : k ∈ s.used) : Slots cap where
  frontier := s.frontier
  freed := k :: s.freed
  used := s.used.erase k
  frontier_le := s.frontier_le
  perm := (List.perm_middle.symm.trans
    (List.Perm.append_left _ (List.perm_cons_erase hk).symm)).trans s.perm

end Slots

end Recycle

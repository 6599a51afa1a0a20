import Mathlib.Tactic

/-!
# lock.c

`lock_irq_save` reads EFLAGS into a local variable and disables interrupts, `lock_irq_restore`
enables them.
-/

namespace YohdaOS.Irq

/-- The bit IF of EFLAGS. -/
def EFLAGS_IF : BitVec 32 := 0x200

def cli (eflags : BitVec 32) : BitVec 32 := eflags &&& ~~~EFLAGS_IF

def sti (eflags : BitVec 32) : BitVec 32 := eflags ||| EFLAGS_IF

/-- `lock_irq_save`: the flags that it pops are lost with its frame. -/
def lockIrqSave (eflags : BitVec 32) : BitVec 32 :=
  let _eflags := eflags
  cli eflags

/-- `lock_irq_restore` -/
def lockIrqRestore (eflags : BitVec 32) : BitVec 32 := sti eflags

inductive LockOp where
  | save
  | restore
deriving DecidableEq, Repr

namespace LockOp

def step (eflags : BitVec 32) : LockOp → BitVec 32
  | save => lockIrqSave eflags
  | restore => lockIrqRestore eflags

def run (eflags : BitVec 32) (ops : List LockOp) : BitVec 32 := ops.foldl step eflags

/-- The number of critical sections that are open behind the calls. -/
def depth : List LockOp → ℤ
  | [] => 0
  | save :: ops => 1 + depth ops
  | restore :: ops => -1 + depth ops

/-- Each restore ends a section that is open, and none stays open. -/
structure Nested (ops : List LockOp) : Prop where
  closed : depth ops = 0
  opened : ∀ pre, pre <+: ops → 0 ≤ depth pre

/-- Interrupts are enabled. -/
def Enabled (eflags : BitVec 32) : Bool := eflags.getLsbD 9

/-- Interrupts are disabled inside each outermost section, and behind it as they were before it. -/
structure Protects (eflags : BitVec 32) (ops : List LockOp) : Prop where
  disabled : ∀ pre, pre <+: ops → 0 < depth pre → Enabled (run eflags pre) = false
  restored : ∀ pre inner, pre ++ save :: (inner ++ [restore]) <+: ops → depth pre = 0 →
    Nested inner → Enabled (run eflags (pre ++ save :: (inner ++ [restore]))) =
      Enabled (run eflags pre)

variable {eflags : BitVec 32} {ops pre : List LockOp}

@[simp] theorem depth_append (pre post : List LockOp) :
    depth (pre ++ post) = depth pre + depth post := by
  induction pre with
  | nil => simp [depth]
  | cons op pre ih => cases op <;> simp only [List.cons_append, depth, ih] <;> ring

theorem enabled_run_save (eflags : BitVec 32) (ops : List LockOp) :
    Enabled (run eflags (ops ++ [save])) = false := by
  simp [run, step, lockIrqSave, cli, Enabled, EFLAGS_IF]

theorem enabled_run_restore (eflags : BitVec 32) (ops : List LockOp) :
    Enabled (run eflags (ops ++ [restore])) = true := by
  simp [run, step, lockIrqRestore, sti, Enabled, EFLAGS_IF]

/-- Where two sections are open, one of them is closed while another stays open. -/
theorem exists_inner_restore (pre post : List LockOp) (h : 2 ≤ depth pre)
    (hclosed : depth (pre ++ post) = 0) :
    ∃ inner, inner ++ [restore] <+: pre ++ post ∧ 2 ≤ depth inner := by
  induction post generalizing pre with
  | nil =>
    rw [List.append_nil] at hclosed
    omega
  | cons op post ih =>
    cases op with
    | save =>
      have hpre := ih (pre ++ [save]) (by simp [depth]; omega) (by simpa using hclosed)
      simpa using hpre
    | restore => exact ⟨pre, ⟨post, by simp⟩, h⟩

theorem Protects.depth_le (h : Protects eflags ops) (hops : Nested ops) (hpre : pre <+: ops) :
    depth pre ≤ 1 := by
  by_contra hdeep
  obtain ⟨post, rfl⟩ := hpre
  obtain ⟨inner, hinner, hdepth⟩ := exists_inner_restore pre post (by omega) hops.closed
  have hdisabled := h.disabled _ hinner (by simp [depth]; omega)
  rw [enabled_run_restore] at hdisabled
  cases hdisabled

/-- A section in which no other is opened is closed by the next call. -/
theorem Nested.head (hops : Nested ops) (hne : ops ≠ []) (hflat : ∀ pre, pre <+: ops → depth pre ≤ 1) :
    [save, restore] <+: ops := by
  match ops with
  | [] => exact absurd rfl hne
  | restore :: ops =>
    have hopened := hops.opened [restore] ⟨ops, rfl⟩
    exact absurd hopened (by decide)
  | [save] =>
    have hclosed := hops.closed
    exact absurd hclosed (by decide)
  | save :: save :: ops =>
    have hdepth := hflat [save, save] ⟨ops, rfl⟩
    exact absurd hdepth (by decide)
  | save :: restore :: ops => exact ⟨ops, rfl⟩

theorem Protects.enabled (h : Protects eflags ops) (hops : Nested ops) (hne : ops ≠ []) :
    Enabled eflags = true := by
  have hhead := hops.head hne fun pre hpre => h.depth_le hops hpre
  have hrestored := h.restored [] [] hhead rfl ⟨rfl, fun pre hpre => ?_⟩
  · exact hrestored.symm.trans (enabled_run_restore eflags [save])
  · rw [List.prefix_nil.1 hpre, depth]

/-- Outside the sections interrupts are enabled when they were at first. -/
theorem Nested.enabled_run (hops : Nested ops) (henabled : Enabled eflags = true)
    (hpre : pre <+: ops) (hdepth : depth pre = 0) : Enabled (run eflags pre) = true := by
  obtain rfl | ⟨pre, op, rfl⟩ := List.eq_nil_or_concat' pre
  · exact henabled
  · cases op with
    | save =>
      have hopened := hops.opened pre ((List.prefix_append pre [save]).trans hpre)
      simp [depth] at hdepth
      omega
    | restore => exact enabled_run_restore eflags pre

theorem Nested.protects (hops : Nested ops) (henabled : Enabled eflags = true)
    (hflat : ∀ pre, pre <+: ops → depth pre ≤ 1) : Protects eflags ops := by
  constructor
  · intro pre hpre hdepth
    obtain rfl | ⟨pre, op, rfl⟩ := List.eq_nil_or_concat' pre
    · exact absurd hdepth (by decide)
    · cases op with
      | save => exact enabled_run_save eflags pre
      | restore =>
        have hle := hflat pre ((List.prefix_append pre [restore]).trans hpre)
        simp [depth] at hdepth
        omega
  · intro pre inner hpre hdepth _
    rw [hops.enabled_run henabled ((List.prefix_append pre _).trans hpre) hdepth]
    have hlast := enabled_run_restore eflags (pre ++ save :: inner)
    rwa [List.append_assoc, List.cons_append] at hlast

theorem protects_nil (eflags : BitVec 32) : Protects eflags [] := by
  constructor
  · intro pre hpre hdepth
    rw [List.prefix_nil.1 hpre] at hdepth
    exact absurd hdepth (by decide)
  · intro pre inner hpre
    simp at hpre

/-- The calls protect their sections exactly when none is inside another and interrupts are enabled
at first. -/
theorem lock_irq_iff (hops : Nested ops) : Protects eflags ops ↔
    ops = [] ∨ Enabled eflags = true ∧ ∀ pre, pre <+: ops → depth pre ≤ 1 := by
  constructor
  · intro h
    by_cases hne : ops = []
    · exact Or.inl hne
    · exact Or.inr ⟨h.enabled hops hne, fun pre hpre => h.depth_le hops hpre⟩
  · rintro (rfl | ⟨henabled, hflat⟩)
    · exact protects_nil eflags
    · exact hops.protects henabled hflat

/-- The sections of a program that has one after another. -/
theorem lock_irq_iff_two : Protects 0x202 [save, restore, save, restore] ↔
    [save, restore, save, restore] = [] ∨
      Enabled 0x202 = true ∧ ∀ pre, pre <+: [save, restore, save, restore] → depth pre ≤ 1 := by
  refine lock_irq_iff ⟨by decide, fun pre hpre => ?_⟩
  rw [← List.mem_inits] at hpre
  revert pre
  decide

/-- The restore of the inner section enables interrupts in the outer one. -/
theorem lock_irq_fails : ¬∀ (eflags : BitVec 32) (ops : List LockOp), Nested ops →
    Protects eflags ops := by
  intro hall
  have h := hall 0x202 [save, save, restore, restore] ⟨by decide, fun pre hpre => ?_⟩
  · exact absurd (h.disabled [save, save, restore] (by decide) (by decide)) (by decide)
  · rw [← List.mem_inits] at hpre
    revert pre
    decide

end LockOp

end YohdaOS.Irq

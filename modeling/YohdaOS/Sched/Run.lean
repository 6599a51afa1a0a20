import YohdaOS.Lib.Fifo
import YohdaOS.Lib.Runs
import YohdaOS.Sched.Spec

/-!
# Runs of the scheduler

A step is one call of an entry point, or one round of the loop of `_sched`, and is labelled with the
process it is about.  The timer interrupt and the calls that interrupt handlers may make can come at
any time; the other calls are made by the code that has the CPU.
-/

namespace YohdaOS.P32

open Chains Runs

inductive Event where
  | create (proc : ℕ)
  | start
  | dispatch (proc : ℕ)
  | spin
  | yield (proc : ℕ)
  | exit (proc : ℕ)
  | sleep (proc : ℕ)
  | timer
  | addReady (proc : ℕ)
  | delReady (proc : ℕ)
  | procExit (proc : ℕ)
deriving DecidableEq, Repr

inductive Step (s : Kernel) : Event → Kernel → Prop
  | create (entryPoint : ℕ) (hc : s.control = .boot ∨ s.control = .user) :
      Step s (.create (procCreate s entryPoint).1) (procCreate s entryPoint).2
  | start (hc : s.control = .boot) : Step s .start (sched s)
  | dispatch (hc : s.control = .loop) (hu : (schedRound s).control = .user) :
      Step s (.dispatch (schedRound s).scheduler.proc) (schedRound s)
  | spin (hc : s.control = .loop) (hu : (schedRound s).control ≠ .user) :
      Step s .spin (schedRound s)
  | yield (hc : s.control = .user) : Step s (.yield s.scheduler.proc) (schedYield s)
  | exit (hc : s.control = .user) : Step s (.exit s.scheduler.proc) (schedExit s)
  | sleep (hc : s.control = .user) : Step s (.sleep s.scheduler.proc) (schedSleep s)
  | timer : Step s .timer (schedTimer s)
  | addReady {i : ℕ} (hi : i < PROC_MAX) :
      Step s (.addReady (s.procAt i)) (schedAddReady s (s.procAt i))
  | delReady {i : ℕ} (hi : i < PROC_MAX) :
      Step s (.delReady (s.procAt i)) (schedDelReady s (s.procAt i))
  | procExit {i : ℕ} (hi : i < PROC_MAX) : Step s (.procExit (s.procAt i)) (procExit s (s.procAt i))

section

variable {s : Kernel} {p : ℕ}

theorem Step.create_of (entryPoint : ℕ) (hc : s.control = .boot ∨ s.control = .user)
    (hp : (procCreate s entryPoint).1 = p) : Step s (.create p) (procCreate s entryPoint).2 :=
  hp ▸ .create entryPoint hc

theorem Step.dispatch_of (hc : s.control = .loop) (hu : (schedRound s).control = .user)
    (hp : (schedRound s).scheduler.proc = p) : Step s (.dispatch p) (schedRound s) :=
  hp ▸ .dispatch hc hu

theorem Step.yield_of (hc : s.control = .user) (hp : s.scheduler.proc = p) :
    Step s (.yield p) (schedYield s) := hp ▸ .yield hc

theorem Step.exit_of (hc : s.control = .user) (hp : s.scheduler.proc = p) :
    Step s (.exit p) (schedExit s) := hp ▸ .exit hc

theorem Step.sleep_of (hc : s.control = .user) (hp : s.scheduler.proc = p) :
    Step s (.sleep p) (schedSleep s) := hp ▸ .sleep hc

end

/-- The kernel when `proc_init` and `sched_init` have run, on whatever was in memory before. -/
def bootKernel (g : Places) (raw : Kernel) (stack : ℕ) : Kernel :=
  let raw := { raw with procMgr := { raw.procMgr with procTable := g.table }, control := .boot }
  schedInit (procInit raw stack) g.ready g.block

/-- The processes on the ready list, in order; the list is linked both ways. -/
def ReadyRing (s : Kernel) (R : List ℕ) : Prop :=
  Ring s.links.next s.links.prev s.scheduler.readyList (R.map nodeOf)

def BlockRing (s : Kernel) (B : List ℕ) : Prop :=
  Ring s.links.next s.links.prev s.scheduler.blockList (B.map nodeOf)

/-- The links lead to the process from the head of the ready list. -/
def OnReady (s : Kernel) (p : ℕ) : Prop := Reach s.links.next s.scheduler.readyList (nodeOf p)

def OnBlock (s : Kernel) (p : ℕ) : Prop := Reach s.links.next s.scheduler.blockList (nodeOf p)

/-- The process is linked into one of the lists. -/
def Linked (s : Kernel) (p : ℕ) : Prop := OnReady s p ∨ OnBlock s p

variable {g : Places} {s s' : Kernel} {R B : List ℕ} {p : ℕ} {e : Event} {tr : List Event}

theorem SchedInv.readyRing (h : SchedInv g s R B) : ReadyRing s R := by
  rw [ReadyRing, h.places.ready]
  exact h.rings.left

theorem SchedInv.blockRing (h : SchedInv g s R B) : BlockRing s B := by
  rw [BlockRing, h.places.block]
  exact h.rings.right

theorem ReadyRing.unique {R' : List ℕ} (h : ReadyRing s R) (h' : ReadyRing s R') : R = R' :=
  (List.map_injective_iff.2 nodeOf_injective)
    (h.fwd.unique h'.fwd h.head_not_mem h'.head_not_mem)

theorem At.procAt_mem (h : At g s) {i : ℕ} (hi : i < PROC_MAX) : s.procAt i ∈ g.procs := by
  rw [Kernel.procAt, h.table]
  exact Places.mem_procs.2 ⟨i, hi, rfl⟩

theorem SchedInv.onReady_iff (h : SchedInv g s R B) (hp : p ∈ g.procs) : OnReady s p ↔ p ∈ R := by
  rw [OnReady, h.places.ready, h.rings.left.reach_iff, List.mem_cons,
    List.mem_map_of_injective nodeOf_injective]
  exact or_iff_right (Places.nodeOf_ne hp).1

theorem SchedInv.onBlock_iff (h : SchedInv g s R B) (hp : p ∈ g.procs) : OnBlock s p ↔ p ∈ B := by
  rw [OnBlock, h.places.block, h.rings.right.reach_iff, List.mem_cons,
    List.mem_map_of_injective nodeOf_injective]
  exact or_iff_right (Places.nodeOf_ne hp).2

theorem SchedInv.linked_iff (h : SchedInv g s R B) (hp : p ∈ g.procs) :
    Linked s p ↔ p ∈ R ∨ p ∈ B := or_congr (h.onReady_iff hp) (h.onBlock_iff hp)

/-- No step moves the table or a list head. -/
theorem At.step (h : At g s) (hs : Step s e s') : At g s' := by
  have hadd (t : Kernel) (ht : At g t) (p : ℕ) : At g (schedAddReady t p) := by
    unfold schedAddReady _schedAddReady
    split_ifs <;> exact ht.of_eq rfl rfl rfl rfl rfl
  have hqueue (st : ProcState) : At g (schedRequeue st s) := by
    unfold schedRequeue _schedAddReady
    split_ifs <;> exact h.of_eq rfl rfl rfl rfl rfl
  cases hs with
  | create entryPoint hc =>
    unfold procCreate
    split_ifs
    · exact h
    · cases procFindFree s with
      | none => exact h
      | some i => exact hadd _ (h.procFill i entryPoint) _
  | start hc =>
    unfold sched
    split_ifs <;> exact h.of_eq rfl rfl rfl rfl rfl
  | dispatch | spin =>
    unfold schedRound
    dsimp only
    split_ifs <;> exact h.of_eq rfl rfl rfl rfl rfl
  | yield hc =>
    unfold schedYield
    split_ifs
    · exact h
    · exact h
    · exact (hqueue .ready).of_eq rfl rfl rfl rfl rfl
  | exit hc => exact hqueue .term
  | sleep hc =>
    unfold schedSleep schedAddBlock
    split_ifs <;> exact h.of_eq rfl rfl rfl rfl rfl
  | timer => exact hqueue .ready
  | addReady hi => exact hadd s h _
  | delReady hi =>
    unfold schedDelReady
    split_ifs <;> exact h.of_eq rfl rfl rfl rfl rfl
  | procExit hi =>
    unfold procExit
    split_ifs <;> exact h.of_eq rfl rfl rfl rfl rfl

theorem At.trace (h : At g s) (ht : Trace Step s tr s') : At g s' := by
  induction ht with
  | nil => exact h
  | cons hs _ ih => exact ih (h.step hs)

/-! ## The start -/

section Boot

variable (g) (raw : Kernel) (stack : ℕ)

theorem bootKernel_eq : bootKernel g raw stack =
    { procInit
        { raw with procMgr := { raw.procMgr with procTable := g.table }, control := .boot } stack with
      links := listInitHead (listInitHead raw.links g.ready) g.block
      scheduler := ⟨true, g.ready, 0, g.block, 0, 0⟩ } := by
  simp [bootKernel, schedInit, g.ready_pos.ne', g.block_pos.ne', procInit]

theorem bootKernel_inv : SchedInv g (bootKernel g raw stack) [] [] := by
  rw [bootKernel_eq]
  refine ⟨⟨rfl, rfl, rfl, rfl, rfl⟩, ?_, rfl, by simp⟩
  have hne := g.heads
  refine ⟨Ring.empty ?_ ?_, Ring.empty ?_ ?_, ?_, ?_, ?_⟩
  · simp [listInitHead, Links.setNext, Links.setPrev, hne]
  · simp [listInitHead, Links.setNext, Links.setPrev, hne]
  · simp [listInitHead, Links.setNext, Links.setPrev]
  · simp [listInitHead, Links.setNext, Links.setPrev]
  · simpa using hne.symm
  · simpa using g.ready_pos.ne
  · simpa using g.block_pos.ne

theorem bootKernel_control : (bootKernel g raw stack).control = .boot := by
  rw [bootKernel_eq]
  rfl

theorem bootKernel_proc : (bootKernel g raw stack).scheduler.proc = 0 := by
  rw [bootKernel_eq]

theorem bootKernel_free (hp : p ∈ g.procs) : ((bootKernel g raw stack).blk p).state = .free := by
  obtain ⟨i, hi, rfl⟩ := Places.mem_procs.1 hp
  rw [bootKernel_eq]
  simp only [procInit]
  rw [if_pos]
  simp only [PROC_MAX, sizeofProcCtrlBlk] at *
  omega

end Boot

theorem mainPlaces_apart (i : ℕ) (hi : i < PROC_MAX) :
    nodeOf (0xC0110000 + sizeofProcCtrlBlk * i) ≠ 0xC2041000 ∧
      nodeOf (0xC0110000 + sizeofProcCtrlBlk * i) ≠ 0xC2041008 := by
  simp only [PROC_MAX, nodeOf, sizeofProcCtrlBlk] at hi ⊢
  omega

/-- The two list heads and the stacks are among the first blocks of the kernel's heap. -/
def mainPlaces : Places where
  table := 0xC0110000
  ready := 0xC2041000
  block := 0xC2041008
  table_pos := by decide
  table_top := by decide
  ready_pos := by decide
  block_pos := by decide
  heads := by decide
  apart := mainPlaces_apart

/-- Memory that is zero. -/
def rawKernel : Kernel :=
  ⟨⟨fun _ => 0⟩, ⟨fun _ => 0, fun _ => 0⟩, fun _ => ⟨0, .free, 0, 0, 0⟩, ⟨0, 0, 0, false⟩,
    ⟨false, 0, 0, 0, 0, 0⟩, .boot, 0⟩

/-- The kernel when `main` has initialised it. -/
def mainKernel : Kernel := bootKernel mainPlaces rawKernel 0xC2001000

/-- The first process of `main` has the CPU. -/
theorem mainKernel_dispatched :
    SchedInv mainPlaces (schedRound (sched (procCreate mainKernel 0xC0101000).2)) [] [] := by
  have h₀ : SchedInv mainPlaces mainKernel [] [] := bootKernel_inv _ _ _
  have hfree : procFindFree mainKernel = some 0 := by decide +kernel
  have hp := h₀.places.procAt_mem (i := 0) (by decide)
  have h₁ := (h₀.fill hp (by simp) (by simp) 0xC0101000).setControl .loop
  rw [procCreate_some h₀.places hfree hp, sched, h₁.places.inited]
  exact h₁.round.1

end YohdaOS.P32

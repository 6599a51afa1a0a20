import YohdaOS.Sched.Run

/-!
# A process is on one list, once

Five entry points queue a process and none looks whether it is queued already; `sched_del_ready`
looks at the state only, which it does not change.  `StepOk` says of a call that the node it links is
linked nowhere, and that the node it unlinks is on the ready list.
-/

namespace YohdaOS.P32

open Chains Runs

/-- The steps of a kernel that neither exits nor frees processes. -/
def Event.IsQueueing : Event → Prop
  | .exit _ | .procExit _ => False
  | _ => True

def StepOk (s : Kernel) : Event → Prop
  | .create p => p ≠ 0 → ¬Linked s p
  | .yield p | .exit p | .sleep p | .addReady p => ¬Linked s p
  | .timer => s.scheduler.proc ≠ 0 → ¬Linked s s.scheduler.proc
  | .delReady p => (s.blk p).state = .ready → OnReady s p
  | .start | .dispatch _ | .spin | .procExit _ => True

/-- A step that meets the condition. -/
def OkStep (s : Kernel) (e : Event) (s' : Kernel) : Prop := Step s e s' ∧ StepOk s e

/-- Both lists are rings in both directions, no process is on them twice, and `readys` counts the
ready list. -/
def SingleMembership (s : Kernel) : Prop :=
  ∃ R B, ReadyRing s R ∧ BlockRing s B ∧ (R ++ B).Nodup ∧ s.scheduler.readys = R.length

/-- The current process is a process of the table or none. -/
structure MemberInv (g : Places) (s : Kernel) (R B : List ℕ) : Prop where
  inv : SchedInv g s R B
  proc : s.scheduler.proc = 0 ∨ s.scheduler.proc ∈ g.procs
  user : s.control = .user → s.scheduler.proc ≠ 0

variable {g : Places} {s s' : Kernel} {R B : List ℕ} {p : ℕ} {e : Event} {tr : List Event}

theorem SchedInv.singleMembership (h : SchedInv g s R B) : SingleMembership s :=
  ⟨R, B, h.readyRing, h.blockRing, h.nodup_ready.append h.nodup_block h.disjoint, h.readys⟩

/-! ## One step -/

theorem SchedInv.requeue (h : SchedInv g s R B) (hp : s.scheduler.proc ∈ g.procs)
    (hl : ¬Linked s s.scheduler.proc) (st : ProcState) :
    SchedInv g (schedRequeue st s) (R ++ [s.scheduler.proc]) B := by
  rw [h.linked_iff hp, not_or] at hl
  rw [schedRequeue_eq h.places (Places.ne_zero hp)]
  exact (h.setState s.scheduler.proc st).addReady hp hl.1 hl.2

theorem schedRequeue_proc (st : ProcState) :
    (schedRequeue st s).scheduler.proc = s.scheduler.proc := by
  unfold schedRequeue _schedAddReady
  split_ifs <;> rfl

theorem schedRequeue_control (st : ProcState) : (schedRequeue st s).control = s.control := by
  unfold schedRequeue _schedAddReady
  split_ifs <;> rfl

namespace MemberInv

theorem boot (g : Places) (raw : Kernel) (stack : ℕ) :
    MemberInv g (bootKernel g raw stack) [] [] where
  inv := bootKernel_inv g raw stack
  proc := Or.inl (bootKernel_proc g raw stack)
  user := by simp [bootKernel_control]

theorem mem (h : MemberInv g s R B) (hp : s.scheduler.proc ≠ 0) : s.scheduler.proc ∈ g.procs :=
  h.proc.resolve_left hp

theorem create (h : MemberInv g s R B) (entryPoint : ℕ)
    (hok : (procCreate s entryPoint).1 ≠ 0 → ¬Linked s (procCreate s entryPoint).1) :
    ∃ R' B', MemberInv g (procCreate s entryPoint).2 R' B' := by
  cases hi : procFindFree s with
  | none =>
    rw [procCreate_none hi]
    exact ⟨R, B, h⟩
  | some i =>
    have hp := (procFindFree_spec h.inv.places hi).1
    rw [procCreate_some h.inv.places hi hp] at hok ⊢
    have hl := hok (Places.ne_zero hp)
    rw [h.inv.linked_iff hp, not_or] at hl
    exact ⟨_, _, h.inv.fill hp hl.1 hl.2 entryPoint, h.proc, h.user⟩

theorem round (h : MemberInv g s R B) : ∃ R' B', MemberInv g (schedRound s) R' B' := by
  cases R with
  | nil =>
    rw [h.inv.round_nil]
    exact ⟨[], B, h⟩
  | cons p R =>
    obtain ⟨hinv, hproc, -, -⟩ := h.inv.round
    have hp : p ∈ g.procs := h.inv.procs p (by simp)
    refine ⟨R, B, hinv, Or.inr (hproc ▸ hp), fun _ => ?_⟩
    rw [hproc]
    exact Places.ne_zero hp

theorem yield (h : MemberInv g s R B) (hc : s.control = .user)
    (hok : ¬Linked s s.scheduler.proc) : ∃ R' B', MemberInv g (schedYield s) R' B' := by
  have hz := h.user hc
  have hinv := (h.inv.requeue (h.mem hz) hok .ready).setControl .loop
  rw [schedYield_eq h.inv.places hz]
  refine ⟨_, _, hinv, ?_, fun hc => by cases hc⟩
  exact (schedRequeue_proc (s := s) .ready).symm ▸ h.proc

theorem timer (h : MemberInv g s R B)
    (hok : s.scheduler.proc ≠ 0 → ¬Linked s s.scheduler.proc) :
    ∃ R' B', MemberInv g (schedTimer s) R' B' := by
  unfold schedTimer
  by_cases hz : s.scheduler.proc = 0
  · rw [schedRequeue_null hz]
    exact ⟨R, B, h⟩
  · refine ⟨_, _, h.inv.requeue (h.mem hz) (hok hz) .ready, ?_, ?_⟩
    · rw [schedRequeue_proc]
      exact h.proc
    · rw [schedRequeue_control, schedRequeue_proc]
      exact h.user

theorem sleep (h : MemberInv g s R B) (hc : s.control = .user)
    (hok : ¬Linked s s.scheduler.proc) : ∃ R' B', MemberInv g (schedSleep s) R' B' := by
  have hz := h.user hc
  have hp := h.mem hz
  rw [h.inv.linked_iff hp, not_or] at hok
  rw [schedSleep_eq h.inv.places hz]
  have hinv := (h.inv.setState s.scheduler.proc .block).addBlock hp hok.1 hok.2
  refine ⟨_, _, hinv, ?_, ?_⟩ <;> unfold schedAddBlock <;> split_ifs
  all_goals first | exact h.proc | exact h.user

theorem addReady (h : MemberInv g s R B) (hp : p ∈ g.procs) (hok : ¬Linked s p) :
    ∃ R' B', MemberInv g (schedAddReady s p) R' B' := by
  rw [h.inv.linked_iff hp, not_or] at hok
  rw [schedAddReady_eq h.inv.places (Places.ne_zero hp)]
  exact ⟨_, _, h.inv.addReady hp hok.1 hok.2, h.proc, h.user⟩

theorem delReady (h : MemberInv g s R B) (hp : p ∈ g.procs)
    (hok : (s.blk p).state = .ready → OnReady s p) :
    ∃ R' B', MemberInv g (schedDelReady s p) R' B' := by
  by_cases hst : (s.blk p).state = .ready
  · have hmem := (h.inv.onReady_iff hp).1 (hok hst)
    obtain ⟨A, C, rfl⟩ := List.append_of_mem hmem
    refine ⟨_, _, h.inv.delReady hst, ?_, ?_⟩ <;> unfold schedDelReady <;> split_ifs
    all_goals first | exact h.proc | exact h.user
  · rw [SchedInv.delReady_of_ne hst]
    exact ⟨R, B, h⟩

theorem step (h : MemberInv g s R B) (he : e.IsQueueing) (hs : OkStep s e s') :
    ∃ R' B', MemberInv g s' R' B' := by
  obtain ⟨hs, hok⟩ := hs
  cases hs with
  | create entryPoint => exact h.create entryPoint hok
  | start =>
    rw [sched, h.inv.places.inited]
    exact ⟨R, B, h.inv.setControl .loop, h.proc, fun hc => by cases hc⟩
  | dispatch | spin => exact h.round
  | yield hc => exact h.yield hc hok
  | sleep hc => exact h.sleep hc hok
  | timer => exact h.timer hok
  | addReady hi => exact h.addReady (h.inv.places.procAt_mem hi) hok
  | delReady hi => exact h.delReady (h.inv.places.procAt_mem hi) hok
  | exit | procExit => cases he

theorem trace (h : MemberInv g s R B) (ht : Trace OkStep s tr s') (he : ∀ e ∈ tr, e.IsQueueing) :
    ∃ R' B', MemberInv g s' R' B' := by
  induction ht generalizing R B with
  | nil => exact ⟨R, B, h⟩
  | cons hs _ ih =>
    obtain ⟨R₁, B₁, h₁⟩ := h.step (he _ List.mem_cons_self) hs
    exact ih h₁ fun e he' => he e (List.mem_cons_of_mem _ he')

end MemberInv

/-- In every run whose steps meet the condition each process is on at most one list, once. -/
theorem membership_single (g : Places) (raw : Kernel) (stack : ℕ) (tr : List Event) (s : Kernel)
    (ht : Trace OkStep (bootKernel g raw stack) tr s) (he : ∀ e ∈ tr, e.IsQueueing) :
    SingleMembership s := by
  obtain ⟨R, B, h⟩ := (MemberInv.boot g raw stack).trace ht he
  exact h.inv.singleMembership

/-- A process that the timer queues, that is unlinked and then yields. -/
theorem membership_single_main :
    let s := schedRound (sched (procCreate mainKernel 0xC0101000).2)
    SingleMembership (schedYield (schedDelReady (schedTimer s) (s.procAt 0))) := by
  intro s
  have hp : 0xC0110000 ∈ mainPlaces.procs := Places.mem_procs.2 ⟨0, by decide, rfl⟩
  have h₂ : SchedInv mainPlaces s [] [] := mainKernel_dispatched
  have hproc : s.scheduler.proc = 0xC0110000 := by decide +kernel
  have hat : s.procAt 0 = 0xC0110000 := by decide +kernel
  have hun : ¬Linked s s.scheduler.proc := by
    rw [hproc, h₂.linked_iff hp]
    simp
  have h₃ : SchedInv mainPlaces (schedTimer s) ([] ++ 0xC0110000 :: []) [] := by
    have hrequeue := h₂.requeue (hproc ▸ hp) hun .ready
    rwa [hproc] at hrequeue
  have h₄ := h₃.delReady (by decide +kernel)
  have hyield : ¬Linked (schedDelReady (schedTimer s) 0xC0110000) 0xC0110000 := by
    rw [h₄.linked_iff hp]
    simp
  apply membership_single mainPlaces rawKernel 0xC2001000 [.create 0xC0110000, .start,
    .dispatch 0xC0110000, .timer, .delReady 0xC0110000, .yield 0xC0110000]
  · apply Trace.cons ⟨.create_of 0xC0101000 (by decide +kernel) (by decide +kernel), fun _ => by
      rw [(bootKernel_inv mainPlaces rawKernel 0xC2001000).linked_iff hp]
      simp⟩
    apply Trace.cons ⟨.start (by decide +kernel), trivial⟩
    apply Trace.cons ⟨.dispatch_of (by decide +kernel) (by decide +kernel) (by decide +kernel),
      trivial⟩
    apply Trace.cons ⟨.timer, fun _ => hun⟩
    rw [← hat]
    apply Trace.cons ⟨.delReady (s := schedTimer s) (i := 0) (by decide), fun _ => by
      rw [hat]
      exact (h₃.onReady_iff hp).2 (by simp)⟩
    rw [hat]
    exact Trace.cons ⟨.yield_of (by decide +kernel) (by decide +kernel), hyield⟩ (.nil _)
  · simp [Event.IsQueueing]

/-- A timer tick and a yield: the node of the process leads to itself. -/
theorem membership_single_fails : ¬∀ g raw stack tr s,
    Trace (fun s e s' => Step s e s' ∧ ∀ p, e = .addReady p → ¬Linked s p)
      (bootKernel g raw stack) tr s →
    (∀ e ∈ tr, e.IsQueueing) → SingleMembership s := by
  intro hall
  let s := schedRound (sched (procCreate mainKernel 0xC0101000).2)
  obtain ⟨R, -, hR, -⟩ := hall mainPlaces rawKernel 0xC2001000 [.create 0xC0110000, .start,
      .dispatch 0xC0110000, .timer, .yield 0xC0110000] (schedYield (schedTimer s)) (by
    apply Trace.cons ⟨.create_of 0xC0101000 (by decide +kernel) (by decide +kernel), by simp⟩
    apply Trace.cons ⟨.start (by decide +kernel), by simp⟩
    apply Trace.cons ⟨.dispatch_of (by decide +kernel) (by decide +kernel) (by decide +kernel),
      by simp⟩
    apply Trace.cons ⟨.timer, by simp⟩
    exact Trace.cons ⟨.yield_of (by decide +kernel) (by decide +kernel), by simp⟩ (.nil _))
    (by simp [Event.IsQueueing])
  have hnext : (schedYield (schedTimer s)).links.next 0xC2041000 = 0xC0110014 := by decide +kernel
  have hself : (schedYield (schedTimer s)).links.next 0xC0110014 = 0xC0110014 := by decide +kernel
  have hhead : (schedYield (schedTimer s)).scheduler.readyList = 0xC2041000 := by decide +kernel
  rw [ReadyRing, hhead] at hR
  exact hR.next_head_ne hnext (by decide) hself

end YohdaOS.P32

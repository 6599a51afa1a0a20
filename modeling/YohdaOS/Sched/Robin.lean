import YohdaOS.Sched.Run

/-!
# Round robin

While processes are only created and give up the CPU only by `sched_yield`, the ready list is a
queue: a process that yields runs again after those that were queued before it, in their order.
-/

namespace YohdaOS.P32

open Chains Runs Fifo

/-- The steps of a kernel that only creates, dispatches and yields. -/
def Event.IsRobin : Event → Prop
  | .create _ | .start | .dispatch _ | .spin | .yield _ => True
  | _ => False

/-- The processes that a step takes from the ready list. -/
def Event.taken : Event → List ℕ
  | .dispatch p => [p]
  | _ => []

def dispatched (tr : List Event) : List ℕ := tr.flatMap Event.taken

/-- The result of a creation, NULL if it failed. -/
def Event.made : Event → List ℕ
  | .create p => [p]
  | _ => []

def created (tr : List Event) : List ℕ := tr.flatMap Event.made

structure RobinInv (g : Places) (s : Kernel) (R : List ℕ) : Prop where
  inv : SchedInv g s R []
  ready : ∀ p ∈ R, (s.blk p).state = .ready
  state : ∀ p ∈ g.procs, (s.blk p).state = .free ∨ p ∈ R ∨
    s.control = .user ∧ s.scheduler.proc = p
  control : s.control ≠ .idle
  proc : s.control = .user → s.scheduler.proc ∈ g.procs ∧
    (s.blk s.scheduler.proc).state = .run

variable {g : Places} {s s' : Kernel} {R : List ℕ} {p : ℕ} {e : Event} {tr : List Event}

theorem RobinInv.boot (g : Places) (raw : Kernel) (stack : ℕ) :
    RobinInv g (bootKernel g raw stack) [] where
  inv := bootKernel_inv g raw stack
  ready := by simp
  state := fun p hp => Or.inl (bootKernel_free g raw stack hp)
  control := by simp [bootKernel_control]
  proc := by simp [bootKernel_control]

namespace RobinInv

theorem proc_not_mem (h : RobinInv g s R) (hc : s.control = .user) : s.scheduler.proc ∉ R := by
  intro hR
  have hst := h.ready _ hR
  rw [(h.proc hc).2] at hst
  cases hst

/-! ## One step -/

/-- `proc_create` on a free slot queues its process. -/
theorem fill (h : RobinInv g s R) {i : ℕ} (hi : procFindFree s = some i) (entryPoint : ℕ) :
    RobinInv g (_schedAddReady (procFill s i entryPoint) (s.procAt i)) (R ++ [s.procAt i]) := by
  obtain ⟨hp, hfree⟩ := procFindFree_spec h.inv.places hi
  have hR : s.procAt i ∉ R := by
    intro hR
    rw [h.ready _ hR] at hfree
    cases hfree
  have hst (q : ℕ) (hq : q ≠ s.procAt i) :
      ((_schedAddReady (procFill s i entryPoint) (s.procAt i)).blk q).state = (s.blk q).state :=
    congrArg ProcCtrlBlk.state (procFill_of_ne s i entryPoint hq)
  refine ⟨h.inv.fill hp hR (by simp) entryPoint, ?_, ?_, h.control, ?_⟩
  · intro q hq
    by_cases hqp : q = s.procAt i
    · rw [hqp]
      exact procFill_state s i entryPoint
    · rw [hst q hqp]
      exact h.ready q (by simpa [hqp] using hq)
  · intro q hq
    by_cases hqp : q = s.procAt i
    · exact Or.inr (Or.inl (by simp [hqp]))
    · rw [hst q hqp]
      rcases h.state q hq with hs | hs | hs
      · exact Or.inl hs
      · exact Or.inr (Or.inl (List.mem_append_left _ hs))
      · exact Or.inr (Or.inr hs)
  · intro hc
    obtain ⟨hmem, hrun⟩ := h.proc hc
    have hne : s.scheduler.proc ≠ s.procAt i := by
      intro heq
      rw [heq, hfree] at hrun
      cases hrun
    exact ⟨hmem, (hst _ hne).trans hrun⟩

theorem yield (h : RobinInv g s R) (hc : s.control = .user) :
    RobinInv g (schedYield s) (R ++ [s.scheduler.proc]) := by
  obtain ⟨hp, hrun⟩ := h.proc hc
  have hR := h.proc_not_mem hc
  have hz := Places.ne_zero hp
  rw [schedYield_eq h.inv.places hz, schedRequeue_eq h.inv.places hz]
  have hinv := (h.inv.setState s.scheduler.proc .ready).addReady hp hR (by simp)
  refine ⟨hinv.setControl .loop, ?_, ?_, by simp, by simp⟩
  · intro q hq
    by_cases hqp : q = s.scheduler.proc
    · rw [hqp]
      exact setState_self .ready
    · have hq' : q ∈ R := by simpa [hqp] using hq
      exact (congrArg ProcCtrlBlk.state (setState_of_ne .ready hqp)).trans (h.ready q hq')
  · intro q hq
    by_cases hqp : q = s.scheduler.proc
    · exact Or.inr (Or.inl (by simp [hqp]))
    · rcases h.state q hq with hst | hst | hst
      · exact Or.inl ((congrArg ProcCtrlBlk.state (setState_of_ne .ready hqp)).trans hst)
      · exact Or.inr (Or.inl (List.mem_append_left _ hst))
      · exact absurd hst.2.symm hqp

theorem round (h : RobinInv g s (p :: R)) (hc : s.control = .loop) :
    RobinInv g (schedRound s) R := by
  obtain ⟨hinv, hproc, hcontrol, hblk⟩ := h.inv.round
  have hnd := List.nodup_cons.1 h.inv.nodup_ready
  have hp : p ∈ g.procs := h.inv.procs p (by simp)
  have hst (q : ℕ) (hq : q ≠ p) : (schedRound s).blk q = s.blk q := by
    rw [hblk, Function.update_of_ne hq]
  refine ⟨hinv, ?_, ?_, by simp [hcontrol], ?_⟩
  · intro q hq
    rw [hst q (by rintro rfl; exact hnd.1 hq)]
    exact h.ready q (List.mem_cons_of_mem p hq)
  · intro q hq
    by_cases hqp : q = p
    · exact Or.inr (Or.inr ⟨hcontrol, by rw [hproc, hqp]⟩)
    · rw [hst q hqp]
      rcases h.state q hq with hs | hs | hs
      · exact Or.inl hs
      · exact Or.inr (Or.inl (by simpa [hqp] using hs))
      · rw [hc] at hs
        cases hs.1
  · intro _
    rw [hproc, hblk, Function.update_self]
    exact ⟨hp, rfl⟩

/-- A step takes at most the first process from the queue and puts at most one at its end. -/
theorem step (h : RobinInv g s R) (he : e.IsRobin) (hs : Step s e s') :
    ∃ R' ins, RobinInv g s' R' ∧ Moved R ins e.taken R' := by
  cases hs with
  | create entryPoint hc =>
    cases hi : procFindFree s with
    | none =>
      rw [procCreate_none hi]
      exact ⟨R, [], h, Moved.refl R⟩
    | some i =>
      rw [procCreate_some h.inv.places hi (procFindFree_spec h.inv.places hi).1]
      exact ⟨_, _, h.fill hi entryPoint, Moved.put R _⟩
  | start hc =>
    refine ⟨R, [], ?_, Moved.refl R⟩
    rw [sched, h.inv.places.inited]
    refine ⟨h.inv.setControl .loop, h.ready, fun q hq => ?_, by simp, by simp⟩
    rcases h.state q hq with hst | hst | hst
    · exact Or.inl hst
    · exact Or.inr (Or.inl hst)
    · rw [hc] at hst
      cases hst.1
  | dispatch hc hu =>
    cases R with
    | nil =>
      rw [h.inv.round_nil, hc] at hu
      cases hu
    | cons p R =>
      refine ⟨R, [], h.round hc, ?_⟩
      rw [h.inv.round.2.1]
      exact Moved.take p R
  | spin hc hu =>
    cases R with
    | nil =>
      rw [h.inv.round_nil]
      exact ⟨[], [], h, Moved.refl []⟩
    | cons p R => exact absurd h.inv.round.2.2.1 hu
  | yield hc => exact ⟨_, _, h.yield hc, Moved.put R _⟩
  | exit | sleep | timer | addReady | delReady | procExit => cases he

/-! ## Runs -/

theorem trace (h : RobinInv g s R) (ht : Trace Step s tr s') (he : ∀ e ∈ tr, e.IsRobin) :
    ∃ R' ins, RobinInv g s' R' ∧ Moved R ins (dispatched tr) R' := by
  induction ht generalizing R with
  | nil a => exact ⟨R, [], h, Moved.refl R⟩
  | cons hstep _ ih =>
    obtain ⟨R₁, ins₁, h₁, hm₁⟩ := h.step (he _ List.mem_cons_self) hstep
    obtain ⟨R₂, ins₂, h₂, hm₂⟩ := ih h₁ fun e he' => he e (List.mem_cons_of_mem _ he')
    exact ⟨R₂, ins₁ ++ ins₂, h₂, hm₁.trans hm₂⟩

/-- A slot in use stays in use, and is not the one that is filled. -/
theorem step_used (h : RobinInv g s R) (he : e.IsRobin) (hs : Step s e s') (hp0 : p ≠ 0)
    (hp : (s.blk p).state ≠ .free) : (s'.blk p).state ≠ .free ∧ e ≠ .create p := by
  cases hs with
  | create entryPoint hc =>
    cases hi : procFindFree s with
    | none =>
      have hnull : (procCreate s entryPoint).1 = 0 := by
        unfold procCreate
        split_ifs <;> simp [hi]
      rw [procCreate_none hi, hnull]
      exact ⟨hp, fun heq => hp0 (Event.create.inj heq).symm⟩
    | some i =>
      obtain ⟨hmem, hfree⟩ := procFindFree_spec h.inv.places hi
      have hne : p ≠ s.procAt i := by
        rintro rfl
        exact hp hfree
      rw [procCreate_some h.inv.places hi hmem]
      refine ⟨?_, fun heq => hne (Event.create.inj heq).symm⟩
      exact (congrArg ProcCtrlBlk.state (procFill_of_ne s i entryPoint hne)).symm ▸ hp
  | start hc =>
    rw [sched, h.inv.places.inited]
    exact ⟨hp, by simp⟩
  | dispatch hc hu =>
    refine ⟨?_, by simp⟩
    cases R with
    | nil =>
      rw [h.inv.round_nil]
      exact hp
    | cons q R =>
      rw [h.inv.round.2.2.2]
      by_cases hpq : p = q
      · simp [hpq]
      · rwa [Function.update_of_ne hpq]
  | spin hc hu =>
    cases R with
    | nil =>
      rw [h.inv.round_nil]
      exact ⟨hp, by simp⟩
    | cons q R => exact absurd h.inv.round.2.2.1 hu
  | yield hc =>
    refine ⟨?_, by simp⟩
    have hz := Places.ne_zero (h.proc hc).1
    rw [schedYield_eq h.inv.places hz, schedRequeue_eq h.inv.places hz]
    by_cases hpq : p = s.scheduler.proc
    · rw [hpq]
      exact (setState_self (s := s) (p := s.scheduler.proc) .ready).symm ▸ (by simp)
    · exact (congrArg ProcCtrlBlk.state (setState_of_ne (s := s) .ready hpq)).symm ▸ hp
  | exit | sleep | timer | addReady | delReady | procExit => cases he

theorem trace_used (h : RobinInv g s R) (ht : Trace Step s tr s') (he : ∀ e ∈ tr, e.IsRobin)
    (hp0 : p ≠ 0) (hp : (s.blk p).state ≠ .free) : p ∉ created tr := by
  induction ht generalizing R with
  | nil a => simp [created]
  | @cons a b c e tr hstep _ ih =>
    have he₁ := he e List.mem_cons_self
    obtain ⟨R₁, -, h₁, -⟩ := h.step he₁ hstep
    obtain ⟨hused, hne⟩ := h.step_used he₁ hstep hp0 hp
    have hrest := ih h₁ (fun e he' => he e (List.mem_cons_of_mem _ he')) hused
    rw [created, List.flatMap_cons, List.mem_append, not_or]
    refine ⟨?_, hrest⟩
    cases e with
    | create q => exact fun hpq => hne (by rw [List.mem_singleton.1 hpq])
    | _ => exact List.not_mem_nil

/-- Where each process of the table is. -/
theorem places (h : RobinInv g s R) {i : ℕ} (hi : i < PROC_MAX)
    (hst : (s.blk (s.procAt i)).state ≠ .free) :
    (s.control = .user ∧ s.scheduler.proc = s.procAt i ∧ (s.blk (s.procAt i)).state = .run ∧
        s.procAt i ∉ R) ∨
      ((s.blk (s.procAt i)).state = .ready ∧ R.count (s.procAt i) = 1) := by
  rcases h.state _ (h.inv.places.procAt_mem hi) with hs | hs | ⟨hc, hs⟩
  · exact absurd hs hst
  · exact Or.inr ⟨h.ready _ hs, List.count_eq_one_of_mem h.inv.nodup_ready hs⟩
  · refine Or.inl ⟨hc, hs, ?_⟩
    rw [← hs]
    exact ⟨(h.proc hc).2, h.proc_not_mem hc⟩

end RobinInv

/-- A run of `proc_create`, the dispatch loop and `sched_yield` from the start. -/
def RobinRun (g : Places) (tr : List Event) (s : Kernel) : Prop :=
  (∃ raw stack, Trace Step (bootKernel g raw stack) tr s) ∧ ∀ e ∈ tr, e.IsRobin

theorem RobinRun.inv (h : RobinRun g tr s) : ∃ R, RobinInv g s R := by
  obtain ⟨⟨raw, stack, ht⟩, he⟩ := h
  obtain ⟨R, -, hinv, -⟩ := (RobinInv.boot g raw stack).trace ht he
  exact ⟨R, hinv⟩

/-- In every state `readys` counts the ready list, and every process of the table is the running one
or queued exactly once.  From the yield of a process to its next dispatch the processes that were
queued before it are dispatched once each and in order, and none that was created since. -/
theorem robin_ok (g : Places) :
    (∀ tr s, RobinRun g tr s → ∃ R, ReadyRing s R ∧ s.scheduler.readys = R.length ∧
      ∀ i < PROC_MAX, (s.blk (s.procAt i)).state ≠ .free →
        (s.control = .user ∧ s.scheduler.proc = s.procAt i ∧ (s.blk (s.procAt i)).state = .run ∧
            s.procAt i ∉ R) ∨
          ((s.blk (s.procAt i)).state = .ready ∧ R.count (s.procAt i) = 1)) ∧
    ∀ tr s p s₁ tr' s₂ s₃, RobinRun g tr s → Step s (.yield p) s₁ → Trace Step s₁ tr' s₂ →
      (∀ e ∈ tr', e.IsRobin) → p ∉ dispatched tr' → Step s₂ (.dispatch p) s₃ →
      ∃ R, ReadyRing s R ∧ R.Nodup ∧ dispatched tr' = R ∧
        ∀ q ∈ created tr', q ∉ dispatched tr' := by
  constructor
  · intro tr s hrun
    obtain ⟨R, hinv⟩ := hrun.inv
    exact ⟨R, hinv.inv.readyRing, hinv.inv.readys, fun i hi hst => hinv.places hi hst⟩
  · intro tr s p s₁ tr' s₂ s₃ hrun hyield htrace hrobin hnot hdispatch
    obtain ⟨R, hinv⟩ := hrun.inv
    have hc : s.control = .user := by
      cases hyield
      assumption
    have hp : s.scheduler.proc = p := by
      cases hyield
      rfl
    have hs₁ : s₁ = schedYield s := by
      cases hyield
      rfl
    subst hp hs₁
    have hinv₁ := hinv.yield hc
    obtain ⟨R₂, ins, hinv₂, hmoved⟩ := hinv₁.trace htrace hrobin
    have hfirst : ∃ R₃, R₂ = s.scheduler.proc :: R₃ := by
      generalize s.scheduler.proc = q at hdispatch
      cases hdispatch with
      | dispatch hc₂ hu =>
        cases R₂ with
        | nil =>
          rw [hinv₂.inv.round_nil, hc₂] at hu
          cases hu
        | cons q R₃ => exact ⟨R₃, by rw [hinv₂.inv.round.2.1]⟩
    obtain ⟨R₃, rfl⟩ := hfirst
    have heq : dispatched tr' = R := hmoved.taken_eq (hinv.proc_not_mem hc) hnot
    refine ⟨R, hinv.inv.readyRing, hinv.inv.nodup_ready, heq, fun q hq hq' => ?_⟩
    rw [heq] at hq'
    have hmem : q ∈ R ++ [s.scheduler.proc] := List.mem_append_left _ hq'
    have hz : q ≠ 0 := Places.ne_zero (hinv.inv.procs q (by simpa using hq'))
    have hst := hinv₁.ready q hmem
    exact hinv₁.trace_used htrace hrobin hz (by rw [hst]; simp) hq

/-- `main` with its two processes: the second one runs between two turns of the first. -/
theorem robin_ok_main :
    let s := schedRound (sched (procCreate (procCreate mainKernel 0xC0101000).2 0xC0101040).2)
    ∃ R, ReadyRing s R ∧ R.Nodup ∧ dispatched [.dispatch 0xC011001C, .yield 0xC011001C] = R ∧
      ∀ q ∈ created [.dispatch 0xC011001C, .yield 0xC011001C],
        q ∉ dispatched [.dispatch 0xC011001C, .yield 0xC011001C] := by
  intro s
  apply (robin_ok mainPlaces).2
    [.create 0xC0110000, .create 0xC011001C, .start, .dispatch 0xC0110000] s 0xC0110000
    (schedYield s) _ (schedYield (schedRound (schedYield s)))
    (schedRound (schedYield (schedRound (schedYield s))))
  · refine ⟨⟨rawKernel, 0xC2001000, ?_⟩, by simp [Event.IsRobin]⟩
    apply Trace.cons (.create_of 0xC0101000 (by decide +kernel) (by decide +kernel))
    apply Trace.cons (.create_of 0xC0101040 (by decide +kernel) (by decide +kernel))
    apply Trace.cons (.start (by decide +kernel))
    exact Trace.cons (.dispatch_of (by decide +kernel) (by decide +kernel) (by decide +kernel))
      (.nil s)
  · exact .yield_of (by decide +kernel) (by decide +kernel)
  · apply Trace.cons (.dispatch_of (by decide +kernel) (by decide +kernel) (by decide +kernel))
    exact Trace.cons (.yield_of (by decide +kernel) (by decide +kernel)) (.nil _)
  · simp [Event.IsRobin]
  · simp [dispatched, Event.taken]
  · exact .dispatch_of (by decide +kernel) (by decide +kernel) (by decide +kernel)

end YohdaOS.P32

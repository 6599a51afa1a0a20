import YohdaOS.Sched.Run

/-!
# Processes that have ended

`sched_exit` records the end of a process in its state and queues the process again.  It keeps the
CPU, and as long as it does nothing is dispatched; once it yields, the ready list leads to it.
-/

namespace YohdaOS.P32

open Chains Runs

/-- The steps of a kernel that creates, dispatches, yields, exits and sleeps. -/
def Event.IsLife : Event → Prop
  | .create _ | .start | .dispatch _ | .spin | .yield _ | .exit _ | .sleep _ => True
  | _ => False

/-- A process that has called `sched_exit` is not dispatched afterwards, nor is it running in the
sense of its state. -/
def StaysEnded (tr : List Event) (s : Kernel) : Prop :=
  ∀ tr₁ p tr₂, tr = tr₁ ++ .exit p :: tr₂ → .dispatch p ∉ tr₂ ∧ (s.blk p).state ≠ .run

/-- No process calls `sched_yield` after its `sched_exit`. -/
def KeepsCpu (tr : List Event) : Prop :=
  ∀ tr₁ p tr₂, tr = tr₁ ++ .exit p :: tr₂ → .yield p ∉ tr₂

variable {g : Places} {s s' : Kernel} {p : ℕ} {e : Event} {tr : List Event}

/-- The process `p` has the CPU and has ended. -/
structure Ended (g : Places) (s : Kernel) (p : ℕ) : Prop where
  places : At g s
  control : s.control = .user
  proc : s.scheduler.proc = p
  null : p ≠ 0
  state : (s.blk p).state = .term ∨ (s.blk p).state = .block

theorem procCreate_control (entryPoint : ℕ) : (procCreate s entryPoint).2.control = s.control := by
  unfold procCreate schedAddReady _schedAddReady
  split_ifs
  · rfl
  · cases procFindFree s with
    | none => rfl
    | some i =>
      dsimp only
      split_ifs <;> rfl

theorem procCreate_proc (entryPoint : ℕ) :
    (procCreate s entryPoint).2.scheduler.proc = s.scheduler.proc := by
  unfold procCreate schedAddReady _schedAddReady
  split_ifs
  · rfl
  · cases procFindFree s with
    | none => rfl
    | some i =>
      dsimp only
      split_ifs <;> rfl

/-- `proc_create` leaves the slots in use alone. -/
theorem procCreate_used (h : At g s) (entryPoint : ℕ) (hp : (s.blk p).state ≠ .free) :
    (procCreate s entryPoint).2.blk p = s.blk p := by
  cases hi : procFindFree s with
  | none => rw [procCreate_none hi]
  | some i =>
    obtain ⟨hmem, hfree⟩ := procFindFree_spec h hi
    have hne : p ≠ s.procAt i := by
      rintro rfl
      exact hp hfree
    rw [procCreate_some h hi hmem]
    exact procFill_of_ne s i entryPoint hne

theorem Ended.of_exit (h : At g s) (hc : s.control = .user) (hp : s.scheduler.proc ≠ 0) :
    Ended g (schedExit s) s.scheduler.proc := by
  rw [schedExit, schedRequeue_eq h hp]
  exact ⟨h.of_eq rfl rfl rfl rfl rfl, hc, rfl, hp, Or.inl (setState_self .term)⟩

/-- What a process does that has ended and does not yield. -/
theorem Ended.step (h : Ended g s p) (he : e.IsLife) (hs : Step s e s') (hy : e ≠ .yield p) :
    Ended g s' p ∧ e ≠ .dispatch p := by
  have hplaces := h.places.step hs
  have hc := h.control
  have hz : s.scheduler.proc ≠ 0 := h.proc ▸ h.null
  cases hs with
  | create entryPoint =>
    have hfree : (s.blk p).state ≠ .free := by
      rcases h.state with hst | hst <;> simp [hst]
    refine ⟨⟨hplaces, ?_, ?_, h.null, ?_⟩, by simp⟩
    · rw [procCreate_control, hc]
    · rw [procCreate_proc, h.proc]
    · rw [procCreate_used h.places entryPoint hfree]
      exact h.state
  | start hc' =>
    rw [hc'] at hc
    cases hc
  | dispatch hc' | spin hc' =>
    rw [hc'] at hc
    cases hc
  | yield => exact absurd (congrArg Event.yield h.proc) hy
  | exit => exact ⟨h.proc ▸ .of_exit h.places hc hz, by simp⟩
  | sleep =>
    refine ⟨⟨hplaces, ?_, ?_, h.null, Or.inr ?_⟩, by simp⟩ <;> rw [schedSleep_eq h.places hz] <;>
      unfold schedAddBlock <;> split_ifs
    any_goals first | exact hc | exact h.proc
    all_goals exact h.proc ▸ setState_self .block
  | timer | addReady | delReady | procExit => cases he

theorem Ended.trace (h : Ended g s p) (ht : Trace Step s tr s') (he : ∀ e ∈ tr, e.IsLife)
    (hy : .yield p ∉ tr) : Ended g s' p ∧ .dispatch p ∉ tr := by
  induction ht with
  | nil => exact ⟨h, List.not_mem_nil⟩
  | cons hs _ ih =>
    rw [List.mem_cons, not_or] at hy
    obtain ⟨h₁, hd⟩ := h.step (he _ List.mem_cons_self) hs (Ne.symm hy.1)
    obtain ⟨h₂, hd₂⟩ := ih h₁ (fun e he' => he e (List.mem_cons_of_mem _ he')) hy.2
    exact ⟨h₂, by rw [List.mem_cons, not_or]; exact ⟨Ne.symm hd, hd₂⟩⟩

/-- The process that has the CPU is not NULL. -/
theorem user_proc_ne_zero (h : At g s) (hu : s.control = .user → s.scheduler.proc ≠ 0)
    (he : e.IsLife) (hs : Step s e s') (hc' : s'.control = .user) : s'.scheduler.proc ≠ 0 := by
  cases hs with
  | create entryPoint hc =>
    rw [procCreate_control] at hc'
    rw [procCreate_proc]
    exact hu hc'
  | start hc =>
    rw [sched, h.inited] at hc'
    cases hc'
  | dispatch hc | spin hc =>
    unfold schedRound at hc' ⊢
    dsimp only at hc' ⊢
    split_ifs at hc' ⊢ with h₁ h₂ h₃
    · exact hu hc'
    · exact h₃
  | yield hc =>
    rw [schedYield_eq h (hu hc)] at hc'
    cases hc'
  | exit hc =>
    rw [schedExit, schedRequeue_eq h (hu hc)]
    exact hu hc
  | sleep hc =>
    rw [schedSleep_eq h (hu hc)]
    unfold schedAddBlock
    split_ifs <;> exact hu hc
  | timer | addReady | delReady | procExit => cases he

/-- A run of creations, dispatches, yields, exits and sleeps from the start. -/
def LifeRun (g : Places) (tr : List Event) (s : Kernel) : Prop :=
  (∃ raw stack, Trace Step (bootKernel g raw stack) tr s) ∧ ∀ e ∈ tr, e.IsLife

/-- A run at an exit: what follows starts with a process that has ended. -/
theorem ended_of_trace (h : At g s) (hu : s.control = .user → s.scheduler.proc ≠ 0)
    {tr₁ tr₂ : List Event} (ht : Trace Step s (tr₁ ++ .exit p :: tr₂) s')
    (he : ∀ e ∈ tr₁ ++ .exit p :: tr₂, e.IsLife) : ∃ t, Ended g t p ∧ Trace Step t tr₂ s' := by
  induction tr₁ generalizing s with
  | nil =>
    cases ht with
    | cons hs hrest =>
      cases hs with
      | exit hc => exact ⟨_, .of_exit h hc (hu hc), hrest⟩
  | cons e tr₁ ih =>
    cases ht with
    | cons hs hrest =>
      have he₁ := he e List.mem_cons_self
      exact ih (h.step hs) (user_proc_ne_zero h hu he₁ hs) hrest
        fun e he' => he e (List.mem_cons_of_mem _ he')

/-- In a run in which no process yields after its exit, no process is dispatched after its exit. -/
theorem exit_final (g : Places) (tr : List Event) (s : Kernel) (hrun : LifeRun g tr s)
    (hkeeps : KeepsCpu tr) : StaysEnded tr s := by
  obtain ⟨⟨raw, stack, ht⟩, he⟩ := hrun
  intro tr₁ p tr₂ htr
  have hyield := hkeeps tr₁ p tr₂ htr
  subst htr
  obtain ⟨t, hended, hrest⟩ := ended_of_trace (bootKernel_inv g raw stack).places
    (by simp [bootKernel_control]) ht he
  obtain ⟨hlast, hnot⟩ := hended.trace hrest
    (fun e he' => he e (List.mem_append_right _ (List.mem_cons_of_mem _ he'))) hyield
  refine ⟨hnot, ?_⟩
  rcases hlast.state with hst | hst <;> simp [hst]

/-- A process that exits, creates another process and sleeps. -/
theorem exit_final_main :
    let s := schedRound (sched (procCreate mainKernel 0xC0101000).2)
    StaysEnded [.create 0xC0110000, .start, .dispatch 0xC0110000, .exit 0xC0110000,
      .create 0xC011001C, .sleep 0xC0110000] (schedSleep (procCreate (schedExit s) 0xC0101040).2) := by
  intro s
  apply exit_final mainPlaces
  · refine ⟨⟨rawKernel, 0xC2001000, ?_⟩, by simp [Event.IsLife]⟩
    apply Trace.cons (.create_of 0xC0101000 (by decide +kernel) (by decide +kernel))
    apply Trace.cons (.start (by decide +kernel))
    apply Trace.cons (.dispatch_of (by decide +kernel) (by decide +kernel) (by decide +kernel))
    apply Trace.cons (.exit_of (by decide +kernel) (by decide +kernel))
    apply Trace.cons (.create_of 0xC0101040 (by decide +kernel) (by decide +kernel))
    exact Trace.cons (.sleep_of (by decide +kernel) (by decide +kernel)) (.nil _)
  · intro tr₁ p tr₂ htr hmem
    have hall : Event.yield p ∈ tr₁ ++ .exit p :: tr₂ := by simp [hmem]
    rw [← htr] at hall
    simp at hall

/-- A process that exits and yields is dispatched again. -/
theorem exit_final_fails : ¬∀ g tr s, LifeRun g tr s → StaysEnded tr s := by
  intro hall
  let s := schedRound (sched (procCreate mainKernel 0xC0101000).2)
  have hrun : LifeRun mainPlaces [.create 0xC0110000, .start, .dispatch 0xC0110000,
      .exit 0xC0110000, .yield 0xC0110000, .dispatch 0xC0110000]
      (schedRound (schedYield (schedExit s))) := by
    refine ⟨⟨rawKernel, 0xC2001000, ?_⟩, by simp [Event.IsLife]⟩
    apply Trace.cons (.create_of 0xC0101000 (by decide +kernel) (by decide +kernel))
    apply Trace.cons (.start (by decide +kernel))
    apply Trace.cons (.dispatch_of (by decide +kernel) (by decide +kernel) (by decide +kernel))
    apply Trace.cons (.exit_of (by decide +kernel) (by decide +kernel))
    apply Trace.cons (.yield_of (by decide +kernel) (by decide +kernel))
    exact Trace.cons (.dispatch_of (by decide +kernel) (by decide +kernel) (by decide +kernel))
      (.nil _)
  have hends := hall _ _ _ hrun [.create 0xC0110000, .start, .dispatch 0xC0110000] 0xC0110000
    [.yield 0xC0110000, .dispatch 0xC0110000] rfl
  simp at hends

end YohdaOS.P32

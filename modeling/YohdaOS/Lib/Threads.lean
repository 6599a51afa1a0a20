import YohdaOS.Lib.Fifo
import YohdaOS.Lib.Runs

/-!
# Threads that take turns

Threads wait in a queue, each with the context that it will resume with.  A loop gives the turn to the
first of them, and a thread that yields goes to the end of the queue with the context it leaves, while
the loop gets back the one that it left.  So what is resumed is what was left, in the same order.
-/

namespace Threads

variable {ι σ : Type*}

/-- Who runs: the loop, or a thread, behind which the loop waits with its context. -/
inductive Turn (ι σ : Type*) where
  | loop
  | thread (i : ι) (back : σ)

structure State (ι σ : Type*) where
  queue : List (ι × σ)
  turn : Turn ι σ

/-- A step of its own of whoever runs, a new thread, or a change of turns with the contexts that are
left and resumed. -/
inductive Event (ι σ : Type*) where
  | code
  | create (i : ι) (made : σ)
  | dispatch (i : ι) (left resumed : σ)
  | yield (i : ι) (left resumed : σ)

/-- The thread that has the turn. -/
def Turn.holder : Turn ι σ → List ι
  | .loop => []
  | .thread i _ => [i]

/-- The context of the loop, while it waits. -/
def Turn.kept : Turn ι σ → List σ
  | .loop => []
  | .thread _ back => [back]

def State.start : State ι σ := ⟨[], .loop⟩

def State.threads (s : State ι σ) : List ι := s.turn.holder ++ s.queue.map Prod.fst

inductive Step : State ι σ → Event ι σ → State ι σ → Prop
  | code (s : State ι σ) : Step s .code s
  | create (s : State ι σ) (i : ι) (made : σ) (hnew : i ∉ s.threads) :
      Step s (.create i made) { s with queue := s.queue ++ [(i, made)] }
  | dispatch (i : ι) (c left : σ) (q : List (ι × σ)) :
      Step ⟨(i, c) :: q, .loop⟩ (.dispatch i left c) ⟨q, .thread i left⟩
  | yield (i : ι) (back left : σ) (q : List (ι × σ)) :
      Step ⟨q, .thread i back⟩ (.yield i left back) ⟨q ++ [(i, left)], .loop⟩

/-- The thread that a step puts into the queue, with its context. -/
def Event.put : Event ι σ → List (ι × σ)
  | .create i made => [(i, made)]
  | .yield i left _ => [(i, left)]
  | _ => []

/-- The thread that a step takes from the queue, with the context that it resumes. -/
def Event.taken : Event ι σ → List (ι × σ)
  | .dispatch i _ resumed => [(i, resumed)]
  | _ => []

/-- The context that the loop leaves. -/
def Event.loopLeft : Event ι σ → List σ
  | .dispatch _ left _ => [left]
  | _ => []

/-- The context that the loop resumes. -/
def Event.loopResumed : Event ι σ → List σ
  | .yield _ _ resumed => [resumed]
  | _ => []

variable {s t : State ι σ} {e : Event ι σ} {tr : List (Event ι σ)}

theorem Step.queue (h : Step s e t) : Fifo.Moved s.queue e.put e.taken t.queue := by
  cases h with
  | code => exact .refl _
  | create i made => exact .put _ _
  | dispatch i c left q => exact .take _ _
  | yield i back left q => exact .put _ _

theorem Step.kept (h : Step s e t) : Fifo.Moved s.turn.kept e.loopLeft e.loopResumed t.turn.kept := by
  cases h with
  | code => exact .refl _
  | create => exact .refl _
  | dispatch i c left q => exact .put [] left
  | yield i back left q => exact .take back []

/-- The threads that are resumed, with their contexts, are those that were put into the queue, in
their order; so are the contexts of the loop. -/
theorem resumed_in_order (h : Runs.Trace Step s tr t) :
    Fifo.Moved s.queue (tr.flatMap Event.put) (tr.flatMap Event.taken) t.queue ∧
      Fifo.Moved s.turn.kept (tr.flatMap Event.loopLeft) (tr.flatMap Event.loopResumed)
        t.turn.kept := by
  induction h with
  | nil s => exact ⟨.refl _, .refl _⟩
  | cons hstep _ ih =>
    simp only [List.flatMap_cons]
    exact ⟨hstep.queue.trans ih.1, hstep.kept.trans ih.2⟩

end Threads

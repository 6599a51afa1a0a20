import Mathlib.Logic.Relation

/-!
# Runs of a system

A run is a chain of steps (`Relation.ReflTransGen`).  What holds at its start and is kept by every
step holds at its end.  A `Trace` is a run with the labels of its steps;
a simulation that keeps or translates the labels carries traces over.  `runOps` runs operations
that have an output; a relation kept by each of them carries the outputs from one system to another.
-/

namespace Runs

variable {σ : Type*} {step : σ → σ → Prop} {Inv : σ → Prop} {a b : σ}

theorem invariant_of_run (hrun : Relation.ReflTransGen step a b) (hstart : Inv a)
    (hstep : ∀ x y, Inv x → step x y → Inv y) : Inv b := by
  induction hrun with
  | refl => exact hstart
  | tail _ hxy ih => exact hstep _ _ ih hxy

/-- Where the steps of one system are steps of another, as long as what those keep holds, so are its
runs. -/
theorem run_mono {step' : σ → σ → Prop} (Inv : σ → Prop) (hrun : Relation.ReflTransGen step a b) (hstart : Inv a)
    (hinv : ∀ x y, Inv x → step' x y → Inv y) (hstep : ∀ x y, Inv x → step x y → step' x y) :
    Relation.ReflTransGen step' a b ∧ Inv b := by
  induction hrun with
  | refl => exact ⟨.refl, hstart⟩
  | tail _ hxy ih =>
    have hxy' := hstep _ _ ih.2 hxy
    exact ⟨ih.1.tail hxy', hinv _ _ ih.2 hxy'⟩

section

variable {ε : Type*} {lstep : σ → ε → σ → Prop} {ok : ε → Prop} {tr : List ε}

inductive Trace (lstep : σ → ε → σ → Prop) : σ → List ε → σ → Prop
  | nil (a : σ) : Trace lstep a [] a
  | cons {a b c : σ} {e : ε} {tr : List ε} (hstep : lstep a e b) (hrest : Trace lstep b tr c) :
      Trace lstep a (e :: tr) c

/-- What every step with an admitted label keeps holds at the end. -/
theorem invariant_of_trace (h : Trace lstep a tr b) (hstart : Inv a) (hok : ∀ e ∈ tr, ok e)
    (hstep : ∀ x e y, Inv x → ok e → lstep x e y → Inv y) : Inv b := by
  induction h with
  | nil => exact hstart
  | cons hxy _ ih =>
    apply ih (hstep _ _ _ hstart (hok _ List.mem_cons_self) hxy)
    exact fun e he => hok e (List.mem_cons_of_mem _ he)

/-- Where every step has one with the label `f` gives on related states, so has every trace. -/
theorem trace_map_sim {τ δ : Type*} {astep : τ → δ → τ → Prop} {R : σ → τ → Prop} {f : ε → δ} {t : τ}
    (hstep : ∀ x e y t, R x t → lstep x e y → ∃ t', astep t (f e) t' ∧ R y t')
    (h : Trace lstep a tr b) (hR : R a t) : ∃ t', Trace astep t (tr.map f) t' ∧ R b t' := by
  induction h generalizing t with
  | nil => exact ⟨t, .nil t, hR⟩
  | cons hxy _ ih =>
    obtain ⟨t₁, ht₁, hR₁⟩ := hstep _ _ _ t hR hxy
    obtain ⟨t₂, ht₂, hR₂⟩ := ih hR₁
    exact ⟨t₂, .cons ht₁ ht₂, hR₂⟩

/-- Where every step has an equally labelled one on related states, so has every trace. -/
theorem trace_sim {τ : Type*} {astep : τ → ε → τ → Prop} {R : σ → τ → Prop} {t : τ}
    (hstep : ∀ x e y t, R x t → lstep x e y → ∃ t', astep t e t' ∧ R y t')
    (h : Trace lstep a tr b) (hR : R a t) : ∃ t', Trace astep t tr t' ∧ R b t' := by
  have := trace_map_sim (f := id) hstep h hR
  rwa [List.map_id] at this

end

/-! ## Operations with outputs -/

section

variable {τ ω ο : Type*} {cstep : σ → ω → ο × σ} {astep : τ → ω → ο × τ} {ok : τ → ω → Prop}
  {R : σ → τ → Prop} {s : σ} {t : τ} {ops : List ω}

/-- The outputs of a list of operations and the state they leave. -/
def runOps (step : σ → ω → ο × σ) : σ → List ω → List ο × σ
  | s, [] => ([], s)
  | s, x :: ops =>
    let r := step s x
    let rs := runOps step r.2 ops
    (r.1 :: rs.1, rs.2)

/-- Each operation is admitted in the state in which it is executed. -/
def Admitted (ok : τ → ω → Prop) (step : τ → ω → ο × τ) : τ → List ω → Prop
  | _, [] => True
  | t, x :: ops => ok t x ∧ Admitted ok step (step t x).2 ops

/-- Where each admitted operation has the same output on related states and keeps them related, so
does each list of them. -/
theorem runOps_sim (hstep : ∀ s t x, R s t → ok t x →
      (cstep s x).1 = (astep t x).1 ∧ R (cstep s x).2 (astep t x).2)
    (h : R s t) (hok : Admitted ok astep t ops) :
    (runOps cstep s ops).1 = (runOps astep t ops).1 ∧
      R (runOps cstep s ops).2 (runOps astep t ops).2 := by
  induction ops generalizing s t with
  | nil => exact ⟨rfl, h⟩
  | cons x ops ih =>
    obtain ⟨hx, hops⟩ := hok
    obtain ⟨hout, hrel⟩ := hstep s t x h hx
    obtain ⟨houts, hrels⟩ := ih hrel hops
    refine ⟨?_, hrels⟩
    simp only [runOps]
    rw [hout, houts]

/-- Where an operation that is not admitted has a different output, too, equal outputs mean that all
operations were admitted. -/
theorem runOps_outputs_iff (hstep : ∀ s t x, R s t → ok t x →
      (cstep s x).1 = (astep t x).1 ∧ R (cstep s x).2 (astep t x).2)
    (hfail : ∀ s t x, R s t → ¬ok t x → (cstep s x).1 ≠ (astep t x).1) (h : R s t) :
    (runOps cstep s ops).1 = (runOps astep t ops).1 ↔ Admitted ok astep t ops := by
  refine ⟨fun heq => ?_, fun hok => (runOps_sim hstep h hok).1⟩
  induction ops generalizing s t with
  | nil => trivial
  | cons x ops ih =>
    simp only [runOps, List.cons.injEq] at heq
    have hx : ok t x := Classical.byContradiction fun hx => hfail s t x h hx heq.1
    exact ⟨hx, ih (hstep s t x h hx).2 heq.2⟩

end

end Runs

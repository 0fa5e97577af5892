import Mathlib.Data.List.Basic

/-!
# Labelled runs and their invariants

A system is a relation `Step s a s'` between states, labelled by the action
that was taken.  This module fixes the vocabulary in which every whole-run
result of the development is stated: finite runs, runs restricted to actions
that meet a condition in the state before the step, and the induction rule that
turns a one-step preservation lemma into a statement about every state reached.

Main results:

- Theorem `Run.invariant`: what every step keeps holds after every run.
- Theorem `Run.invariant_guarded`: the same for runs whose steps all meet a
  condition.
-/

namespace FastIpc
namespace Foundation

variable {σ τ α β : Type}

/-- Finite runs of a labelled step relation, extended at the end. -/
inductive Run (Step : σ → α → σ → Prop) (s : σ) : List α → σ → Prop where
  | nil : Run Step s [] s
  | snoc {l : List α} {t u : σ} {a : α} :
      Run Step s l t → Step t a u → Run Step s (l ++ [a]) u

/-- The sub-relation of steps that meet `ok` in the state before them. -/
def Guarded (ok : σ → α → Prop) (Step : σ → α → σ → Prop) (s : σ) (a : α) (t : σ) : Prop :=
  ok s a ∧ Step s a t

/-- The graph of a partial step function, as a step relation. -/
def StepOf (step : σ → α → Option σ) (s : σ) (a : α) (t : σ) : Prop := step s a = some t

variable {Step : σ → α → σ → Prop} {ok : σ → α → Prop}

/-- A predicate kept by every step holds after every run that starts in it. -/
theorem Run.invariant {Inv : σ → Prop} {s t : σ} {l : List α}
    (hstep : ∀ {u a v}, Inv u → Step u a v → Inv v)
    (hrun : Run Step s l t) (hs : Inv s) : Inv t := by
  induction hrun with
  | nil => exact hs
  | snoc _ hlast ih => exact hstep ih hlast

/-- The invariant rule for runs whose steps all meet a condition. -/
theorem Run.invariant_guarded {Inv : σ → Prop} {s t : σ} {l : List α}
    (hstep : ∀ {u a v}, Inv u → ok u a → Step u a v → Inv v)
    (hrun : Run (Guarded ok Step) s l t) (hs : Inv s) : Inv t :=
  hrun.invariant (fun hu hg => hstep hu hg.1 hg.2) hs

/-- Runs are monotone in the step relation. -/
theorem Run.mono {Step' : σ → α → σ → Prop} {s t : σ} {l : List α}
    (hsub : ∀ {u a v}, Step u a v → Step' u a v) (hrun : Run Step s l t) : Run Step' s l t := by
  induction hrun with
  | nil => exact Run.nil
  | snoc _ hlast ih => exact ih.snoc (hsub hlast)

/-- Two consecutive runs form one run. -/
theorem Run.append {s t u : σ} {l m : List α}
    (hfirst : Run Step s l t) (hsecond : Run Step t m u) : Run Step s (l ++ m) u := by
  induction hsecond with
  | nil => simpa using hfirst
  | snoc _ hlast ih =>
    rw [← List.append_assoc]
    exact ih.snoc hlast

/-- A step followed by a run is a run. -/
theorem Run.cons {s t u : σ} {a : α} {l : List α}
    (hfirst : Step s a t) (hrest : Run Step t l u) : Run Step s (a :: l) u := by
  have hone : Run Step s [a] t := Run.nil.snoc (l := []) hfirst
  simpa using hone.append hrest

/-! ## Executing a schedule -/

/-- Execute a list of actions with a partial step function. -/
def exec (step : σ → α → Option σ) : σ → List α → Option σ
  | s, [] => some s
  | s, a :: l => (step s a).bind fun t => exec step t l

/-- The state that an execution ends in, with what can be decided of it. -/
theorem exists_exec {step : σ → α → Option σ} {s : σ} {l : List α} {P : σ → Prop}
    [DecidablePred P] (h : (exec step s l).any (fun t => decide (P t)) = true) :
    ∃ t, exec step s l = some t ∧ P t := by
  obtain ⟨t, hexec, hP⟩ := (Option.any_eq_true _ _).mp h
  exact ⟨t, hexec, of_decide_eq_true hP⟩

/-- A successful execution is a run of the step function's graph. -/
theorem run_of_exec {step : σ → α → Option σ} {s t : σ} {l : List α}
    (h : exec step s l = some t) : Run (StepOf step) s l t := by
  induction l generalizing s with
  | nil =>
    simp only [exec, Option.some.injEq] at h
    subst h
    exact Run.nil
  | cons a l ih =>
    simp only [exec, Option.bind_eq_some_iff] at h
    obtain ⟨u, hu, hrest⟩ := h
    exact Run.cons hu (ih hrest)

/-- Execute a list of actions, checking a condition before each. -/
def guardStep (ok : σ → α → Prop) [∀ s a, Decidable (ok s a)] (step : σ → α → Option σ)
    (s : σ) (a : α) : Option σ :=
  if ok s a then step s a else none

/-- A successful checked execution is a run whose steps all meet the condition. -/
theorem run_guarded_of_exec [∀ s a, Decidable (ok s a)] {step : σ → α → Option σ} {s t : σ}
    {l : List α} (h : exec (guardStep ok step) s l = some t) :
    Run (Guarded ok (StepOf step)) s l t := by
  have hguard : ∀ {u a v}, StepOf (guardStep ok step) u a v → Guarded ok (StepOf step) u a v := by
    intro u a v hstep
    unfold StepOf guardStep at hstep
    split at hstep
    next hok => exact ⟨hok, hstep⟩
    next => cases hstep
  exact (run_of_exec h).mono hguard

end Foundation
end FastIpc

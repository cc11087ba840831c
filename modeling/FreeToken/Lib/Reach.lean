import Mathlib.Data.List.Basic

/-!
# Guarded reachability

A partial step function `step : σ → α → Option σ` (`none` is a step the system
refuses or a raised exception) and a guard `ok` on the state *before* a step.
`Reach step ok s₀ s` says that `s` is reached from `s₀` by steps that all meet
the guard; with the trivial guard it is plain reachability.

The induction is packaged once, as `Reach.invariant`.
-/

namespace FreeToken.Lib

variable {σ α : Type*}

/-- States reached from `init` by steps that all satisfy the guard `ok`. -/
inductive Reach (step : σ → α → Option σ) (ok : σ → α → Prop) (init : σ) : σ → Prop
  | refl : Reach step ok init init
  | step {s s' : σ} {a : α} (hs : Reach step ok init s) (hok : ok s a)
      (hstep : step s a = some s') : Reach step ok init s'

variable {step : σ → α → Option σ} {ok ok' : σ → α → Prop} {init : σ}

/-- An invariant that holds initially and is kept by every guarded step holds
in every state a guarded run reaches. -/
theorem Reach.invariant {P : σ → Prop} (h0 : P init)
    (hstep : ∀ s a s', P s → ok s a → step s a = some s' → P s') {s : σ}
    (hs : Reach step ok init s) : P s := by
  induction hs with
  | refl => exact h0
  | step _ hok hst ih => exact hstep _ _ _ ih hok hst

/-- The end of a run given as a list of steps; `none` when one step is refused. -/
def run (step : σ → α → Option σ) : σ → List α → Option σ
  | s, [] => some s
  | s, a :: as => (step s a).bind fun s' => run step s' as

@[simp] theorem run_nil (s : σ) : run step s [] = some s := rfl

@[simp] theorem run_cons (s : σ) (a : α) (as : List α) :
    run step s (a :: as) = (step s a).bind fun s' => run step s' as := rfl

theorem run_append (as bs : List α) :
    ∀ s : σ, run step s (as ++ bs) = (run step s as).bind fun s' => run step s' bs := by
  induction as with
  | nil =>
    intro s
    rfl
  | cons a as ih =>
    intro s
    rw [List.cons_append, run_cons, run_cons]
    cases step s a with
    | none => rfl
    | some s' => exact ih s'

/-- Appending a run to a reached state stays reached, when no step is guarded. -/
theorem Reach.append_run {s : σ} (hs : Reach step (fun _ _ => True) init s) :
    ∀ {as : List α} {s' : σ}, run step s as = some s' →
      Reach step (fun _ _ => True) init s' := by
  intro as
  induction as generalizing s with
  | nil =>
    intro s' h
    rw [run_nil, Option.some.injEq] at h
    exact h ▸ hs
  | cons a as ih =>
    intro s' h
    rw [run_cons] at h
    obtain ⟨m, hm, h⟩ := Option.bind_eq_some_iff.mp h
    exact ih (.step hs trivial hm) h

/-- Every run from the initial state ends in a reachable state. -/
theorem reach_of_run (as : List α) {s : σ} (h : run step init as = some s) :
    Reach step (fun _ _ => True) init s :=
  Reach.refl.append_run h

/-- The end of a run whose steps all meet the guard; `none` when one does not. -/
def guardedRun (step : σ → α → Option σ) (ok : σ → α → Prop)
    [∀ s a, Decidable (ok s a)] : σ → List α → Option σ
  | s, [] => some s
  | s, a :: as => if ok s a then (step s a).bind fun s' => guardedRun step ok s' as else none

/-- A run that met the guard at every step stays in the guarded states. -/
theorem Reach.append_guardedRun [∀ s a, Decidable (ok s a)] {s : σ} (hs : Reach step ok init s) :
    ∀ {as : List α} {s' : σ}, guardedRun step ok s as = some s' → Reach step ok init s' := by
  intro as
  induction as generalizing s with
  | nil =>
    intro s' h
    rw [guardedRun, Option.some.injEq] at h
    exact h ▸ hs
  | cons a as ih =>
    intro s' h
    rw [guardedRun] at h
    split at h
    · obtain ⟨m, hm, h⟩ := Option.bind_eq_some_iff.mp h
      exact ih (.step hs ‹_› hm) h
    · cases h

theorem reach_of_guardedRun [∀ s a, Decidable (ok s a)] (as : List α) {s : σ}
    (h : guardedRun step ok init as = some s) : Reach step ok init s :=
  Reach.refl.append_guardedRun h

end FreeToken.Lib

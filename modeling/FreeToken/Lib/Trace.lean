import Mathlib.Data.List.Basic

/-!
# Runs that return answers

A partial call function `call : σ → α → Option (σ × ρ)` with a guard on the state
before a call, and a relation `step : τ → α → ρ → τ → Prop` that says which answers
a specification allows. `Trace` is a run of the one with what its calls returned,
`Allows` a run of the other over the same log.

## Results

* `Trace.refines` — a simulation call by call is one of whole runs;
* `trace_of_traceRun` — the traces of given calls, computed.
-/

namespace FreeToken.Lib

variable {σ τ α ρ : Type*}

/-- The log of a run from `init` whose calls all satisfy the guard `ok`. -/
inductive Trace (call : σ → α → Option (σ × ρ)) (ok : σ → α → Prop) (init : σ) :
    List (α × ρ) → σ → Prop
  | nil : Trace call ok init [] init
  | snoc {log : List (α × ρ)} {s s' : σ} {a : α} {r : ρ} (hs : Trace call ok init log s)
      (hok : ok s a) (hcall : call s a = some (s', r)) :
      Trace call ok init (log ++ [(a, r)]) s'

/-- The specification may answer the calls of the log as it says. -/
inductive Allows (step : τ → α → ρ → τ → Prop) (init : τ) : List (α × ρ) → τ → Prop
  | nil : Allows step init [] init
  | snoc {log : List (α × ρ)} {m m' : τ} {a : α} {r : ρ} (hm : Allows step init log m)
      (hstep : step m a r m') : Allows step init (log ++ [(a, r)]) m'

variable {call : σ → α → Option (σ × ρ)} {ok : σ → α → Prop} {step : τ → α → ρ → τ → Prop}
  {init s : σ} {log : List (α × ρ)}

theorem Trace.invariant {P : σ → Prop} (h0 : P init)
    (hcall : ∀ s a s' r, P s → ok s a → call s a = some (s', r) → P s')
    (hs : Trace call ok init log s) : P s := by
  induction hs with
  | nil => exact h0
  | snoc _ hok hc ih => exact hcall _ _ _ _ ih hok hc

/-- When every call is a step of the specification, every run is a run of it. -/
theorem Trace.refines {R : σ → τ → Prop} {init' : τ} (h0 : R init init')
    (hcall : ∀ s m a s' r, R s m → ok s a → call s a = some (s', r) →
      ∃ m', step m a r m' ∧ R s' m') (hs : Trace call ok init log s) :
    ∃ m, Allows step init' log m ∧ R s m := by
  induction hs with
  | nil => exact ⟨init', .nil, h0⟩
  | snoc _ hok hc ih =>
    obtain ⟨m, hm, hr⟩ := ih
    obtain ⟨m', hstep, hr'⟩ := hcall _ m _ _ _ hr hok hc
    exact ⟨m', .snoc hm hstep, hr'⟩

/-- The log of the given calls; `none` when one fails or its guard does. -/
def traceRun (call : σ → α → Option (σ × ρ)) (ok : σ → α → Prop) [∀ s a, Decidable (ok s a)] :
    σ → List (α × ρ) → List α → Option (σ × List (α × ρ))
  | s, log, [] => some (s, log)
  | s, log, a :: calls =>
    if ok s a then
      (call s a).bind fun r => traceRun call ok r.1 (log ++ [(a, r.2)]) calls
    else none

theorem Trace.append_traceRun [∀ s a, Decidable (ok s a)] (hs : Trace call ok init log s)
    {calls : List α} {s' : σ} {log' : List (α × ρ)}
    (h : traceRun call ok s log calls = some (s', log')) : Trace call ok init log' s' := by
  induction calls generalizing s log with
  | nil =>
    cases h
    exact hs
  | cons a calls ih =>
    rw [traceRun] at h
    split at h
    · rename_i hok
      obtain ⟨⟨t, r⟩, hc, h⟩ := Option.bind_eq_some_iff.mp h
      exact ih (.snoc hs hok hc) h
    · cases h

theorem trace_of_traceRun [∀ s a, Decidable (ok s a)] {calls : List α}
    (h : traceRun call ok init [] calls = some (s, log)) : Trace call ok init log s :=
  Trace.nil.append_traceRun h

end FreeToken.Lib

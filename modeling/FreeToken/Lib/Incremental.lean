import Mathlib.Algebra.Group.Hom.Defs
import Mathlib.Data.List.Induction

/-!
# Loops fed piece by piece

A `Loop` is a `while` loop whose body either goes on or stops; what it puts out
adds up. A reader keeps its state between feeds, each feed appends a piece of
input to the state (`push`) and runs the loop. When going on after a body with
more input has the same effect as having had that input from the start
(`Incremental`), running piece by piece and running on all the input agree
(`run_push`). Two states count as the same when `canon` makes them equal: it
leaves out what the loop keeps but will not look at again.
-/

namespace FreeToken.Lib

/-- The end of one run of a loop body: go on from, or stop in, the new state. -/
inductive Iter (σ ω : Type*) where
  | next (s : σ) (out : ω)
  | done (s : σ) (out : ω)

namespace Iter

variable {σ ω : Type*}

def state : Iter σ ω → σ
  | next s _ => s
  | done s _ => s

def out : Iter σ ω → ω
  | next _ o => o
  | done _ o => o

/-- The same iteration, with what it puts out read through `f`. -/
def mapOut {ω' : Type*} (f : ω → ω') : Iter σ ω → Iter σ ω'
  | next s o => next s (f o)
  | done s o => done s (f o)

/-- The same iteration, in states read through `f`. -/
def mapState {τ : Type*} (f : σ → τ) : Iter σ ω → Iter τ ω
  | next s o => next (f s) o
  | done s o => done (f s) o

end Iter

/-- A loop with its body and a measure of the state that shrinks as it goes on. -/
structure Loop (σ ω : Type*) where
  step : σ → Iter σ ω
  size : σ → Nat
  shrinks : ∀ s s' o, step s = .next s' o → size s' < size s

namespace Loop

variable {σ ω β : Type*} [AddMonoid ω] (L : Loop σ ω)

def runFor : Nat → σ → σ × ω
  | 0, s => (s, 0)
  | n + 1, s =>
    match L.step s with
    | .done s' o => (s', o)
    | .next s' o => let r := runFor n s'; (r.1, o + r.2)

/-- The loop from `s` to its end. -/
def run (s : σ) : σ × ω := L.runFor (L.size s + 1) s

theorem runFor_eq {n : Nat} {s : σ} (h : L.size s < n) : L.runFor n s = L.run s := by
  have main : ∀ (n m : Nat) (s : σ), L.size s < n → L.size s < m →
      L.runFor n s = L.runFor m s := by
    intro n
    induction n with
    | zero => intro m s hn; omega
    | succ n ih =>
      intro m s hn hm
      obtain ⟨m, rfl⟩ : ∃ k, m = k + 1 := ⟨m - 1, by omega⟩
      cases hs : L.step s with
      | done s' o => simp only [runFor, hs]
      | next s' o =>
        have hlt := L.shrinks s s' o hs
        simp only [runFor, hs, ih m s' (by omega) (by omega)]
  exact main _ _ _ h (Nat.lt_succ_self _)

variable {L} in
theorem run_done {s s' : σ} {o : ω} (h : L.step s = .done s' o) : L.run s = (s', o) := by
  simp only [run, runFor, h]

variable {L} in
theorem run_next {s s' : σ} {o : ω} (h : L.step s = .next s' o) :
    L.run s = ((L.run s').1, o + (L.run s').2) := by
  have hlt := L.shrinks s s' o h
  rw [← L.runFor_eq hlt, run, runFor]
  simp only [h]

variable {L} in
theorem run_congr {s t : σ} (h : L.step s = L.step t) : L.run s = L.run t := by
  cases ht : L.step t with
  | done s' o => rw [run_done ht, run_done (h.trans ht)]
  | next s' o => rw [run_next ht, run_next (h.trans ht)]

omit [AddMonoid ω] in
/-- The loop with its output read through `f`. -/
def mapOut {ω' : Type*} (f : ω → ω') : Loop σ ω' where
  step s := (L.step s).mapOut f
  size := L.size
  shrinks s s' o h := by
    cases hs : L.step s with
    | next t o' =>
      simp only [hs, Iter.mapOut, Iter.next.injEq] at h
      rw [← h.1]
      exact L.shrinks s t o' hs
    | done t o' => simp [hs, Iter.mapOut] at h

omit [AddMonoid ω] in
/-- What holds of a state in which the loop stops, and of a state when it holds of
the one the body goes on to, holds of every state. -/
theorem induct {P : σ → Prop} (hdone : ∀ s s' o, L.step s = .done s' o → P s)
    (hnext : ∀ s s' o, L.step s = .next s' o → P s' → P s) (s : σ) : P s := by
  induction hn : L.size s using Nat.strongRecOn generalizing s with
  | ind n ih =>
    cases hs : L.step s with
    | done s' o => exact hdone s s' o hs
    | next s' o =>
      have hlt := L.shrinks s s' o hs
      exact hnext s s' o hs (ih _ (by omega) s' rfl)

/-! ## Feeding -/

/-- Two ends of a run that differ in nothing that matters. -/
structure Same (canon : σ → σ) (r r' : σ × ω) : Prop where
  state : canon r.1 = canon r'.1
  out : r.2 = r'.2

namespace Same

variable {canon : σ → σ} {r r' r'' : σ × ω}

omit [AddMonoid ω] in
theorem refl (r : σ × ω) : Same canon r r := ⟨rfl, rfl⟩

omit [AddMonoid ω] in
theorem symm (h : Same canon r r') : Same canon r' r := ⟨h.state.symm, h.out.symm⟩

omit [AddMonoid ω] in
theorem trans (h : Same canon r r') (h' : Same canon r' r'') : Same canon r r'' :=
  ⟨h.state.trans h'.state, h.out.trans h'.out⟩

theorem add_left (o : ω) (h : Same canon r r') : Same canon (r.1, o + r.2) (r'.1, o + r'.2) :=
  ⟨h.state, congrArg (o + ·) h.out⟩

end Same

variable (push : σ → List β → σ) (canon : σ → σ)

/-- After one run of the body, more input has the effect it would have had before. -/
structure Incremental : Prop where
  push_append : ∀ s x y, push s (x ++ y) = push (push s x) y
  push_norm : ∀ s y, canon (push (canon s) y) = canon (push s y)
  run_norm : ∀ s, Same canon (L.run (canon s)) (L.run s)
  resumes : ∀ s y, Same canon (L.run (push s y))
    ((L.run (push (L.step s).state y)).1,
      (L.step s).out + (L.run (push (L.step s).state y)).2)

variable {L push canon}

namespace Incremental

theorem run_congr (h : L.Incremental push canon) {s t : σ} (hst : canon s = canon t) :
    Same canon (L.run s) (L.run t) := by
  have ht := h.run_norm t
  rw [← hst] at ht
  exact (h.run_norm s).symm.trans ht

theorem push_congr (h : L.Incremental push canon) {s t : σ} (hst : canon s = canon t) (y : List β) :
    canon (push s y) = canon (push t y) := by
  rw [← h.push_norm s, ← h.push_norm t, hst]

/-- **Running first and then on with more input is running with all the input.** -/
theorem run_push (h : L.Incremental push canon) (s : σ) (y : List β) :
    Same canon (L.run (push s y))
      ((L.run (push (L.run s).1 y)).1, (L.run s).2 + (L.run (push (L.run s).1 y)).2) := by
  induction s using L.induct with
  | hdone s s' o hs =>
    have hr := h.resumes s y
    rw [hs] at hr
    rw [run_done hs]
    exact hr
  | hnext s s' o hs ih =>
    have hr := h.resumes s y
    rw [hs] at hr
    rw [run_next hs]
    have hall := hr.trans (ih.add_left o)
    rwa [← add_assoc] at hall

end Incremental

end Loop

end FreeToken.Lib

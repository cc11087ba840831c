import Mathlib.Algebra.Order.Ring.Nat
import Mathlib.Data.List.Basic

/-!
# Copies of spans, and runs of numbers

A batch of copies, each of a span of addresses, and numbers that follow each other as one run. Main
results:

* `copySpans_of_writes`: an address that is written has the value that every copy to it agrees on.
* `runs_flatMap`: the runs of a list are the list, cut into pieces.
-/

namespace FreeToken.Lib

variable {β : Type*}

/-! ## Spans -/

/-- `length` elements, from `src` on to `dst` on. -/
structure Span where
  dst : Nat
  src : Nat
  length : Nat

namespace Span

def Writes (p : Span) (a : Nat) : Prop := p.dst ≤ a ∧ a < p.dst + p.length

instance (p : Span) (a : Nat) : Decidable (p.Writes a) := inferInstanceAs (Decidable (_ ∧ _))

def copy (source mem : Nat → β) (p : Span) : Nat → β :=
  fun a => if p.Writes a then source (p.src + (a - p.dst)) else mem a

end Span

/-- One copy after the other. -/
def copySpans (source : Nat → β) (spans : List Span) (mem : Nat → β) : Nat → β :=
  spans.foldl (Span.copy source) mem

variable {source mem : Nat → β} {spans : List Span} {a : Nat} {v : β}

theorem copySpans_of_not_writes (h : ∀ p ∈ spans, ¬p.Writes a) :
    copySpans source spans mem a = mem a := by
  induction spans generalizing mem with
  | nil => rfl
  | cons p spans ih =>
    have hrest : copySpans source spans (p.copy source mem) a = p.copy source mem a :=
      ih fun q hq => h q (List.mem_cons_of_mem _ hq)
    exact hrest.trans (if_neg (h p List.mem_cons_self))

/-- A value that is there, and that every copy brings, stays. -/
theorem copySpans_keep (hmem : mem a = v)
    (h : ∀ p ∈ spans, p.Writes a → source (p.src + (a - p.dst)) = v) :
    copySpans source spans mem a = v := by
  induction spans generalizing mem with
  | nil => exact hmem
  | cons p spans ih =>
    have hstep : p.copy source mem a = v := by
      show (if p.Writes a then source (p.src + (a - p.dst)) else mem a) = v
      split
      · rename_i hwrites
        exact h p List.mem_cons_self hwrites
      · exact hmem
    exact ih hstep fun q hq => h q (List.mem_cons_of_mem _ hq)

/-- **An address that is written** has the value that every copy to it brings. -/
theorem copySpans_of_writes (hwritten : ∃ p ∈ spans, p.Writes a)
    (h : ∀ p ∈ spans, p.Writes a → source (p.src + (a - p.dst)) = v) :
    copySpans source spans mem a = v := by
  induction spans generalizing mem with
  | nil =>
    obtain ⟨p, hp, -⟩ := hwritten
    cases hp
  | cons p spans ih =>
    have hrest : ∀ q ∈ spans, q.Writes a → source (q.src + (a - q.dst)) = v :=
      fun q hq => h q (List.mem_cons_of_mem _ hq)
    show copySpans source spans (p.copy source mem) a = v
    by_cases hp : p.Writes a
    · have hstep : p.copy source mem a = v := (if_pos hp).trans (h p List.mem_cons_self hp)
      exact copySpans_keep hstep hrest
    · obtain ⟨q, hq, hwrites⟩ := hwritten
      rcases List.mem_cons.mp hq with rfl | hq
      · exact absurd hwrites hp
      · exact ih ⟨q, hq, hwrites⟩ hrest

/-! ## Runs -/

/-- The runs of a list of numbers, each with its first number and its length. -/
def runs : List Nat → List (Nat × Nat)
  | [] => []
  | x :: xs =>
    match runs xs with
    | [] => [(x, 1)]
    | (start, length) :: rest =>
      if start = x + 1 then (x, length + 1) :: rest else (x, 1) :: (start, length) :: rest

/-- **The runs of a list are the list.** -/
theorem runs_flatMap (l : List Nat) : (runs l).flatMap (fun r => List.range' r.1 r.2) = l := by
  induction l with
  | nil => rfl
  | cons x xs ih =>
    unfold runs
    split
    · rename_i hruns
      rw [hruns] at ih
      rw [← ih]
      rfl
    · rename_i start length rest hruns
      rw [hruns, List.flatMap_cons] at ih
      split
      · rename_i hstart
        rw [List.flatMap_cons, ← ih, List.range'_succ, hstart]
        rfl
      · rw [List.flatMap_cons, List.flatMap_cons, ← ih]
        rfl

theorem mem_runs {l : List Nat} {x : Nat} :
    x ∈ l ↔ ∃ r ∈ runs l, r.1 ≤ x ∧ x < r.1 + r.2 := by
  conv_lhs => rw [← runs_flatMap l]
  simp only [List.mem_flatMap, List.mem_range'_1]

end FreeToken.Lib

import Mathlib.Data.List.TakeDrop

/-!
# Continuing a list by a function of itself

`chain next xs n` appends `n` elements to `xs`, each of them `next` of the list
so far. A guess at the continuation is checked in one go by evaluating `next`
after every prefix of the guess (`rows`); as long as the guess agrees with the
rows, the rows are the chain.

* `chain_add`  — a chain continues a chain.
* `append_rows` — the rows up to the first disagreement, and one more, are the chain.
-/

namespace FreeToken.Lib

variable {α : Type*} (next : List α → α)

def chain (xs : List α) : Nat → List α
  | 0 => xs
  | n + 1 => chain xs n ++ [next (chain xs n)]

@[simp] theorem chain_zero (xs : List α) : chain next xs 0 = xs := rfl

theorem chain_succ (xs : List α) (n : Nat) :
    chain next xs (n + 1) = chain next xs n ++ [next (chain next xs n)] := rfl

theorem chain_add (xs : List α) (m n : Nat) :
    chain next xs (m + n) = chain next (chain next xs m) n := by
  induction n with
  | zero => rfl
  | succ n ih => rw [← Nat.add_assoc, chain_succ, chain_succ, ih]

@[simp] theorem length_chain (xs : List α) (n : Nat) :
    (chain next xs n).length = xs.length + n := by
  induction n with
  | zero => rfl
  | succ n ih =>
    rw [chain_succ, List.length_append, ih, List.length_singleton]
    omega

/-- `next` after `xs` and after each prefix of the guess. -/
def rows (xs guess : List α) : List α :=
  (List.range (guess.length + 1)).map fun i => next (xs ++ guess.take i)

@[simp] theorem length_rows (xs guess : List α) :
    (rows next xs guess).length = guess.length + 1 := by
  rw [rows, List.length_map, List.length_range]

theorem rows_getElem {xs guess : List α} {i : Nat} (hi : i < (rows next xs guess).length) :
    (rows next xs guess)[i] = next (xs ++ guess.take i) := by
  simp only [rows, List.getElem_map, List.getElem_range]

/-- The rows up to the first disagreement with the guess, and the row there, are
the continuation that `next` makes by itself. -/
theorem append_rows {xs guess : List α} {j : Nat} (hj : j ≤ guess.length)
    (hagree : guess.take j = (rows next xs guess).take j) :
    xs ++ (rows next xs guess).take (j + 1) = chain next xs (j + 1) := by
  induction j with
  | zero =>
    have hlt : 0 < (rows next xs guess).length := by
      rw [length_rows]
      omega
    rw [List.take_add_one, List.getElem?_eq_getElem hlt, rows_getElem]
    simp [chain_succ]
  | succ j ih =>
    have hlt : j + 1 < (rows next xs guess).length := by
      rw [length_rows]
      omega
    have hprev : guess.take j = (rows next xs guess).take j := by
      have h := congrArg (List.take j) hagree
      simpa [List.take_take] using h
    have hchain := ih (by omega) hprev
    rw [List.take_add_one, ← List.append_assoc, hchain, List.getElem?_eq_getElem hlt,
      rows_getElem, hagree, hchain, chain_succ next xs (j + 1)]
    rfl

end FreeToken.Lib

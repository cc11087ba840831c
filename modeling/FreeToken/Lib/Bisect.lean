import Mathlib.Tactic.Common
import Mathlib.Data.List.GetD
import Mathlib.Order.Bounds.Basic

/-!
# Bisection for the greatest that fits

`bisect fits fuel low high` halves `[low, high]`: upwards from a midpoint that fits, and below one
that does not. Nothing is assumed of `fits`, so what is found is an edge, and not always the last.
Main results:

* `bisect_mem`, `bisect_fits`, `bisect_next`: what is found is in the interval, fits unless it is
  `low`, and the next does not.
* `bisect_greatest`: nothing greater fits, where all below what fits does.
* `bisectBest_greatest`: the same over a sorted list, of which the best so far is kept.
-/

namespace FreeToken.Lib

variable (fits : Nat → Bool) (fuel : Nat) {low high : Nat}

def bisect (fits : Nat → Bool) : Nat → Nat → Nat → Nat
  | 0, low, _ => low
  | fuel + 1, low, high =>
    if low < high then
      let mid := (low + high + 1) / 2
      if fits mid then bisect fits fuel mid high else bisect fits fuel low (mid - 1)
    else low

theorem bisect_mem (h : low ≤ high) :
    low ≤ bisect fits fuel low high ∧ bisect fits fuel low high ≤ high := by
  induction fuel generalizing low high with
  | zero => exact ⟨Nat.le_refl _, h⟩
  | succ fuel ih =>
    unfold bisect
    simp only
    split
    · split
      · have hin := @ih ((low + high + 1) / 2) high (by omega)
        omega
      · have hin := @ih low ((low + high + 1) / 2 - 1) (by omega)
        omega
    · exact ⟨Nat.le_refl _, h⟩

theorem bisect_fits :
    bisect fits fuel low high = low ∨ fits (bisect fits fuel low high) = true := by
  induction fuel generalizing low high with
  | zero => exact Or.inl rfl
  | succ fuel ih =>
    unfold bisect
    simp only
    split
    · split
      · next hmid =>
        rcases @ih ((low + high + 1) / 2) high with heq | hfits
        · right
          rw [heq]
          exact hmid
        · exact Or.inr hfits
      · exact ih
    · exact Or.inl rfl

/-- With a step for each element, the next one above does not fit. -/
theorem bisect_next (h : low ≤ high) (hfuel : high - low ≤ fuel) :
    bisect fits fuel low high = high ∨ fits (bisect fits fuel low high + 1) = false := by
  induction fuel generalizing low high with
  | zero =>
    left
    unfold bisect
    omega
  | succ fuel ih =>
    unfold bisect
    simp only
    split
    · split
      · exact ih (by omega) (by omega)
      · next hlt hmid =>
        rcases @ih low ((low + high + 1) / 2 - 1) (by omega) (by omega) with heq | hnext
        · right
          rw [heq, Nat.sub_add_cancel (by omega)]
          simpa using hmid
        · exact Or.inr hnext
    · exact Or.inl (by omega)

/-- **Nothing greater fits**, where all that is below what fits does. -/
theorem bisect_greatest (h : low ≤ high) (hfuel : high - low ≤ fuel)
    (hclosed : ∀ m s, low < m → m ≤ s → s ≤ high → fits s = true → fits m = true) {s : Nat}
    (hs : bisect fits fuel low high < s) (hhigh : s ≤ high) : fits s = false := by
  have hmem := bisect_mem fits fuel h
  rcases bisect_next fits fuel h hfuel with heq | hnext
  · omega
  · by_contra hfits
    rw [Bool.not_eq_false] at hfits
    rw [hclosed _ s (by omega) (by omega) hhigh hfits] at hnext
    cases hnext

/-! ## Over a sorted list -/

/-- The indices from `low` up to `stop` are still open, and `best` is the last that fitted. -/
def bisectBest (fits : Nat → Bool) (candidates : List Nat) (low stop best : Nat) : Nat :=
  if low < stop then
    let mid := (low + stop - 1) / 2
    let n := candidates.getD mid 0
    if fits n then bisectBest fits candidates (mid + 1) stop n
    else bisectBest fits candidates low mid best
  else best
termination_by stop - low
decreasing_by all_goals omega

theorem getD_le_of_sorted {l : List Nat} (h : l.Pairwise (· ≤ ·)) {i j : Nat} (hij : i ≤ j)
    (hj : j < l.length) : l.getD i 0 ≤ l.getD j 0 := by
  rw [List.getD_eq_getElem _ _ (hij.trans_lt hj), List.getD_eq_getElem _ _ hj]
  rcases Nat.eq_or_lt_of_le hij with rfl | hlt
  · exact Nat.le_refl _
  · exact List.pairwise_iff_getElem.mp h i j (hij.trans_lt hj) hj hlt

/-- **The greatest of a sorted list that fits**, where all below what fits does. -/
theorem bisectBest_greatest {candidates : List Nat} (hsorted : candidates.Pairwise (· ≤ ·))
    (hclosed : ∀ m s, m ≤ s → fits s = true → fits m = true) {stop best : Nat}
    (hstop : stop ≤ candidates.length) (hmem : best ∈ candidates) (hbest : fits best = true)
    (hbelow : ∀ i < low, candidates.getD i 0 ≤ best)
    (habove : ∀ i, stop ≤ i → i < candidates.length → fits (candidates.getD i 0) = false) :
    IsGreatest {n | n ∈ candidates ∧ fits n = true}
      (bisectBest fits candidates low stop best) := by
  induction hopen : stop - low using Nat.strong_induction_on generalizing low stop best with
  | _ k ih =>
    rw [bisectBest]
    split
    · rename_i hlt
      have hmid : (low + stop - 1) / 2 < candidates.length := by omega
      simp only
      split
      · next hfits =>
        refine ih _ ?_ hstop ?_ hfits ?_ habove rfl
        · omega
        · rw [List.getD_eq_getElem _ _ hmid]
          exact List.getElem_mem hmid
        · intro i hi
          exact getD_le_of_sorted hsorted (by omega) hmid
      · next hfits =>
        refine ih _ ?_ (by omega) hmem hbest hbelow ?_ rfl
        · omega
        · intro i hi hlen
          by_contra hfit
          exact hfits (hclosed _ _ (getD_le_of_sorted hsorted hi hlen) (by simpa using hfit))
    · rename_i hlt
      refine ⟨⟨hmem, hbest⟩, fun n hn => ?_⟩
      obtain ⟨i, hi, rfl⟩ := List.getElem_of_mem hn.1
      rw [← List.getD_eq_getElem _ 0 hi]
      rcases Nat.lt_or_ge i low with h | h
      · exact hbelow i h
      · -- an index from `stop` on does not fit
        have hnot := habove i (by omega) hi
        rw [List.getD_eq_getElem _ _ hi, hn.2] at hnot
        cases hnot

end FreeToken.Lib

import Mathlib.Tactic.Common

/-!
# Doubling and halving for the greatest that fits

A bracket is doubled until its upper end does not fit, and halved until its ends are neighbours.
Main results:

* `double_spec`: the doubling ends, at one that does not fit.
* `halve_spec`: the halving ends, at one that fits and whose successor does not.
* `greatest_of_next`: nothing above fits, where all below what fits does.
-/

namespace FreeToken.Lib

def double (fits : Nat → Bool) : Nat → Nat → Option Nat
  | 0, _ => none
  | fuel + 1, high => if fits high then double fits fuel (high * 2) else some high

def halve (fits : Nat → Bool) : Nat → Nat → Nat → Option Nat
  | 0, _, _ => none
  | fuel + 1, low, high =>
    if low + 1 < high then
      if fits ((low + high) / 2) then halve fits fuel ((low + high) / 2) high
      else halve fits fuel low ((low + high) / 2)
    else some low

variable {fits : Nat → Bool} {low high bound : Nat}

theorem double_spec (hbound : ∀ n, bound ≤ n → fits n = false) :
    ∀ fuel high, 0 < high → 0 < fuel → bound < high + fuel →
      ∃ n, double fits fuel high = some n ∧ high ≤ n ∧ n ≤ max high (bound * 2) ∧
        fits n = false := by
  intro fuel
  induction fuel with
  | zero =>
    intro high _ hfuel _
    omega
  | succ fuel ih =>
    intro high hhigh _ hfuel
    rw [double]
    split
    · rename_i hfits
      have hbelow : high < bound := by
        by_contra hge
        rw [hbound high (Nat.le_of_not_lt hge)] at hfits
        cases hfits
      obtain ⟨n, hn, hle, hmax, hnot⟩ := ih (high * 2) (by omega) (by omega) (by omega)
      exact ⟨n, hn, by omega, by omega, hnot⟩
    · rename_i hfits
      exact ⟨high, rfl, Nat.le_refl high, Nat.le_max_left _ _, by simpa using hfits⟩

theorem halve_spec : ∀ fuel low high, low < high → high - low ≤ fuel → fits low = true →
    fits high = false → ∃ n, halve fits fuel low high = some n ∧ low ≤ n ∧ fits n = true ∧
      fits (n + 1) = false := by
  intro fuel
  induction fuel with
  | zero =>
    intro low high hlt hfuel
    omega
  | succ fuel ih =>
    intro low high hlt hfuel hlow hhigh
    rw [halve]
    split
    · split
      · rename_i hmid
        obtain ⟨n, hn, hle, hfits⟩ := ih ((low + high) / 2) high (by omega) (by omega) hmid hhigh
        exact ⟨n, hn, by omega, hfits⟩
      · rename_i hmid
        exact ih low ((low + high) / 2) (by omega) (by omega) hlow (by simpa using hmid)
    · obtain rfl : high = low + 1 := by omega
      exact ⟨low, rfl, Nat.le_refl low, hlow, hhigh⟩

theorem greatest_of_next {n : Nat} (hclosed : ∀ m k, low ≤ m → m ≤ k → fits k = true → fits m = true)
    (hlow : low ≤ n) (hnext : fits (n + 1) = false) {k : Nat} (hk : n < k) : fits k = false := by
  by_contra hfits
  rw [hclosed (n + 1) k (by omega) hk (by simpa using hfits)] at hnext
  cases hnext

end FreeToken.Lib

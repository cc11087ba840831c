import Mathlib.Algebra.BigOperators.Group.List.Basic
import Mathlib.Algebra.Ring.Nat
import Mathlib.Data.List.Nodup

/-!
# What a list of distinct keys holds

`holdings keys f` adds up `f` over the keys a ledger lists. Booking one key in or
out, or changing what one key holds, changes the total by exactly that key's share.
-/

namespace FreeToken.Lib

variable {ι : Type*} [DecidableEq ι] {keys : List ι} {f g : ι → ℕ} {i : ι}

def holdings (keys : List ι) (f : ι → ℕ) : ℕ := (keys.map f).sum

omit [DecidableEq ι] in
@[simp] theorem holdings_nil (f : ι → ℕ) : holdings [] f = 0 := rfl

omit [DecidableEq ι] in
theorem holdings_congr (h : ∀ i ∈ keys, f i = g i) : holdings keys f = holdings keys g :=
  congrArg List.sum (List.map_congr_left h)

omit [DecidableEq ι] in
theorem holdings_append (f : ι → ℕ) (i : ι) : holdings (keys ++ [i]) f = holdings keys f + f i := by
  simp [holdings]

theorem holdings_erase (hi : i ∈ keys) (f : ι → ℕ) :
    holdings (keys.erase i) f + f i = holdings keys f := by
  rw [add_comm]
  exact List.sum_map_erase f hi

theorem holdings_filter_ne (hnd : keys.Nodup) (hi : i ∈ keys) (f : ι → ℕ) :
    holdings (keys.filter (· ≠ i)) f + f i = holdings keys f := by
  have h : keys.filter (· ≠ i) = keys.erase i := by
    rw [hnd.erase_eq_filter]
    exact List.filter_congr fun j _ => by by_cases hj : j = i <;> simp [hj]
  rw [h]
  exact holdings_erase hi f

/-- One key now holds something else. -/
theorem holdings_change (hnd : keys.Nodup) (hi : i ∈ keys) (h : ∀ j ∈ keys, j ≠ i → g j = f j) :
    holdings keys g + f i = holdings keys f + g i := by
  have hrest : holdings (keys.erase i) g = holdings (keys.erase i) f :=
    holdings_congr fun j hj =>
      h j (List.mem_of_mem_erase hj) fun hji => hnd.not_mem_erase (hji ▸ hj)
  rw [← holdings_erase hi f, ← holdings_erase hi g, hrest]
  omega

end FreeToken.Lib

import Mathlib.Algebra.BigOperators.Group.Finset.Basic
import Mathlib.Algebra.Order.BigOperators.Group.Multiset
import Mathlib.Algebra.Ring.Nat
import Mathlib.Data.Multiset.UnionInter

/-!
# Totals over a numbered store

`tally f N` adds up `f 0 … f (N - 1)` in any commutative monoid: counts, lengths,
or multisets of what the entries hold. A step changes one or two entries, so the
new total is read off the entries it changed.

## Results

* `tally_change` — one entry changed;
* `tally_split` — one entry gave a part of what it held to a new one;
* `mem_tally`, `nodup_tally` — members of a total of multisets;
* `tally_ite_one`, `tally_le_of_le_one` — a total of ones is a count.
-/

namespace FreeToken.Lib

variable {M : Type*} [AddCommMonoid M] {f g : ℕ → M} {N n : ℕ}

def tally (f : ℕ → M) (N : ℕ) : M := ∑ n ∈ Finset.range N, f n

@[simp] theorem tally_zero (f : ℕ → M) : tally f 0 = 0 := Finset.sum_range_zero f

theorem tally_succ (f : ℕ → M) (N : ℕ) : tally f (N + 1) = tally f N + f N :=
  Finset.sum_range_succ f N

theorem tally_congr (h : ∀ n < N, f n = g n) : tally f N = tally g N :=
  Finset.sum_congr rfl fun n hn => h n (Finset.mem_range.mp hn)

theorem tally_eq_zero (h : ∀ n < N, f n = 0) : tally f N = 0 :=
  Finset.sum_eq_zero fun n hn => h n (Finset.mem_range.mp hn)

/-- The total is one entry and the rest. -/
theorem tally_eq_add (f : ℕ → M) (hn : n < N) :
    tally f N = f n + ∑ m ∈ (Finset.range N).erase n, f m :=
  (Finset.add_sum_erase _ f (Finset.mem_range.mpr hn)).symm

theorem tally_change (hn : n < N) (h : ∀ m, m ≠ n → g m = f m) :
    tally g N + f n = tally f N + g n := by
  have hrest : ∑ m ∈ (Finset.range N).erase n, g m = ∑ m ∈ (Finset.range N).erase n, f m :=
    Finset.sum_congr rfl fun m hm => h m (Finset.ne_of_mem_erase hm)
  rw [tally_eq_add f hn, tally_eq_add g hn, hrest, add_comm (g n), add_comm (f n), add_right_comm]

/-- Entry `n` is split between itself and the new entry `N`. -/
theorem tally_split (hn : n < N) (h : ∀ m < N, m ≠ n → g m = f m) (hsum : g N + g n = f n) :
    tally g (N + 1) = tally f N := by
  have hrest : ∑ m ∈ (Finset.range N).erase n, g m = ∑ m ∈ (Finset.range N).erase n, f m :=
    Finset.sum_congr rfl fun m hm =>
      h m (Finset.mem_range.mp (Finset.mem_of_mem_erase hm)) (Finset.ne_of_mem_erase hm)
  rw [tally_succ, tally_eq_add f hn, tally_eq_add g hn, hrest, ← hsum, add_comm, add_assoc]

/-- A total of what a homomorphism makes of the entries. -/
theorem map_tally {M' : Type*} [AddCommMonoid M'] (φ : M →+ M') (f : ℕ → M) (N : ℕ) :
    φ (tally f N) = tally (fun n => φ (f n)) N :=
  map_sum φ f _

/-- A total of ones counts. -/
theorem tally_ite_one (p : ℕ → Bool) (N : ℕ) :
    tally (fun n => if p n = true then (1 : ℤ) else 0) N =
      (((List.range N).filter p).length : ℤ) := by
  induction N with
  | zero => rfl
  | succ N ih =>
    rw [tally_succ, ih, List.range_succ, List.filter_append, List.length_append]
    by_cases h : p N = true
    · simp [h]
    · simp [h]

theorem tally_le_of_le_one {f : ℕ → ℕ} (h : ∀ n, f n ≤ 1) (N : ℕ) : tally f N ≤ N := by
  induction N with
  | zero => simp
  | succ N ih =>
    have := h N
    rw [tally_succ]
    omega

variable {α : Type*} {h : ℕ → Multiset α}

theorem mem_tally {a : α} : a ∈ tally h N ↔ ∃ n < N, a ∈ h n := by
  induction N with
  | zero => simp
  | succ N ih =>
    rw [tally_succ, Multiset.mem_add, ih]
    constructor
    · rintro (⟨n, hn, ha⟩ | ha)
      · exact ⟨n, by omega, ha⟩
      · exact ⟨N, by omega, ha⟩
    · rintro ⟨n, hn, ha⟩
      by_cases hnN : n = N
      · exact .inr (hnN ▸ ha)
      · exact .inl ⟨n, by omega, ha⟩

/-- Entries without repetitions and without a member in common. -/
theorem nodup_tally (hnd : ∀ n < N, (h n).Nodup)
    (hdisj : ∀ m < N, ∀ n < N, ∀ a, a ∈ h m → a ∈ h n → m = n) : (tally h N).Nodup := by
  induction N with
  | zero => simp
  | succ N ih =>
    rw [tally_succ, Multiset.nodup_add]
    refine ⟨ih (fun n hn => hnd n (by omega)) fun m hm n hn => hdisj m (by omega) n (by omega),
      hnd N (by omega), ?_⟩
    rw [Multiset.disjoint_left]
    intro a ha haN
    obtain ⟨m, hm, ham⟩ := mem_tally.mp ha
    have := hdisj m (by omega) N (by omega) a ham haN
    omega

end FreeToken.Lib

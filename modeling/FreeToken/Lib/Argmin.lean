import Mathlib.Data.List.MinMax
import Mathlib.Data.List.Range

/-!
# The first least lane

`argmin f n` is the lane below `n` where `f` is least, the first of them on a tie: what a reduction
over a masked block returns. Main results:

* `argmin_lt`, `argmin_le`, `lt_of_lt_argmin`: what the lane is.
* `argmin_eq`: and that nothing else is.
* `foldl_max_spec`: a running maximum is above all, and one of them.
-/

namespace FreeToken.Lib

variable {α : Type*} [LinearOrder α] {f : Nat → α} {n s : Nat}

def argmin (f : Nat → α) (n : Nat) : Nat := ((List.range n).argmin f).getD 0

theorem argmin_mem (hn : 0 < n) : argmin f n ∈ (List.range n).argmin f := by
  unfold argmin
  cases h : (List.range n).argmin f with
  | none =>
    rw [List.argmin_eq_none, List.range_eq_nil] at h
    omega
  | some m => rfl

theorem argmin_lt (hn : 0 < n) : argmin f n < n :=
  List.mem_range.mp (List.argmin_mem (argmin_mem hn))

theorem argmin_le (hs : s < n) : f (argmin f n) ≤ f s :=
  List.le_of_mem_argmin (List.mem_range.mpr hs) (argmin_mem (by omega))

theorem idxOf_range (hs : s < n) : (List.range n).idxOf s = s := by
  have hidx := (List.nodup_range (n := n)).idxOf_getElem s (by simpa using hs)
  rwa [List.getElem_range] at hidx

/-- Before it, every lane is greater. -/
theorem lt_of_lt_argmin (hn : 0 < n) (hs : s < argmin f n) : f (argmin f n) < f s := by
  have hlt := argmin_lt (f := f) hn
  refine lt_of_le_of_ne (argmin_le (by omega)) fun heq => ?_
  have hidx := List.index_of_argmin (argmin_mem hn) (List.mem_range.mpr (by omega : s < n)) heq.ge
  rw [idxOf_range hlt, idxOf_range (by omega)] at hidx
  omega

theorem argmin_eq {m : Nat} (hm : m < n) (hle : ∀ s < n, f m ≤ f s) (hlt : ∀ s < m, f m < f s) :
    argmin f n = m := by
  have hn : 0 < n := by omega
  rcases Nat.lt_trichotomy (argmin f n) m with h | h | h
  · exact absurd (argmin_le hm) (not_le.mpr (hlt _ h))
  · exact h
  · exact absurd (hle _ (argmin_lt hn)) (not_le.mpr (lt_of_lt_argmin hn h))

/-! ## The first greatest lane -/

def argmax (f : Nat → α) (n : Nat) : Nat := argmin (fun s => OrderDual.toDual (f s)) n

/-- The one greatest lane is found. -/
theorem argmax_eq {m : Nat} (hm : m < n) (hlt : ∀ s < n, s ≠ m → f s < f m) : argmax f n = m := by
  refine argmin_eq hm (fun s hs => ?_) fun s hs => ?_
  · by_cases heq : s = m
    · rw [heq]
    · exact OrderDual.toDual_le_toDual.mpr (hlt s hs heq).le
  · exact OrderDual.toDual_lt_toDual.mpr (hlt s (by omega) (Nat.ne_of_lt hs))

/-! ## The running maximum -/

theorem foldl_max_spec (l : List Nat) : ∀ m, m ≤ l.foldl max m ∧ (∀ x ∈ l, x ≤ l.foldl max m) ∧
    (l.foldl max m = m ∨ l.foldl max m ∈ l) := by
  induction l with
  | nil => simp
  | cons x l ih =>
    intro m
    obtain ⟨hstart, hall, hfrom⟩ := ih (max m x)
    show m ≤ l.foldl max (max m x) ∧ (∀ y ∈ x :: l, y ≤ l.foldl max (max m x)) ∧
      (l.foldl max (max m x) = m ∨ l.foldl max (max m x) ∈ x :: l)
    refine ⟨le_trans (le_max_left m x) hstart, List.forall_mem_cons.mpr
      ⟨le_trans (le_max_right m x) hstart, hall⟩, ?_⟩
    rcases hfrom with heq | hmem
    · rcases max_choice m x with hm | hx
      · exact Or.inl (heq.trans hm)
      · exact Or.inr (List.mem_cons.mpr (Or.inl (heq.trans hx)))
    · exact Or.inr (List.mem_cons_of_mem _ hmem)

end FreeToken.Lib

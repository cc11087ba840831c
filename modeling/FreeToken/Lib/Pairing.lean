import Mathlib.Data.List.Basic
import Mathlib.Logic.Function.Basic

/-!
# Two maps that are inverse to each other

`Paired fwd bwd` says that two tables of partial entries name the same pairs; a pair is
taken out of both tables (`unlink`) or put into both (`link`). `Unowned` lists the
places that a table of owners leaves empty.
-/

namespace FreeToken.Lib

open Function

variable {ι κ : Type*} [DecidableEq ι] [DecidableEq κ] {fwd : ι → Option κ} {bwd : κ → Option ι}
  {i j : ι} {k : κ}

/-- `fwd` and `bwd` name the same pairs. -/
def Paired (fwd : ι → Option κ) (bwd : κ → Option ι) : Prop :=
  ∀ i k, fwd i = some k ↔ bwd k = some i

namespace Paired

omit [DecidableEq ι] [DecidableEq κ] in
theorem symm (h : Paired fwd bwd) : Paired bwd fwd := fun k i => (h i k).symm

omit [DecidableEq ι] [DecidableEq κ] in
theorem inj (h : Paired fwd bwd) (hi : fwd i = some k) (hj : fwd j = some k) : i = j := by
  rw [h] at hi hj
  exact Option.some.inj (hi.symm.trans hj)

/-- The pair of `i` and `k` is taken out. -/
theorem unlink (h : Paired fwd bwd) (hik : fwd i = some k) :
    Paired (update fwd i none) (update bwd k none) := by
  intro i' k'
  by_cases hi : i' = i
  · subst hi
    by_cases hk : k' = k
    · simp [hk]
    · simp only [update_self, update_of_ne hk, reduceCtorEq, false_iff]
      intro hb
      rw [← h, hik] at hb
      exact hk (Option.some.inj hb).symm
  · rw [update_of_ne hi]
    by_cases hk : k' = k
    · subst hk
      simp only [update_self, reduceCtorEq, iff_false]
      intro hf
      exact hi (h.inj hf hik)
    · rw [update_of_ne hk]
      exact h i' k'

/-- `i` and `k`, in no pair so far, become one. -/
theorem link (h : Paired fwd bwd) (hi : fwd i = none) (hk : bwd k = none) :
    Paired (update fwd i (some k)) (update bwd k (some i)) := by
  intro i' k'
  by_cases hi' : i' = i
  · subst hi'
    by_cases hk' : k' = k
    · simp [hk']
    · simp only [update_self, update_of_ne hk', Option.some.injEq]
      constructor
      · intro heq
        exact absurd heq.symm hk'
      · intro hb
        rw [← h, hi] at hb
        simp at hb
  · rw [update_of_ne hi']
    by_cases hk' : k' = k
    · subst hk'
      simp only [update_self, Option.some.injEq]
      constructor
      · intro hf
        rw [h, hk] at hf
        simp at hf
      · intro heq
        exact absurd heq.symm hi'
    · rw [update_of_ne hk']
      exact h i' k'

end Paired

/-! ## The places left over -/

/-- `free` lists the places that pass `valid` and have no owner, each once. -/
structure Unowned (valid : κ → Prop) (bwd : κ → Option ι) (free : List κ) : Prop where
  nodup : free.Nodup
  mem_iff : ∀ k, k ∈ free ↔ valid k ∧ bwd k = none

namespace Unowned

variable {valid : κ → Prop} {free : List κ}

omit [DecidableEq ι] in
/-- The first free place gets an owner. -/
theorem pop (h : Unowned valid bwd (k :: free)) (i : ι) :
    Unowned valid (update bwd k (some i)) free := by
  obtain ⟨hnot, hnd⟩ := List.nodup_cons.mp h.nodup
  refine ⟨hnd, fun k' => ?_⟩
  by_cases hk : k' = k
  · subst hk
    simp [hnot]
  · rw [update_of_ne hk, ← h.mem_iff k']
    simp [hk]

omit [DecidableEq ι] in
/-- A place loses its owner. -/
theorem push (h : Unowned valid bwd free) (hv : valid k) (hk : bwd k = some i) :
    Unowned valid (update bwd k none) (k :: free) := by
  have hnot : k ∉ free := by
    intro hmem
    have := ((h.mem_iff k).mp hmem).2
    rw [hk] at this
    simp at this
  refine ⟨List.nodup_cons.mpr ⟨hnot, h.nodup⟩, fun k' => ?_⟩
  by_cases hk' : k' = k
  · subst hk'
    simp [hv]
  · rw [update_of_ne hk', List.mem_cons, ← h.mem_iff k']
    simp [hk']

omit [DecidableEq ι] [DecidableEq κ] in
theorem perm (h : Unowned valid bwd free) {free' : List κ} (hp : free'.Perm free) :
    Unowned valid bwd free' :=
  ⟨hp.nodup_iff.mpr h.nodup, fun k => by rw [hp.mem_iff, h.mem_iff]⟩

end Unowned

end FreeToken.Lib

import Mathlib.Data.List.Nodup
import Mathlib.Logic.Function.Basic

/-!
# Units that are bound or free

A table binds keys to units, and a list has the units that are free. `Owns unit bound free` says
that each unit has one owner: it is free, or bound to one key. Keys may be bound to what is no unit;
such bindings are never given back. Main results:

* `Owns.bindAll`: the last units of the list are bound to keys without a binding.
* `Owns.unbindAll`: what keys are bound to is put on the list.
-/

namespace FreeToken.Lib

open Function

variable {ι κ : Type*} [DecidableEq ι] {unit : κ → Prop} {bound : ι → Option κ}
  {free rest : List κ} {i : ι} {k : κ}

structure Owns (unit : κ → Prop) (bound : ι → Option κ) (free : List κ) : Prop where
  nodup : free.Nodup
  units : ∀ k ∈ free, unit k
  inj : ∀ i j k, bound i = some k → bound j = some k → i = j
  split : ∀ k, unit k → (k ∈ free ↔ ∀ i, bound i ≠ some k)

/-! ## The table -/

/-- The keys are bound, one after the other. -/
def bindAll (bound : ι → Option κ) (is : List ι) (ks : List κ) : ι → Option κ :=
  (is.zip ks).foldl (fun bound p => update bound p.1 (some p.2)) bound

/-- The keys lose their bindings. -/
def unbindAll (bound : ι → Option κ) (is : List ι) : ι → Option κ :=
  is.foldl (fun bound i => update bound i none) bound

/-- A key without a new binding keeps the one it has. -/
theorem bindAll_of_not_mem (is : List ι) (ks : List κ) (hi : i ∉ is) :
    bindAll bound is ks i = bound i := by
  induction is generalizing ks bound with
  | nil => rfl
  | cons j is ih =>
    rw [List.mem_cons, not_or] at hi
    cases ks with
    | nil => rfl
    | cons k ks => exact (ih ks hi.2).trans (update_of_ne hi.1 _ _)

/-- A binding is a new one or an old one. -/
theorem bindAll_some (is : List ι) (ks : List κ)
    (hk : bindAll bound is ks i = some k) :
    k ∈ ks ∨ bound i = some k := by
  induction is generalizing ks bound with
  | nil => exact Or.inr hk
  | cons j is ih =>
    cases ks with
    | nil => exact Or.inr hk
    | cons k' ks =>
      rcases ih ks hk with hin | hold
      · exact Or.inl (List.mem_cons_of_mem _ hin)
      · change update bound j (some k') i = some k at hold
        by_cases hj : i = j
        · rw [hj, update_self, Option.some.injEq] at hold
          exact Or.inl (hold ▸ List.mem_cons_self)
        · rw [update_of_ne hj] at hold
          exact Or.inr hold

theorem unbindAll_apply (is : List ι) (bound : ι → Option κ) (i : ι) :
    unbindAll bound is i = if i ∈ is then none else bound i := by
  induction is generalizing bound with
  | nil => rfl
  | cons j is ih =>
    refine (ih (update bound j none)).trans ?_
    by_cases hj : i = j
    · simp [hj]
    · simp [hj]

/-! ## Each unit once -/

namespace Owns

omit [DecidableEq ι] in
theorem perm (h : Owns unit bound free) (hperm : free.Perm rest) : Owns unit bound rest :=
  ⟨hperm.nodup_iff.mp h.nodup, fun k hk => h.units k (hperm.mem_iff.mpr hk), h.inj,
    fun k hk => hperm.mem_iff.symm.trans (h.split k hk)⟩

/-- A free unit is bound. -/
theorem bind (h : Owns unit bound (k :: rest)) (hi : bound i = none) :
    Owns unit (update bound i (some k)) rest := by
  obtain ⟨hk, hnodup⟩ := List.nodup_cons.mp h.nodup
  have hunit := h.units k List.mem_cons_self
  have hunbound : ∀ j, bound j ≠ some k := (h.split k hunit).mp List.mem_cons_self
  refine ⟨hnodup, fun k' hk' => h.units k' (List.mem_cons_of_mem _ hk'), fun j j' k' hj hj' => ?_,
    fun k' hk' => ?_⟩
  · by_cases hji : j = i <;> by_cases hji' : j' = i
    · rw [hji, hji']
    · rw [hji, update_self] at hj
      rw [update_of_ne hji'] at hj'
      exact absurd (hj'.trans hj.symm) (hunbound j')
    · rw [hji', update_self] at hj'
      rw [update_of_ne hji] at hj
      exact absurd (hj.trans hj'.symm) (hunbound j)
    · rw [update_of_ne hji] at hj
      rw [update_of_ne hji'] at hj'
      exact h.inj j j' k' hj hj'
  · by_cases heq : k' = k
    · rw [heq]
      refine ⟨fun hin => absurd hin hk, fun hall => absurd (update_self i (some k) bound) (hall i)⟩
    · have hmem : k' ∈ k :: rest ↔ k' ∈ rest := by simp [heq]
      rw [← hmem, h.split k' hk']
      refine forall_congr' fun j => not_congr ?_
      by_cases hj : j = i
      · rw [hj, update_self, hi]
        simp [Ne.symm heq]
      · rw [update_of_ne hj]

/-- A unit that is bound becomes free. -/
theorem unbind (h : Owns unit bound free) (hi : bound i = some k) (hunit : unit k) :
    Owns unit (update bound i none) (free ++ [k]) := by
  have hk : k ∉ free := fun hin => (h.split k hunit).mp hin i hi
  have hold : ∀ j k', update bound i none j = some k' ↔ j ≠ i ∧ bound j = some k' := by
    intro j k'
    by_cases hj : j = i
    · simp [hj]
    · simp [hj]
  refine ⟨?_, fun k' hk' => ?_, fun j j' k' hj hj' => ?_, fun k' hk' => ?_⟩
  · rw [List.nodup_append]
    refine ⟨h.nodup, List.nodup_singleton k, fun a ha b hb => ?_⟩
    rw [List.mem_singleton] at hb
    exact fun heq => hk (hb ▸ heq ▸ ha)
  · rcases List.mem_append.mp hk' with hin | hin
    · exact h.units k' hin
    · exact List.mem_singleton.mp hin ▸ hunit
  · exact h.inj j j' k' ((hold j k').mp hj).2 ((hold j' k').mp hj').2
  · rw [List.mem_append, List.mem_singleton, h.split k' hk']
    simp only [ne_eq, hold, not_and]
    constructor
    · rintro (hall | rfl) j
      · exact fun _ => hall j
      · exact fun hj hbound => hj (h.inj j i k' hbound hi)
    · intro hall
      by_cases heq : k' = k
      · exact Or.inr heq
      · refine Or.inl fun j hbound => ?_
        by_cases hj : j = i
        · rw [hj, hi] at hbound
          exact heq (Option.some.inj hbound).symm
        · exact hall j hj hbound

/-- **The last units of the list are bound**, one to each of the keys. -/
theorem bindAll {is : List ι} {ks : List κ} (h : Owns unit bound (free ++ ks))
    (hlength : is.length = ks.length) (hnodup : is.Nodup) (hnone : ∀ i ∈ is, bound i = none) :
    Owns unit (bindAll bound is ks) free := by
  induction is generalizing ks bound with
  | nil =>
    cases ks with
    | nil => simpa [Lib.bindAll] using h
    | cons k ks => cases hlength
  | cons i is ih =>
    cases ks with
    | nil => cases hlength
    | cons k ks =>
      obtain ⟨hi, hnodup⟩ := List.nodup_cons.mp hnodup
      refine ih ((h.perm List.perm_middle).bind (hnone i List.mem_cons_self)) (by simpa using hlength)
        hnodup fun j hj => ?_
      have hne : j ≠ i := fun heq => hi (heq ▸ hj)
      exact (update_of_ne hne _ _).trans (hnone j (List.mem_cons_of_mem _ hj))

/-- **What keys are bound to is put on the list**; keys without a binding change nothing. -/
theorem unbindAll {is : List ι} (h : Owns unit bound free) (hnodup : is.Nodup)
    (hunits : ∀ i ∈ is, ∀ k, bound i = some k → unit k) :
    Owns unit (unbindAll bound is) (free ++ is.filterMap bound) := by
  induction is generalizing free bound with
  | nil => simpa [Lib.unbindAll] using h
  | cons i is ih =>
    obtain ⟨hi, hnodup⟩ := List.nodup_cons.mp hnodup
    have hsame : ∀ j ∈ is, update bound i none j = bound j := by
      intro j hj
      have hne : j ≠ i := fun heq => hi (heq ▸ hj)
      exact update_of_ne hne _ _
    have htail : is.filterMap (update bound i none) = is.filterMap bound :=
      List.filterMap_congr hsame
    have hunits' : ∀ j ∈ is, ∀ k, update bound i none j = some k → unit k := by
      intro j hj k hk
      rw [hsame j hj] at hk
      exact hunits j (List.mem_cons_of_mem _ hj) k hk
    change Owns unit (Lib.unbindAll (update bound i none) is) _
    cases hk : bound i with
    | none =>
      have hself : update bound i none = bound := by
        rw [← hk]
        exact update_eq_self i bound
      rw [List.filterMap_cons_none hk]
      rw [hself] at hunits' ⊢
      exact ih h hnodup hunits'
    | some k =>
      have hnext := ih (h.unbind hk (hunits i List.mem_cons_self k hk)) hnodup hunits'
      rw [htail, List.append_assoc] at hnext
      rwa [List.filterMap_cons_some hk]

end Owns

end FreeToken.Lib

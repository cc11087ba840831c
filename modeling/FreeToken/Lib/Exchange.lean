import Mathlib.Data.List.Nodup
import Mathlib.Data.List.Zip
import Mathlib.Logic.Function.Basic

/-!
# Exchanges

`exchange s d` swaps the elements of `s` with those of `d`, place by place, and leaves everything
else. It undoes itself (`exchange_involutive`), so it is injective; what is not in `d` goes where
the pairs of `s` and `d` send it (`exchange_of_not_mem`).
-/

namespace FreeToken.Lib

variable {α : Type*} [DecidableEq α] {s d : List α} {x y : α}

/-- Swap the elements of `s` with those of `d`. -/
def exchange (s d : List α) (x : α) : α := ((s.zip d ++ d.zip s).lookup x).getD x

theorem lookup_of_mem {l : List (α × α)} (hnodup : (l.map Prod.fst).Nodup) (h : (x, y) ∈ l) :
    l.lookup x = some y := by
  induction l with
  | nil => exact absurd h List.not_mem_nil
  | cons p l ih =>
    rw [List.map_cons, List.nodup_cons] at hnodup
    rcases List.mem_cons.mp h with rfl | h
    · exact List.lookup_cons_self
    · have hne : x ≠ p.1 := fun heq => hnodup.1 (heq ▸ List.mem_map_of_mem h)
      rw [List.lookup_cons, beq_false_of_ne hne]
      exact ih hnodup.2 h

theorem lookup_of_not_mem {l : List (α × α)} (h : x ∉ l.map Prod.fst) : l.lookup x = none := by
  rw [List.lookup_eq_none_iff]
  intro p hp
  rw [bne_iff_ne]
  exact fun heq => h (heq ▸ List.mem_map_of_mem hp)

omit [DecidableEq α] in
theorem exchange_keys (hlen : s.length = d.length) :
    (s.zip d ++ d.zip s).map Prod.fst = s ++ d := by
  rw [List.map_append, List.map_fst_zip (Nat.le_of_eq hlen),
    List.map_fst_zip (Nat.le_of_eq hlen.symm)]

omit [DecidableEq α] in
theorem mem_zip_swap (h : (x, y) ∈ s.zip d) : (y, x) ∈ d.zip s := by
  rw [← List.zip_swap s d]
  exact List.mem_map_of_mem h

section Disjoint

variable (hnodup : (s ++ d).Nodup) (hlen : s.length = d.length)
include hnodup hlen

theorem exchange_eq_of_mem (h : (x, y) ∈ s.zip d ++ d.zip s) : exchange s d x = y := by
  rw [exchange, lookup_of_mem (by rwa [exchange_keys hlen]) h, Option.getD_some]

theorem exchange_of_pair (h : (x, y) ∈ s.zip d) : exchange s d x = y ∧ exchange s d y = x :=
  ⟨exchange_eq_of_mem hnodup hlen (List.mem_append_left _ h),
    exchange_eq_of_mem hnodup hlen (List.mem_append_right _ (mem_zip_swap h))⟩

theorem map_exchange : s.map (exchange s d) = d := by
  have hpairs : ∀ p ∈ s.zip d, exchange s d p.1 = p.2 := fun p hp =>
    (exchange_of_pair hnodup hlen hp).1
  calc s.map (exchange s d) = ((s.zip d).map Prod.fst).map (exchange s d) := by
        rw [List.map_fst_zip (Nat.le_of_eq hlen)]
    _ = (s.zip d).map Prod.snd := by
        rw [List.map_map]
        exact List.map_congr_left hpairs
    _ = d := List.map_snd_zip (Nat.le_of_eq hlen.symm)

theorem exchange_mem (hx : x ∈ s) : exchange s d x ∈ d := by
  have h := List.mem_map_of_mem (f := exchange s d) hx
  rwa [map_exchange hnodup hlen] at h

omit hnodup in
theorem exchange_other (hs : x ∉ s) (hd : x ∉ d) : exchange s d x = x := by
  have hnot : x ∉ (s.zip d ++ d.zip s).map Prod.fst := by
    rw [exchange_keys hlen, List.mem_append]
    exact fun h => h.elim hs hd
  rw [exchange, lookup_of_not_mem hnot, Option.getD_none]

omit hnodup in
/-- Outside `d` the pairs of `s` and `d` say where an element goes. -/
theorem exchange_of_not_mem (hx : x ∉ d) : exchange s d x = ((s.zip d).lookup x).getD x := by
  have hback : (d.zip s).lookup x = none := by
    refine lookup_of_not_mem ?_
    rwa [List.map_fst_zip (Nat.le_of_eq hlen.symm)]
  rw [exchange, List.lookup_append, hback, Option.or_none]

theorem exchange_involutive : Function.Involutive (exchange s d) := by
  intro x
  by_cases hkey : x ∈ s ++ d
  · rw [← exchange_keys hlen] at hkey
    obtain ⟨⟨x, y⟩, hp, rfl⟩ := List.mem_map.mp hkey
    have hback : (y, x) ∈ s.zip d ++ d.zip s := by
      rcases List.mem_append.mp hp with hp | hp
      · exact List.mem_append_right _ (mem_zip_swap hp)
      · exact List.mem_append_left _ (mem_zip_swap hp)
    show exchange s d (exchange s d x) = x
    rw [exchange_eq_of_mem hnodup hlen hp, exchange_eq_of_mem hnodup hlen hback]
  · rw [List.mem_append, not_or] at hkey
    rw [exchange_other hlen hkey.1 hkey.2, exchange_other hlen hkey.1 hkey.2]

theorem exchange_injective : Function.Injective (exchange s d) :=
  (exchange_involutive hnodup hlen).injective

end Disjoint

end FreeToken.Lib

import Mathlib.Data.List.Basic
import Mathlib.Data.List.Forall2

/-!
# Lists by key

Entries of a list that have a key, and the entries with one key: what `filterMap`, `map`
and a pointwise relation do to them when they keep the key.

## Results

* `filter_filterMap_keyed` — the entries of a key come from the entries of that key;
* `forall₂_filter` — related lists, entry by entry of a key.
-/

namespace FreeToken.Lib

variable {α β κ : Type*} [DecidableEq κ]

theorem filter_filterMap_keyed {f : α → Option β} {key : α → κ} {key' : β → κ} {l : List α}
    (h : ∀ a ∈ l, ∀ b, f a = some b → key' b = key a) (k : κ) :
    (l.filterMap f).filter (fun b => key' b = k) =
      (l.filter fun a => key a = k).filterMap f := by
  induction l with
  | nil => rfl
  | cons a l ih =>
    have ih := ih fun a' ha' => h a' (List.mem_cons_of_mem a ha')
    rw [List.filterMap_cons, List.filter_cons]
    cases hf : f a with
    | none =>
      dsimp only
      rw [ih]
      split
      · rw [List.filterMap_cons, hf]
      · rfl
    | some b =>
      have hb := h a List.mem_cons_self b hf
      dsimp only
      rw [List.filter_cons, ih, hb]
      split
      · rw [List.filterMap_cons, hf]
      · rfl

theorem filter_map_keyed {f : α → β} {key : α → κ} {key' : β → κ}
    (h : ∀ a, key' (f a) = key a) (l : List α) (k : κ) :
    (l.map f).filter (fun b => key' b = k) = (l.filter fun a => key a = k).map f := by
  rw [List.filter_map]
  congr 2
  funext a
  exact congrArg (fun x => decide (x = k)) (h a)

theorem filter_eraseP_keyed (key : α → κ) (l : List α) (k : κ) :
    (l.eraseP fun a => key a = k).filter (fun a => key a = k) =
      (l.filter fun a => key a = k).tail := by
  induction l with
  | nil => rfl
  | cons a l ih =>
    by_cases h : key a = k
    · simp [h]
    · simp [h, ih]

theorem filter_eraseP_other (key : α → κ) (l : List α) {k k' : κ} (h : k' ≠ k) :
    (l.eraseP fun a => key a = k).filter (fun a => key a = k') =
      l.filter fun a => key a = k' := by
  induction l with
  | nil => rfl
  | cons a l ih =>
    by_cases ha : key a = k
    · simp [ha, Ne.symm h]
    · rw [List.filter_cons, ← ih]
      simp [ha, List.filter_cons]

theorem forall₂_filter {R : α → β → Prop} {p : α → Bool} {q : β → Bool} {l : List α}
    {l' : List β} (h : List.Forall₂ R l l') (hpq : ∀ a b, R a b → p a = q b) :
    List.Forall₂ R (l.filter p) (l'.filter q) := by
  induction h with
  | nil => exact .nil
  | @cons a b l l' hr _ ih =>
    rw [List.filter_cons, List.filter_cons, hpq a b hr]
    split
    · exact .cons hr ih
    · exact ih

theorem exists_of_forall₂ {R : α → β → Prop} {l : List α} {l' : List β}
    (h : List.Forall₂ R l l') {b : β} (hb : b ∈ l') : ∃ a ∈ l, R a b := by
  induction h with
  | nil => cases hb
  | cons hr _ ih =>
    rcases List.mem_cons.mp hb with rfl | hb
    · exact ⟨_, List.mem_cons_self, hr⟩
    · obtain ⟨a, ha, hab⟩ := ih hb
      exact ⟨a, List.mem_cons_of_mem _ ha, hab⟩

end FreeToken.Lib

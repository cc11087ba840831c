import FreeToken.Lib.Search

/-!
# The leftmost match of a text that is still arriving

A `Matcher` decides at one position of a text whether a match starts there, and
returns what it captures and the text behind the match. `search` is the leftmost
match. When a match holds no other one that ends before it does, the leftmost match
stays the leftmost however the text goes on (`search_append`).
-/

namespace FreeToken.Lib

/-- A deterministic matcher: `Matches w g` says that `w` is a match capturing `g`. -/
structure Matcher (α γ : Type*) where
  run : List α → Option (γ × List α)
  Matches : List α → γ → Prop
  run_iff : ∀ {t g r}, run t = some (g, r) ↔ ∃ w, t = w ++ r ∧ Matches w g
  nonempty : ∀ {w g}, Matches w g → w ≠ []
  inner : ∀ {w w' g g' j}, Matches w g → Matches w' g' → 0 < j → w' <+: w.drop j →
    ¬j + w'.length < w.length

namespace Matcher

variable {α γ : Type*} (m : Matcher α γ)

/-- The leftmost match: what it captures, and the text behind it. -/
def search : List α → Option (γ × List α)
  | [] => none
  | c :: cs =>
    match m.run (c :: cs) with
    | some found => some found
    | none => search cs

variable {m}

theorem run_append {t r : List α} {g : γ} (h : m.run t = some (g, r)) (b : List α) :
    m.run (t ++ b) = some (g, r ++ b) := by
  obtain ⟨w, rfl, hw⟩ := m.run_iff.mp h
  exact m.run_iff.mpr ⟨w, by rw [List.append_assoc], hw⟩

/-- Somewhere in a searched text the match starts. -/
theorem search_split {t r : List α} {g : γ} (h : m.search t = some (g, r)) :
    ∃ j w, t.drop j = w ++ r ∧ m.Matches w g := by
  induction t with
  | nil => simp [search] at h
  | cons c cs ih =>
    rw [search] at h
    cases hr : m.run (c :: cs) with
    | some found =>
      rw [hr, Option.some.injEq] at h
      rw [h] at hr
      obtain ⟨w, hw, hm⟩ := m.run_iff.mp hr
      exact ⟨0, w, hw, hm⟩
    | none =>
      rw [hr] at h
      obtain ⟨j, w, hj, hm⟩ := ih h
      exact ⟨j + 1, w, hj, hm⟩

theorem search_shrinks {t r : List α} {g : γ} (h : m.search t = some (g, r)) :
    r.length < t.length := by
  obtain ⟨j, w, hj, hm⟩ := search_split h
  have hne : w ≠ [] := m.nonempty hm
  have hpos : 0 < w.length := List.length_pos_iff.mpr hne
  have hlen := congrArg List.length hj
  rw [List.length_append, List.length_drop] at hlen
  omega

/-- A match that needs more text does not hide a later one. -/
theorem run_append_none {c : α} {cs r : List α} {g : γ} (hnone : m.run (c :: cs) = none)
    (h : m.search cs = some (g, r)) (b : List α) : m.run (c :: cs ++ b) = none := by
  cases hrun : m.run (c :: cs ++ b) with
  | none => rfl
  | some found =>
    exfalso
    obtain ⟨g', r'⟩ := found
    obtain ⟨w, hw, hm⟩ := m.run_iff.mp hrun
    obtain ⟨j, w', hj, hm'⟩ := search_split h
    -- the match at the front ends behind `c :: cs`, the later one inside it
    have hlong : (c :: cs).length < w.length := by
      by_contra hle
      have hpre : w <+: c :: cs :=
        List.prefix_of_prefix_length_le ⟨r', hw.symm⟩ (List.prefix_append _ _) (by omega)
      obtain ⟨rest, hrest⟩ := hpre
      have hsome := m.run_iff.mpr ⟨w, hrest.symm, hm⟩
      rw [hnone] at hsome
      simp at hsome
    have hpre : c :: cs <+: w :=
      List.prefix_of_prefix_length_le ⟨b, rfl⟩ ⟨r', hw.symm⟩ (by omega)
    obtain ⟨rest, rfl⟩ := hpre
    have hlen := congrArg List.length hj
    rw [List.length_append, List.length_drop] at hlen
    have hne : 0 < w'.length := List.length_pos_iff.mpr (m.nonempty hm')
    refine m.inner hm hm' (Nat.succ_pos j) ?_ ?_
    · rw [List.cons_append, List.drop_succ_cons, List.drop_append_of_le_length (by omega), hj,
        List.append_assoc]
      exact List.prefix_append _ _
    · simp only [List.cons_append, List.length_cons, List.length_append] at hlong ⊢
      omega

/-- **The leftmost match stays the leftmost.** -/
theorem search_append {t r : List α} {g : γ} (h : m.search t = some (g, r)) (b : List α) :
    m.search (t ++ b) = some (g, r ++ b) := by
  induction t with
  | nil => simp [search] at h
  | cons c cs ih =>
    rw [search] at h
    cases hr : m.run (c :: cs) with
    | some found =>
      rw [hr, Option.some.injEq] at h
      rw [h] at hr
      rw [List.cons_append, search, ← List.cons_append, run_append hr]
    | none =>
      rw [hr] at h
      have hn := run_append_none hr h b
      rw [List.cons_append] at hn
      rw [List.cons_append, search, hn]
      exact ih h

end Matcher

end FreeToken.Lib

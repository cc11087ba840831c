import FreeToken.Lib.Search

/-!
# Prefixes a reader may drop

A reader between tokens drops what is in front of the next one, and holds back an end
of its buffer that may become one. `Skips tok s x` says that `s` in front of `x` makes
no difference to what is found or held back for `tok`; `junk` is what a reader of two
tokens drops, and dropping it is such a prefix whatever comes next (`junk_skips`).
-/

namespace FreeToken.Lib

variable {α : Type*} [DecidableEq α]

omit [DecidableEq α] in
theorem drop_skip (s x : List α) (n : Nat) : (s ++ x).drop (n + s.length) = x.drop n := by
  rw [Nat.add_comm, List.drop_length_add_append]

omit [DecidableEq α] in
theorem drop_held {s x : List α} {n : Nat} (h : n ≤ x.length) :
    (s ++ x).drop ((s ++ x).length - n) = x.drop (x.length - n) := by
  rw [List.length_append, show s.length + x.length - n = x.length - n + s.length by omega,
    drop_skip]

omit [DecidableEq α] in
theorem take_held {s x : List α} {n : Nat} (h : n ≤ x.length) :
    (s ++ x).take ((s ++ x).length - n) = s ++ x.take (x.length - n) := by
  rw [List.length_append, show s.length + x.length - n = s.length + (x.length - n) by omega,
    List.take_length_add_append]

/-- `s` in front of `x` makes no difference to the search for `tok`. -/
structure Skips (tok s x : List α) : Prop where
  find_eq : find tok (s ++ x) = (find tok x).map (· + s.length)
  ends_eq : endsWithPartial tok (s ++ x) = endsWithPartial tok x

theorem Free.skips {tok s held : List α} (h : Free tok s held) (hd : Headed tok) (y : List α) :
    Skips tok s (held ++ y) := by
  constructor
  · rw [← List.append_assoc]
    exact h.find_append y
  · rw [← List.append_assoc]
    exact hd.endsWithPartial_skip h y

/-- A text without the token is free up to what is held back for it. -/
theorem free_held {tok text : List α} {n : Nat} (hd : Headed tok) (hnone : find tok text = none)
    (hn : endsWithPartial tok text ≤ n) :
    Free tok (text.take (text.length - n)) (text.drop (text.length - n)) :=
  (free_of_endsWithPartial hd hnone).shorten (by omega)

/-- Nothing starts in front of the first occurrence. -/
theorem free_found {tok text : List α} {i n : Nat} (h : find tok text = some i) (hn : n ≤ i) :
    Free tok (text.take n) (text.drop n) := by
  intro rest j hj
  rw [List.take_append_drop]
  rw [List.length_take] at hj
  exact (find_eq_some_iff.mp (find_append h rest)).2.2 j (by omega)

theorem comesFirst_some {e p : Option Nat} (h : comesFirst e p = true) : ∃ i, e = some i := by
  cases e with
  | none => simp [comesFirst] at h
  | some i => exact ⟨i, rfl⟩

/-- In front of the first of two tokens that are apart, the other one does not start. -/
theorem free_other {tok tok' text : List α} {i : Nat} (h : Apart tok tok')
    (hi : find tok text = some i) (hfirst : comesFirst (find tok text) (find tok' text) = true) :
    Free tok' (text.take i) (text.drop i) := by
  intro rest j hj hpre
  rw [List.take_append_drop] at hpre
  rw [List.length_take] at hj
  have hkeep := comesFirst_append h hfirst rest
  rw [find_append hi rest] at hkeep
  cases hp : find tok' (text ++ rest) with
  | none => exact find_eq_none_iff.mp hp j hpre
  | some p =>
    rw [hp] at hkeep
    simp only [comesFirst, decide_eq_true_eq] at hkeep
    exact (find_eq_some_iff.mp hp).2.2 j (by omega) hpre

theorem free_other' {tok tok' text : List α} {p : Nat} (h : Apart tok tok')
    (hp : find tok' text = some p)
    (hfirst : comesFirst (find tok text) (find tok' text) = false) :
    Free tok (text.take p) (text.drop p) := by
  intro rest j hj hpre
  rw [List.take_append_drop] at hpre
  rw [List.length_take] at hj
  have hkeep := not_comesFirst_append h hp hfirst rest
  rw [find_append hp rest] at hkeep
  cases he : find tok (text ++ rest) with
  | none => exact find_eq_none_iff.mp he j hpre
  | some e =>
    rw [he] at hkeep
    simp only [comesFirst, decide_eq_false_iff_not, not_lt] at hkeep
    exact (find_eq_some_iff.mp he).2.2 j (by omega) hpre

/-- How much of a text is in front of the next of two tokens, or of what may become one. -/
def junk (close opn text : List α) : Nat :=
  if comesFirst (find close text) (find opn text) then (find close text).getD 0
  else
    match find opn text with
    | some pos => pos
    | none => text.length - max (endsWithPartial opn text) (endsWithPartial close text)

theorem find_none_of_comesFirst {e p : Option Nat} (h : comesFirst e p = false) (hp : p = none) :
    e = none := by
  cases e with
  | none => rfl
  | some e => rw [hp] at h; simp [comesFirst] at h

/-- **What is in front of the next token makes no difference, whatever comes next.** -/
theorem junk_free {close opn : List α} (hc : Headed close) (ho : Headed opn)
    (h : Apart close opn) (text : List α) :
    Free close (text.take (junk close opn text)) (text.drop (junk close opn text)) ∧
      Free opn (text.take (junk close opn text)) (text.drop (junk close opn text)) := by
  rw [junk]
  cases hfirst : comesFirst (find close text) (find opn text) with
  | true =>
    obtain ⟨i, hi⟩ := comesFirst_some hfirst
    rw [if_pos rfl, hi, Option.getD_some]
    exact ⟨free_found hi (Nat.le_refl i), free_other h hi hfirst⟩
  | false =>
    rw [if_neg Bool.false_ne_true]
    cases hp : find opn text with
    | some p => exact ⟨free_other' h hp hfirst, free_found hp (Nat.le_refl p)⟩
    | none =>
      have hnone := find_none_of_comesFirst hfirst hp
      exact ⟨free_held hc hnone (Nat.le_max_right _ _), free_held ho hp (Nat.le_max_left _ _)⟩

theorem junk_skips {close opn : List α} (hc : Headed close) (ho : Headed opn)
    (h : Apart close opn) (text y : List α) :
    Skips close (text.take (junk close opn text)) (text.drop (junk close opn text) ++ y) ∧
      Skips opn (text.take (junk close opn text)) (text.drop (junk close opn text) ++ y) :=
  ⟨(junk_free hc ho h text).1.skips hc y, (junk_free hc ho h text).2.skips ho y⟩

/-- Dropping what is in front of the next token, after a prefix that is skipped. -/
theorem drop_junk_skip {close opn s x : List α} (hc : Skips close s x) (ho : Skips opn s x) :
    (s ++ x).drop (junk close opn (s ++ x)) = x.drop (junk close opn x) := by
  rw [junk, junk, hc.find_eq, ho.find_eq, comesFirst_map, hc.ends_eq, ho.ends_eq]
  cases hfirst : comesFirst (find close x) (find opn x) with
  | true =>
    obtain ⟨i, hi⟩ := comesFirst_some hfirst
    rw [if_pos rfl, if_pos rfl, hi, Option.map_some, Option.getD_some, Option.getD_some, drop_skip]
  | false =>
    rw [if_neg Bool.false_ne_true, if_neg Bool.false_ne_true]
    cases find opn x with
    | some p => exact drop_skip s x p
    | none => exact drop_held (Nat.max_le.mpr ⟨endsWithPartial_le _ _, endsWithPartial_le _ _⟩)

/-- With more text, the same is dropped before and after. -/
theorem drop_junk_append {close opn : List α} (hc : Headed close) (ho : Headed opn)
    (h : Apart close opn) (text y : List α) :
    (text.drop (junk close opn text) ++ y).drop
        (junk close opn (text.drop (junk close opn text) ++ y)) =
      (text ++ y).drop (junk close opn (text ++ y)) := by
  obtain ⟨hsc, hso⟩ := junk_skips hc ho h text y
  have hskip := drop_junk_skip hsc hso
  rw [← List.append_assoc, List.take_append_drop] at hskip
  exact hskip.symm

end FreeToken.Lib

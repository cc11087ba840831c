import Mathlib.Data.List.Basic

/-!
# Decoders that mark what they cannot decode

A decoder reads codes one at a time. What has come of a character that is not finished is in its
state, and is shown as one mark at the end of the text. Text that does not end with a mark is
finished: what follows is decoded on its own. Of text that does, all but the last character stays.

UTF-8 with a replacement character for malformed bytes is such a decoder, and so is a tokenizer
whose tokens stand for byte strings.

* `Lossy` — the two laws, for any decoder;
* `Machine.lossy` — a decoder with a state has them;
* `Lossy.comap` — and so has one whose codes are strings of another's.
-/

namespace FreeToken.Lib

variable {α β γ σ : Type*}

/-- `text` shows no mark at its end. -/
def Whole (mark : γ) (text : List γ) : Prop := text.getLast? ≠ some mark

instance [DecidableEq γ] (mark : γ) (text : List γ) : Decidable (Whole mark text) :=
  inferInstanceAs (Decidable (_ ≠ _))

/-- A decoder that marks what is not finished. -/
structure Lossy (mark : γ) (decode : List α → List γ) : Prop where
  nil : decode [] = []
  append : ∀ a b, Whole mark (decode a) → decode (a ++ b) = decode a ++ decode b
  stable : ∀ a b, (decode a).dropLast <+: decode (a ++ b)

namespace Lossy

variable {mark : γ} {decode : List α → List γ}

/-- Finished text stays. -/
theorem keeps (h : Lossy mark decode) {a : List α} (ha : Whole mark (decode a)) (b : List α) :
    decode a <+: decode (a ++ b) := h.append a b ha ▸ List.prefix_append _ _

/-- A decoder of strings of codes. -/
theorem comap (h : Lossy mark decode) (codes : β → List α) :
    Lossy mark fun l => decode (l.flatMap codes) where
  nil := h.nil
  append := fun a b ha => by
    rw [List.flatMap_append]
    exact h.append _ _ ha
  stable := fun a b => by
    rw [List.flatMap_append]
    exact h.stable _ _

end Lossy

-- ---------------------------------------------------------------------------
-- Decoders with a state
-- ---------------------------------------------------------------------------

/-- What a code adds to the text, and the state after it; `busy` is a character on its way. -/
structure Machine (α γ σ : Type*) where
  start : σ
  step : σ → α → List γ × σ
  busy : σ → Bool

namespace Machine

variable (m : Machine α γ σ)

/-- The text of some codes, but for a mark at its end, and the state after them. -/
def run : σ → List α → List γ × σ
  | s, [] => ([], s)
  | s, a :: as =>
    let r := m.step s a
    let rest := run r.2 as
    (r.1 ++ rest.1, rest.2)

def decode (mark : γ) (as : List α) : List γ :=
  let r := m.run m.start as
  r.1 ++ if m.busy r.2 then [mark] else []

theorem run_append (s : σ) (as bs : List α) :
    m.run s (as ++ bs) =
      ((m.run s as).1 ++ (m.run (m.run s as).2 bs).1, (m.run (m.run s as).2 bs).2) := by
  induction as generalizing s with
  | nil => rfl
  | cons a as ih =>
    rw [List.cons_append, run, run]
    simp only [ih, List.append_assoc]

/-- A machine that is at its start whenever it is not busy. -/
theorem lossy (mark : γ) (hstart : m.busy m.start = false)
    (hidle : ∀ s, m.busy s = false → s = m.start) : Lossy mark (m.decode mark) where
  nil := by
    show [] ++ (if m.busy m.start then [mark] else []) = []
    rw [hstart]
    rfl
  append := fun a b ha => by
    have hnot : m.busy (m.run m.start a).2 = false := by
      by_contra hbusy
      rw [Bool.not_eq_false] at hbusy
      refine ha ?_
      rw [decode, hbusy, if_pos rfl, List.getLast?_append]
      rfl
    rw [decode, decode, decode, m.run_append, hidle _ hnot, hstart, List.append_assoc]
    simp only [Bool.false_eq_true, if_false, List.append_nil]
  stable := fun a b => by
    rw [decode, decode, m.run_append, List.append_assoc]
    cases m.busy (m.run m.start a).2 with
    | true =>
      rw [if_pos rfl, List.dropLast_concat]
      exact List.prefix_append _ _
    | false =>
      rw [if_neg Bool.false_ne_true, List.append_nil]
      exact (List.dropLast_prefix _).trans (List.prefix_append _ _)

end Machine

end FreeToken.Lib

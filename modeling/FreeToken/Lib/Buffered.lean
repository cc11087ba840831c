import FreeToken.Lib.Skips

/-!
# States with an input buffer

`Buffered σ` is a state with one buffer that can be read and replaced, `push` appends
input to it. Between tokens a reader looks for one or two of them (`Marks`); `canon`
drops what is in front of the next one, which more input does not change
(`norm_push_norm`).
-/

namespace FreeToken.Lib

variable {α σ : Type*}

/-- A state with a buffer, and nothing in it that depends on the buffer. -/
class Buffered (α : outParam Type*) (σ : Type*) where
  buffer : σ → List α
  setBuffer : σ → List α → σ
  buffer_set : ∀ s b, buffer (setBuffer s b) = b
  set_set : ∀ s a b, setBuffer (setBuffer s a) b = setBuffer s b
  set_buffer : ∀ s, setBuffer s (buffer s) = s

namespace Buffered

attribute [simp] buffer_set set_set set_buffer

variable [Buffered α σ]

/-- More input. -/
def push (s : σ) (y : List α) : σ := setBuffer s (buffer s ++ y)

@[simp] theorem buffer_push (s : σ) (y : List α) : buffer (push s y) = buffer s ++ y :=
  buffer_set _ _

@[simp] theorem push_set (s : σ) (b y : List α) : push (setBuffer s b) y = setBuffer s (b ++ y) := by
  rw [push, buffer_set, set_set]

@[simp] theorem set_push (s : σ) (b y : List α) : setBuffer (push s y) b = setBuffer s b := set_set _ _ _

@[simp] theorem push_nil (s : σ) : push s [] = s := by
  rw [push, List.append_nil, set_buffer]

theorem push_append (s : σ) (x y : List α) : push s (x ++ y) = push (push s x) y := by
  rw [push, push, push, buffer_set, set_set, List.append_assoc]

end Buffered

/-! ## What a mode looks for -/

/-- The tokens a mode between tokens looks for. -/
inductive Marks (α : Type*) where
  | none
  | one (tok : List α)
  | two (close opn : List α)

namespace Marks

variable [DecidableEq α]

/-- The tokens can be searched for in a stream. -/
def Ok : Marks α → Prop
  | none => True
  | one tok => Headed tok
  | two close opn => Headed close ∧ Headed opn ∧ Apart close opn

/-- A prefix that makes no difference to the search. -/
def Skips : Marks α → List α → List α → Prop
  | none, s, _ => s = []
  | one tok, s, x => FreeToken.Lib.Skips tok s x
  | two close opn, s, x => FreeToken.Lib.Skips close s x ∧ FreeToken.Lib.Skips opn s x

/-- How much of the buffer is in front of the next token. -/
def junk : Marks α → List α → Nat
  | none, _ => 0
  | one tok, text =>
    match find tok text with
    | some pos => pos
    | Option.none => text.length - endsWithPartial tok text
  | two close opn, text => FreeToken.Lib.junk close opn text

theorem junk_skips {m : Marks α} (h : m.Ok) (text y : List α) :
    m.Skips (text.take (m.junk text)) (text.drop (m.junk text) ++ y) := by
  cases m with
  | none => simp [Skips, junk]
  | one tok =>
    simp only [Skips, junk]
    cases hf : find tok text with
    | some pos => exact (free_found hf (Nat.le_refl pos)).skips h y
    | none => exact (free_held h hf (Nat.le_refl _)).skips h y
  | two close opn => exact FreeToken.Lib.junk_skips h.1 h.2.1 h.2.2 text y

theorem drop_junk_skip {m : Marks α} {s x : List α} (h : m.Skips s x) :
    (s ++ x).drop (m.junk (s ++ x)) = x.drop (m.junk x) := by
  cases m with
  | none =>
    obtain rfl : s = [] := h
    rfl
  | one tok =>
    simp only [junk, h.find_eq, h.ends_eq]
    cases find tok x with
    | some pos => exact drop_skip s x pos
    | none => exact drop_held (endsWithPartial_le _ _)
  | two close opn => exact FreeToken.Lib.drop_junk_skip h.1 h.2

theorem drop_junk_append {m : Marks α} (h : m.Ok) (text y : List α) :
    (text.drop (m.junk text) ++ y).drop (m.junk (text.drop (m.junk text) ++ y)) =
      (text ++ y).drop (m.junk (text ++ y)) := by
  have hskip := drop_junk_skip (junk_skips h text y)
  rw [← List.append_assoc, List.take_append_drop] at hskip
  exact hskip.symm

end Marks

namespace Buffered

variable [DecidableEq α] [Buffered α σ]

/-- The state without what is in front of the next token. -/
def canon (marks : σ → Marks α) (s : σ) : σ :=
  setBuffer s ((buffer s).drop ((marks s).junk (buffer s)))

variable {marks : σ → Marks α} (hset : ∀ s b, marks (setBuffer s b) = marks s)
include hset

theorem norm_push_norm (hok : ∀ s, (marks s).Ok) (s : σ) (y : List α) :
    canon marks (push (canon marks s) y) = canon marks (push s y) := by
  simp only [canon, push, hset, buffer_set, set_set, Marks.drop_junk_append (hok s)]

theorem norm_skip {s : σ} {a x : List α} (h : (marks s).Skips a x) :
    canon marks (setBuffer s (a ++ x)) = canon marks (setBuffer s x) := by
  simp only [canon, hset, buffer_set, set_set, Marks.drop_junk_skip h]

end Buffered

end FreeToken.Lib

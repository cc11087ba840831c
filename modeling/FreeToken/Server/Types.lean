import FreeToken.Lib.Search
import Mathlib.Algebra.Group.Defs
import Mathlib.Data.List.DropRight

/-!
# Texts of the server's parsers

A `str` is the list of its characters. The parsers of `server/reasoning_parser.py`
and `server/function_call_parser.py` search, cut and strip such texts; what they
return adds up over the pieces of a stream.
-/

namespace FreeToken.Server

open FreeToken.Lib

abbrev Text := List Char

/-- `str.isspace` of one character. -/
def isSpace (c : Char) : Bool :=
  let n := c.toNat
  (9 ≤ n && n ≤ 13) || (28 ≤ n && n ≤ 32) || n == 0x85 || n == 0xA0 || n == 0x1680 ||
    (0x2000 ≤ n && n ≤ 0x200A) || n == 0x2028 || n == 0x2029 || n == 0x202F || n == 0x205F ||
    n == 0x3000

def lstrip (text : Text) : Text := text.dropWhile isSpace

def rstrip (text : Text) : Text := text.rdropWhile isSpace

def strip (text : Text) : Text := rstrip (lstrip text)

/-- `text.split()[0]`, empty when there is no word. -/
def firstWord (text : Text) : Text := (lstrip text).takeWhile fun c => !isSpace c

/-- `pat in text`. -/
def contains (pat text : Text) : Bool := (find pat text).isSome

/-- Result of (incremental or one-shot) reasoning extraction. -/
@[ext]
structure ReasoningParseResult where
  reasoningText : Text := []
  normalText : Text := []
deriving DecidableEq

namespace ReasoningParseResult

instance : Zero ReasoningParseResult := ⟨⟨[], []⟩⟩

instance : Add ReasoningParseResult :=
  ⟨fun r r' => ⟨r.reasoningText ++ r'.reasoningText, r.normalText ++ r'.normalText⟩⟩

@[simp] theorem zero_reasoningText : (0 : ReasoningParseResult).reasoningText = [] := rfl

@[simp] theorem zero_normalText : (0 : ReasoningParseResult).normalText = [] := rfl

@[simp] theorem add_reasoningText (r r' : ReasoningParseResult) :
    (r + r').reasoningText = r.reasoningText ++ r'.reasoningText := rfl

@[simp] theorem add_normalText (r r' : ReasoningParseResult) :
    (r + r').normalText = r.normalText ++ r'.normalText := rfl

instance : AddMonoid ReasoningParseResult where
  add_assoc a b c := by ext1 <;> simp
  zero_add a := by ext1 <;> simp
  add_zero a := by ext1 <;> simp
  nsmul := nsmulRec

/-- Both texts only grow. -/
def Prefix (r r' : ReasoningParseResult) : Prop :=
  r.reasoningText <+: r'.reasoningText ∧ r.normalText <+: r'.normalText

theorem Prefix.refl (r : ReasoningParseResult) : r.Prefix r :=
  ⟨List.prefix_refl _, List.prefix_refl _⟩

theorem Prefix.zero (r : ReasoningParseResult) : Prefix 0 r :=
  ⟨List.nil_prefix, List.nil_prefix⟩

theorem Prefix.add_left (r : ReasoningParseResult) {a b : ReasoningParseResult}
    (h : a.Prefix b) : (r + a).Prefix (r + b) :=
  ⟨(List.prefix_append_right_inj _).mpr h.1, (List.prefix_append_right_inj _).mpr h.2⟩

theorem Prefix.add_right {a b : ReasoningParseResult} (h : a.Prefix b)
    (r : ReasoningParseResult) : a.Prefix (b + r) :=
  ⟨h.1.trans (List.prefix_append _ _), h.2.trans (List.prefix_append _ _)⟩

end ReasoningParseResult

end FreeToken.Server

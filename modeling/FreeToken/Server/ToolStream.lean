import FreeToken.Lib.Incremental
import FreeToken.Server.ToolSchema

/-!
# The ledger of streamed calls

The part of `BaseFormatDetector`'s state that the streaming detectors share: which
call is streaming, the argument text sent so far for each call
(`streamed_args_for_tool`) and the calls as parsed so far (`prev_tool_call_arr`).
-/

namespace FreeToken.Server

open FreeToken.Lib

/-- An entry of `prev_tool_call_arr`: `{}` until the call is accepted. -/
structure PrevToolCall where
  name : Option Text := none
  arguments : Option (List (Text × Json)) := none

/-- Streaming state of the calls. -/
structure CallState where
  prevToolCallArr : List PrevToolCall := []
  currentToolId : Int := -1
  streamedArgsForTool : List Text := []
  argsStarted : Bool := false

namespace CallState

/-- `while len(l) <= i: l.append(x)`. -/
def padTo {α : Type} (l : List α) (i : Nat) (x : α) : List α :=
  l ++ List.replicate (i + 1 - l.length) x

def index (s : CallState) : Nat := s.currentToolId.toNat

/-- The argument text of the current call so far. -/
def ledger (s : CallState) : Text := s.streamedArgsForTool.getD s.index []

/-- Room for the call whose tag has just been read. -/
def openCall (s : CallState) : CallState :=
  let id := if s.currentToolId == -1 then 0 else s.currentToolId
  { s with
    currentToolId := id
    prevToolCallArr := padTo s.prevToolCallArr id.toNat {}
    streamedArgsForTool := padTo s.streamedArgsForTool id.toNat [] }

/-- The call is accepted under `name`. -/
def startCall (s : CallState) (name : Text) : CallState :=
  { s with
    prevToolCallArr :=
      s.prevToolCallArr.set s.index { name := some name, arguments := some [] }
    argsStarted := false }

def startItem (s : CallState) (name : Text) : ToolCallItem :=
  { toolIndex := s.currentToolId, name := some name }

/-- `_emit(fragment)`: the fragment goes into the ledger … -/
def addArgs (s : CallState) (fragment : Text) : CallState :=
  { s with streamedArgsForTool := s.streamedArgsForTool.modify s.index (· ++ fragment) }

/-- … and to the client, unless it is empty. -/
def argsPart (s : CallState) (fragment : Text) : Out Part :=
  Out.ofList
    (if fragment = [] then [] else [.call { toolIndex := s.currentToolId, parameters := fragment }])

def setArguments (s : CallState) : Json → CallState
  | .object ms =>
    { s with
      prevToolCallArr := s.prevToolCallArr.modify s.index fun c => { c with arguments := some ms } }
  | _ => s

/-- `_update_prev()`: the first of the ledger and the ledger closed by `}` that parses. -/
def updatePrev (env : Env) (s : CallState) : CallState :=
  match env.loads s.ledger with
  | some v => s.setArguments v
  | none =>
    match env.loads (s.ledger ++ ['}']) with
    | some v => s.setArguments v
    | none => s

/-- The closing fragment of a call. -/
def closing (s : CallState) : Text := if s.argsStarted then ['}'] else ['{', '}']

/-- The call is closed: the next one gets the next id. -/
def closeCall (env : Env) (s : CallState) : CallState :=
  let s := (s.addArgs s.closing).updatePrev env
  { s with
    currentToolId := s.currentToolId + 1
    streamedArgsForTool := padTo s.streamedArgsForTool (s.currentToolId + 1).toNat [] }

/-- `"{" if not self._args_started else ","`. -/
def lead (s : CallState) : Text := if s.argsStarted then [','] else ['{']

/-- The opening of a string-typed member. -/
def keyText (key : Text) : Text := Json.quote key ++ [':']

theorem addArgs_append (s : CallState) (a b : Text) :
    (s.addArgs a).addArgs b = s.addArgs (a ++ b) := by
  simp only [addArgs, index, List.modify_modify_eq]
  congr 2
  funext l
  exact List.append_assoc l a b

@[simp] theorem addArgs_nil (s : CallState) : s.addArgs [] = s := by
  have h : s.streamedArgsForTool.modify s.index (· ++ []) = s.streamedArgsForTool := by
    rw [show ((· ++ []) : Text → Text) = id from funext fun l => List.append_nil l]
    exact List.modify_id _ _
  rw [addArgs, h]

/-- What the client gets of a fragment, character by character. -/
@[simp] theorem argsPart_events (s : CallState) (fragment : Text) :
    Out.flatMap Part.events (s.argsPart fragment) =
      Out.ofList (fragment.map (Event.argument s.currentToolId)) := by
  rw [argsPart, Out.flatMap_ofList]
  by_cases h : fragment = []
  · rw [if_pos h, h]
    rfl
  · rw [if_neg h]
    simp [Part.events, ToolCallItem.events]

end CallState

/-- `if text: normal_parts.append(text)`. -/
def textPart (text : Text) : Out Part := Out.ofList (if text = [] then [] else [.text text])

@[simp] theorem textPart_events (text : Text) :
    Out.flatMap Part.events (textPart text) = Out.ofList (text.map Event.text) := by
  rw [textPart, Out.flatMap_ofList]
  by_cases h : text = []
  · rw [if_pos h, h]
    rfl
  · rw [if_neg h]
    simp [Part.events]

/-! ## Trimming a value that streams -/

/-- The characters trimmed around values, all of them or at most one a side. -/
structure Trim where
  chars : Char → Bool
  single : Bool

namespace Trim

variable (trim : Trim)

def leading (text : Text) : Text :=
  if trim.single then
    match text with
    | c :: cs => if trim.chars c then cs else c :: cs
    | [] => []
  else text.dropWhile trim.chars

def trailing (text : Text) : Text :=
  if trim.single then
    match text.getLast? with
    | some c => if trim.chars c then text.dropLast else text
    | none => text
  else text.rdropWhile trim.chars

variable {trim}

theorem leading_suffix (trim : Trim) (text : Text) : trim.leading text <:+ text := by
  unfold leading
  split
  · split
    · split
      · exact List.suffix_cons _ _
      · exact List.suffix_refl _
    · exact List.suffix_refl _
  · exact List.dropWhile_suffix _

theorem leading_shrinks {text : Text} (h : trim.leading text ≠ text) :
    (trim.leading text).length < text.length := by
  have hle := (leading_suffix trim text).length_le
  rcases Nat.eq_or_lt_of_le hle with heq | hlt
  · exact absurd ((leading_suffix trim text).eq_of_length heq) h
  · exact hlt

/-- Trimming stops at a character that is not trimmed. -/
theorem rdropWhile_append {p : Char → Bool} {a b : Text} (ha : ∀ c ∈ a.getLast?, p c = false) :
    (a ++ b).rdropWhile p = a ++ b.rdropWhile p := by
  have hra : a.rdropWhile p = a := by
    rw [List.rdropWhile_eq_self_iff]
    intro hne
    have := ha (a.getLast hne) (List.getLast?_eq_some_getLast hne)
    simp [this]
  by_cases hb : b.rdropWhile p = []
  · rw [hb, List.append_nil]
    have hall := List.rdropWhile_eq_nil_iff.mp hb
    rw [List.rdropWhile, List.reverse_append, List.dropWhile_append_of_pos (by simpa using hall)]
    exact hra
  · rw [List.rdropWhile, List.reverse_append, List.dropWhile_append]
    have hne : (b.reverse.dropWhile p) ≠ [] := by
      intro h
      exact hb (by rw [List.rdropWhile, h]; rfl)
    simp [List.rdropWhile, hne]

theorem trailing_append {a b : Text} (ha : ∀ c ∈ a.getLast?, trim.chars c = false) :
    trim.trailing (a ++ b) = a ++ trim.trailing b := by
  rw [trailing, trailing]
  split
  · cases b using List.reverseRecOn with
    | nil =>
      cases hl : a.getLast? with
      | none => simp [hl]
      | some c => simp [hl, ha c hl]
    | append_singleton b c =>
      rw [← List.append_assoc, List.getLast?_concat, List.getLast?_concat, List.dropLast_concat,
        List.dropLast_concat]
      dsimp only
      split <;> simp [List.append_assoc]
  · exact rdropWhile_append ha

end Trim

end FreeToken.Server

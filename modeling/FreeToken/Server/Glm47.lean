import FreeToken.Server.ReaderProgress

/-!
# Value-level streaming for GLM-4.7

`Glm47Detector.parse_streaming_increment`, one iteration of its loop at a time. A block
is `<tool_call>name`, pairs of `<arg_key>` and `<arg_value>`, and `</tool_call>`; values
stream as those of the invoke detectors do.
-/

namespace FreeToken.Server

open FreeToken.Lib Buffered

/-! ## Tokens -/

/-- Where the first of `toks` is found. -/
def firstFound (toks : List Text) (text : Text) : Option Nat :=
  (toks.filterMap fun tok => find tok text).min?

theorem firstFound_eq_some_iff {toks : List Text} {text : Text} {p : Nat} :
    firstFound toks text = some p ↔
      (∃ tok ∈ toks, find tok text = some p) ∧
        ∀ tok ∈ toks, ∀ q, find tok text = some q → p ≤ q := by
  simp only [firstFound, List.min?_eq_some_iff, List.mem_filterMap]
  constructor
  · rintro ⟨hmem, hmin⟩
    exact ⟨hmem, fun tok htok q hq => hmin q ⟨tok, htok, hq⟩⟩
  · rintro ⟨hmem, hmin⟩
    refine ⟨hmem, ?_⟩
    rintro q ⟨tok, htok, hq⟩
    exact hmin tok htok q hq

/-- The first of tokens that are apart stays where it is. -/
theorem firstFound_append {toks : List Text}
    (h : ∀ tok ∈ toks, ∀ tok' ∈ toks, tok = tok' ∨ Apart tok tok') {text : Text} {p : Nat}
    (hp : firstFound toks text = some p) (y : Text) : firstFound toks (text ++ y) = some p := by
  rw [firstFound_eq_some_iff] at hp ⊢
  obtain ⟨⟨tok, htok, hfind⟩, hmin⟩ := hp
  refine ⟨⟨tok, htok, find_append hfind y⟩, fun tok' htok' q hq => ?_⟩
  cases hf : find tok' text with
  | some q' =>
    have heq := find_append hf y
    rw [hq, Option.some.injEq] at heq
    rw [heq]
    exact hmin tok' htok' q' hf
  | none =>
    -- an occurrence that only the longer text has ends behind the first token
    by_contra hlt
    have hlate := find_append_of_none hf hq
    have hend := find_add_length_le hfind
    rcases h tok' htok' tok htok with heq | hapart
    · rw [heq, hfind] at hf
      simp at hf
    · have := hapart.end_le (prefix_of_find hq) (prefix_of_find (find_append hfind y)) (by omega)
      omega

namespace Glm47Detector

def botToken : Text := "<tool_call>".toList
def eotToken : Text := "</tool_call>".toList
def keyOpen : Text := "<arg_key>".toList
def keyClose : Text := "</arg_key>".toList
def valOpen : Text := "<arg_value>".toList
def valClose : Text := "</arg_value>".toList

/-- What ends a function name. -/
def nameEnds : List Text := [['\n'], keyOpen, eotToken]

theorem headed : ∀ tok ∈ [botToken, eotToken, keyOpen, keyClose, valOpen, valClose],
    Headed tok := by decide

theorem apart : Apart eotToken keyOpen := by decide

theorem nameEnds_apart : ∀ tok ∈ nameEnds, ∀ tok' ∈ nameEnds, tok = tok' ∨ Apart tok tok' := by
  decide

def trim : Trim := ⟨isSpace, false⟩

end Glm47Detector

/-! ## The detector -/

inductive GMode where
  | idle
  | name
  | invoke
  | invokeSkip
  | key
  | keySkip
  | preval
  | prevalSkip
  | pstr
  | pbuf
  | pskip
deriving DecidableEq

structure Glm47Detector where
  buffer : Text := []
  calls : CallState := {}
  gMode : GMode := .idle
  gKey : Text := []
  gLead : Text := ['{']
  gLeadTrimmed : Bool := false
  gConfig : Json := .object []

instance : Calling Glm47Detector where
  buffer := Glm47Detector.buffer
  setBuffer d b := { d with buffer := b }
  buffer_set _ _ := rfl
  set_set _ _ _ := rfl
  set_buffer _ := rfl
  calls := Glm47Detector.calls
  setCalls d c := { d with calls := c }
  calls_setCalls _ _ := rfl
  calls_setBuffer _ _ := rfl
  setCalls_setCalls _ _ _ := rfl
  setCalls_calls _ := rfl
  setCalls_setBuffer _ _ _ := rfl

namespace Glm47Detector

variable (env : Env) (tools : List Tool)

/-! ### Blocks -/

def enterName (d : Glm47Detector) : Glm47Detector := { d with gMode := .name }

/-- The call whose name has been read: accepted, or skipped. -/
def openCall (name : Text) : Effect Glm47Detector := fun d =>
  let funcName := strip name
  let calls := d.calls.openCall
  if funcName ≠ [] ∧ (inToolIndices tools funcName || shouldForwardUnknownTool env funcName) then
    some
      ({ d with
          calls := calls.startCall funcName
          gConfig := getParamConfig funcName tools
          gMode := .invoke },
        Out.ofList [.call (calls.startItem funcName)])
  else some ({ d with calls := calls, gMode := .invokeSkip }, 0)

/-- The function name runs until a newline, the first `<arg_key>`, or the closing tag. -/
def readName (d : Glm47Detector) : Iter Glm47Detector (Out Part) :=
  match firstFound nameEnds d.buffer with
  | none => .done d 0
  | some cut =>
    follow (openCall env tools (d.buffer.take cut)) d
      (if d.buffer[cut]? = some '\n' then d.buffer.drop (cut + 1) else d.buffer.drop cut)

def closeInvoke (skip : Bool) : Effect Glm47Detector := fun d =>
  if skip then some ({ d with gMode := .idle }, 0)
  else
    some ({ d with calls := d.calls.closeCall env, gMode := .idle },
      d.calls.argsPart d.calls.closing)

/-! ### Keys and values -/

def openKey (skip : Bool) : Effect Glm47Detector := fun d =>
  some ({ d with gMode := if skip then .keySkip else .key }, 0)

def closeKey (skip : Bool) (content : Text) : Effect Glm47Detector := fun d =>
  some ({ d with gKey := strip content, gMode := if skip then .prevalSkip else .preval }, 0)

/-- The value whose opening tag has been read; none when its schema type raises. -/
def openValue (skip : Bool) : Effect Glm47Detector := fun d =>
  if skip then some ({ d with gMode := .pskip }, 0)
  else
    let lead := d.calls.lead
    let calls := { d.calls with argsStarted := true }
    (schemaParamType env d.gKey d.gConfig "loose".toList).map fun ptype =>
      if isStringType ptype then
        let fragment := lead ++ (CallState.keyText d.gKey ++ ['"'])
        ({ d with calls := calls.addArgs fragment, gLeadTrimmed := false, gMode := .pstr },
          calls.argsPart fragment)
      else ({ d with calls := calls, gLead := lead, gMode := .pbuf }, 0)

def leaveValue (d : Glm47Detector) : Glm47Detector := { d with gMode := .invoke }

def leadTrimmed (d : Glm47Detector) : Glm47Detector := { d with gLeadTrimmed := true }

/-- The value of a complete `pbuf`: converted by its schema type when it has one, else
as JSON or as it is. -/
def convertValue (config : Json) (key raw : Text) : Option Json :=
  match configHas config key with
  | none => none
  | some true => convertParamValue env raw key config
  | some false => some ((env.loads raw).getD (.str raw))

def closeTyped (content : Text) : Effect Glm47Detector := fun d =>
  (convertValue env d.gConfig d.gKey (strip content)).map fun converted =>
    let fragment := d.gLead ++ (CallState.keyText d.gKey ++ Json.dumps converted)
    ({ d with calls := (d.calls.addArgs fragment).updatePrev env, gMode := .invoke },
      d.calls.argsPart fragment)

def closeSkipped (_ : Text) : Effect Glm47Detector := fun d =>
  some ({ d with gMode := .invokeSkip }, 0)

/-! ### The loop -/

/-- The text behind a tag that is `tok` itself. -/
def literalTag (tok text : Text) : Option (Unit × Text) := some ((), text.drop tok.length)

/-- The modes `invoke` and `invoke_skip`. -/
def invokeStep (skip : Bool) (d : Glm47Detector) : Iter Glm47Detector (Out Part) :=
  scanTags eotToken keyOpen (literalTag keyOpen) (follow (closeInvoke env skip))
    (fun _ => follow (openKey skip)) d

/-- One iteration of the loop of `parse_streaming_increment`; `called` says whether
the increment has put out a call already. -/
def step (called : Bool) (d : Glm47Detector) : Iter Glm47Detector (Out Part) :=
  if d.buffer = [] then .done d 0
  else
    match d.gMode with
    | .idle =>
      -- text after a call defers to the next step (wire order)
      if called then .done d 0 else readText botToken enterName d
    | .name => readName env tools d
    | .invoke => d.invokeStep env false
    | .invokeSkip => d.invokeStep env true
    | .key => waitFor keyClose (fun content => follow (closeKey false content)) d
    | .keySkip => waitFor keyClose (fun content => follow (closeKey true content)) d
    | .preval => skipTo valOpen (follow (openValue env false)) d
    | .prevalSkip => skipTo valOpen (follow (openValue env true)) d
    | .pstr =>
      if d.gLeadTrimmed then readString env valClose trim leaveValue d
      else readLeading env valClose trim (fun _ => false) leadTrimmed leaveValue d
    | .pbuf => waitFor valClose (fun content => follow (closeTyped env content)) d
    | .pskip => waitFor valClose (fun content => follow (closeSkipped content)) d

/-- `text.replace(tok, "")`; `skip` characters are still inside an occurrence. -/
def removeAll (tok : Text) : (skip : Nat) → Text → Text
  | _, [] => []
  | skip + 1, _ :: cs => removeAll tok skip cs
  | 0, c :: cs =>
    if tok <+: c :: cs then removeAll tok (tok.length - 1) cs else c :: removeAll tok 0 cs

/-- `finish_streaming`: the residual text that is plain content. -/
def finishStreaming (d : Glm47Detector) : Text :=
  if d.gMode != .idle || contains botToken d.buffer then []
  else
    let residual := removeAll eotToken 0 d.buffer
    if d.calls.prevToolCallArr ≠ [] ∧ strip residual = [] then [] else residual

end Glm47Detector

end FreeToken.Server

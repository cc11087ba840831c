import FreeToken.Server.ReaderProgress
import FreeToken.Server.TagRegex

/-!
# Value-level streaming for invoke/parameter block formats

`InvokeParamStreamMixin.parse_streaming_increment`, one iteration of its loop at a
time: text outside blocks streams live; parameter values whose schema type is string
stream character by character as JSON-escaped fragments; typed values are held until
the parameter closes. The grammars of the Qwen3Coder and MiniMax detectors are
instances of `InvokeGrammar`.
-/

namespace FreeToken.Server

open FreeToken.Lib Buffered

/-! ## Grammars -/

/-- The class attributes a detector sets. -/
structure InvokeGrammar where
  outerOpen : Text
  outerClose : Text
  invokeOpenPrefix : Text
  invokeOpenRe : Matcher Char Text
  invokeClose : Text
  paramOpenPrefix : Text
  paramOpenRe : Matcher Char Text
  paramClose : Text
  trim : Trim
  /-- Schema type assumed for undeclared parameters. -/
  missingType : Text
  canonicalName : Text → Text
  headed : ∀ tok ∈ [outerOpen, outerClose, invokeOpenPrefix, invokeClose, paramOpenPrefix,
    paramClose], Headed tok
  blockApart : Apart outerClose invokeOpenPrefix
  invokeApart : Apart invokeClose paramOpenPrefix

def qwen3Coder : InvokeGrammar where
  outerOpen := "<tool_call>".toList
  outerClose := "</tool_call>".toList
  invokeOpenPrefix := "<function=".toList
  invokeOpenRe := plainMatcher "<function=".toList (by decide)
  invokeClose := "</function>".toList
  paramOpenPrefix := "<parameter=".toList
  paramOpenRe := plainMatcher "<parameter=".toList (by decide)
  paramClose := "</parameter>".toList
  trim := ⟨(· == '\n'), true⟩
  missingType := "string".toList
  canonicalName := id
  headed := by decide
  blockApart := by decide
  invokeApart := by decide

def miniMax : InvokeGrammar where
  outerOpen := "<minimax:tool_call>".toList
  outerClose := "</minimax:tool_call>".toList
  invokeOpenPrefix := "<invoke".toList
  invokeOpenRe := attrMatcher true "<invoke".toList (by decide)
  invokeClose := "</invoke>".toList
  paramOpenPrefix := "<parameter".toList
  paramOpenRe := attrMatcher true "<parameter".toList (by decide)
  paramClose := "</parameter>".toList
  trim := ⟨(· == '\n'), false⟩
  missingType := "loose".toList
  canonicalName := id
  headed := by decide
  blockApart := by decide
  invokeApart := by decide

/-! ## The detector -/

inductive PsMode where
  | idle
  | block
  | invoke
  | invokeSkip
  | pstr
  | pbuf
  | pskip
deriving DecidableEq

structure InvokeDetector where
  buffer : Text := []
  calls : CallState := {}
  psMode : PsMode := .idle
  psKey : Text := []
  psLead : Text := ['{']
  psLeadTrimmed : Bool := false
  psParamConfig : Json := .object []

instance : Calling InvokeDetector where
  buffer := InvokeDetector.buffer
  setBuffer d b := { d with buffer := b }
  buffer_set _ _ := rfl
  set_set _ _ _ := rfl
  set_buffer _ := rfl
  calls := InvokeDetector.calls
  setCalls d c := { d with calls := c }
  calls_setCalls _ _ := rfl
  calls_setBuffer _ _ := rfl
  setCalls_setCalls _ _ _ := rfl
  setCalls_calls _ := rfl
  setCalls_setBuffer _ _ _ := rfl

namespace InvokeDetector

variable (env : Env) (g : InvokeGrammar) (tools : List Tool)

/-- `_ps_convert_value`, none when it or writing its result raises. -/
def psConvertValue (config : Json) (key raw : Text) : Option Json :=
  match configHas config key with
  | none => none
  | some declared =>
    if declared || g.missingType != "loose".toList then convertParamValue env raw key config
    else some (parseLooseJsonValue env raw)

/-! ### Blocks and invokes -/

def enterBlock (d : InvokeDetector) : InvokeDetector := { d with psMode := .block }

def closeBlock : Effect InvokeDetector := fun d => some ({ d with psMode := .idle }, 0)

/-- The invoke whose opening tag has been read: accepted, or skipped. -/
def openInvoke (group : Text) : Effect InvokeDetector := fun d =>
  let funcName := g.canonicalName (strip group)
  let calls := d.calls.openCall
  if inToolIndices tools funcName || shouldForwardUnknownTool env funcName then
    some
      ({ d with
          calls := calls.startCall funcName
          psParamConfig := getParamConfig funcName tools
          psMode := .invoke },
        Out.ofList [.call (calls.startItem funcName)])
  else some ({ d with calls := calls, psMode := .invokeSkip }, 0)

def closeInvoke (skip : Bool) : Effect InvokeDetector := fun d =>
  if skip then some ({ d with psMode := .block }, 0)
  else
    some ({ d with calls := d.calls.closeCall env, psMode := .block },
      d.calls.argsPart d.calls.closing)

/-! ### Parameters -/

/-- The parameter whose opening tag has been read; none when its schema type raises. -/
def openParam (skip : Bool) (group : Text) : Effect InvokeDetector := fun d =>
  if skip then some ({ d with psMode := .pskip }, 0)
  else
    let key := strip group
    let lead := d.calls.lead
    let calls := { d.calls with argsStarted := true }
    (schemaParamType env key d.psParamConfig g.missingType).map fun ptype =>
      if isStringType ptype then
        let fragment := lead ++ (CallState.keyText key ++ ['"'])
        ({ d with
            psKey := key, calls := calls.addArgs fragment, psLeadTrimmed := false
            psMode := .pstr },
          calls.argsPart fragment)
      else ({ d with psKey := key, calls := calls, psLead := lead, psMode := .pbuf }, 0)

def leaveValue (d : InvokeDetector) : InvokeDetector := { d with psMode := .invoke }

def leadTrimmed (d : InvokeDetector) : InvokeDetector := { d with psLeadTrimmed := true }

/-- A typed value is converted when it is complete; none when that raises. -/
def closeTyped (content : Text) : Effect InvokeDetector := fun d =>
  let raw := g.trim.trailing (g.trim.leading content)
  (psConvertValue env g d.psParamConfig d.psKey raw).map fun converted =>
    let fragment := d.psLead ++ (CallState.keyText d.psKey ++ Json.dumps converted)
    ({ d with calls := (d.calls.addArgs fragment).updatePrev env, psMode := .invoke },
      d.calls.argsPart fragment)

def closeSkipped (_ : Text) : Effect InvokeDetector := fun d =>
  some ({ d with psMode := .invokeSkip }, 0)

/-! ### The loop -/

/-- Once this is left of a value's start, nothing more is trimmed there. -/
def leadDone (text : Text) : Bool := text != [] || g.trim.single

/-- The modes `invoke` and `invoke_skip`. -/
def invokeStep (skip : Bool) (d : InvokeDetector) : Iter InvokeDetector (Out Part) :=
  scanTags g.invokeClose g.paramOpenPrefix g.paramOpenRe.search (follow (closeInvoke env skip))
    (fun group => follow (openParam env g skip group)) d

/-- One iteration of the loop of `parse_streaming_increment`; `called` says whether
the increment has put out a call already. -/
def step (called : Bool) (d : InvokeDetector) : Iter InvokeDetector (Out Part) :=
  if d.buffer = [] then .done d 0
  else
    match d.psMode with
    | .idle =>
      -- text after a call defers to the next step (wire order)
      if called then .done d 0 else readText g.outerOpen enterBlock d
    | .block =>
      scanTags g.outerClose g.invokeOpenPrefix g.invokeOpenRe.search (follow closeBlock)
        (fun group => follow (openInvoke env g tools group)) d
    | .invoke => d.invokeStep env g false
    | .invokeSkip => d.invokeStep env g true
    | .pstr =>
      if d.psLeadTrimmed then readString env g.paramClose g.trim leaveValue d
      else readLeading env g.paramClose g.trim (leadDone g) leadTrimmed leaveValue d
    | .pbuf => waitFor g.paramClose (fun content => follow (closeTyped env g content)) d
    | .pskip => waitFor g.paramClose (fun content => follow (closeSkipped content)) d

/-- `finish_streaming`: the residual text that is plain content. -/
def finishStreaming (d : InvokeDetector) : Text :=
  if d.psMode != .idle || contains g.outerOpen d.buffer then []
  else if d.calls.prevToolCallArr ≠ [] ∧ strip d.buffer = [] then []
  else d.buffer

end InvokeDetector

end FreeToken.Server

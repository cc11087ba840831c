import FreeToken.Server.Glm47
import FreeToken.Server.StreamDriver

/-!
# Streaming generation

`_generate_events_core`: the replies of the engine to one request become reasoning, content and
tool-call events, whatever the wire format that is made of them. The parsers are taken by what
the generator asks of them: a reasoning parser splits a chunk, a tool-call parser turns text
into segments and fragments and keeps the arguments as parsed so far. `Assembly` is the state in
which the fragments of one call are put together.
-/

namespace FreeToken.Server

open FreeToken.Lib

/-! ## Replies and events -/

abbrev JsonDict := List (Text × Json)

/-- The reasons for which the scheduler ends a request. -/
inductive EngineReason where
  | stop
  | length
deriving DecidableEq

inductive FinishReason where
  | stop
  | length
  | toolCalls
deriving DecidableEq

/-- A reply of the engine. -/
structure Ack where
  incrementalOutput : Text := []
  promptTokensDelta : Nat := 0
  completionTokensDelta : Nat := 0
  cachedTokens : Nat := 0
  finished : Bool := false
  error : Option Text := none
  errorCode : Option Text := none
  finishReason : Option EngineReason := none
  matchedStop : Option Text := none
  kvTransferParams : Option JsonDict := none
  firstLogprobs : Option JsonDict := none

/-- `GenerationError`. -/
structure GenerationError where
  message : Text
  code : Option Text

structure GenDone where
  finishReason : FinishReason
  promptTokens : Nat
  completionTokens : Nat
  matchedStop : Option Text
  cachedTokens : Nat
  reasoningTokens : Nat
  kvTransferParams : Option JsonDict
  firstLogprobs : Option JsonDict

inductive GenEvent where
  | reasoningDelta (text : Text)
  | contentDelta (text : Text)
  | toolCallStart (toolIndex : Nat) (name : Option Text) (argsPrefixStable : Bool)
  | toolCallArgsDelta (toolIndex : Nat) (fragment : Text)
  | toolCallsDelta (calls : List ToolCallItem)
  | pooledReady (kvTransferParams : JsonDict) (firstLogprobs : Option JsonDict)
  | genDone (done : GenDone)

/-! ## Parsers -/

/-- A reasoning parser over its states. -/
structure ReasoningStream (ρ : Type) where
  fresh : ρ
  inReasoning : ρ → Bool
  parseStreamChunk : ρ → Text → ρ × ReasoningParseResult
  flush : ρ → ReasoningParseResult

/-- A `FunctionCallParser` whose detector can stream, over its states. -/
structure ToolParser (σ : Type) where
  fresh : σ
  parseStreamEvents : σ → Text → σ × List StreamSegment
  /-- The arguments of a call as parsed so far, by the detector's index. -/
  unstreamedArguments : σ → Int → Option Text
  finalizeStream : σ → σ × List ToolCallItem
  recoverTruncatedCall : σ → σ × List ToolCallItem
  finishStream : σ → Text
  argsFragmentsPrefixStable : Bool

/-- What is done with tools. -/
inductive ToolUse (σ : Type) where
  | off
  /-- The detector cannot stream: everything is parsed at the end. -/
  | buffered (parseToolResponse : Text → Option (Text × List ToolCallItem))
  | streaming (parser : ToolParser σ)

/-- What the generator is set up with. -/
structure Generation (σ ρ : Type) where
  reasoning : Option (ReasoningStream ρ)
  tools : ToolUse σ
  specials : List Text
  /-- `_valid_json`. -/
  validJson : Text → Bool

/-- `strip_special_tokens`. -/
def stripSpecialTokens (text : Text) (tokens : List Text) : Text :=
  tokens.foldl
    (fun text token => if token = [] then text else Glm47Detector.removeAll token 0 text) text

/-! ## Assembly of calls -/

structure OpenCall where
  detectorIndex : Int
  name : Option Text
  params : Text
  ordinal : Nat

structure Assembly where
  openCall : Option OpenCall := none
  callsEmitted : Nat := 0
  /-- Whitespace is swallowed until the next real text. -/
  suppressWs : Bool := false

/-- One step after the other, with all their events. -/
def Assembly.each {α : Type} (f : Assembly → α → Assembly × List GenEvent) :
    Assembly → List α → Assembly × List GenEvent
  | a, [] => (a, [])
  | a, x :: xs =>
    let r := f a x
    let r' := Assembly.each f r.1 xs
    (r'.1, r.2 ++ r'.2)

namespace Generation

variable {σ ρ : Type} (g : Generation σ ρ)

/-- The arguments of a call that ends: the parse state where the fragments are no JSON. -/
def finalParams (ledger : Int → Option Text) (oc : OpenCall) : Text :=
  if g.validJson oc.params then oc.params
  else ((ledger oc.detectorIndex).filter fun t => t ≠ []).getD oc.params

/-- `_close_open_call`; `ledger` is the parser's `unstreamed_arguments`. -/
def closeOpenCall (ledger : Int → Option Text) (a : Assembly) : Assembly × List GenEvent :=
  match a.openCall with
  | none => (a, [])
  | some oc =>
    let params := g.finalParams ledger oc
    let call : ToolCallItem :=
      { toolIndex := oc.ordinal, name := oc.name
        parameters := if params = [] then "{}".toList else params }
    ({ openCall := none, callsEmitted := a.callsEmitted + 1, suppressWs := true },
      [.toolCallsDelta [call]])

/-- Text outside of calls. -/
def contentEvents (a : Assembly) (payload : Text) : Assembly × List GenEvent :=
  let stripped := stripSpecialTokens payload g.specials
  if stripped = [] ∨ strip stripped = [] ∧ a.suppressWs then (a, [])
  else
    ({ a with suppressWs := if strip stripped = [] then a.suppressWs else false },
      [.contentDelta stripped])

/-- Whether a fragment begins another call than the open one. -/
def startsNew (a : Assembly) (frag : ToolCallItem) : Bool :=
  frag.name.isSome && a.openCall.all fun oc => frag.toolIndex ≠ oc.detectorIndex

/-- The call a fragment belongs to, opened by it if there is none. -/
def ensureOpen (stable : Bool) (a : Assembly) (frag : ToolCallItem) : OpenCall × List GenEvent :=
  match a.openCall with
  | some oc => (oc, [])
  | none =>
    ({ detectorIndex := frag.toolIndex, name := frag.name, params := [],
       ordinal := a.callsEmitted },
      [.toolCallStart a.callsEmitted frag.name stable])

/-- The fragment's text goes to the open call. -/
def addFragment (a : Assembly) (oc : OpenCall) (fragment : Text) : Assembly × List GenEvent :=
  if fragment = [] then ({ a with openCall := some oc }, [])
  else
    ({ a with openCall := some { oc with params := oc.params ++ fragment } },
      [.toolCallArgsDelta oc.ordinal fragment])

def routeFragment (stable : Bool) (ledger : Int → Option Text) (a : Assembly)
    (frag : ToolCallItem) : Assembly × List GenEvent :=
  let closed := if startsNew a frag then g.closeOpenCall ledger a else (a, [])
  let opened := ensureOpen stable closed.1 frag
  let added := addFragment closed.1 opened.1 frag.parameters
  (added.1, closed.2 ++ (opened.2 ++ added.2))

def routeSegment (stable : Bool) (ledger : Int → Option Text) (a : Assembly) :
    StreamSegment → Assembly × List GenEvent
  | .text payload =>
    let closed := g.closeOpenCall ledger a
    let content := g.contentEvents closed.1 payload
    (content.1, closed.2 ++ content.2)
  | .calls items => a.each (g.routeFragment stable ledger) items

end Generation

/-! ## The state of a generation -/

structure GenState (σ ρ : Type) where
  promptTokens : Nat := 0
  completionTokens : Nat := 0
  cachedTokens : Nat := 0
  reasoningTokens : Nat := 0
  pending : Text := []
  reasoning : Option ρ
  parser : Option σ
  assembly : Assembly := {}
  engineFinishReason : Option EngineReason := none
  engineMatchedStop : Option Text := none
  kvTransferParams : Option JsonDict := none
  firstLogprobs : Option JsonDict := none
  pooledReady : Bool := false

namespace Generation

variable {σ ρ : Type} (g : Generation σ ρ)

/-- `frag_stable`. -/
def fragStable : Bool :=
  match g.tools with
  | .streaming parser => parser.argsFragmentsPrefixStable
  | _ => true

/-- The state before the first reply. -/
def start : GenState σ ρ where
  reasoning := g.reasoning.map ReasoningStream.fresh
  parser :=
    match g.tools with
    | .streaming parser => some parser.fresh
    | _ => none

/-- `_route_tool_text`. -/
def routeToolText (parser : ToolParser σ) (s : σ) (a : Assembly) (piece : Text) :
    σ × Assembly × List GenEvent :=
  if piece = [] then (s, a, [])
  else
    let parsed := parser.parseStreamEvents s piece
    let routed := a.each
      (g.routeSegment parser.argsFragmentsPrefixStable (parser.unstreamedArguments parsed.1))
      parsed.2
    (parsed.1, routed)

/-- Content goes through the tool parser, into the buffer, or out. -/
def routeContent (s : GenState σ ρ) (content : Text) : GenState σ ρ × List GenEvent :=
  if content = [] then (s, [])
  else
    match g.tools, s.parser with
    | .streaming parser, some p =>
      let r := g.routeToolText parser p s.assembly content
      ({ s with parser := some r.1, assembly := r.2.1 }, r.2.2)
    | .buffered _, _ => ({ s with pending := s.pending ++ content }, [])
    | _, _ => (s, [.contentDelta (stripSpecialTokens content g.specials)])

def reasoningEvents (text : Text) : List GenEvent :=
  let stripped := stripSpecialTokens text g.specials
  if stripped = [] then [] else [.reasoningDelta stripped]

/-- The counts of a reply, and the probe payload when it first comes. -/
def countAck (s : GenState σ ρ) (ack : Ack) : GenState σ ρ × List GenEvent :=
  let kv := (ack.kvTransferParams.filter fun d => !d.isEmpty).orElse fun _ => s.kvTransferParams
  let logprobs := (ack.firstLogprobs.filter fun d => !d.isEmpty).orElse fun _ => s.firstLogprobs
  let s :=
    { s with
      promptTokens := s.promptTokens + ack.promptTokensDelta
      completionTokens := s.completionTokens + ack.completionTokensDelta
      cachedTokens := s.cachedTokens + ack.cachedTokens
      kvTransferParams := kv
      firstLogprobs := logprobs }
  match kv with
  | some params =>
    if s.pooledReady then (s, [])
    else ({ s with pooledReady := true }, [.pooledReady params logprobs])
  | none => (s, [])

/-- The text of a reply, split by the reasoning parser. -/
def splitAck (s : GenState σ ρ) (ack : Ack) : GenState σ ρ × Text × List GenEvent :=
  match g.reasoning, s.reasoning with
  | some parser, some r =>
    if ack.incrementalOutput = [] then (s, [], [])
    else
      let parsed := parser.parseStreamChunk r ack.incrementalOutput
      let counts := parser.inReasoning r || parsed.2.reasoningText ≠ []
      let tokens := if counts then ack.completionTokensDelta else 0
      ({ s with reasoning := some parsed.1, reasoningTokens := s.reasoningTokens + tokens },
        parsed.2.normalText, g.reasoningEvents parsed.2.reasoningText)
  | _, _ => (s, ack.incrementalOutput, [])

/-- One reply without an error. -/
def onAck (s : GenState σ ρ) (ack : Ack) : GenState σ ρ × List GenEvent :=
  let counted := countAck s ack
  let split := g.splitAck counted.1 ack
  let routed := g.routeContent split.1 split.2.1
  let s :=
    if ack.finished then
      { routed.1 with engineFinishReason := ack.finishReason, engineMatchedStop := ack.matchedStop }
    else routed.1
  (s, counted.2 ++ (split.2.2 ++ routed.2))

/-! ## The end of the stream -/

/-- A fragment that closes the arguments of a call that was cut off. -/
def finalizeFragment (a : Assembly) (frag : ToolCallItem) : Assembly × List GenEvent :=
  match a.openCall with
  | some oc => addFragment a oc frag.parameters
  | none => (a, [])

/-- A call that was cut off inside its block. -/
def recoverItem (a : Assembly) (item : ToolCallItem) : Assembly × List GenEvent :=
  ({ a with callsEmitted := a.callsEmitted + 1 },
    [.toolCallStart a.callsEmitted item.name true,
      .toolCallsDelta
        [{ toolIndex := a.callsEmitted, name := item.name, parameters := item.parameters }]])

/-- The four drains of a streaming parser. -/
def drainParser (parser : ToolParser σ) (s : σ) (a : Assembly) : Assembly × List GenEvent :=
  let finalized := parser.finalizeStream s
  let completed := a.each finalizeFragment finalized.2
  let closed := g.closeOpenCall (parser.unstreamedArguments finalized.1) completed.1
  let recovered := parser.recoverTruncatedCall finalized.1
  let calls := closed.1.each recoverItem recovered.2
  let content := g.contentEvents calls.1 (parser.finishStream recovered.1)
  (calls.1, completed.2 ++ (closed.2 ++ (calls.2 ++ content.2)))

/-- The engine's reason, which a call overrides unless the answer was cut off. -/
def finishReason (engine : Option EngineReason) (called : Bool) : FinishReason :=
  match engine with
  | some .length => .length
  | _ => if called then .toolCalls else .stop

/-- The drain after the residue of the reasoning parser; whether a call was emitted. -/
def drainTools (s : GenState σ ρ) : Bool × List GenEvent :=
  match g.tools, s.parser with
  | .streaming parser, some p =>
    let r := g.drainParser parser p s.assembly
    (r.1.callsEmitted ≠ 0, r.2)
  | .buffered parse, _ =>
    match parse s.pending with
    | some (text, calls) =>
      let normal := stripSpecialTokens text g.specials
      (true, (if normal = [] then [] else [.contentDelta normal]) ++ [.toolCallsDelta calls])
    | none =>
      (false, if s.pending = [] then []
        else [.contentDelta (stripSpecialTokens s.pending g.specials)])
  | _, _ => (false, [])

/-- What the reasoning parser still holds. -/
def residue (s : GenState σ ρ) : ReasoningParseResult :=
  match g.reasoning, s.reasoning with
  | some parser, some r => parser.flush r
  | _, _ => 0

/-- All that comes after the last reply. -/
def drain (s : GenState σ ρ) : List GenEvent :=
  let residue := g.residue s
  let routed := g.routeContent s residue.normalText
  let drained := g.drainTools routed.1
  let s := routed.1
  g.reasoningEvents residue.reasoningText ++ (routed.2 ++ (drained.2 ++
    [.genDone
      { finishReason := finishReason s.engineFinishReason drained.1
        promptTokens := s.promptTokens
        completionTokens := s.completionTokens
        matchedStop := s.engineMatchedStop
        cachedTokens := s.cachedTokens
        reasoningTokens := s.reasoningTokens
        kvTransferParams := s.kvTransferParams
        firstLogprobs := s.firstLogprobs }]))

/-- How the generator stands after some replies. -/
inductive Outcome where
  | waiting
  | failed (error : GenerationError)
  | finished

/-- `_generate_events_core` from a state on. -/
def events (s : GenState σ ρ) : List Ack → Outcome × List GenEvent
  | [] => (.waiting, [])
  | ack :: acks =>
    match ack.error.filter fun e => e ≠ [] with
    | some message => (.failed { message := message, code := ack.errorCode }, [])
    | none =>
      let r := g.onAck s ack
      if ack.finished then (.finished, r.2 ++ g.drain r.1)
      else
        let rest := events r.1 acks
        (rest.1, r.2 ++ rest.2)

/-- `_generate_events_core`. -/
def generateEventsCore (acks : List Ack) : Outcome × List GenEvent := g.events g.start acks

end Generation

end FreeToken.Server

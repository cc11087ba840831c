import FreeToken.Server.Answer

/-!
# The Anthropic event stream

`anthropic_event_stream` of `server/anthropic_api.py`: the events of a generation, and the
keepalives between them, become the frames of the Messages protocol. `AnthropicClient` is who
reads them: blocks come one after the other under consecutive indices, the pieces of a block are
of its kind, and nothing but a `ping` may come out of turn. Main results:

* `say_moves`, `onCall_moves`, `event_moves`: the frames of each event are read, and add to the
  answer what the event says.
* `anthropic_client_reads`: so a client reads every stream to its end, and has the text, the
  thinking and the calls of the generation.
-/

namespace FreeToken.Server

open FreeToken.Lib

/-! ## The frames -/

/-- `AnthropicContentBlock`, as a stream starts it. -/
inductive ContentBlock where
  | text
  | thinking
  | toolUse (id : Text) (name : Option Text)
deriving DecidableEq

def ContentBlock.kind : ContentBlock → BlockKind
  | .text => .text
  | .thinking => .thinking
  | .toolUse _ _ => .tool

/-- The name in a block that is a call. -/
def ContentBlock.callName : ContentBlock → Option (Option Text)
  | .toolUse _ name => some name
  | _ => none

inductive AnthropicDelta where
  | textDelta (text : Text)
  | thinkingDelta (thinking : Text)
  | inputJsonDelta (partialJson : Text)
  | signatureDelta (signature : Text)
deriving DecidableEq

inductive StopReason where
  | endTurn
  | maxTokens
  | toolUse
  | stopSequence
deriving DecidableEq

structure AnthropicUsage where
  inputTokens : Nat
  outputTokens : Nat
  cacheReadInputTokens : Option Nat := none
deriving DecidableEq

inductive AnthropicErrorType where
  | invalidRequestError
  | internalError
deriving DecidableEq

/-- `AnthropicStreamEvent`. -/
inductive AnthropicStreamEvent where
  | messageStart (id model : Text) (usage : AnthropicUsage)
  | ping
  | contentBlockStart (index : Nat) (block : ContentBlock)
  | contentBlockDelta (index : Nat) (delta : AnthropicDelta)
  | contentBlockStop (index : Nat)
  | messageDelta (stopReason : StopReason) (stopSequence : Option Text) (usage : AnthropicUsage)
  | messageStop
  | error (type : AnthropicErrorType) (message : Text)
deriving DecidableEq

/-- `_anthropic_stop`. -/
def anthropicStop (finishReason : FinishReason) (matchedStop : Option Text) :
    StopReason × Option Text :=
  match matchedStop, finishReason with
  | some s, _ => (.stopSequence, some s)
  | none, .stop => (.endTurn, none)
  | none, .length => (.maxTokens, none)
  | none, .toolCalls => (.toolUse, none)

/-- `_anthropic_usage`. -/
def anthropicUsage (promptTokens completionTokens cachedTokens : Nat) (cacheReport : Bool) :
    AnthropicUsage where
  inputTokens := promptTokens - if cacheReport then cachedTokens else 0
  outputTokens := completionTokens
  cacheReadInputTokens := if cacheReport then some cachedTokens else none

/-! ## The generator -/

/-- The locals of `anthropic_event_stream`. -/
structure AnthropicStream where
  blockIndex : Nat := 0
  blockOpen : Option BlockKind := none
  toolArgsSent : Text := []
  toolOrdinal : Option Int := none
  toolStable : Bool := true

/-- The arguments of `anthropic_event_stream`; `uuid i` is what is drawn for block `i`. -/
structure AnthropicConfig where
  model : Text
  uid : Nat
  cacheReport : Bool := false
  uuid : Nat → Text

/-- `_tool_use_id`. -/
def toolUseId (uuid : Nat → Text) (name : Option Text) (index : Nat) : Text :=
  let base := if name.getD [] = [] then "tool".toList else name.getD []
  "toolu_".toList ++ (base.map fun c => if c = '_' then '-' else c).take 24 ++ "_".toList ++
    (toString index).toList ++ "_".toList ++ (uuid index).take 8

namespace AnthropicStream

/-- `_stop_block`. -/
def stopBlock (s : AnthropicStream) : AnthropicStream × List AnthropicStreamEvent :=
  ({ s with blockOpen := none, blockIndex := s.blockIndex + 1 },
    (if s.blockOpen = some .thinking then
      [.contentBlockDelta s.blockIndex (.signatureDelta [])] else []) ++
      [.contentBlockStop s.blockIndex])

/-- `if block_open: ..._stop_block()`. -/
def closeOpen (s : AnthropicStream) : AnthropicStream × List AnthropicStreamEvent :=
  if s.blockOpen.isSome then s.stopBlock else (s, [])

/-- A piece of text, in a block of its own unless one of that kind is open. -/
def say (block : ContentBlock) (delta : Text → AnthropicDelta) (s : AnthropicStream)
    (text : Text) : AnthropicStream × List AnthropicStreamEvent :=
  if text = [] then (s, [])
  else if s.blockOpen = some block.kind then (s, [.contentBlockDelta s.blockIndex (delta text)])
  else
    let closed := s.closeOpen
    ({ closed.1 with blockOpen := some block.kind },
      closed.2 ++ [.contentBlockStart closed.1.blockIndex block,
        .contentBlockDelta closed.1.blockIndex (delta text)])

/-- `_open_tool`. -/
def openTool (uuid : Nat → Text) (s : AnthropicStream) (name : Option Text)
    (ordinal : Int) (stable : Bool) : AnthropicStream × List AnthropicStreamEvent :=
  let closed := s.closeOpen
  ({ closed.1 with
      blockOpen := some .tool, toolArgsSent := [], toolOrdinal := some ordinal
      toolStable := stable },
    closed.2 ++ [.contentBlockStart closed.1.blockIndex
      (.toolUse (toolUseId uuid name closed.1.blockIndex) name)])

/-- `_tool_args_delta`. -/
def toolArgsDelta (s : AnthropicStream) (fragment : Text) :
    AnthropicStream × List AnthropicStreamEvent :=
  ({ s with toolArgsSent := s.toolArgsSent ++ fragment },
    [.contentBlockDelta s.blockIndex (.inputJsonDelta fragment)])

/-- What of the final arguments was not streamed yet, where the final ones extend the rest. -/
def topUp (s : AnthropicStream) (final : Text) : AnthropicStream × List AnthropicStreamEvent :=
  if s.toolArgsSent <+: final ∧ final.drop s.toolArgsSent.length ≠ [] then
    s.toolArgsDelta (final.drop s.toolArgsSent.length)
  else (s, [])

/-- One call of a `ToolCallsDelta`. -/
def onCall (uuid : Nat → Text) (s : AnthropicStream) (call : ToolCallItem) :
    AnthropicStream × List AnthropicStreamEvent :=
  if s.blockOpen = some .tool ∧ s.toolOrdinal = some call.toolIndex then
    let topped := s.topUp call.parameters
    (topped.1.stopBlock.1, topped.2 ++ topped.1.stopBlock.2)
  else
    let opened := s.openTool uuid call.name call.toolIndex true
    let sent := opened.1.toolArgsDelta call.parameters
    (sent.1.stopBlock.1, opened.2 ++ sent.2 ++ sent.1.stopBlock.2)

/-- One round of the loop. -/
def onEvent (cfg : AnthropicConfig) (s : AnthropicStream) :
    Incoming → AnthropicStream × List AnthropicStreamEvent
  | .keepalive => (s, [.ping])
  | .event (.reasoningDelta text) => s.say .thinking .thinkingDelta text
  | .event (.contentDelta text) => s.say .text .textDelta text
  | .event (.toolCallStart i name stable) => s.openTool cfg.uuid name i stable
  | .event (.toolCallArgsDelta _ fragment) =>
    -- fragments that do not concatenate are left to the close
    if s.blockOpen = some .tool ∧ s.toolStable = true then s.toolArgsDelta fragment else (s, [])
  | .event (.toolCallsDelta calls) => relay (onCall cfg.uuid) s calls
  | .event (.genDone done) =>
    let stop := anthropicStop done.finishReason done.matchedStop
    (s.closeOpen.1, s.closeOpen.2 ++
      [.messageDelta stop.1 stop.2
          (anthropicUsage done.promptTokens done.completionTokens done.cachedTokens
            cfg.cacheReport),
        .messageStop])
  -- no branch of the loop takes it
  | .event (.pooledReady _ _) => (s, [])

def onEnd (s : AnthropicStream) : StreamEnd → List AnthropicStreamEvent
  | .exhausted => []
  | .generationError e => s.closeOpen.2 ++ [.error .invalidRequestError e.message]
  | .exception message => s.closeOpen.2 ++ [.error .internalError message]

end AnthropicStream

/-- `anthropic_event_stream`. -/
def anthropicEventStream (cfg : AnthropicConfig) (events : List Incoming) (last : StreamEnd) :
    List AnthropicStreamEvent :=
  let r := relay (AnthropicStream.onEvent cfg) {} events
  .messageStart ("msg_".toList ++ (toString cfg.uid).toList) cfg.model ⟨0, 0, none⟩ ::
    (r.2 ++ r.1.onEnd last)

/-! ## The client -/

/-- Where a reader of the stream stands. -/
inductive AnthropicClient where
  | waiting
  | streaming (answer : Answer ContentBlock)
  | stopping (answer : Answer ContentBlock) (stopReason : StopReason)
  | stopped (answer : Answer ContentBlock) (stopReason : StopReason)
  | failed (answer : Answer ContentBlock) (type : AnthropicErrorType) (message : Text)
deriving DecidableEq

/-- What a delta adds to a block, when the block is of its kind. -/
def AnthropicDelta.piece : ContentBlock → AnthropicDelta → Option Text
  | .text, .textDelta text => some text
  | .thinking, .thinkingDelta thinking => some thinking
  | .thinking, .signatureDelta _ => some []
  | .toolUse _ _, .inputJsonDelta partialJson => some partialJson
  | _, _ => none

/-- The next frame, when it may come here. -/
def AnthropicClient.next : AnthropicClient → AnthropicStreamEvent → Option AnthropicClient
  | .waiting, .messageStart _ _ _ => some (.streaming {})
  | .streaming a, .ping => some (.streaming a)
  | .streaming a, .contentBlockStart index block =>
    if a.current = none ∧ index = a.closed.length then some (.streaming (a.begin block)) else none
  | .streaming a, .contentBlockDelta index delta =>
    if index = a.closed.length then
      (a.current.bind fun it => delta.piece it.head).map fun piece => .streaming (a.add piece)
    else none
  | .streaming a, .contentBlockStop index =>
    if a.current.isSome ∧ index = a.closed.length then some (.streaming a.close) else none
  | .streaming a, .messageDelta reason _ _ =>
    if a.current = none then some (.stopping a reason) else none
  | .stopping a reason, .messageStop => some (.stopped a reason)
  | .streaming a, .error type message =>
    if a.current = none then some (.failed a type message) else none
  | _, _ => none

/-! ## The client follows the stream -/

/-- The client's answer is what the locals say of it. -/
structure AnthropicStream.At (s : AnthropicStream) (a : Answer ContentBlock) : Prop where
  index : s.blockIndex = a.closed.length
  kind : s.blockOpen = a.current.map fun it => it.head.kind
  sent : ∀ it, a.current = some it → it.head.kind = .tool → it.body = s.toolArgsSent

/-- The calls of the client are those of the log, the open one with what of it is streamed. -/
structure AnthropicStream.LogAt (s : AnthropicStream) (a : Answer ContentBlock)
    (log : CallLog) : Prop where
  done : callsOf ContentBlock.callName a.closed = log.done
  idle : log.opened = none → s.blockOpen ≠ some .tool
  pending : ∀ o, log.opened = some o →
    a.current.map (fun it => it.head.callName) = some (some o.name) ∧
      s.toolOrdinal = some o.ordinal ∧ s.toolStable = o.stable ∧
      s.toolArgsSent = if o.stable then o.fragments else []

namespace AnthropicStream

open AnthropicClient (next)

variable {s : AnthropicStream} {a : Answer ContentBlock}

/-! ### What the client reads of each part -/

theorem stopBlock_run (h : s.At a) (ho : s.blockOpen.isSome) :
    run next (.streaming a) s.stopBlock.2 = some (.streaming a.close) ∧
      s.stopBlock.1.At a.close := by
  have hkind := h.kind
  rw [Option.isSome_iff_exists] at ho
  obtain ⟨k, hk⟩ := ho
  rw [hk, eq_comm, Option.map_eq_some_iff] at hkind
  obtain ⟨it, hit, rfl⟩ := hkind
  refine ⟨?_, ?_, rfl, fun it h => by simp at h⟩
  · -- a thinking block is given its empty signature first
    have hstop : run next (.streaming a) [.contentBlockStop s.blockIndex] =
        some (.streaming a.close) := by
      simp [next, h.index, hit]
    by_cases hthink : it.head.kind = .thinking
    · have hhead : it.head = .thinking := by
        cases hh : it.head <;> rw [hh] at hthink <;> simp [ContentBlock.kind] at hthink
      have hsign : next (.streaming a) (.contentBlockDelta s.blockIndex (.signatureDelta [])) =
          some (.streaming a) := by
        simp [next, h.index, hit, hhead, AnthropicDelta.piece]
      rw [stopBlock, hk, hthink, if_pos rfl, run_append, run_cons, hsign]
      exact hstop
    · rw [stopBlock, hk, if_neg (by simpa using hthink)]
      exact hstop
  · show s.blockIndex + 1 = (a.closed ++ a.current.toList).length
    rw [hit, List.length_append, h.index]
    rfl

theorem closeOpen_run (h : s.At a) :
    run next (.streaming a) s.closeOpen.2 = some (.streaming a.close) ∧
      s.closeOpen.1.At a.close := by
  unfold closeOpen
  split
  · exact stopBlock_run h ‹_›
  · rename_i ho
    have hcur : a.current = none := by
      have hkind := h.kind
      rw [Option.not_isSome_iff_eq_none.mp ho, eq_comm, Option.map_eq_none_iff] at hkind
      exact hkind
    rw [a.close_of_none hcur]
    exact ⟨rfl, h⟩

theorem say_run (block : ContentBlock) (delta : Text → AnthropicDelta) (text : Text)
    (hk : block.kind ≠ .tool) (hp : ∀ t, (delta t).piece block = some t) (h : s.At a) :
    run next (.streaming a) (s.say block delta text).2 = some (.streaming (a.say block text)) ∧
      (s.say block delta text).1.At (a.say block text) := by
  unfold say Answer.say
  by_cases htext : text = []
  · rw [if_pos htext, if_pos htext]
    exact ⟨rfl, h⟩
  rw [if_neg htext, if_neg htext]
  have hsame : s.blockOpen = some block.kind ↔ a.current.map Item.head = some block := by
    rw [h.kind]
    cases hcur : a.current with
    | none => simp
    | some it =>
      simp only [Option.map_some, Option.some.injEq]
      constructor
      · intro he
        cases hh : it.head <;> cases hb : block <;> simp_all [ContentBlock.kind]
      · intro he
        rw [he]
  by_cases hopen : s.blockOpen = some block.kind
  · rw [if_pos hopen, if_pos (hsame.mp hopen)]
    obtain ⟨it, hit, hhead⟩ := Option.map_eq_some_iff.mp (hsame.mp hopen)
    refine ⟨by simp [next, h.index, hit, hhead, hp], h.index, ?_, fun it' hit' htool => ?_⟩
    · rw [hopen, Answer.current_add, hit, ← hhead]
      rfl
    · rw [Answer.current_add, hit, Option.map_some, Option.some.injEq] at hit'
      subst hit'
      exact absurd (hhead ▸ htool) hk
  · rw [if_neg hopen, if_neg fun he => hopen (hsame.mpr he)]
    obtain ⟨hrun, hat⟩ := closeOpen_run h
    refine ⟨?_, hat.index, rfl, fun it hit htool => ?_⟩
    · rw [run_append, hrun]
      simp [next, hat.index, hp, Answer.begin]
    · rw [Answer.current_add, Answer.current_begin, Option.map_some, Option.some.injEq] at hit
      subst hit
      exact absurd htool hk

theorem openTool_run (uuid : Nat → Text) (name : Option Text) (ordinal : Int) (stable : Bool)
    (h : s.At a) :
    let head := ContentBlock.toolUse (toolUseId uuid name a.items.length) name
    run next (.streaming a) (s.openTool uuid name ordinal stable).2 =
      some (.streaming (a.begin head)) ∧
      (s.openTool uuid name ordinal stable).1.At (a.begin head) := by
  intro head
  obtain ⟨hrun, hat⟩ := closeOpen_run h
  have hindex : s.closeOpen.1.blockIndex = a.items.length := hat.index
  refine ⟨?_, hat.index, rfl, fun it hit _ => ?_⟩
  · show run next _ (s.closeOpen.2 ++ _) = _
    rw [run_append, hrun, hindex]
    simp [next, head, Answer.begin]
  · rw [Answer.current_begin, Option.some.injEq] at hit
    rw [← hit]
    rfl

theorem toolArgsDelta_run (fragment : Text) (h : s.At a) (ho : s.blockOpen = some .tool) :
    run next (.streaming a) (s.toolArgsDelta fragment).2 = some (.streaming (a.add fragment)) ∧
      (s.toolArgsDelta fragment).1.At (a.add fragment) := by
  have hkind := h.kind
  rw [ho, eq_comm, Option.map_eq_some_iff] at hkind
  obtain ⟨it, hit, htool⟩ := hkind
  have hpiece : (AnthropicDelta.inputJsonDelta fragment).piece it.head = some fragment := by
    cases hh : it.head <;> rw [hh] at htool <;> simp [ContentBlock.kind] at htool
    rfl
  refine ⟨?_, h.index, ?_, fun it' hit' _ => ?_⟩
  · simp [toolArgsDelta, next, h.index, hit, hpiece]
  · rw [Answer.current_add, hit]
    exact ho.trans (congrArg some htool.symm)
  · rw [Answer.current_add, hit, Option.map_some, Option.some.injEq] at hit'
    rw [← hit']
    exact congrArg (· ++ fragment) (h.sent it hit htool)

/-- What a close has to add to the arguments that were sent. -/
def remainder (s : AnthropicStream) (final : Text) : Text :=
  if s.toolArgsSent <+: final then final.drop s.toolArgsSent.length else []

theorem topUp_run (final : Text) (h : s.At a) (ho : s.blockOpen = some .tool) :
    run next (.streaming a) (s.topUp final).2 = some (.streaming (a.add (s.remainder final))) ∧
      (s.topUp final).1.At (a.add (s.remainder final)) ∧
      (s.topUp final).1.blockOpen = some .tool := by
  unfold topUp remainder
  by_cases hp : s.toolArgsSent <+: final
  · by_cases hd : final.drop s.toolArgsSent.length = []
    · rw [if_neg fun hc => hc.2 hd, if_pos hp, hd, Answer.add_nil]
      exact ⟨rfl, h, ho⟩
    · rw [if_pos ⟨hp, hd⟩, if_pos hp]
      exact ⟨(toolArgsDelta_run _ h ho).1, (toolArgsDelta_run _ h ho).2, ho⟩
  · rw [if_neg fun hc => hp hc.1, if_neg hp, Answer.add_nil]
    exact ⟨rfl, h, ho⟩

/-! ### The calls of the log -/

theorem LogAt.of_idle {l : CallLog} (hd : callsOf ContentBlock.callName a.closed = l.done)
    (ho : l.opened = none) (hb : s.blockOpen ≠ some .tool) : s.LogAt a l :=
  ⟨hd, fun _ => hb, fun o h => by rw [ho] at h; cases h⟩

/-- An open block that is no call adds nothing to the calls. -/
theorem LogAt.items_idle {l : CallLog} (hl : s.LogAt a l) (h : s.At a) (ho : l.opened = none) :
    callsOf ContentBlock.callName a.items = l.done := by
  have hkind := h.kind
  have hb := hl.idle ho
  rw [Answer.items, callsOf_append, hl.done]
  cases hcur : a.current with
  | none => exact List.append_nil _
  | some it =>
    rw [hcur] at hkind
    cases hh : it.head with
    | toolUse id name =>
      rw [Option.map_some, hh] at hkind
      exact absurd hkind hb
    | text => simp [callsOf, hh, ContentBlock.callName]
    | thinking => simp [callsOf, hh, ContentBlock.callName]

theorem LogAt.open_tool {l : CallLog} {o : OpenedCall} (hl : s.LogAt a l) (h : s.At a)
    (ho : l.opened = some o) :
    s.blockOpen = some .tool ∧ ∃ it, a.current = some it ∧ it.head.callName = some o.name ∧
      it.body = s.toolArgsSent := by
  obtain ⟨hcur, -⟩ := hl.pending o ho
  obtain ⟨it, hit, hname⟩ := Option.map_eq_some_iff.mp hcur
  have hkind : it.head.kind = .tool := by
    cases hh : it.head <;> rw [hh] at hname <;> simp [ContentBlock.callName] at hname
    rfl
  exact ⟨by rw [h.kind, hit, Option.map_some, hkind], it, hit, hname, h.sent it hit hkind⟩

/-- The arguments a close leaves in the block are the final ones. -/
theorem LogAt.final {l : CallLog} {o : OpenedCall} {final : Text} (hl : s.LogAt a l)
    (ho : l.opened = some o) (hext : o.stable = true → o.fragments <+: final) :
    s.toolArgsSent ++ s.remainder final = final := by
  obtain ⟨-, -, -, hsent⟩ := hl.pending o ho
  have hp : s.toolArgsSent <+: final := by
    rw [hsent]
    split
    · exact hext ‹_›
    · exact List.nil_prefix
  rw [remainder, if_pos hp]
  obtain ⟨t, rfl⟩ := hp
  rw [List.drop_left]

/-! ### What each event does to the answer -/

/-- The text of one kind. -/
def texts (k : BlockKind) (a : Answer ContentBlock) : Text := a.collect fun b => b.kind = k

/-- The frames in `r` are read, they add `said` to the answer, and with them the calls follow
the log. -/
def Moves (s : AnthropicStream) (a : Answer ContentBlock)
    (r : AnthropicStream × List AnthropicStreamEvent) (said : BlockKind → Text)
    (log : CallLog → Option CallLog) : Prop :=
  Reads next (.streaming a) r.2 fun c => ∃ a', c = .streaming a' ∧ r.1.At a' ∧
    (∀ k ≠ .tool, texts k a' = texts k a ++ said k) ∧
      ∀ l l', s.LogAt a l → log l = some l' → r.1.LogAt a' l'

theorem texts_add_tool {it : Item ContentBlock} {k : BlockKind} (piece : Text) (hk : k ≠ .tool)
    (hit : a.current = some it) (htool : it.head.kind = .tool) :
    texts k (a.add piece) = texts k a := by
  rw [texts, a.collect_add _ piece hit, if_neg (by simpa [htool] using hk.symm), List.append_nil]
  rfl

theorem exists_tool (h : s.At a) (ho : s.blockOpen = some .tool) :
    ∃ it, a.current = some it ∧ it.head.kind = .tool := by
  have hkind := h.kind
  rw [ho, eq_comm, Option.map_eq_some_iff] at hkind
  exact hkind

theorem say_moves (block : ContentBlock) (delta : Text → AnthropicDelta) (text : Text)
    (hk : block.kind ≠ .tool) (hp : ∀ t, (delta t).piece block = some t) (h : s.At a) :
    Moves s a (s.say block delta text) (fun k => if block.kind = k then text else [])
      fun l => if text = [] ∨ l.opened = none then some l else none := by
  obtain ⟨hrun, hat⟩ := say_run block delta text hk hp h
  refine ⟨_, hrun, _, rfl, hat, fun k _ => ?_, fun l l' hl hlog => ?_⟩
  · rw [texts, a.collect_say]
    simp only [decide_eq_true_eq]
    rfl
  · beta_reduce at hlog
    split at hlog
    · rw [Option.some.injEq] at hlog
      subst hlog
      by_cases htext : text = []
      · rw [htext]
        exact hl
      · have ho := ‹text = [] ∨ l.opened = none›.resolve_left htext
        have hitems := hl.items_idle h ho
        refine .of_idle ?_ ho ?_
        · -- the block that is left behind was no call
          unfold Answer.say
          rw [if_neg htext]
          split
          · exact hl.done
          · exact hitems
        · have hopen : (s.say block delta text).1.blockOpen = some block.kind := by
            unfold say
            rw [if_neg htext]
            split
            · exact ‹_›
            · rfl
          rw [hopen]
          simpa using hk
    · cases hlog

theorem onCall_moves (uuid : Nat → Text) (call : ToolCallItem) (h : s.At a) :
    Moves s a (s.onCall uuid call) (fun _ => []) fun l => l.item call := by
  unfold onCall
  split
  · -- the close of the open call
    rename_i hopen
    obtain ⟨hrun, hat, hstill⟩ := topUp_run call.parameters h hopen.1
    obtain ⟨hstop, hend⟩ := stopBlock_run hat (by rw [hstill]; rfl)
    obtain ⟨it, hit, htool⟩ := exists_tool h hopen.1
    refine ⟨_, by rw [run_append, hrun]; exact hstop, _, rfl, hend, fun k hk => ?_,
      fun l l' hl hlog => ?_⟩
    · rw [List.append_nil, texts, Answer.collect_close]
      exact texts_add_tool _ hk hit htool
    · cases ho : l.opened with
      | none => exact absurd hopen.1 (hl.idle ho)
      | some o =>
        simp only [CallLog.item, ho] at hlog
        split at hlog
        · rename_i hc
          obtain ⟨-, it', hit', hname, hbody⟩ := hl.open_tool h ho
          rw [hit, Option.some.injEq] at hit'
          subst hit'
          rw [Option.some.injEq] at hlog
          subst hlog
          refine .of_idle ?_ rfl (by simp [stopBlock])
          rw [Answer.closed_close, Answer.items, Answer.closed_add, callsOf_append, hl.done,
            Answer.current_add, hit]
          simp [callsOf, hname, hbody, hl.final ho hc.2.2, hc.2.1]
        · cases hlog
  · -- a call of which nothing came before
    rename_i hnew
    obtain ⟨hrun, hat⟩ := openTool_run uuid call.name call.toolIndex true h
    obtain ⟨hargs, hsent⟩ := toolArgsDelta_run call.parameters hat rfl
    obtain ⟨hstop, hend⟩ := stopBlock_run hsent rfl
    refine ⟨_, by rw [run_append, run_append, hrun, Option.bind_some, hargs]; exact hstop, _, rfl,
      hend, fun k hk => ?_, fun l l' hl hlog => ?_⟩
    · rw [List.append_nil, texts, Answer.collect_close]
      refine (texts_add_tool _ hk rfl rfl).trans ?_
      exact a.collect_begin _ _
    · cases ho : l.opened with
      | some o =>
        simp only [CallLog.item, ho] at hlog
        split at hlog
        · rename_i hc
          refine absurd ⟨(hl.open_tool h ho).1, ?_⟩ hnew
          rw [(hl.pending o ho).2.1, hc.1]
        · cases hlog
      | none =>
        simp only [CallLog.item, ho, Option.some.injEq] at hlog
        subst hlog
        refine .of_idle ?_ rfl (by simp [stopBlock])
        rw [Answer.closed_close, Answer.items, Answer.closed_add, Answer.closed_begin,
          callsOf_append, hl.items_idle h ho]
        simp [callsOf, ContentBlock.callName]

/-- A step that puts out nothing and changes neither. -/
theorem Moves.skip {log : CallLog → Option CallLog} (h : s.At a)
    (hlog : ∀ l l', s.LogAt a l → log l = some l' → s.LogAt a l') :
    Moves s a (s, []) (fun _ => []) log :=
  .nil ⟨a, rfl, h, fun _ _ => (List.append_nil _).symm, hlog⟩

theorem calls_moves (uuid : Nat → Text) (calls : List ToolCallItem) (h : s.At a) :
    Moves s a (relay (onCall uuid) s calls) (fun _ => []) fun l => run CallLog.item l calls := by
  have hreads := relay_reads (onCall uuid) next
    (fun past s' c => ∃ a', c = .streaming a' ∧ s'.At a' ∧
      (∀ k ≠ .tool, texts k a' = texts k a) ∧
        ∀ l l', s.LogAt a l → run CallLog.item l past = some l' → s'.LogAt a' l')
    (fun _ _ => True) ?_ calls [] s (.streaming a) ⟨a, rfl, h, fun _ _ => rfl,
      fun l l' hl hlog => ?_⟩
    (fun _ _ _ _ => trivial)
  · refine hreads.mono fun c hc => ?_
    obtain ⟨a', hc, hat, htext, hlog⟩ := hc
    exact ⟨a', hc, hat, fun k hk => by rw [htext k hk, List.append_nil], hlog⟩
  · rintro past s' c call ⟨a', rfl, hat, htext, hlog⟩ -
    refine (onCall_moves uuid call hat).mono fun c hc => ?_
    obtain ⟨a'', hc, hat', htext', hlog'⟩ := hc
    refine ⟨a'', hc, hat', fun k hk => ?_, fun l l' hl hrun => ?_⟩
    · rw [htext' k hk, htext k hk, List.append_nil]
    · obtain ⟨m, hm, hrun⟩ := run_concat_some hrun
      exact hlog' m l' (hlog l m hl hm) hrun
  · rw [run_nil, Option.some.injEq] at hlog
    exact hlog ▸ hl

theorem argsDelta_moves (i : Nat) (fragment : Text) (cfg : AnthropicConfig) (h : s.At a) :
    Moves s a (s.onEvent cfg (.event (.toolCallArgsDelta i fragment))) (fun _ => [])
      fun l => l.read (.event (.toolCallArgsDelta i fragment)) := by
  have hnone : ∀ l l' : CallLog, l.opened = none →
      l.read (.event (.toolCallArgsDelta i fragment)) = some l' →
      l' = l := by
    rintro ⟨done, opened⟩ l' rfl hlog
    exact (Option.some.inj hlog).symm
  unfold onEvent
  simp only
  split
  · rename_i hopen
    obtain ⟨hrun, hat⟩ := toolArgsDelta_run fragment h hopen.1
    obtain ⟨it, hit, htool⟩ := exists_tool h hopen.1
    refine ⟨_, hrun, _, rfl, hat, fun k hk => ?_, fun l l' hl hlog => ?_⟩
    · rw [List.append_nil, texts_add_tool fragment hk hit htool]
    · cases ho : l.opened with
      | none => exact absurd hopen.1 (hl.idle ho)
      | some o =>
        obtain ⟨hname, hord, hstable, hsent⟩ := hl.pending o ho
        simp only [CallLog.read, ho, Option.map_some, Option.some.injEq] at hlog
        subst hlog
        refine ⟨hl.done, (fun h => by cases h), fun o' ho' => ?_⟩
        rw [Option.some.injEq] at ho'
        subst ho'
        refine ⟨?_, hord, hstable, ?_⟩
        · rw [hit] at hname
          rw [Answer.current_add, hit]
          exact hname
        · rw [hopen.2] at hstable
          simp only [← hstable, if_pos] at hsent ⊢
          exact congrArg (· ++ fragment) hsent
  · rename_i hclosed
    refine .skip h fun l l' hl hlog => ?_
    cases ho : l.opened with
    | none => exact hnone l l' ho hlog ▸ hl
    | some o =>
      -- the open call does not stream its fragments
      obtain ⟨hname, hord, hstable, hsent⟩ := hl.pending o ho
      have hunstable : o.stable = false := by
        rw [← hstable]
        exact Bool.eq_false_iff.mpr fun ht => hclosed ⟨(hl.open_tool h ho).1, ht⟩
      simp only [CallLog.read, ho, Option.map_some, Option.some.injEq] at hlog
      subst hlog
      refine ⟨hl.done, (fun h => by cases h), fun o' ho' => ?_⟩
      rw [Option.some.injEq] at ho'
      subst ho'
      rw [hunstable] at hsent
      exact ⟨hname, hord, hstable, by rw [hunstable]; exact hsent⟩

/-- One event that does not end the stream. -/
theorem event_moves (cfg : AnthropicConfig) (e : Incoming) (he : e.isDone = false) (h : s.At a) :
    Moves s a (s.onEvent cfg e) (fun k => e.said k) fun l => l.read e := by
  cases e with
  | keepalive =>
    exact ⟨_, rfl, a, rfl, h, fun _ _ => (List.append_nil _).symm,
      fun l l' hl hlog => by rw [← Option.some.inj hlog]; exact hl⟩
  | event e =>
    cases e with
    | reasoningDelta text =>
      refine (say_moves .thinking .thinkingDelta text (by decide) (fun _ => rfl) h).mono ?_
      rintro c ⟨a', hc, hat, htext, hlog⟩
      refine ⟨a', hc, hat, fun k hk => ?_, hlog⟩
      rw [htext k hk]
      simp [Incoming.said, ContentBlock.kind, eq_comm]
    | contentDelta text =>
      refine (say_moves .text .textDelta text (by decide) (fun _ => rfl) h).mono ?_
      rintro c ⟨a', hc, hat, htext, hlog⟩
      refine ⟨a', hc, hat, fun k hk => ?_, hlog⟩
      rw [htext k hk]
      simp [Incoming.said, ContentBlock.kind, eq_comm]
    | toolCallStart i name stable =>
      obtain ⟨hrun, hat⟩ := openTool_run cfg.uuid name i stable h
      refine ⟨_, hrun, _, rfl, hat, fun k _ => ?_, fun l l' hl hlog => ?_⟩
      · rw [texts, Answer.collect_begin]
        exact (List.append_nil _).symm
      · simp only [CallLog.read] at hlog
        split at hlog
        · rename_i ho
          rw [Option.some.injEq] at hlog
          subst hlog
          refine ⟨hl.items_idle h ho, (fun h => by cases h), fun o ho' => ?_⟩
          rw [Option.some.injEq] at ho'
          subst ho'
          exact ⟨rfl, rfl, rfl, by simp [onEvent, openTool]⟩
        · cases hlog
    | toolCallArgsDelta i fragment => exact argsDelta_moves i fragment cfg h
    | toolCallsDelta calls => exact calls_moves cfg.uuid calls h
    | pooledReady params logprobs =>
      exact .skip h fun l l' hl hlog => by rw [← Option.some.inj hlog]; exact hl
    | genDone done => cases he

end AnthropicStream

/-! ## Whole streams -/

open AnthropicStream

/-- How a client ends up: with the items of the answer, whose text and thinking are those of the
events, and whose calls are those of the log where there is one. -/
def AnthropicDelivered (events : List Incoming) (items : List (Item ContentBlock)) : Prop :=
  (∀ k ≠ .tool, Answer.collect { closed := items } (fun b => b.kind = k) =
    events.flatMap (Incoming.said k)) ∧
  ∀ log, run CallLog.read {} events = some log → log.opened = none →
    callsOf ContentBlock.callName items = log.done

theorem loop_reads (cfg : AnthropicConfig) (events : List Incoming)
    (hd : ∀ e ∈ events, e.isDone = false) :
    Reads AnthropicClient.next (.streaming {}) (relay (onEvent cfg) {} events).2 fun c =>
      ∃ a, c = AnthropicClient.streaming a ∧ (relay (onEvent cfg) {} events).1.At a ∧
        (∀ k ≠ .tool, texts k a = events.flatMap (Incoming.said k)) ∧
          ∀ log, run CallLog.read {} events = some log →
            (relay (onEvent cfg) {} events).1.LogAt a log := by
  refine relay_reads (onEvent cfg) AnthropicClient.next
    (fun past s c => ∃ a, c = AnthropicClient.streaming a ∧ s.At a ∧
      (∀ k ≠ .tool, texts k a = past.flatMap (Incoming.said k)) ∧
        ∀ log, run CallLog.read {} past = some log → s.LogAt a log)
    (fun _ e => e.isDone = false) ?_ events [] {} (.streaming {}) ?_ ?_
  · rintro past s c e ⟨a, rfl, hat, htext, hlog⟩ he
    refine (event_moves cfg e he hat).mono ?_
    rintro c ⟨a', hc, hat', htext', hlog'⟩
    refine ⟨a', hc, hat', fun k hk => ?_, fun log hrun => ?_⟩
    · rw [htext' k hk, htext k hk, List.flatMap_append, List.flatMap_singleton]
    · obtain ⟨m, hm, hrun⟩ := run_concat_some hrun
      exact hlog' m log (hlog m hm) hrun
  · refine ⟨{}, rfl, ⟨rfl, rfl, fun it h => by cases h⟩, fun _ _ => rfl, fun log h => ?_⟩
    rw [run_nil, Option.some.injEq] at h
    exact .of_idle (by rw [← h]; rfl) (by rw [← h]) (by simp)
  · rintro pre e post rfl
    exact hd e (by simp)

/-- What is open when the loop is left is closed, and so the answer is complete. -/
theorem closed_reads (cfg : AnthropicConfig) (events : List Incoming)
    (hd : ∀ e ∈ events, e.isDone = false) :
    Reads AnthropicClient.next .waiting
      (.messageStart ("msg_".toList ++ (toString cfg.uid).toList) cfg.model ⟨0, 0, none⟩ ::
        ((relay (onEvent cfg) {} events).2 ++ (relay (onEvent cfg) {} events).1.closeOpen.2))
      fun c => ∃ a, c = AnthropicClient.streaming a ∧ a.current = none ∧
        AnthropicDelivered events a.closed := by
  obtain ⟨c, hrun, a, rfl, hat, htext, hlog⟩ := loop_reads cfg events hd
  obtain ⟨hclose, -⟩ := closeOpen_run hat
  refine ⟨.streaming a.close, ?_, a.close, rfl, rfl, fun k hk => ?_, fun log hr ho => ?_⟩
  · rw [run_cons]
    show run AnthropicClient.next (.streaming {}) _ = _
    rw [run_append, hrun]
    exact hclose
  · rw [← htext k hk]
    exact a.collect_close _
  · exact (hlog log hr).items_idle hat ho

/-- A client of the Messages protocol reads the stream of every generation to its end, whatever
events it has and wherever keepalives come between them, whether it is finished or fails. It has
all the text and all the thinking then, and exactly the calls of the generation where their
events are in order. -/
theorem anthropic_client_reads (cfg : AnthropicConfig) (events : List Incoming)
    (hd : ∀ e ∈ events, e.isDone = false) :
    (∀ done, ∃ a, run AnthropicClient.next .waiting
        (anthropicEventStream cfg (events ++ [.event (.genDone done)]) .exhausted) =
          some (.stopped a (anthropicStop done.finishReason done.matchedStop).1) ∧
        a.current = none ∧ AnthropicDelivered events a.closed) ∧
    (∀ e, ∃ a, run AnthropicClient.next .waiting
        (anthropicEventStream cfg events (.generationError e)) =
          some (.failed a .invalidRequestError e.message) ∧
        a.current = none ∧ AnthropicDelivered events a.closed) ∧
    ∀ message, ∃ a, run AnthropicClient.next .waiting
        (anthropicEventStream cfg events (.exception message)) =
          some (.failed a .internalError message) ∧
        a.current = none ∧ AnthropicDelivered events a.closed := by
  obtain ⟨c, hrun, a, rfl, hcur, hdel⟩ := closed_reads cfg events hd
  -- the frames of the end come after the answer was closed
  have hend : ∀ rest c', run AnthropicClient.next (.streaming a) rest = some c' →
      run AnthropicClient.next .waiting
        (.messageStart ("msg_".toList ++ (toString cfg.uid).toList) cfg.model ⟨0, 0, none⟩ ::
          ((relay (onEvent cfg) {} events).2 ++
            ((relay (onEvent cfg) {} events).1.closeOpen.2 ++ rest))) = some c' := by
    intro rest c' h
    rw [← List.append_assoc, ← List.cons_append, run_append, hrun]
    exact h
  refine ⟨fun done => ⟨a, ?_, hcur, hdel⟩, fun e => ⟨a, ?_, hcur, hdel⟩,
    fun message => ⟨a, ?_, hcur, hdel⟩⟩
  · have h := hend
      [.messageDelta (anthropicStop done.finishReason done.matchedStop).1
          (anthropicStop done.finishReason done.matchedStop).2
          (anthropicUsage done.promptTokens done.completionTokens done.cachedTokens
            cfg.cacheReport), .messageStop]
      (.stopped a (anthropicStop done.finishReason done.matchedStop).1)
      (by simp [AnthropicClient.next, hcur])
    simpa [anthropicEventStream, relay_append, relay_cons, onEvent, onEnd] using h
  · exact hend _ _ (by simp [AnthropicClient.next, hcur])
  · exact hend _ _ (by simp [AnthropicClient.next, hcur])

theorem anthropic_client_reads_call :
    ∃ a, run AnthropicClient.next .waiting
        (anthropicEventStream ⟨[], 7, true, fun _ => []⟩
          [.event (.contentDelta ['a']), .keepalive, .event (.toolCallStart 0 (some ['f']) false),
            .event (.toolCallArgsDelta 0 ['x']),
            .event (.toolCallsDelta [⟨0, some ['f'], ['y']⟩])] (.exception [])) =
          some (.failed a .internalError []) ∧
        a.current = none ∧ callsOf ContentBlock.callName a.closed = [(some ['f'], ['y'])] := by
  obtain ⟨a, hrun, hcur, -, hcalls⟩ := (anthropic_client_reads ⟨[], 7, true, fun _ => []⟩
    [.event (.contentDelta ['a']), .keepalive, .event (.toolCallStart 0 (some ['f']) false),
      .event (.toolCallArgsDelta 0 ['x']),
      .event (.toolCallsDelta [⟨0, some ['f'], ['y']⟩])] (by decide)).2.2 []
  exact ⟨a, hrun, hcur, hcalls { done := [(some ['f'], ['y'])] } (by decide) rfl⟩

end FreeToken.Server

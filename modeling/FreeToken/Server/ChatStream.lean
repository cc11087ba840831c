import FreeToken.Server.Answer

/-!
# The chat completion stream

`stream_chat_completion_chunks` of `server/openai_api.py`, with the opening of its events before
it: a request that is refused is answered with the error alone, and one refused because the
session it was bound to is busy is submitted once more without it. `ChatClient` is who reads the
chunks: there are no blocks, text and thinking are appended where they come, and the pieces of a
call name its index. Main results:

* `event_reads`: the chunks of each event are read, and leave the client with what it says.
* `chat_client_reads`: so does the whole stream, and the calls are those of the generation.
-/

namespace FreeToken.Server.Chat

open FreeToken.Lib

/-! ## The chunks -/

/-- The `delta` of a choice; the start of a call has empty arguments. -/
inductive ChatDelta where
  | empty
  | role
  | content (text : Text)
  | reasoningContent (text : Text)
  | toolCallStart (index : Nat) (id : Text) (name : Option Text)
  | toolCallArguments (index : Nat) (arguments : Text)

structure ChatUsage where
  promptTokens : Nat
  completionTokens : Nat
  totalTokens : Nat
  cachedTokens : Option Nat
  reasoningTokens : Option Nat
deriving DecidableEq

/-- What one `_sse` carries; a chunk has one choice. -/
inductive ChatFrame where
  | chunk (delta : ChatDelta) (finishReason : Option FinishReason := none)
      (logprobs : Option JsonDict := none) (kvTransferParams : Option JsonDict := none)
  | usage (usage : ChatUsage)
  | error (message : Text) (code : Option Text)
  | done

/-- `_usage`. -/
def chatUsage (promptTokens completionTokens : Nat) (cachedTokens : Option Nat)
    (reasoningTokens : Nat) : ChatUsage where
  promptTokens := promptTokens
  completionTokens := completionTokens
  totalTokens := promptTokens + completionTokens
  cachedTokens := cachedTokens
  reasoningTokens := if 0 < reasoningTokens then some reasoningTokens else none

/-! ## The generator -/

/-- `open_tool`. -/
structure OpenTool where
  index : Nat
  ordinal : Int
  sent : Text := []
  stable : Bool

/-- The locals of `stream_chat_completion_chunks`, and how many ids were drawn. -/
structure ChatStream where
  promptTokens : Nat := 0
  completionTokens : Nat := 0
  cachedTokens : Nat := 0
  reasoningTokens : Nat := 0
  toolCallsSent : Nat := 0
  openTool : Option OpenTool := none
  pooledSent : Bool := false
  logprobsSent : Bool := false
  drawn : Nat := 0

/-- What the stream takes of the request and the server; `uuid i` is the `i`-th id drawn. -/
structure ChatConfig where
  earlyPooled : Bool := false
  includeUsage : Bool := false
  cacheReport : Bool := false
  /-- The session id is one the server bound itself. -/
  sessionReclaimable : Bool := false
  /-- `_openai_logprobs`, which asks the tokenizer. -/
  openaiLogprobs : JsonDict → JsonDict
  uuid : Nat → Text

/-- `_tool_call_id`. -/
def toolCallId (uuid : Text) (name : Option Text) (index : Nat) : Text :=
  let base := if name.getD [] = [] then "tool".toList else name.getD []
  "call_".toList ++ (base.map fun c => if c = '_' then '-' else c).take 24 ++ "_".toList ++
    (toString index).toList ++ "_".toList ++ uuid.take 8

namespace ChatStream

/-- The arguments that are still missing at the close of a call. -/
def remainder (sent final : Text) : Text :=
  if sent <+: final then final.drop sent.length else if sent = [] then final else []

/-- One call of a `ToolCallsDelta`. -/
def onCall (cfg : ChatConfig) (s : ChatStream) (call : ToolCallItem) :
    ChatStream × List ChatFrame :=
  match s.openTool.filter fun t => t.ordinal = call.toolIndex with
  | some t =>
    let rest := remainder t.sent call.parameters
    ({ s with openTool := none, toolCallsSent := s.toolCallsSent + 1 },
      if rest = [] then [] else [.chunk (.toolCallArguments t.index rest)])
  | none =>
    -- `_tool_call_deltas`; a call that is open stays so
    ({ s with toolCallsSent := s.toolCallsSent + 1, drawn := s.drawn + 1 },
      [.chunk (.toolCallStart s.toolCallsSent
          (toolCallId (cfg.uuid s.drawn) call.name s.toolCallsSent) call.name),
        .chunk (.toolCallArguments s.toolCallsSent call.parameters)])

/-- One round of the loop. -/
def onEvent (cfg : ChatConfig) (s : ChatStream) : GenEvent → ChatStream × List ChatFrame
  | .pooledReady params firstLogprobs =>
    if cfg.earlyPooled then
      ({ s with pooledSent := true, logprobsSent := s.logprobsSent || firstLogprobs.isSome },
        [.chunk .empty none (firstLogprobs.map cfg.openaiLogprobs) (some params)])
    else (s, [])
  | .reasoningDelta text => (s, [.chunk (.reasoningContent text)])
  | .contentDelta text => (s, [.chunk (.content text)])
  | .toolCallStart i name stable =>
    ({ s with
        openTool := some { index := s.toolCallsSent, ordinal := i, stable }
        drawn := s.drawn + 1 },
      [.chunk (.toolCallStart s.toolCallsSent
        (toolCallId (cfg.uuid s.drawn) name s.toolCallsSent) name)])
  | .toolCallArgsDelta _ fragment =>
    match s.openTool with
    | some t =>
      if t.stable = true ∧ fragment ≠ [] then
        ({ s with openTool := some { t with sent := t.sent ++ fragment } },
          [.chunk (.toolCallArguments t.index fragment)])
      else (s, [])
    | none => (s, [])
  | .toolCallsDelta calls => relay (onCall cfg) s calls
  | .genDone done =>
    ({ s with
        promptTokens := done.promptTokens, completionTokens := done.completionTokens
        cachedTokens := done.cachedTokens, reasoningTokens := done.reasoningTokens },
      [.chunk .empty (some done.finishReason)
        (if s.logprobsSent then none else done.firstLogprobs.map cfg.openaiLogprobs)
        (if s.pooledSent then none else done.kvTransferParams)])

/-- What comes after the loop. -/
def tail (cfg : ChatConfig) (s : ChatStream) : List ChatFrame :=
  (if cfg.includeUsage then
    [.usage (chatUsage s.promptTokens s.completionTokens
      (if cfg.cacheReport then some s.cachedTokens else none) s.reasoningTokens)] else []) ++
    [.done]

/-- How the loop is left; another exception leaves the generator too. -/
def onEnd (cfg : ChatConfig) (s : ChatStream) : StreamEnd → List ChatFrame
  | .exhausted => s.tail cfg
  | .generationError e => .error e.message e.code :: s.tail cfg
  | .exception _ => []

end ChatStream

/-- The events of one submission and how they end. -/
structure Opening where
  events : List GenEvent
  last : StreamEnd

/-- The error of `_open_chat_events`: nothing came before it. -/
def Opening.refusal (opening : Opening) : Option GenerationError :=
  match opening.events, opening.last with
  | [], .generationError e => some e
  | _, _ => none

/-- `_auto_session_busy`. -/
def autoSessionBusy (cfg : ChatConfig) (e : GenerationError) : Prop :=
  cfg.sessionReclaimable = true ∧ "session ".toList <+: e.message ∧
    " is busy".toList <:+ e.message

instance (cfg : ChatConfig) (e : GenerationError) : Decidable (autoSessionBusy cfg e) :=
  inferInstanceAs (Decidable (_ ∧ _ ∧ _))

/-- The submission that is served: the second where the first is refused for its session. -/
def served (cfg : ChatConfig) (opening unbound : Opening) : Opening :=
  match opening.refusal with
  | some e => if autoSessionBusy cfg e then unbound else opening
  | none => opening

/-- `stream_chat_completion_chunks`; `unbound` is what comes of `_resubmit_unbound`. -/
def streamChatCompletionChunks (cfg : ChatConfig) (opening unbound : Opening) : List ChatFrame :=
  let o := served cfg opening unbound
  match o.refusal, o.events, o.last with
  | some e, _, _ => [.error e.message e.code, .done]
  -- the exception comes before the chunk of the role
  | none, [], .exception _ => []
  | none, events, last =>
    let r := relay (ChatStream.onEvent cfg) {} events
    .chunk .role :: (r.2 ++ r.1.onEnd cfg last)

/-! ## The client -/

structure CallHead where
  id : Text
  name : Option Text
deriving DecidableEq

/-- The message a client has put together. -/
structure ChatMessage where
  content : Text := []
  reasoning : Text := []
  calls : Answer CallHead := {}
  payloads : List JsonDict := []
  logprobs : List JsonDict := []
  finishReason : Option FinishReason := none
  error : Option (Text × Option Text) := none
  usage : Option ChatUsage := none

inductive ChatClient where
  | waiting
  | streaming (m : ChatMessage)
  /-- Finished or failed; only the usage may still come. -/
  | ended (m : ChatMessage)
  | closed (m : ChatMessage)

/-- The delta of a chunk: a call starts at the next index, and its pieces come before the next
one does. -/
def ChatMessage.take (m : ChatMessage) : ChatDelta → Option ChatMessage
  | .empty => some m
  | .role => none
  | .content text => some { m with content := m.content ++ text }
  | .reasoningContent text => some { m with reasoning := m.reasoning ++ text }
  | .toolCallStart index id name =>
    if index = m.calls.items.length then some { m with calls := m.calls.begin ⟨id, name⟩ }
    else none
  | .toolCallArguments index arguments =>
    if m.calls.current.isSome ∧ index = m.calls.closed.length then
      some { m with calls := m.calls.add arguments }
    else none

/-- What a chunk has beside its delta. -/
def ChatMessage.extras (m : ChatMessage) (logprobs payload : Option JsonDict) : ChatMessage :=
  { m with
    logprobs := m.logprobs ++ logprobs.toList
    payloads := m.payloads ++ payload.toList }

/-- The next frame, when it may come here. -/
def ChatClient.next : ChatClient → ChatFrame → Option ChatClient
  | .waiting, .chunk .role none none none => some (.streaming {})
  | .waiting, .error message code => some (.ended { error := some (message, code) })
  | .streaming m, .chunk delta none logprobs payload =>
    (m.take delta).map fun m' => .streaming (m'.extras logprobs payload)
  | .streaming m, .chunk .empty (some reason) logprobs payload =>
    some (.ended { m.extras logprobs payload with finishReason := some reason })
  | .streaming m, .error message code => some (.ended { m with error := some (message, code) })
  | .ended m, .usage usage =>
    if m.usage = none then some (.ended { m with usage := some usage }) else none
  | .ended m, .done => some (.closed m)
  | _, _ => none

@[simp] theorem ChatMessage.extras_none (m : ChatMessage) : m.extras none none = m := by
  simp [ChatMessage.extras]

/-! ## The client follows the stream -/

/-- The calls of a client, by name. -/
abbrev named (items : List (Item CallHead)) : List (Option Text × Text) :=
  callsOf (fun head => some head.name) items

/-- The calls of the client are those of the log, the open one with what of it is streamed. -/
structure ChatStream.LogAt (s : ChatStream) (a : Answer CallHead) (log : CallLog) : Prop where
  idle : log.opened = none →
    s.openTool = none ∧ s.toolCallsSent = a.items.length ∧ named a.items = log.done
  pending : ∀ o, log.opened = some o → ∃ t it, s.openTool = some t ∧ a.current = some it ∧
    t.index = a.closed.length ∧ s.toolCallsSent = a.closed.length ∧ named a.closed = log.done ∧
    t.ordinal = o.ordinal ∧ t.stable = o.stable ∧ it.head.name = o.name ∧ it.body = t.sent ∧
    t.sent = if o.stable then o.fragments else []

/-- The payloads that are sent before the end. -/
def earlyPayloads (cfg : ChatConfig) (events : List GenEvent) : List JsonDict :=
  if cfg.earlyPooled then
    events.filterMap fun
      | .pooledReady params _ => some params
      | _ => none
  else []

def earlyLogprobs (cfg : ChatConfig) (events : List GenEvent) : List JsonDict :=
  if cfg.earlyPooled then
    events.filterMap fun
      | .pooledReady _ (some firstLogprobs) => some (cfg.openaiLogprobs firstLogprobs)
      | _ => none
  else []

/-- What a client has of the events so far, its calls apart. -/
structure Has (cfg : ChatConfig) (past : List GenEvent) (s : ChatStream) (m : ChatMessage) :
    Prop where
  content : m.content = past.flatMap fun e => (Incoming.event e).said .text
  reasoning : m.reasoning = past.flatMap fun e => (Incoming.event e).said .thinking
  payloads : m.payloads = earlyPayloads cfg past
  logprobs : m.logprobs = earlyLogprobs cfg past
  pooledSent : s.pooledSent = !m.payloads.isEmpty
  logprobsSent : s.logprobsSent = !m.logprobs.isEmpty
  unended : m.finishReason = none ∧ m.error = none ∧ m.usage = none

variable {cfg : ChatConfig} {s : ChatStream} {m : ChatMessage}

theorem earlyPayloads_append (cfg : ChatConfig) (past events : List GenEvent) :
    earlyPayloads cfg (past ++ events) = earlyPayloads cfg past ++ earlyPayloads cfg events := by
  unfold earlyPayloads
  split
  · exact List.filterMap_append
  · rfl

theorem earlyLogprobs_append (cfg : ChatConfig) (past events : List GenEvent) :
    earlyLogprobs cfg (past ++ events) = earlyLogprobs cfg past ++ earlyLogprobs cfg events := by
  unfold earlyLogprobs
  split
  · exact List.filterMap_append
  · rfl

/-- One more event, by what it adds. -/
theorem Has.extend {past : List GenEvent} {s' : ChatStream} {m' : ChatMessage}
    (h : Has cfg past s m) (e : GenEvent)
    (hc : m'.content = m.content ++ (Incoming.event e).said .text)
    (hr : m'.reasoning = m.reasoning ++ (Incoming.event e).said .thinking)
    (hp : m'.payloads = m.payloads ++ earlyPayloads cfg [e])
    (hl : m'.logprobs = m.logprobs ++ earlyLogprobs cfg [e])
    (hps : s'.pooledSent = (s.pooledSent || !(earlyPayloads cfg [e]).isEmpty))
    (hls : s'.logprobsSent = (s.logprobsSent || !(earlyLogprobs cfg [e]).isEmpty))
    (hu : m'.finishReason = none ∧ m'.error = none ∧ m'.usage = none) :
    Has cfg (past ++ [e]) s' m' where
  content := by rw [hc, h.content, List.flatMap_append, List.flatMap_singleton]
  reasoning := by rw [hr, h.reasoning, List.flatMap_append, List.flatMap_singleton]
  payloads := by rw [hp, h.payloads, earlyPayloads_append]
  logprobs := by rw [hl, h.logprobs, earlyLogprobs_append]
  pooledSent := by
    rw [hps, hp, h.pooledSent]
    cases m.payloads <;> rfl
  logprobsSent := by
    rw [hls, hl, h.logprobsSent]
    cases m.logprobs <;> rfl
  unended := hu

/-- An event that is no early payload and sends none. -/
theorem Has.plain {past : List GenEvent} {s' : ChatStream} {m' : ChatMessage}
    (h : Has cfg past s m) {e : GenEvent} (hearly : ∀ params l, e ≠ .pooledReady params l)
    (hc : m'.content = m.content ++ (Incoming.event e).said .text)
    (hr : m'.reasoning = m.reasoning ++ (Incoming.event e).said .thinking)
    (hp : m'.payloads = m.payloads) (hl : m'.logprobs = m.logprobs)
    (hps : s'.pooledSent = s.pooledSent) (hls : s'.logprobsSent = s.logprobsSent)
    (hu : m'.finishReason = m.finishReason ∧ m'.error = m.error ∧ m'.usage = m.usage) :
    Has cfg (past ++ [e]) s' m' := by
  have hnone : earlyPayloads cfg [e] = [] ∧ earlyLogprobs cfg [e] = [] := by
    cases e <;> simp_all [earlyPayloads, earlyLogprobs]
  refine h.extend e hc hr ?_ ?_ ?_ ?_ ⟨hu.1.trans h.unended.1, hu.2.1.trans h.unended.2.1,
    hu.2.2.trans h.unended.2.2⟩
  · rw [hp, hnone.1, List.append_nil]
  · rw [hl, hnone.2, List.append_nil]
  · rw [hps, hnone.1]
    exact (Bool.or_false _).symm
  · rw [hls, hnone.2]
    exact (Bool.or_false _).symm

namespace ChatStream

open ChatClient (next)

variable {a : Answer CallHead} {log log' : CallLog}

theorem take_start {index : Nat} (id : Text) (name : Option Text)
    (h : index = m.calls.items.length) :
    next (.streaming m) (.chunk (.toolCallStart index id name)) =
      some (.streaming { m with calls := m.calls.begin ⟨id, name⟩ }) := by
  simp [next, ChatMessage.take, h]

theorem take_arguments {index : Nat} (arguments : Text) (hc : m.calls.current.isSome)
    (h : index = m.calls.closed.length) :
    next (.streaming m) (.chunk (.toolCallArguments index arguments)) =
      some (.streaming { m with calls := m.calls.add arguments }) := by
  simp [next, ChatMessage.take, h, hc]

/-- The close of a call sends what was missing. -/
theorem sent_remainder {sent final : Text} (h : sent <+: final) :
    sent ++ remainder sent final = final := by
  rw [remainder, if_pos h]
  obtain ⟨rest, rfl⟩ := h
  rw [List.drop_left]

theorem named_append (items items' : List (Item CallHead)) :
    named (items ++ items') = named items ++ named items' := callsOf_append _ items items'

/-- A piece of the call that is last. -/
theorem named_add {it : Item CallHead} (piece : Text) (h : a.current = some it) :
    named (a.add piece).items = named a.closed ++ [(it.head.name, it.body ++ piece)] := by
  rw [Answer.items, Answer.closed_add, Answer.current_add, h, named_append]
  rfl

theorem length_add (piece : Text) : (a.add piece).items.length = a.items.length := by
  cases h : a.current <;> simp [Answer.items, h]

theorem onCall_reads (cfg : ChatConfig) (call : ToolCallItem) (h : s.LogAt m.calls log)
    (hlog : log.item call = some log') :
    Reads next (.streaming m) (s.onCall cfg call).2 fun c =>
      ∃ a, c = .streaming { m with calls := a } ∧ (s.onCall cfg call).1.LogAt a log' := by
  cases ho : log.opened with
  | none =>
    -- a call of which nothing came before
    obtain ⟨hopen, hsent, hdone⟩ := h.idle ho
    simp only [CallLog.item, ho, Option.some.injEq] at hlog
    subst hlog
    have hcall : s.onCall cfg call =
        ({ s with toolCallsSent := s.toolCallsSent + 1, drawn := s.drawn + 1 },
          [.chunk (.toolCallStart s.toolCallsSent
              (toolCallId (cfg.uuid s.drawn) call.name s.toolCallsSent) call.name),
            .chunk (.toolCallArguments s.toolCallsSent call.parameters)]) := by
      rw [onCall, hopen]
      rfl
    rw [hcall]
    let head : CallHead := ⟨toolCallId (cfg.uuid s.drawn) call.name s.toolCallsSent, call.name⟩
    refine ⟨_, ?_, (m.calls.begin head).add call.parameters, rfl, ?_⟩
    · rw [run_cons, take_start _ _ hsent, Option.bind_some, run_cons, take_arguments]
      · rfl
      · rfl
      · exact hsent
    · refine ⟨fun _ => ⟨hopen, ?_, ?_⟩, fun o h => by cases h⟩
      · rw [length_add, Answer.items, Answer.closed_begin, Answer.current_begin,
          List.length_append, hsent]
        rfl
      · rw [named_add _ (Answer.current_begin _ _), Answer.closed_begin, hdone]
        rfl
  | some o =>
    -- the close of the open call
    obtain ⟨t, it, ht, hit, hindex, hcount, hdone, hord, -, hname, hbody, hsent⟩ :=
      h.pending o ho
    simp only [CallLog.item, ho] at hlog
    split at hlog
    · rename_i hc
      rw [Option.some.injEq] at hlog
      subst hlog
      have hpre : t.sent <+: call.parameters := by
        rw [hsent]
        split
        · exact hc.2.2 ‹_›
        · exact List.nil_prefix
      have hcall : s.onCall cfg call =
          ({ s with openTool := none, toolCallsSent := s.toolCallsSent + 1 },
            if remainder t.sent call.parameters = [] then []
            else [.chunk (.toolCallArguments t.index (remainder t.sent call.parameters))]) := by
        rw [onCall, ht, Option.filter_some, if_pos (by simp [hord, hc.1])]
      rw [hcall]
      refine ⟨.streaming { m with calls := m.calls.add (remainder t.sent call.parameters) }, ?_,
        _, rfl, ⟨fun _ => ⟨rfl, ?_, ?_⟩, fun o h => by cases h⟩⟩
      · split
        · rename_i hrest
          rw [hrest, Answer.add_nil]
          rfl
        · rw [run_cons, take_arguments _ (by rw [hit]; rfl) hindex]
          rfl
      · rw [length_add, Answer.items, hit, List.length_append, hcount]
        rfl
      · rw [named_add _ hit, hdone, hbody, sent_remainder hpre, hname, hc.2.1]
    · cases hlog

theorem onCall_sent (cfg : ChatConfig) (s : ChatStream) (call : ToolCallItem) :
    (s.onCall cfg call).1.pooledSent = s.pooledSent ∧
      (s.onCall cfg call).1.logprobsSent = s.logprobsSent := by
  unfold onCall
  split <;> exact ⟨rfl, rfl⟩

theorem calls_reads (calls : List ToolCallItem) (h : s.LogAt m.calls log)
    (hlog : run CallLog.item log calls = some log') :
    Reads next (.streaming m) (relay (onCall cfg) s calls).2 fun c =>
      ∃ a, c = .streaming { m with calls := a } ∧
        (relay (onCall cfg) s calls).1.LogAt a log' ∧
          (relay (onCall cfg) s calls).1.pooledSent = s.pooledSent ∧
            (relay (onCall cfg) s calls).1.logprobsSent = s.logprobsSent := by
  have hreads := relay_reads (onCall cfg) next
    (fun past s' c => ∃ a l, c = .streaming { m with calls := a } ∧
      run CallLog.item log past = some l ∧ s'.LogAt a l ∧
        s'.pooledSent = s.pooledSent ∧ s'.logprobsSent = s.logprobsSent)
    (fun past call => ∃ l, run CallLog.item log (past ++ [call]) = some l) ?_ calls [] s
    (.streaming m) ⟨_, log, rfl, rfl, h, rfl, rfl⟩ ?_
  · refine hreads.mono ?_
    rintro c ⟨a, l, rfl, hl, hat, hsent⟩
    rw [List.nil_append, hlog, Option.some.injEq] at hl
    exact ⟨a, rfl, hl ▸ hat, hsent⟩
  · rintro past s' c call ⟨a, l, rfl, hl, hat, hsent⟩ ⟨l', hl'⟩
    obtain ⟨l₁, hl₁, hitem⟩ := run_concat_some hl'
    rw [hl, Option.some.injEq] at hl₁
    subst hl₁
    refine (onCall_reads cfg (m := { m with calls := a }) call hat hitem).mono ?_
    rintro c ⟨a', hc, hat'⟩
    have hstill := onCall_sent cfg s' call
    exact ⟨a', l', hc, hl', hat', hstill.1.trans hsent.1, hstill.2.trans hsent.2⟩
  · rintro pre call post rfl
    rw [List.append_cons, run_append, Option.bind_eq_some_iff] at hlog
    obtain ⟨l, hl, -⟩ := hlog
    exact ⟨l, hl⟩

theorem start_logAt (cfg : ChatConfig) {i : Nat} {name : Option Text} {stable : Bool} (id : Text)
    (h : s.LogAt m.calls log)
    (hlog : log.read (.event (.toolCallStart i name stable)) = some log') :
    s.toolCallsSent = m.calls.items.length ∧
      (s.onEvent cfg (.toolCallStart i name stable)).1.LogAt (m.calls.begin ⟨id, name⟩) log' := by
  simp only [CallLog.read] at hlog
  split at hlog
  · rename_i ho
    obtain ⟨-, hsent, hdone⟩ := h.idle ho
    rw [Option.some.injEq] at hlog
    subst hlog
    refine ⟨hsent, (fun h => by cases h), fun o ho' => ?_⟩
    rw [Option.some.injEq] at ho'
    subst ho'
    refine ⟨_, _, rfl, rfl, hsent, hsent, hdone, rfl, rfl, rfl, rfl, ?_⟩
    split <;> rfl
  · cases hlog

theorem args_reads (i : Nat) (fragment : Text) (h : s.LogAt m.calls log)
    (hlog : log.read (.event (.toolCallArgsDelta i fragment)) = some log') :
    Reads next (.streaming m) (s.onEvent cfg (.toolCallArgsDelta i fragment)).2 fun c =>
      ∃ a, c = .streaming { m with calls := a } ∧
        (s.onEvent cfg (.toolCallArgsDelta i fragment)).1.LogAt a log' ∧
          (s.onEvent cfg (.toolCallArgsDelta i fragment)).1.pooledSent = s.pooledSent ∧
            (s.onEvent cfg (.toolCallArgsDelta i fragment)).1.logprobsSent = s.logprobsSent := by
  simp only [CallLog.read, Option.some.injEq] at hlog
  subst hlog
  cases ho : log.opened with
  | none =>
    obtain ⟨hopen, hidle⟩ := h.idle ho
    have hskip : s.onEvent cfg (.toolCallArgsDelta i fragment) = (s, []) := by
      simp only [onEvent, hopen]
    rw [hskip]
    exact .nil ⟨m.calls, rfl, ⟨fun _ => ⟨hopen, hidle⟩, fun o h => by cases h⟩, rfl, rfl⟩
  | some o =>
    obtain ⟨t, it, ht, hit, hindex, hcount, hdone, hord, hstable, hname, hbody, hsent⟩ :=
      h.pending o ho
    -- the open call has the fragment, where its fragments are streamed at all
    by_cases hsend : t.stable = true ∧ fragment ≠ []
    · have hstep : s.onEvent cfg (.toolCallArgsDelta i fragment) =
          ({ s with openTool := some { t with sent := t.sent ++ fragment } },
            [.chunk (.toolCallArguments t.index fragment)]) := by
        simp only [onEvent, ht, if_pos hsend]
      rw [hstep]
      refine ⟨.streaming { m with calls := m.calls.add fragment }, ?_, _, rfl,
        ⟨fun h => by simp at h, fun o' ho' => ?_⟩, rfl, rfl⟩
      · rw [run_cons, take_arguments _ (by rw [hit]; rfl) hindex]
        rfl
      · rw [Option.map_some, Option.some.injEq] at ho'
        subst ho'
        refine ⟨_, { it with body := it.body ++ fragment }, rfl, ?_, hindex, hcount, hdone, hord,
          hstable, hname, by rw [hbody], ?_⟩
        · rw [Answer.current_add, hit]
          rfl
        · rw [hstable] at hsend
          rw [if_pos hsend.1] at hsent
          rw [if_pos hsend.1, hsent]
    · have hskip : s.onEvent cfg (.toolCallArgsDelta i fragment) = (s, []) := by
        simp only [onEvent, ht, if_neg hsend]
      rw [hskip]
      refine .nil ⟨m.calls, rfl, ⟨fun h => by simp at h, fun o' ho' => ?_⟩, rfl, rfl⟩
      rw [Option.map_some, Option.some.injEq] at ho'
      subst ho'
      refine ⟨t, it, ht, hit, hindex, hcount, hdone, hord, hstable, hname, hbody, ?_⟩
      rw [hstable] at hsend
      rw [hsent]
      split
      · have hnil : fragment = [] := by
          by_contra hne
          exact hsend ⟨‹_›, hne⟩
        rw [hnil, List.append_nil]
      · rfl

/-- One event that does not end the stream. -/
theorem event_reads {past : List GenEvent} (e : GenEvent)
    (he : (Incoming.event e).isDone = false) (hhas : Has cfg past s m) (h : s.LogAt m.calls log)
    (hlog : log.read (.event e) = some log') :
    Reads next (.streaming m) (s.onEvent cfg e).2 fun c =>
      ∃ m', c = .streaming m' ∧ Has cfg (past ++ [e]) (s.onEvent cfg e).1 m' ∧
        (s.onEvent cfg e).1.LogAt m'.calls log' := by
  have hsame : ∀ text : Text, (if text = [] ∨ log.opened = none then some log else none) =
      some log' → log' = log := by
    intro text ht
    split at ht
    · exact (Option.some.inj ht).symm
    · cases ht
  cases e with
  | reasoningDelta text =>
    refine ⟨.streaming { m with reasoning := m.reasoning ++ text }, ?_, _, rfl, ?_,
      hsame text hlog ▸ h⟩
    · rw [onEvent, run_cons, next]
      simp [ChatMessage.take]
    · exact hhas.plain (by simp) (by simp [Incoming.said]) (by simp [Incoming.said]) rfl rfl rfl
        rfl ⟨rfl, rfl, rfl⟩
  | contentDelta text =>
    refine ⟨.streaming { m with content := m.content ++ text }, ?_, _, rfl, ?_,
      hsame text hlog ▸ h⟩
    · rw [onEvent, run_cons, next]
      simp [ChatMessage.take]
    · exact hhas.plain (by simp) (by simp [Incoming.said]) (by simp [Incoming.said]) rfl rfl rfl
        rfl ⟨rfl, rfl, rfl⟩
  | toolCallStart i name stable =>
    obtain ⟨hindex, hat⟩ := start_logAt cfg
      (toolCallId (cfg.uuid s.drawn) name s.toolCallsSent) h hlog
    refine ⟨_, ?_, { m with calls := m.calls.begin _ }, rfl, ?_, hat⟩
    · rw [onEvent, run_cons, take_start _ _ hindex]
      rfl
    · exact hhas.plain (by simp) (List.append_nil _).symm (List.append_nil _).symm rfl rfl rfl
        rfl ⟨rfl, rfl, rfl⟩
  | toolCallArgsDelta i fragment =>
    refine (args_reads i fragment h hlog).mono ?_
    rintro c ⟨a, rfl, hat, hsent⟩
    exact ⟨_, rfl, hhas.plain (by simp) (List.append_nil _).symm (List.append_nil _).symm rfl rfl
      hsent.1 hsent.2 ⟨rfl, rfl, rfl⟩, hat⟩
  | toolCallsDelta calls =>
    refine (calls_reads calls h hlog).mono ?_
    rintro c ⟨a, rfl, hat, hsent⟩
    exact ⟨_, rfl, hhas.plain (by simp) (List.append_nil _).symm (List.append_nil _).symm rfl rfl
      hsent.1 hsent.2 ⟨rfl, rfl, rfl⟩, hat⟩
  | pooledReady params firstLogprobs =>
    obtain rfl : log = log' := Option.some.inj hlog
    by_cases hearly : cfg.earlyPooled = true
    · refine ⟨.streaming (m.extras (firstLogprobs.map cfg.openaiLogprobs) (some params)), ?_, _,
        rfl, ?_, ?_⟩
      · rw [onEvent, if_pos hearly, run_cons, next]
        simp [ChatMessage.take]
      · rw [onEvent, if_pos hearly]
        refine hhas.extend _ (List.append_nil _).symm (List.append_nil _).symm ?_ ?_ ?_ ?_
          hhas.unended
        · simp [ChatMessage.extras, earlyPayloads, hearly]
        · cases firstLogprobs <;> simp [ChatMessage.extras, earlyLogprobs, hearly]
        · simp [earlyPayloads, hearly]
        · cases firstLogprobs <;> simp [earlyLogprobs, hearly]
      · rw [onEvent, if_pos hearly]
        exact ⟨h.idle, h.pending⟩
    · rw [onEvent, if_neg hearly]
      refine .nil ⟨m, rfl, hhas.extend _ (List.append_nil _).symm (List.append_nil _).symm ?_ ?_
        ?_ ?_ hhas.unended, h⟩ <;> simp [earlyPayloads, earlyLogprobs, hearly]
  | genDone done => cases he

end ChatStream

/-! ## Whole streams -/

open ChatStream

/-- How a client ends up: with the text and the thinking of the events and the calls of the log,
one that was cut short with what of it was streamed. -/
structure Delivered (events : List GenEvent) (log : CallLog) (m : ChatMessage) : Prop where
  content : m.content = events.flatMap fun e => (Incoming.event e).said .text
  reasoning : m.reasoning = events.flatMap fun e => (Incoming.event e).said .thinking
  calls : named m.calls.items = log.done ++ log.opened.toList.map fun o =>
    (o.name, if o.stable then o.fragments else [])

theorem loop_reads (cfg : ChatConfig) (events : List GenEvent) {log : CallLog}
    (hd : ∀ e ∈ events, (Incoming.event e).isDone = false)
    (hlog : run CallLog.read {} (events.map .event) = some log) :
    Reads ChatClient.next (.streaming {}) (relay (onEvent cfg) {} events).2 fun c =>
      ∃ m, c = .streaming m ∧ Has cfg events (relay (onEvent cfg) {} events).1 m ∧
        (relay (onEvent cfg) {} events).1.LogAt m.calls log := by
  have hreads := relay_reads (onEvent cfg) ChatClient.next
    (fun past s c => ∃ m l, c = .streaming m ∧ run CallLog.read {} (past.map .event) = some l ∧
      Has cfg past s m ∧ s.LogAt m.calls l)
    (fun past e => (Incoming.event e).isDone = false ∧
      ∃ l, run CallLog.read {} ((past ++ [e]).map .event) = some l) ?_ events [] {}
    (.streaming {}) ⟨{}, {}, rfl, rfl, ?_, ?_⟩ ?_
  · refine hreads.mono ?_
    rintro c ⟨m, l, rfl, hl, hhas, hat⟩
    rw [List.nil_append, hlog, Option.some.injEq] at hl
    exact ⟨m, rfl, hhas, hl ▸ hat⟩
  · rintro past s c e ⟨m, l, rfl, hl, hhas, hat⟩ ⟨he, l', hl'⟩
    have hread := hl'
    rw [List.map_append] at hread
    obtain ⟨l₁, hl₁, hread⟩ := run_concat_some hread
    rw [hl, Option.some.injEq] at hl₁
    subst hl₁
    refine (event_reads e he hhas hat hread).mono ?_
    rintro c ⟨m', hc, hhas', hat'⟩
    exact ⟨m', l', hc, hl', hhas', hat'⟩
  · have hearly : earlyPayloads cfg [] = [] ∧ earlyLogprobs cfg [] = [] := by
      constructor <;> simp [earlyPayloads, earlyLogprobs]
    exact ⟨rfl, rfl, hearly.1.symm, hearly.2.symm, rfl, rfl, rfl, rfl, rfl⟩
  · exact ⟨fun _ => ⟨rfl, rfl, rfl⟩, fun o h => by cases h⟩
  · rintro pre e post rfl
    refine ⟨hd e (by simp), ?_⟩
    rw [List.append_cons, List.map_append, run_append, Option.bind_eq_some_iff] at hlog
    obtain ⟨l, hl, -⟩ := hlog
    exact ⟨l, hl⟩

theorem Has.delivered {events : List GenEvent} {log : CallLog} (h : Has cfg events s m)
    (hat : s.LogAt m.calls log) : Delivered events log m := by
  refine ⟨h.content, h.reasoning, ?_⟩
  cases ho : log.opened with
  | none => rw [(hat.idle ho).2.2, Option.toList_none, List.map_nil, List.append_nil]
  | some o =>
    obtain ⟨t, it, -, hit, -, -, hdone, -, -, hname, hbody, hsent⟩ := hat.pending o ho
    rw [Answer.items, hit, Option.toList_some, named_append, hdone, Option.toList_some,
      List.map_singleton, ← hname, ← hsent, ← hbody]
    rfl

/-- The end of the stream, after the end of the answer. -/
theorem tail_run (cfg : ChatConfig) (s : ChatStream) (m : ChatMessage) (h : m.usage = none) :
    run ChatClient.next (.ended m) (s.tail cfg) = some (.closed { m with
      usage := if cfg.includeUsage then
        some (chatUsage s.promptTokens s.completionTokens
          (if cfg.cacheReport then some s.cachedTokens else none) s.reasoningTokens)
        else none }) := by
  rw [tail]
  by_cases hu : cfg.includeUsage = true
  · simp [ChatClient.next, hu, h]
  · simp [ChatClient.next, hu, ← h]

theorem served_busy {cfg : ChatConfig} {opening unbound : Opening} {e : GenerationError}
    (hr : opening.refusal = some e) (hb : autoSessionBusy cfg e) :
    served cfg opening unbound = unbound := by
  simp only [served, hr, if_pos hb]

/-- The stream of a submission that is not refused. -/
theorem stream_eq {cfg : ChatConfig} {opening unbound o : Opening}
    (ho : served cfg opening unbound = o) (hr : o.refusal = none)
    (hx : ∀ message, o.last ≠ .exception message) :
    streamChatCompletionChunks cfg opening unbound =
      .chunk .role :: ((relay (onEvent cfg) {} o.events).2 ++
        (relay (onEvent cfg) {} o.events).1.onEnd cfg o.last) := by
  subst ho
  unfold streamChatCompletionChunks
  simp only [hr]
  split
  · cases ‹none = some _›
  · exact absurd ‹_› (hx _)
  · rfl

end FreeToken.Server.Chat

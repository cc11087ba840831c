import FreeToken.Server.Answer
import FreeToken.Server.ToolNames

/-!
# The Responses event stream

`responses_stream_generator` of `server/responses_api.py`: the events of a generation become
numbered frames about output items, which are added, filled piece by piece and done.
`ResponsesClient` is who reads them: the numbers have no gap, one item is open at a time, what a
`done` frame repeats is what was streamed, and the last frame has the items that were done.
Main results:

* `send_run`: a client of the frames in order is one of numbered frames.
* `event_moves`: what each event does to the answer.
* `responses_client_reads`: every stream is read to its end, with the text, the thinking and the
  calls of the generation.
-/

namespace FreeToken.Server.Responses

open FreeToken.Lib

/-! ## The frames -/

/-- What identifies an output item. -/
inductive ItemHead where
  | reasoning (id : Text)
  | message (id : Text)
  | functionCall (id callId : Text) (member : Member)
deriving DecidableEq

def ItemHead.kind : ItemHead → BlockKind
  | .reasoning _ => .thinking
  | .message _ => .text
  | .functionCall _ _ _ => .tool

def ItemHead.id : ItemHead → Text
  | .reasoning id => id
  | .message id => id
  | .functionCall id _ _ => id

def ItemHead.member : ItemHead → Option Member
  | .functionCall _ _ member => some member
  | _ => none

/-- An item that is done; `incomplete` is the status of a message that was cut off. -/
structure OutputItem where
  head : ItemHead
  body : Text
  incomplete : Bool := false
deriving DecidableEq

structure ResponseUsage where
  inputTokens : Nat
  outputTokens : Nat
  totalTokens : Nat
  cachedTokens : Nat
deriving DecidableEq

inductive ResponseStatus where
  | inProgress
  | completed
  | incomplete
  | failed
deriving DecidableEq

/-- What `_response_obj` is given beside the request. -/
structure ResponseObj where
  output : List OutputItem
  status : ResponseStatus
  usage : Option ResponseUsage := none
  /-- The code and the message. -/
  error : Option (Text × Text) := none
  incompleteReason : Option Text := none
deriving DecidableEq

/-- The events, those of one shape for reasoning, text and arguments under their kind. -/
inductive ResponsesEvent where
  | created (response : ResponseObj)
  | inProgress (response : ResponseObj)
  | outputItemAdded (outputIndex : Nat) (head : ItemHead)
  | contentPartAdded (itemId : Text) (outputIndex : Nat)
  | delta (kind : BlockKind) (itemId : Text) (outputIndex : Nat) (delta : Text)
  | bodyDone (kind : BlockKind) (itemId : Text) (outputIndex : Nat) (body : Text)
  | contentPartDone (itemId : Text) (outputIndex : Nat) (text : Text)
  | outputItemDone (outputIndex : Nat) (item : OutputItem)
  | completed (response : ResponseObj)
  | incomplete (response : ResponseObj)
  | failed (response : ResponseObj)
deriving DecidableEq

structure ResponsesFrame where
  sequenceNumber : Nat
  event : ResponsesEvent
deriving DecidableEq

/-! ## The generator -/

/-- `current`. -/
structure Current where
  head : ItemHead
  body : Text := []
  ordinal : Option Int := none

/-- The locals of `responses_stream_generator`, `seq` included. -/
structure ResponsesStream where
  seq : Nat := 0
  outputItems : List OutputItem := []
  outputIndex : Nat := 0
  current : Option Current := none
  finishReason : FinishReason := .stop
  usagePt : Nat := 0
  usageCt : Nat := 0
  usageCached : Nat := 0
  /-- How many uuids have been drawn. -/
  drawn : Nat := 0

/-- The tools of the request, and the uuids in the order in which they are drawn. -/
structure ResponsesConfig where
  tools : List ToolDict
  uuid : Nat → Text

/-- `_usage`. -/
def usage (promptTokens completionTokens cachedTokens : Nat) : ResponseUsage where
  inputTokens := promptTokens
  outputTokens := completionTokens
  totalTokens := promptTokens + completionTokens
  cachedTokens := cachedTokens

namespace ResponsesStream

/-- Frames for some events, each with the next sequence number. -/
def send (s : ResponsesStream) (events : List ResponsesEvent) :
    ResponsesStream × List ResponsesFrame :=
  ({ s with seq := s.seq + events.length }, (events.zipIdx s.seq).map fun e => ⟨e.2, e.1⟩)

/-- The item that is done with. -/
def doneItem (finish : FinishReason) (c : Current) : OutputItem where
  head := c.head
  body := c.body
  incomplete := c.head.kind = .text && finish = .length

/-- `close_current`. -/
def closeCurrent (s : ResponsesStream) : ResponsesStream × List ResponsesFrame :=
  match s.current with
  | none => (s, [])
  | some c =>
    let item := doneItem s.finishReason c
    let sent := s.send
      (.bodyDone c.head.kind c.head.id s.outputIndex c.body ::
        ((if c.head.kind = .text then [.contentPartDone c.head.id s.outputIndex c.body] else []) ++
          [.outputItemDone s.outputIndex item]))
    ({ sent.1 with
        outputItems := s.outputItems ++ [item], outputIndex := s.outputIndex + 1
        current := none },
      sent.2)

/-- The head of a new reasoning or message item. -/
def newHead (cfg : ResponsesConfig) (kind : BlockKind) (n : Nat) : ItemHead :=
  if kind = .thinking then .reasoning ("rs_".toList ++ cfg.uuid n)
  else .message ("msg_".toList ++ cfg.uuid n)

/-- Another item, with the frames that open it. -/
def openItem (s : ResponsesStream) (c : Current) (draws : Nat) :
    ResponsesStream × List ResponsesFrame :=
  let closed := s.closeCurrent
  let sent := closed.1.send
    (.outputItemAdded closed.1.outputIndex c.head ::
      if c.head.kind = .text then [.contentPartAdded c.head.id closed.1.outputIndex] else [])
  ({ sent.1 with current := some c, drawn := s.drawn + draws }, closed.2 ++ sent.2)

/-- `current[...] += piece` and its frame. -/
def extend (s : ResponsesStream) (piece : Text) : ResponsesStream × List ResponsesFrame :=
  match s.current with
  | none => (s, [])
  | some c =>
    let sent := s.send [.delta c.head.kind c.head.id s.outputIndex piece]
    ({ sent.1 with current := some { c with body := c.body ++ piece } }, sent.2)

/-- A piece of text, in an item of its own unless one of that kind is open. -/
def say (cfg : ResponsesConfig) (kind : BlockKind) (s : ResponsesStream) (text : Text) :
    ResponsesStream × List ResponsesFrame :=
  if text = [] then (s, [])
  else if s.current.any fun c => c.head.kind = kind then s.extend text
  else
    let opened := s.openItem { head := newHead cfg kind s.drawn } 1
    let sent := opened.1.extend text
    (sent.1, opened.2 ++ sent.2)

/-- `open_function_call`. -/
def openFunctionCall (cfg : ResponsesConfig) (s : ResponsesStream) (name : Text)
    (ordinal : Int) : ResponsesStream × List ResponsesFrame :=
  s.openItem
    { head := .functionCall ("fc_".toList ++ cfg.uuid s.drawn)
        ("call_".toList ++ (cfg.uuid (s.drawn + 1)).take 24) (responseToolName name cfg.tools)
      ordinal := some ordinal } 2

/-- The open item is a function call. -/
def calling (s : ResponsesStream) : Bool := s.current.any fun c => c.head.kind = .tool

/-- What of the final arguments was not streamed yet, where the final ones extend the rest;
then they are the arguments. -/
def topUp (s : ResponsesStream) (final : Text) : ResponsesStream × List ResponsesFrame :=
  match s.current with
  | none => (s, [])
  | some c =>
    let sent :=
      if c.body <+: final ∧ final.drop c.body.length ≠ [] then
        s.extend (final.drop c.body.length)
      else (s, [])
    ({ sent.1 with current := some { c with body := final } }, sent.2)

/-- One call of a `ToolCallsDelta`. -/
def onCall (cfg : ResponsesConfig) (s : ResponsesStream) (call : ToolCallItem) :
    ResponsesStream × List ResponsesFrame :=
  if s.calling = true ∧ s.current.bind Current.ordinal = some call.toolIndex then
    let topped := s.topUp call.parameters
    let closed := topped.1.closeCurrent
    (closed.1, topped.2 ++ closed.2)
  else
    let opened := s.openFunctionCall cfg (call.name.getD []) call.toolIndex
    let sent := opened.1.extend call.parameters
    let closed := sent.1.closeCurrent
    (closed.1, opened.2 ++ sent.2 ++ closed.2)

/-- One round of the loop. -/
def onEvent (cfg : ResponsesConfig) (s : ResponsesStream) :
    Incoming → ResponsesStream × List ResponsesFrame
  | .keepalive => s.send [.inProgress { output := s.outputItems, status := .inProgress }]
  | .event (.reasoningDelta text) => s.say cfg .thinking text
  | .event (.contentDelta text) => s.say cfg .text text
  | .event (.toolCallStart i name _) => s.openFunctionCall cfg (name.getD []) i
  | .event (.toolCallArgsDelta _ fragment) => if s.calling then s.extend fragment else (s, [])
  | .event (.toolCallsDelta calls) => relay (onCall cfg) s calls
  | .event (.genDone done) =>
    let s :=
      { s with
        finishReason := done.finishReason, usagePt := done.promptTokens
        usageCt := done.completionTokens, usageCached := done.cachedTokens }
    let closed := s.closeCurrent
    let total := some (usage closed.1.usagePt closed.1.usageCt closed.1.usageCached)
    let sent := closed.1.send
      [if done.finishReason = .length then
          .incomplete
            { output := closed.1.outputItems, status := .incomplete, usage := total
              incompleteReason := some "max_output_tokens".toList }
        else .completed { output := closed.1.outputItems, status := .completed, usage := total }]
    (sent.1, closed.2 ++ sent.2)
  -- no branch of the loop takes it
  | .event (.pooledReady _ _) => (s, [])

/-- The terminal frame of a stream that failed. -/
def fail (s : ResponsesStream) (code message : Text) : List ResponsesFrame :=
  let closed := s.closeCurrent
  closed.2 ++ (closed.1.send
    [.failed
      { output := closed.1.outputItems, status := .failed
        usage := some (usage closed.1.usagePt closed.1.usageCt closed.1.usageCached)
        error := some (code, message) }]).2

/-- The `code or "server_error"` of an error. -/
def errorCode (code : Option Text) : Text :=
  if code.getD [] = [] then "server_error".toList else code.getD []

def onEnd (s : ResponsesStream) : StreamEnd → List ResponsesFrame
  | .exhausted => []
  | .generationError e => s.fail (errorCode e.code) e.message
  | .exception message => s.fail "server_error".toList message

end ResponsesStream

/-- The two frames before the loop. -/
def opened : ResponsesStream × List ResponsesFrame :=
  ResponsesStream.send {}
    [.created { output := [], status := .inProgress },
      .inProgress { output := [], status := .inProgress }]

/-- `responses_stream_generator`. -/
def responsesStreamGenerator (cfg : ResponsesConfig) (events : List Incoming) (last : StreamEnd) :
    List ResponsesFrame :=
  let r := relay (ResponsesStream.onEvent cfg) opened.1 events
  opened.2 ++ (r.2 ++ r.1.onEnd last)

/-! ## The client -/

/-- How far an item has come. -/
inductive Stage where
  /-- A message whose content part is still to be added. -/
  | opening
  | filling
  /-- A message whose content part is still to be done. -/
  | filled
  | closing
deriving DecidableEq

structure Reading where
  answer : Answer ItemHead := {}
  outputs : List OutputItem := []
  stage : Stage := .filling
deriving DecidableEq

inductive ResponsesClient where
  | waiting
  | created
  | streaming (r : Reading)
  | ended (r : Reading) (status : ResponseStatus)
deriving DecidableEq

/-- The frame is about the open item, which is at this stage. -/
def Reading.about (r : Reading) (stage : Stage) (kind : BlockKind) (id : Text)
    (outputIndex : Nat) : Bool :=
  r.stage = stage && outputIndex = r.answer.closed.length &&
    r.answer.current.any fun it => it.head.kind = kind && it.head.id = id

/-- The last frame: nothing is open, and it has the items that were done. -/
def Reading.ends (r : Reading) (response : ResponseObj) : Option ResponsesClient :=
  if r.answer.current = none ∧ response.output = r.outputs then
    some (.ended r response.status)
  else none

/-- The next event, when it may come here. -/
def ResponsesClient.event : ResponsesClient → ResponsesEvent → Option ResponsesClient
  | .waiting, .created _ => some .created
  | .created, .inProgress _ => some (.streaming {})
  | .streaming r, .inProgress response =>
    if response.output = r.outputs then some (.streaming r) else none
  | .streaming r, .outputItemAdded i head =>
    if r.answer.current = none ∧ i = r.answer.closed.length then
      some (.streaming
        { r with
          answer := r.answer.begin head
          stage := if head.kind = .text then .opening else .filling })
    else none
  | .streaming r, .contentPartAdded id i =>
    if r.about .opening .text id i then some (.streaming { r with stage := .filling }) else none
  | .streaming r, .delta kind id i piece =>
    if r.about .filling kind id i then
      some (.streaming { r with answer := r.answer.add piece })
    else none
  -- the final arguments of a call are authoritative, a text must be what was streamed
  | .streaming r, .bodyDone kind id i body =>
    if r.about .filling kind id i ∧ (kind ≠ .tool →
        r.answer.current.all fun it => it.body = body)
    then
      some (.streaming
        { r with
          answer := r.answer.setBody body
          stage := if kind = .text then .filled else .closing })
    else none
  | .streaming r, .contentPartDone id i text =>
    if r.about .filled .text id i ∧ r.answer.current.all fun it => it.body = text then
      some (.streaming { r with stage := .closing })
    else none
  | .streaming r, .outputItemDone i item =>
    if r.stage = .closing ∧ i = r.answer.closed.length ∧
        r.answer.current = some ⟨item.head, item.body⟩ then
      some (.streaming { r with answer := r.answer.close, outputs := r.outputs ++ [item] })
    else none
  | .streaming r, .completed response => r.ends response
  | .streaming r, .incomplete response => r.ends response
  | .streaming r, .failed response => r.ends response
  | _, _ => none

/-- The next frame, under the next number. -/
def ResponsesClient.next (c : Nat × ResponsesClient) (f : ResponsesFrame) :
    Option (Nat × ResponsesClient) :=
  if f.sequenceNumber = c.1 then (c.2.event f.event).map fun c' => (c.1 + 1, c') else none

open ResponsesClient (next event)

/-! ## The client follows the stream -/

/-- What the client has read is what the locals say of it. The body of an open call may differ
until its arguments are done. -/
structure ResponsesStream.At (s : ResponsesStream) (r : Reading) : Prop where
  index : s.outputIndex = r.answer.closed.length
  outputs : s.outputItems = r.outputs
  head : s.current.map Current.head = r.answer.current.map Item.head
  body : ∀ c it, s.current = some c → r.answer.current = some it → c.head.kind ≠ .tool →
    it.body = c.body
  stage : s.current.isSome → r.stage = .filling
  closed : r.outputs.map (fun o => ⟨o.head, o.body⟩) = r.answer.closed

/-- The frames of `res` are read, and lead from `r` to `r'`. -/
def Goes (s : ResponsesStream) (r : Reading) (res : ResponsesStream × List ResponsesFrame)
    (r' : Reading) : Prop :=
  run next (s.seq, .streaming r) res.2 = some (res.1.seq, .streaming r') ∧ res.1.At r'

namespace ResponsesStream

variable {s : ResponsesStream} {r : Reading}

theorem zipIdx_run (events : List ResponsesEvent) : ∀ (n : Nat) (c : ResponsesClient),
    run next (n, c) ((events.zipIdx n).map fun e => ⟨e.2, e.1⟩) =
      (run event c events).map fun c' => (n + events.length, c') := by
  induction events with
  | nil =>
    intro n c
    rfl
  | cons e events ih =>
    intro n c
    rw [List.zipIdx_cons, List.map_cons, run_cons, run_cons]
    simp only [next, if_pos]
    cases event c e with
    | none => rfl
    | some c' =>
      simp only [Option.map_some, Option.bind_some]
      rw [ih, List.length_cons, Nat.add_right_comm, Nat.add_assoc]

/-- Frames are numbered without a gap, so that a client may read them by their events. -/
theorem send_run (c : ResponsesClient) (events : List ResponsesEvent) :
    run next (s.seq, c) (s.send events).2 =
      (run event c events).map fun c' => ((s.send events).1.seq, c') :=
  zipIdx_run events s.seq c

/-- The answer when what is open has been closed. -/
def finished (s : ResponsesStream) (r : Reading) : Answer ItemHead :=
  match s.current with
  | none => r.answer
  | some c => (r.answer.setBody c.body).close

theorem about_iff {stage : Stage} {c : Current} {it : Item ItemHead} {i : Nat}
    (hit : r.answer.current = some it) (hhead : it.head = c.head) (hs : r.stage = stage)
    (hi : i = r.answer.closed.length) : r.about stage c.head.kind c.head.id i = true := by
  simp [Reading.about, hs, hi, hit, hhead]

theorem exists_item {c : Current} (h : s.At r) (hc : s.current = some c) :
    ∃ it, r.answer.current = some it ∧ it.head = c.head := by
  have hh := h.head
  rw [hc, Option.map_some, eq_comm, Option.map_eq_some_iff] at hh
  exact hh

/-- The frames with which an item is done. -/
theorem done_run {c : Current} {it : Item ItemHead} {i : Nat} (incomplete : Bool)
    (hit : r.answer.current = some it) (hhead : it.head = c.head) (hs : r.stage = .filling)
    (hi : i = r.answer.closed.length) (hb : c.head.kind ≠ .tool → it.body = c.body) :
    run event (.streaming r)
        (.bodyDone c.head.kind c.head.id i c.body ::
          ((if c.head.kind = .text then [.contentPartDone c.head.id i c.body] else []) ++
            [.outputItemDone i ⟨c.head, c.body, incomplete⟩])) =
      some (.streaming
        { answer := (r.answer.setBody c.body).close
          outputs := r.outputs ++ [⟨c.head, c.body, incomplete⟩], stage := .closing }) := by
  have hset : (r.answer.setBody c.body).current = some { head := c.head, body := c.body } := by
    rw [Answer.setBody, hit, ← hhead]
    rfl
  have hdone : event (.streaming r) (.bodyDone c.head.kind c.head.id i c.body) =
      some (.streaming
        { r with
          answer := r.answer.setBody c.body
          stage := if c.head.kind = .text then .filled else .closing }) := by
    refine if_pos ⟨about_iff hit hhead hs hi, fun ht => ?_⟩
    rw [hit]
    exact decide_eq_true (hb ht)
  have hitem : ∀ r' : Reading, r'.stage = .closing → r'.answer = r.answer.setBody c.body →
      event (.streaming r') (.outputItemDone i ⟨c.head, c.body, incomplete⟩) =
        some (.streaming
          { r' with
            answer := r'.answer.close
            outputs := r'.outputs ++ [⟨c.head, c.body, incomplete⟩] }) := by
    intro r' hs' ha
    exact if_pos ⟨hs', by rw [ha]; exact hi, by rw [ha]; exact hset⟩
  rw [run_cons, hdone, Option.bind_some]
  by_cases htext : c.head.kind = .text
  · rw [if_pos htext, if_pos htext, List.singleton_append, run_cons]
    have hpart : event (.streaming
        { answer := r.answer.setBody c.body, outputs := r.outputs, stage := .filled })
          (.contentPartDone c.head.id i c.body) = some (.streaming
        { answer := r.answer.setBody c.body, outputs := r.outputs, stage := .closing }) := by
      refine if_pos ⟨?_, ?_⟩
      · rw [← htext]
        exact about_iff hset rfl rfl hi
      · rw [hset]
        exact decide_eq_true rfl
    rw [hpart, Option.bind_some, run_cons, hitem _ rfl rfl]
    rfl
  · rw [if_neg htext, if_neg htext, List.nil_append, run_cons, hitem _ rfl rfl]
    rfl

theorem closeCurrent_run (h : s.At r) :
    s.closeCurrent.1.current = none ∧
      ∃ r', Goes s r s.closeCurrent r' ∧ r'.answer = s.finished r := by
  unfold closeCurrent finished
  cases hc : s.current with
  | none => exact ⟨hc, r, ⟨rfl, h⟩, rfl⟩
  | some c =>
    obtain ⟨it, hit, hhead⟩ := exists_item h hc
    refine ⟨rfl, { answer := (r.answer.setBody c.body).close
                   outputs := r.outputs ++ [doneItem s.finishReason c], stage := .closing },
      ⟨?_, ?_⟩, rfl⟩
    · show run next (s.seq, .streaming r) (s.send _).2 = _
      rw [send_run]
      exact congrArg _
          (done_run _ hit hhead (h.stage (by rw [hc]; rfl)) h.index (h.body c it hc hit))
    · refine ⟨?_, ?_, rfl, fun c' _ hc' => by simp at hc', fun h => by simp at h, ?_⟩
      · simp [Answer.items, Answer.setBody, hit, h.index]
      · simp [h.outputs]
      · simp [Answer.items, Answer.setBody, hit, h.closed, doneItem, hhead]

/-! ### What the client reads of each part -/

theorem openItem_run (c : Current) (draws : Nat) (hb : c.body = []) (h : s.At r) :
    ∃ r', Goes s r (s.openItem c draws) r' ∧ r'.answer = (s.finished r).begin c.head := by
  obtain ⟨hnone, r₁, ⟨hrun, hat⟩, hans⟩ := closeCurrent_run h
  have hcur : r₁.answer.current = none := by
    have hh := hat.head
    rw [hnone, Option.map_none, eq_comm, Option.map_eq_none_iff] at hh
    exact hh
  have hitems : r₁.answer.items = r₁.answer.closed := by
    rw [Answer.items, hcur]
    exact List.append_nil _
  refine ⟨{ answer := r₁.answer.begin c.head, outputs := r₁.outputs, stage := .filling },
    ⟨?_, ?_⟩, by rw [← hans]⟩
  · show run next (s.seq, .streaming r) (s.closeCurrent.2 ++ (s.closeCurrent.1.send _).2) = _
    rw [run_append, hrun, Option.bind_some, send_run]
    have hadd : event (.streaming r₁) (.outputItemAdded s.closeCurrent.1.outputIndex c.head) =
        some (.streaming
          { r₁ with
            answer := r₁.answer.begin c.head
            stage := if c.head.kind = .text then .opening else .filling }) :=
      if_pos ⟨hcur, hat.index⟩
    have hopen : run event (.streaming r₁)
        (.outputItemAdded s.closeCurrent.1.outputIndex c.head ::
          if c.head.kind = .text then
            [.contentPartAdded c.head.id s.closeCurrent.1.outputIndex] else []) =
        some (.streaming
          { answer := r₁.answer.begin c.head, outputs := r₁.outputs, stage := .filling }) := by
      rw [run_cons, hadd, Option.bind_some]
      by_cases htext : c.head.kind = .text
      · rw [if_pos htext, if_pos htext, run_cons]
        have hpart : event (.streaming
            { answer := r₁.answer.begin c.head, outputs := r₁.outputs, stage := .opening })
              (.contentPartAdded c.head.id s.closeCurrent.1.outputIndex) = some (.streaming
            { answer := r₁.answer.begin c.head
              outputs := r₁.outputs
              stage := .filling }) := by
          refine if_pos ?_
          rw [← htext]
          exact about_iff rfl rfl rfl (by rw [Answer.closed_begin, hitems]; exact hat.index)
        rw [hpart]
        rfl
      · rw [if_neg htext, if_neg htext]
        rfl
    exact congrArg _ hopen
  · refine ⟨?_, hat.outputs, rfl, fun c' it hc hit _ => ?_, fun _ => rfl, ?_⟩
    · exact hat.index.trans (congrArg List.length hitems).symm
    · rw [← Option.some.inj hc, ← Option.some.inj hit, hb]
    · exact hat.closed.trans hitems.symm

theorem extend_run {c : Current} (piece : Text) (hc : s.current = some c) (h : s.At r) :
    ∃ r', Goes s r (s.extend piece) r' ∧ r'.answer = r.answer.add piece ∧
      (s.extend piece).1.current = some { c with body := c.body ++ piece } := by
  obtain ⟨it, hit, hhead⟩ := exists_item h hc
  refine ⟨{ r with answer := r.answer.add piece }, ⟨?_, ?_⟩, rfl, by rw [extend, hc]⟩
  · rw [extend, hc]
    show run next (s.seq, .streaming r) (s.send _).2 = _
    rw [send_run]
    have hdelta : event (.streaming r) (.delta c.head.kind c.head.id s.outputIndex piece) =
        some (.streaming { r with answer := r.answer.add piece }) :=
      if_pos (about_iff hit hhead (h.stage (by rw [hc]; rfl)) h.index)
    rw [run_cons, hdelta]
    rfl
  · rw [extend, hc]
    refine ⟨h.index, h.outputs, ?_, fun c' it' hc' hit' ht => ?_, fun _ => ?_, h.closed⟩
    · rw [Answer.current_add, hit]
      exact congrArg some hhead.symm
    · rw [Answer.current_add, hit, Option.map_some, Option.some.injEq] at hit'
      rw [← Option.some.inj hc'] at ht ⊢
      rw [← hit', h.body c it hc hit ht]
    · exact h.stage (by rw [hc]; rfl)

theorem topUp_run {c : Current} (final : Text) (hc : s.current = some c) (ht : c.head.kind = .tool)
    (h : s.At r) :
    ∃ r' piece, Goes s r (s.topUp final) r' ∧ r'.answer = r.answer.add piece ∧
      (s.topUp final).1.current = some { c with body := final } := by
  -- the body of a call is known to the client once its arguments are done
  have hset : ∀ {s' : ResponsesStream} {r' : Reading} {c' : Current}, s'.At r' →
      s'.current = some c' → c'.head = c.head →
      ({ s' with current := some { c with body := final } } : ResponsesStream).At r' := by
    intro s' r' c' hat hc' hh
    refine ⟨hat.index, hat.outputs, ?_, fun c'' it hc'' _ hk => ?_, fun _ => ?_, hat.closed⟩
    · rw [← hat.head, hc']
      exact congrArg some hh.symm
    · rw [← Option.some.inj hc''] at hk
      exact absurd ht hk
    · exact hat.stage (by rw [hc']; rfl)
  unfold topUp
  rw [hc]
  simp only
  split
  · obtain ⟨r', ⟨hrun, hat⟩, hans, hcur⟩ := extend_run (final.drop c.body.length) hc h
    exact ⟨r', _, ⟨hrun, hset hat hcur rfl⟩, hans, trivial⟩
  · exact ⟨r, [], ⟨rfl, hset h hc rfl⟩, (Answer.add_nil _).symm, trivial⟩

/-! ### The calls of the log -/

/-- A call under the name it is reported with. -/
def called (cfg : ResponsesConfig) (call : Option Text × Text) : Member × Text :=
  (responseToolName (call.1.getD []) cfg.tools, call.2)

/-- The calls of the client are those of the log. -/
structure LogAt (cfg : ResponsesConfig) (s : ResponsesStream) (r : Reading)
    (log : CallLog) : Prop where
  done : callsOf ItemHead.member r.answer.closed = log.done.map (called cfg)
  idle : log.opened = none → s.calling = false
  pending : ∀ o, log.opened = some o → ∃ c, s.current = some c ∧
    c.head.member = some (responseToolName (o.name.getD []) cfg.tools) ∧
      c.ordinal = some o.ordinal

theorem kind_of_member {h : ItemHead} {m : Member} (hm : h.member = some m) : h.kind = .tool := by
  cases h <;> simp [ItemHead.member] at hm
  rfl

theorem member_of_not_tool {h : ItemHead} (hk : h.kind ≠ .tool) : h.member = none := by
  cases h <;> simp [ItemHead.kind] at hk <;> rfl

theorem calling_iff {c : Current} (hc : s.current = some c) :
    s.calling = true ↔ c.head.kind = .tool := by
  simp [calling, hc]

theorem not_calling (h : s.current = none) : s.calling = false := by
  rw [calling, h]
  rfl

variable {cfg : ResponsesConfig} {l : CallLog}

theorem LogAt.of_idle (hd : callsOf ItemHead.member r.answer.closed = l.done.map (called cfg))
    (ho : l.opened = none) (hi : s.calling = false) : LogAt cfg s r l :=
  ⟨hd, fun _ => hi, fun o h => by rw [ho] at h; cases h⟩

/-- Closing an item that is no call adds nothing to the calls. -/
theorem LogAt.finished_idle (hl : LogAt cfg s r l) (h : s.At r) (ho : l.opened = none) :
    callsOf ItemHead.member (s.finished r).items = l.done.map (called cfg) := by
  unfold finished
  cases hc : s.current with
  | none =>
    have hh := h.head
    rw [hc, Option.map_none, eq_comm, Option.map_eq_none_iff] at hh
    rw [Answer.items, hh, ← hl.done]
    exact congrArg _ (List.append_nil _)
  | some c =>
    obtain ⟨it, hit, hhead⟩ := exists_item h hc
    have hk : c.head.kind ≠ .tool := fun ht => by
      have := hl.idle ho
      rw [(calling_iff hc).mpr ht] at this
      cases this
    rw [Answer.items_close, Answer.items, callsOf_append, Answer.setBody, hl.done, hit]
    simp [callsOf, hhead, member_of_not_tool hk]

/-- Closing a call adds it with its arguments. -/
theorem finished_call {c : Current} {m : Member} (h : s.At r) (hc : s.current = some c)
    (hm : c.head.member = some m) :
    callsOf ItemHead.member (s.finished r).closed =
      callsOf ItemHead.member r.answer.closed ++ [(m, c.body)] := by
  obtain ⟨it, hit, hhead⟩ := exists_item h hc
  unfold finished
  rw [hc]
  simp [Answer.items, Answer.setBody, hit, callsOf, hhead, hm]

/-! ### What each event does to the answer -/

/-- The text of one kind. -/
def texts (k : BlockKind) (a : Answer ItemHead) : Text := a.collect fun h => h.kind = k

theorem texts_finished {k : BlockKind} (h : s.At r) (hk : k ≠ .tool) :
    texts k (s.finished r) = texts k r.answer := by
  unfold finished
  cases hc : s.current with
  | none => rfl
  | some c =>
    obtain ⟨it, hit, hhead⟩ := exists_item h hc
    refine (Answer.collect_close _ _).trans (r.answer.collect_setBody _ _ hit fun hp => ?_)
    refine h.body c it hc hit ?_
    rw [← hhead, of_decide_eq_true hp]
    exact hk

/-- The frames in `res` are read, they add `said` to the answer, and with them the calls follow
the log. -/
def Moves (cfg : ResponsesConfig) (s : ResponsesStream) (r : Reading)
    (res : ResponsesStream × List ResponsesFrame) (said : BlockKind → Text)
    (log : CallLog → Option CallLog) : Prop :=
  Reads next (s.seq, .streaming r) res.2 fun c => ∃ r', c = (res.1.seq, .streaming r') ∧
    res.1.At r' ∧ (∀ k ≠ .tool, texts k r'.answer = texts k r.answer ++ said k) ∧
      ∀ l l', LogAt cfg s r l → log l = some l' → LogAt cfg res.1 r' l'

theorem Moves.skip {log : CallLog → Option CallLog} (h : s.At r)
    (hlog : ∀ l l', LogAt cfg s r l → log l = some l' → LogAt cfg s r l') :
    Moves cfg s r (s, []) (fun _ => []) log :=
  .nil ⟨r, rfl, h, fun _ _ => (List.append_nil _).symm, hlog⟩

theorem texts_add {it : Item ItemHead} {k : BlockKind} {a : Answer ItemHead} (piece : Text)
    (hit : a.current = some it) :
    texts k (a.add piece) = texts k a ++ if it.head.kind = k then piece else [] := by
  rw [texts, a.collect_add _ piece hit]
  simp only [decide_eq_true_eq]
  rfl

theorem newHead_kind {kind : BlockKind} (n : Nat) (hk : kind ≠ .tool) :
    (newHead cfg kind n).kind = kind := by
  cases kind <;> simp [newHead, ItemHead.kind] at hk ⊢

theorem say_moves (kind : BlockKind) (text : Text) (hk : kind ≠ .tool) (h : s.At r) :
    Moves cfg s r (s.say cfg kind text) (fun k => if kind = k then text else [])
      fun l => if text = [] ∨ l.opened = none then some l else none := by
  unfold say
  by_cases htext : text = []
  · rw [if_pos htext]
    subst htext
    refine .nil ⟨r, rfl, h, fun k _ => by simp, fun l l' hl hlog => ?_⟩
    simp only [true_or, if_true, Option.some.injEq] at hlog
    exact hlog ▸ hl
  rw [if_neg htext]
  have hopened : ∀ l l' : CallLog,
      (if text = [] ∨ l.opened = none then some l else none) = some l' →
        l.opened = none ∧ l' = l := by
    intro l l' hlog
    split at hlog
    · exact ⟨‹text = [] ∨ l.opened = none›.resolve_left htext,
          (Option.some.inj hlog).symm⟩
    · cases hlog
  by_cases hany : s.current.any fun c => c.head.kind = kind
  · rw [if_pos hany]
    obtain ⟨c, hc, hkind⟩ : ∃ c, s.current = some c ∧ c.head.kind = kind := by
      cases hc : s.current with
      | none => rw [hc] at hany; cases hany
      | some c => exact ⟨c, rfl, by simpa [hc] using hany⟩
    obtain ⟨it, hit, hhead⟩ := exists_item h hc
    obtain ⟨r', ⟨hrun, hat⟩, hans, hcur⟩ := extend_run text hc h
    refine ⟨_, hrun, r', rfl, hat, fun k _ => ?_, fun l l' hl hlog => ?_⟩
    · rw [hans, texts_add text hit, hhead, hkind]
    · obtain ⟨ho, rfl⟩ := hopened l l' hlog
      refine .of_idle (by rw [hans]; exact hl.done) ho ?_
      rw [Bool.eq_false_iff, Ne, calling_iff hcur]
      exact hkind ▸ hk
  · rw [if_neg hany]
    obtain ⟨r₁, ⟨hrun₁, hat₁⟩, hans₁⟩ :=
      openItem_run { head := newHead cfg kind s.drawn } 1 rfl h
    obtain ⟨r', ⟨hrun, hat⟩, hans, hcur⟩ := extend_run text rfl hat₁
    refine ⟨_, by rw [run_append, hrun₁]; exact hrun, r', rfl, hat, fun k hk' => ?_,
      fun l l' hl hlog => ?_⟩
    · rw [hans, hans₁, texts_add text (Answer.current_begin _ _), newHead_kind _ hk]
      refine congrArg (· ++ _) ?_
      exact (Answer.collect_begin _ _ _).trans (texts_finished h hk')
    · obtain ⟨ho, rfl⟩ := hopened l l' hlog
      refine .of_idle ?_ ho ?_
      · rw [hans, hans₁]
        exact hl.finished_idle h ho
      · rw [Bool.eq_false_iff, Ne, calling_iff hcur]
        exact fun ht => hk ((newHead_kind s.drawn hk).symm.trans ht)

theorem openFunctionCall_moves (name : Option Text) (ordinal : Int) (stable : Bool) (h : s.At r) :
    Moves cfg s r (s.openFunctionCall cfg (name.getD []) ordinal) (fun _ => []) fun l =>
      if l.opened = none then some { l with opened := some { ordinal, name, stable } }
      else none := by
  obtain ⟨r', ⟨hrun, hat⟩, hans⟩ := openItem_run
    { head := .functionCall ("fc_".toList ++ cfg.uuid s.drawn)
        ("call_".toList ++ (cfg.uuid (s.drawn + 1)).take 24)
        (responseToolName (name.getD []) cfg.tools)
      ordinal := some ordinal } 2 rfl h
  refine ⟨_, hrun, r', rfl, hat, fun k hk => ?_, fun l l' hl hlog => ?_⟩
  · rw [hans, List.append_nil]
    exact (Answer.collect_begin _ _ _).trans (texts_finished h hk)
  · beta_reduce at hlog
    split at hlog
    · rename_i ho
      rw [Option.some.injEq] at hlog
      subst hlog
      refine ⟨?_, (fun h => by cases h), fun o ho' => ?_⟩
      · rw [hans]
        exact hl.finished_idle h ho
      · rw [Option.some.injEq] at ho'
        subst ho'
        exact ⟨_, rfl, rfl, rfl⟩
    · cases hlog

theorem onCall_moves (call : ToolCallItem) (h : s.At r) :
    Moves cfg s r (s.onCall cfg call) (fun _ => []) fun l => l.item call := by
  unfold onCall
  split
  · -- the close of the open call
    rename_i hopen
    obtain ⟨c, hc⟩ : ∃ c, s.current = some c := by
      cases hc : s.current with
      | none => rw [calling, hc] at hopen; cases hopen.1
      | some c => exact ⟨c, rfl⟩
    have htool := (calling_iff hc).mp hopen.1
    obtain ⟨it, hit, hhead⟩ := exists_item h hc
    obtain ⟨r₁, piece, ⟨hrun₁, hat₁⟩, hans₁, hcur₁⟩ :=
        topUp_run call.parameters hc htool h
    obtain ⟨hnone, r', ⟨hrun, hat⟩, hans⟩ := closeCurrent_run hat₁
    refine ⟨_, by rw [run_append, hrun₁]; exact hrun, r', rfl, hat, fun k hk => ?_,
      fun l l' hl hlog => ?_⟩
    · rw [hans, texts_finished hat₁ hk, hans₁, texts_add piece hit, hhead, htool,
            if_neg hk.symm]
    · cases ho : l.opened with
      | none =>
        rw [hl.idle ho] at hopen
        cases hopen.1
      | some o =>
        simp only [CallLog.item, ho] at hlog
        split at hlog
        · rename_i hcall
          obtain ⟨c', hc', hm, -⟩ := hl.pending o ho
          rw [hc, Option.some.injEq] at hc'
          subst hc'
          rw [Option.some.injEq] at hlog
          subst hlog
          refine .of_idle ?_ rfl (not_calling hnone)
          rw [hans, finished_call hat₁ hcur₁ hm, hans₁, Answer.closed_add, hl.done, hcall.2.1,
            List.map_append]
          rfl
        · cases hlog
  · -- a call of which nothing came before
    rename_i hnew
    obtain ⟨r₁, ⟨hrun₁, hat₁⟩, hans₁⟩ := openItem_run
      { head := .functionCall ("fc_".toList ++ cfg.uuid s.drawn)
          ("call_".toList ++ (cfg.uuid (s.drawn + 1)).take 24)
          (responseToolName (call.name.getD []) cfg.tools)
        ordinal := some call.toolIndex } 2 rfl h
    obtain ⟨r₂, ⟨hrun₂, hat₂⟩, hans₂, hcur₂⟩ :=
      extend_run call.parameters rfl hat₁
    obtain ⟨hnone, r', ⟨hrun, hat⟩, hans⟩ := closeCurrent_run hat₂
    refine ⟨_, ?_, r', rfl, hat, fun k hk => ?_, fun l l' hl hlog => ?_⟩
    · rw [run_append, run_append]
      simp only [openFunctionCall, hrun₁, Option.bind_some]
      rw [hrun₂]
      exact hrun
    · rw [hans, texts_finished hat₂ hk, hans₂, texts_add _ (by rw [hans₁]; rfl), hans₁]
      rw [show ItemHead.kind _ = .tool from rfl, if_neg hk.symm]
      exact congrArg (· ++ _) ((Answer.collect_begin _ _ _).trans (texts_finished h hk))
    · cases ho : l.opened with
      | some o =>
        simp only [CallLog.item, ho] at hlog
        split at hlog
        · rename_i hcall
          obtain ⟨c, hc, hm, hord⟩ := hl.pending o ho
          refine absurd ⟨(calling_iff hc).mpr (kind_of_member hm), ?_⟩ hnew
          rw [hc, hcall.1]
          exact hord
        · cases hlog
      | none =>
        simp only [CallLog.item, ho, Option.some.injEq] at hlog
        subst hlog
        refine .of_idle ?_ rfl (not_calling hnone)
        rw [hans, finished_call hat₂ hcur₂ rfl, hans₂, Answer.closed_add, hans₁,
          Answer.closed_begin, hl.finished_idle h ho, List.map_append]
        rfl

theorem calls_moves (calls : List ToolCallItem) (h : s.At r) :
    Moves cfg s r (relay (onCall cfg) s calls) (fun _ => []) fun l =>
      run CallLog.item l calls := by
  have hreads := relay_reads (onCall cfg) next
    (fun past s' c => ∃ r', c = (s'.seq, ResponsesClient.streaming r') ∧ s'.At r' ∧
      (∀ k ≠ .tool, texts k r'.answer = texts k r.answer) ∧
        ∀ l l', LogAt cfg s r l → run CallLog.item l past = some l' → LogAt cfg s' r' l')
    (fun _ _ => True) ?_ calls [] s (s.seq, .streaming r) ⟨r, rfl, h,
      fun _ _ => rfl, fun l l' hl hlog => ?_⟩
    (fun _ _ _ _ => trivial)
  · refine hreads.mono fun c hc => ?_
    obtain ⟨r', hc, hat, htext, hlog⟩ := hc
    exact ⟨r', hc, hat, fun k hk => by rw [htext k hk, List.append_nil], hlog⟩
  · rintro past s' c call ⟨r', rfl, hat, htext, hlog⟩ -
    refine (onCall_moves call hat).mono fun c hc => ?_
    obtain ⟨r'', hc, hat', htext', hlog'⟩ := hc
    refine ⟨r'', hc, hat', fun k hk => ?_, fun l l' hl hrun => ?_⟩
    · rw [htext' k hk, htext k hk, List.append_nil]
    · obtain ⟨m, hm, hrun⟩ := run_concat_some hrun
      exact hlog' m l' (hlog l m hl hm) hrun
  · rw [run_nil, Option.some.injEq] at hlog
    exact hlog ▸ hl

theorem argsDelta_moves (i : Nat) (fragment : Text) (h : s.At r) :
    Moves cfg s r (if s.calling then s.extend fragment else (s, [])) (fun _ => [])
      fun l => l.read (.event (.toolCallArgsDelta i fragment)) := by
  -- the log keeps the call under its name and ordinal
  have hkeep : ∀ l l' : CallLog, l.read (.event (.toolCallArgsDelta i fragment)) = some l' →
      l'.done = l.done ∧ (l'.opened = none ↔ l.opened = none) ∧
        ∀ o', l'.opened = some o' → ∃ o, l.opened = some o ∧ o.name = o'.name ∧
          o.ordinal = o'.ordinal := by
    intro l l' hlog
    rw [CallLog.read, Option.some.injEq] at hlog
    subst hlog
    refine ⟨rfl, by simp, fun o' ho' => ?_⟩
    obtain ⟨o, ho, rfl⟩ := Option.map_eq_some_iff.mp ho'
    exact ⟨o, ho, rfl, rfl⟩
  split
  · rename_i hcalling
    obtain ⟨c, hc⟩ : ∃ c, s.current = some c := by
      cases hc : s.current with
      | none => rw [calling, hc] at hcalling; cases hcalling
      | some c => exact ⟨c, rfl⟩
    have htool := (calling_iff hc).mp hcalling
    obtain ⟨it, hit, hhead⟩ := exists_item h hc
    obtain ⟨r', ⟨hrun, hat⟩, hans, hcur⟩ := extend_run fragment hc h
    refine ⟨_, hrun, r', rfl, hat, fun k hk => ?_, fun l l' hl hlog => ?_⟩
    · rw [hans, texts_add fragment hit, hhead, htool, if_neg hk.symm]
    · obtain ⟨hdone, hidle, hpending⟩ := hkeep l l' hlog
      refine ⟨by rw [hans, hdone]; exact hl.done, fun ho => ?_, fun o' ho' => ?_⟩
      · rw [hl.idle (hidle.mp ho)] at hcalling
        cases hcalling
      · obtain ⟨o, ho, hname, hord⟩ := hpending o' ho'
        obtain ⟨c', hc', hm, hco⟩ := hl.pending o ho
        rw [hc, Option.some.injEq] at hc'
        subst hc'
        exact ⟨_, hcur, by rw [← hname]; exact hm, by rw [← hord]; exact hco⟩
  · refine .skip h fun l l' hl hlog => ?_
    obtain ⟨hdone, hidle, hpending⟩ := hkeep l l' hlog
    refine ⟨by rw [hdone]; exact hl.done, fun ho => hl.idle (hidle.mp ho), fun o' ho' => ?_⟩
    obtain ⟨o, ho, hname, hord⟩ := hpending o' ho'
    rw [← hname, ← hord]
    exact hl.pending o ho

/-- One event that does not end the stream. -/
theorem event_moves (cfg : ResponsesConfig) (e : Incoming) (he : e.isDone = false) (h : s.At r) :
    Moves cfg s r (s.onEvent cfg e) (fun k => e.said k) fun l => l.read e := by
  cases e with
  | keepalive =>
    have hping : event (.streaming r)
        (.inProgress { output := s.outputItems, status := .inProgress })
        = some (.streaming r) := if_pos h.outputs
    refine ⟨(_, .streaming r), (send_run _ _).trans ?_, r, rfl,
      ⟨h.index, h.outputs, h.head, h.body, h.stage, h.closed⟩,
      fun _ _ => (List.append_nil _).symm, fun l l' hl hlog => ?_⟩
    · rw [run_cons, hping]
      rfl
    · rw [← Option.some.inj hlog]
      exact ⟨hl.done, hl.idle, hl.pending⟩
  | event e =>
    cases e with
    | reasoningDelta text =>
      refine (say_moves .thinking text (by decide) h).mono ?_
      rintro c ⟨r', hc, hat, htext, hlog⟩
      refine ⟨r', hc, hat, fun k hk => ?_, hlog⟩
      rw [htext k hk]
      simp [Incoming.said, eq_comm]
    | contentDelta text =>
      refine (say_moves .text text (by decide) h).mono ?_
      rintro c ⟨r', hc, hat, htext, hlog⟩
      refine ⟨r', hc, hat, fun k hk => ?_, hlog⟩
      rw [htext k hk]
      simp [Incoming.said, eq_comm]
    | toolCallStart i name stable => exact openFunctionCall_moves name i stable h
    | toolCallArgsDelta i fragment => exact argsDelta_moves i fragment h
    | toolCallsDelta calls => exact calls_moves calls h
    | pooledReady params logprobs =>
      exact .skip h fun l l' hl hlog => by rw [← Option.some.inj hlog]; exact hl
    | genDone done => cases he

end ResponsesStream

/-! ## Whole streams -/

open ResponsesStream

/-- How a client ends up: the items it has are those of the last frame, their text and thinking
are those of the events, and their calls are those of the log where there is one. -/
def Delivered (cfg : ResponsesConfig) (events : List Incoming) (r : Reading) : Prop :=
  r.answer.current = none ∧ r.outputs.map (fun o => ⟨o.head, o.body⟩) = r.answer.closed ∧
    (∀ k ≠ .tool, texts k r.answer = events.flatMap (Incoming.said k)) ∧
      ∀ log, run CallLog.read {} events = some log → log.opened = none →
        callsOf ItemHead.member r.answer.closed = log.done.map (called cfg)

theorem loop_reads (cfg : ResponsesConfig) (events : List Incoming)
    (hd : ∀ e ∈ events, e.isDone = false) :
    Reads next (2, .streaming {}) (relay (onEvent cfg) opened.1 events).2 fun c => ∃ r : Reading,
      c = ((relay (onEvent cfg) opened.1 events).1.seq, ResponsesClient.streaming r) ∧
        (relay (onEvent cfg) opened.1 events).1.At r ∧
          (∀ k ≠ .tool, texts k r.answer = events.flatMap (Incoming.said k)) ∧
            ∀ log, run CallLog.read {} events = some log →
              LogAt cfg (relay (onEvent cfg) opened.1 events).1 r log := by
  refine relay_reads (onEvent cfg) next
    (fun past s c => ∃ r : Reading, c = (s.seq, ResponsesClient.streaming r) ∧ s.At r ∧
      (∀ k ≠ .tool, texts k r.answer = past.flatMap (Incoming.said k)) ∧
        ∀ log, run CallLog.read {} past = some log → LogAt cfg s r log)
    (fun _ e => e.isDone = false) ?_ events [] opened.1 (2, .streaming {}) ?_ ?_
  · rintro past s c e ⟨r, rfl, hat, htext, hlog⟩ he
    refine (event_moves cfg e he hat).mono ?_
    rintro c ⟨r', hc, hat', htext', hlog'⟩
    refine ⟨r', hc, hat', fun k hk => ?_, fun log hrun => ?_⟩
    · rw [htext' k hk, htext k hk, List.flatMap_append, List.flatMap_singleton]
    · obtain ⟨m, hm, hrun⟩ := run_concat_some hrun
      exact hlog' m log (hlog m hm) hrun
  · refine ⟨{}, rfl, ⟨rfl, rfl, rfl, (fun c it h => by cases h), (fun h => by cases h), rfl⟩,
      fun _ _ => rfl, fun log h => ?_⟩
    rw [run_nil, Option.some.injEq] at h
    exact .of_idle (by rw [← h]; rfl) (by rw [← h]) rfl
  · rintro pre e post rfl
    exact hd e (by simp)

/-- What is open when the loop is left is closed, whatever the finish reason is then. -/
theorem closed_reads (cfg : ResponsesConfig) (events : List Incoming)
    (hd : ∀ e ∈ events, e.isDone = false) (s : ResponsesStream)
    (hs : ∀ r, (relay (onEvent cfg) opened.1 events).1.At r → s.At r)
    (hlog : ∀ r log, LogAt cfg (relay (onEvent cfg) opened.1 events).1 r log →
      LogAt cfg s r log)
    (hseq : s.seq = (relay (onEvent cfg) opened.1 events).1.seq) :
    ∃ r, run next (2, .streaming {})
        ((relay (onEvent cfg) opened.1 events).2 ++ s.closeCurrent.2) =
          some (s.closeCurrent.1.seq, .streaming r) ∧
      s.closeCurrent.1.outputItems = r.outputs ∧ Delivered cfg events r := by
  obtain ⟨c, hrun, r, rfl, hat, htext, hcalls⟩ := loop_reads cfg events hd
  obtain ⟨hnone, r', ⟨hclose, hat'⟩, hans⟩ := closeCurrent_run (hs r hat)
  have hcur : r'.answer.current = none := by
    have hh := hat'.head
    rw [hnone, Option.map_none, eq_comm, Option.map_eq_none_iff] at hh
    exact hh
  refine ⟨r', ?_, hat'.outputs, hcur, hat'.closed, fun k hk => ?_, fun log hr ho => ?_⟩
  · rw [run_append, hrun, ← hseq]
    exact hclose
  · rw [hans, texts_finished (hs r hat) hk, htext k hk]
  · have hitems := (hlog r log (hcalls log hr)).finished_idle (hs r hat) ho
    rw [← hans, Answer.items, hcur] at hitems
    exact (congrArg _ (List.append_nil _).symm).trans hitems

/-- The last frame, after what was open has been closed. -/
theorem last_reads {s : ResponsesStream} {frames : List ResponsesFrame} {r : Reading}
    (e : ResponsesEvent) (status : ResponseStatus)
    (hrun : run next (2, .streaming {}) frames = some (s.seq, .streaming r))
    (he : event (.streaming r) e = some (.ended r status)) :
    run next (0, .waiting) (opened.2 ++ (frames ++ (s.send [e]).2)) =
      some (s.seq + 1, .ended r status) := by
  have hopen : run next (0, .waiting) opened.2 = some (2, .streaming {}) := by decide
  rw [run_append, hopen, Option.bind_some, run_append, hrun, Option.bind_some, send_run, run_cons,
    he]
  rfl

/-- A client of the Responses protocol reads the stream of every generation to its end, whatever
events it has and wherever keepalives come between them, whether it is finished or fails: the
sequence numbers have no gap, and the last frame has the items that were done. It has all the text
and all the thinking then, and exactly the calls of the generation where their events are in
order, each under the name its tool has in the request. -/
theorem responses_client_reads (cfg : ResponsesConfig) (events : List Incoming)
    (hd : ∀ e ∈ events, e.isDone = false) :
    (∀ done, ∃ n r, run next (0, .waiting)
        (responsesStreamGenerator cfg (events ++ [.event (.genDone done)]) .exhausted) =
          some (n, .ended r (if done.finishReason = .length then .incomplete else .completed)) ∧
        Delivered cfg events r) ∧
    (∀ e, ∃ n r, run next (0, .waiting)
        (responsesStreamGenerator cfg events (.generationError e)) = some (n, .ended r .failed) ∧
        Delivered cfg events r) ∧
    ∀ message, ∃ n r, run next (0, .waiting)
        (responsesStreamGenerator cfg events (.exception message)) = some (n, .ended r .failed) ∧
        Delivered cfg events r := by
  have hfail : ∀ code message, ∃ n r, run next (0, .waiting)
      (opened.2 ++ ((relay (onEvent cfg) opened.1 events).2 ++
        (relay (onEvent cfg) opened.1 events).1.fail code message)) = some (n, .ended r .failed) ∧
        Delivered cfg events r := by
    intro code message
    obtain ⟨r, hrun, hout, hdel⟩ := closed_reads cfg events hd _ (fun _ h => h)
      (fun _ _ h => h) rfl
    refine ⟨(relay (onEvent cfg) opened.1 events).1.closeCurrent.1.seq + 1, r, ?_, hdel⟩
    rw [fail, ← List.append_assoc (relay (onEvent cfg) opened.1 events).2]
    refine last_reads _ _ hrun ?_
    exact if_pos ⟨hdel.1, hout⟩
  refine ⟨fun done => ?_, fun e => hfail _ _, fun message => hfail _ _⟩
  let s : ResponsesStream :=
    { (relay (onEvent cfg) opened.1 events).1 with
      finishReason := done.finishReason, usagePt := done.promptTokens
      usageCt := done.completionTokens, usageCached := done.cachedTokens }
  obtain ⟨r, hrun, hout, hdel⟩ := closed_reads cfg events hd s
    (fun _ h => ⟨h.index, h.outputs, h.head, h.body, h.stage, h.closed⟩)
    (fun _ _ h => ⟨h.done, h.idle, h.pending⟩) rfl
  refine ⟨s.closeCurrent.1.seq + 1, r, ?_, hdel⟩
  unfold responsesStreamGenerator
  rw [relay_append, relay_cons, relay_nil]
  simp only [onEnd, List.append_nil]
  rw [onEvent, ← List.append_assoc (relay (onEvent cfg) opened.1 events).2]
  by_cases hlength : done.finishReason = .length
  · rw [if_pos hlength, if_pos hlength]
    refine last_reads _ _ hrun ?_
    exact if_pos ⟨hdel.1, hout⟩
  · rw [if_neg hlength, if_neg hlength]
    refine last_reads _ _ hrun ?_
    exact if_pos ⟨hdel.1, hout⟩

theorem responses_client_reads_call :
    ∃ n r, run next (0, .waiting)
        (responsesStreamGenerator ⟨[], fun _ => []⟩
          [.event (.contentDelta ['a']), .keepalive, .event (.toolCallStart 0 (some ['f']) false),
            .event (.toolCallArgsDelta 0 ['x']),
            .event (.toolCallsDelta [⟨0, some ['f'], ['y']⟩])] (.exception [])) =
          some (n, .ended r .failed) ∧
        callsOf ItemHead.member r.answer.closed = [((none, ['f']), ['y'])] := by
  obtain ⟨n, r, hrun, -, -, -, hcalls⟩ := (responses_client_reads ⟨[], fun _ => []⟩
    [.event (.contentDelta ['a']), .keepalive, .event (.toolCallStart 0 (some ['f']) false),
      .event (.toolCallArgsDelta 0 ['x']),
      .event (.toolCallsDelta [⟨0, some ['f'], ['y']⟩])] (by decide)).2.2 []
  exact ⟨n, r, hrun, hcalls { done := [(some ['f'], ['y'])] } (by decide) rfl⟩

end FreeToken.Server.Responses

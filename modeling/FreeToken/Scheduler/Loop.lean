import FreeToken.Scheduler.Types

/-!
# The scheduler's control plane

The message handlers, the drain of a forward and the two loops of
`scheduler/scheduler.py`, over an abstract cache manager `CacheOps`.

An iteration of either loop is cut at the points where something else can run:

* `control`: messages, expiry, lease service and early drains;
* `scheduled b`: `_schedule_next_batch` has chosen `b`; growable KV may still
  drain the batch in flight before `b` is prepared;
* `launched b`: `b` has been forwarded; the only step left is the drain, of the
  previous batch under `overlap_loop` and of `b` itself under `normal_loop`.

What a prefill pass seats is an input of the `schedule` step, so the model
covers every queue order, token budget and pool state the pass may see.
-/

namespace FreeToken.Scheduler

/-- What the control plane asks of the cache manager. `C` is the manager's
state, `E` its own spontaneous moves (an eviction, a released pin). -/
structure CacheOps (C H ρ E : Type) where
  cacheReq : C → Req ρ → Bool → C × ρ
  retainPrefix : C → List Token → Nat → C × H
  unlock : C → H → C
  /-- `cached_len` of a handle. -/
  handleLen : H → Nat
  restore : C → List Token → Option (C × H)
  event : C → E → C
  /-- `_try_allocate_one` for a fresh prompt and its table slot: the matched
  length and the request's new resources, or a refusal. -/
  tryAllocateOne : C → PendingReq → Nat → Option (C × Nat × ρ)
  /-- `commit_chunk_snapshot` (and `commit_prefix_boundary`) for the last chunk;
  the second component is that chunk's own fields afterwards. -/
  commitChunk : C → Req ρ → PendingReq → C × ρ
  /-- The fields a continuation copies from the chunk before it. -/
  continue_ : ρ → ρ
  allocatePaged : C → Bool → List (Req ρ) → C
  /-- What a forward (prefill or decode) does to one request's state slots. -/
  forward : C → Bool → Req ρ → C × ρ

structure Config where
  eosTokenIds : List Token
  /-- The tokenizer. -/
  decode : List Token → Text
  toolcallAnchorId : Option Token
  maxSeqLen : Nat
  hasEncoder : Bool
  hiddenStatesMaxTokens : Nat
  numLayers : Nat
  autoSessionGrace : Time
  sealed : Bool
  /-- The `i`-th token the model samples for a request. -/
  script : Uid → Nat → Token

inductive Phase
  | control
  | scheduled (batch : Option (Bool × List ReqId))
  | launched (batch : Option Batch)
  deriving DecidableEq, Repr

structure State (C H ρ : Type) where
  cache : C
  reqs : ReqId → Req ρ
  nextReq : ReqId
  pendingList : List PendingReq
  runningReqs : List ReqId
  lastData : Option Batch
  finishedReqs : List ReqId
  sessions : SessionId → Option (SessionLease H)
  sessionKeys : List SessionId
  sessionAliases : Uid → Option SessionId
  abortTombstones : List Uid
  pendingAbortAcks : List Uid
  pendingSessionCloseAcks : Uid → Option (Nat × SessionId)
  tableFree : List Nat
  outbox : List Reply
  phase : Phase
  /-- Every prompt queued so far; only theorems read it. -/
  admitted : List UserMsg

/-- A scheduler that has received nothing. `dummy` is the engine's dummy
request, the value of every request object not built yet. -/
def State.init {C H ρ : Type} (cache : C) (dummy : Req ρ) (maxRunningReqs : Nat) :
    State C H ρ where
  cache := cache
  reqs := fun _ => dummy
  nextReq := 0
  pendingList := []
  runningReqs := []
  lastData := none
  finishedReqs := []
  sessions := fun _ => none
  sessionKeys := []
  sessionAliases := fun _ => none
  abortTombstones := []
  pendingAbortAcks := []
  pendingSessionCloseAcks := fun _ => none
  tableFree := List.range maxRunningReqs
  outbox := []
  phase := .control
  admitted := []

variable {C H ρ E : Type} (ops : CacheOps C H ρ E) (cfg : Config)

namespace State

def setReq (s : State C H ρ) (rid : ReqId) (r : Req ρ) : State C H ρ :=
  { s with reqs := Function.update s.reqs rid r }

def setSession (s : State C H ρ) (sid : SessionId) (l : SessionLease H) : State C H ρ :=
  { s with sessions := Function.update s.sessions sid (some l) }

def send (s : State C H ρ) (rs : List Reply) : State C H ρ :=
  { s with outbox := s.outbox ++ rs }

/-- Whether a launched forward of the request has not been drained. -/
def inflight (s : State C H ρ) (rid : ReqId) : Bool :=
  match s.lastData with
  | none => false
  | some b => decide (rid ∈ b.reqs)

end State

-- ---------------------------------------------------------------------------
-- Release of a request's resources
-- ---------------------------------------------------------------------------

/-- The lease part of `_free_req_resources`: the finished turn's prefix becomes
the lease's handle and the lease is idle again. -/
def retainSession (now : Time) (s : State C H ρ) (req : Req ρ) (sid : SessionId)
    (session : SessionLease H) : State C H ρ :=
  let (cache, newHandle) := ops.retainPrefix s.cache req.inputIds req.cachedLen
  let cache := match session.handle with
    | none => cache
    | some old => ops.unlock cache old
  { s with
    cache := cache
    sessionAliases := Function.update s.sessionAliases req.uid none
    sessions := Function.update s.sessions sid <| some
      { session with
        handle := some newHandle
        tokenIds := some (req.inputIds.take (ops.handleLen newHandle))
        activeUid := none
        expiresAt := if session.reclaimable then none else some (now + session.ttl)
        lastUsedAt := now
        protectedUntil :=
          if session.reclaimable ∧ 0 < cfg.autoSessionGrace
          then some (now + cfg.autoSessionGrace) else none } }

/-- Whether `_free_req_resources` hands the request's prefix to its session. -/
def retainsSession (s : State C H ρ) (req : Req ρ) : Option (SessionId × SessionLease H) :=
  match req.sessionId with
  | none => none
  | some sid =>
    match s.sessions sid with
    | none => none
    | some l =>
      if req.mmItems = [] ∧ l.activeUid = some req.uid then some (sid, l) else none

/-- `cache_req`, which rewrites the request's own fields. -/
def commitReq (s : State C H ρ) (rid : ReqId) (finished : Bool) : State C H ρ :=
  let (cache, res) := ops.cacheReq s.cache (s.reqs rid) finished
  { s with cache := cache }.setReq rid { s.reqs rid with res := res }

/-- The prefix of a request that finished its turn goes to its lease. -/
def keepPrefix (now : Time) (s : State C H ρ) (rid : ReqId) (retain : Bool) : State C H ρ :=
  match retain, retainsSession s (s.reqs rid) with
  | true, some (sid, l) => retainSession ops cfg now s (s.reqs rid) sid l
  | _, _ => s

/-- `table_manager.free`; from here on the request counts as freed. -/
def freeTable (s : State C H ρ) (rid : ReqId) (slot : Nat) : State C H ρ :=
  { s with tableFree := s.tableFree ++ [slot] }.setReq rid { s.reqs rid with tableIdx := none }

def freeReqResources (now : Time) (s : State C H ρ) (rid : ReqId) (retain : Bool) :
    State C H ρ :=
  match (s.reqs rid).tableIdx with
  | none => s
  | some slot => freeTable (keepPrefix ops cfg now (commitReq ops s rid true) rid retain) rid slot

-- ---------------------------------------------------------------------------
-- Aborts and session close
-- ---------------------------------------------------------------------------

/-- `PrefillManager.abort_req`: drops the first queued prompt of the uid and
answers its last chunk, if it has one. -/
def prefillAbortReq (s : State C H ρ) (uid : Uid) : Option ReqId × State C H ρ :=
  match s.pendingList.find? (fun p => p.uid == uid) with
  | none => (none, s)
  | some p =>
    (p.chunkedReq, { s with pendingList := s.pendingList.eraseP (fun p => p.uid == uid) })

/-- `DecodeManager.abort_req`. -/
def decodeAbortReq (s : State C H ρ) (uid : Uid) : Option ReqId × State C H ρ :=
  match s.runningReqs.find? (fun r => (s.reqs r).uid == uid) with
  | none => (none, s)
  | some r => (some r, { s with runningReqs := s.runningReqs.erase r })

def abortReq (s : State C H ρ) (uid : Uid) : Option ReqId × State C H ρ :=
  match prefillAbortReq s uid with
  | (some r, s') => (some r, s')
  | (none, s') => decodeAbortReq s' uid

/-- A request that left its manager: marked when a forward of it is in flight
(the drain frees it), freed at once otherwise. -/
def dropReq (now : Time) (s : State C H ρ) : Option ReqId → State C H ρ
  | none => s
  | some r =>
    if s.inflight r then s.setReq r { s.reqs r with aborted := true }
    else freeReqResources ops cfg now s r false

def ackAbort (s : State C H ρ) (uid : Uid) : State C H ρ :=
  { s with pendingAbortAcks := s.pendingAbortAcks.insert uid }

/-- The abort of one uid as both handlers run it: out of its manager, then marked or freed. -/
def abortUid (now : Time) (s : State C H ρ) (uid : Uid) : State C H ρ :=
  dropReq ops cfg now (abortReq s uid).2 (abortReq s uid).1

/-- A lease leaves the table and its handle is unlocked. -/
def popLease (s : State C H ρ) (sid : SessionId) (lease : SessionLease H) : State C H ρ :=
  { s with
    sessions := Function.update s.sessions sid none
    sessionKeys := s.sessionKeys.erase sid
    cache := match lease.handle with
      | none => s.cache
      | some h => ops.unlock s.cache h }

/-- `_close_session`. -/
def closeSession (now : Time) (s : State C H ρ) (sid : SessionId) : State C H ρ :=
  match s.sessions sid with
  | none => s
  | some lease =>
    match lease.activeUid with
    | none => popLease ops s sid lease
    | some u => ackAbort (abortUid ops cfg now (popLease ops s sid lease) u) u

def closeSession? (now : Time) (s : State C H ρ) : Option SessionId → State C H ρ
  | none => s
  | some sid => closeSession ops cfg now s sid

/-- The session an abort closes: the lease its request was rebound to, else the
id the client sent. -/
def abortedSession (s : State C H ρ) (uid : Uid) (sessionId : Option SessionId) :
    Option SessionId :=
  match s.sessionAliases uid with
  | some sid => some sid
  | none => sessionId

/-- The tombstone of an aborted uid; its alias is used up. -/
def noteAbort (s : State C H ρ) (uid : Uid) : State C H ρ :=
  { s with
    abortTombstones := (s.abortTombstones.insert uid).take 65536
    sessionAliases := Function.update s.sessionAliases uid none }

def processAbort (now : Time) (s : State C H ρ) (uid : Uid) (sessionId : Option SessionId) :
    State C H ρ :=
  let s' := closeSession? ops cfg now (noteAbort s uid) (abortedSession s uid sessionId)
  ackAbort (abortUid ops cfg now s' uid) uid

/-- A close of a busy session is answered when its turn's abort is flushed. -/
def deferClose (s : State C H ρ) (uid : Uid) (requestId : Nat) (sid : SessionId) :
    State C H ρ :=
  { s with pendingSessionCloseAcks :=
      Function.update s.pendingSessionCloseAcks uid (some (requestId, sid)) }

def processClose (now : Time) (s : State C H ρ) (sid : SessionId) (requestId : Nat) :
    State C H ρ :=
  if cfg.sealed then s.send [.sessionClosed sid requestId .sealed]
  else
    let s' := closeSession ops cfg now s sid
    match s.sessions sid with
    | none => s'.send [.sessionClosed sid requestId .notFound]
    | some lease =>
      match lease.activeUid with
      | none => s'.send [.sessionClosed sid requestId .closed]
      | some u => deferClose s' u requestId sid

/-- `_expire_sessions`: idle leases past their deadline, resident automatic ones excepted. -/
def expiredSessions (now : Time) (s : State C H ρ) : List SessionId :=
  s.sessionKeys.filter fun sid =>
    match s.sessions sid with
    | none => false
    | some l => l.activeUid.isNone && (l.expiresAt.elim false (· ≤ now)) &&
        !(l.reclaimable && l.handle.isSome)

def expireSessions (now : Time) (s : State C H ρ) : State C H ρ :=
  (expiredSessions now s).foldl (closeSession ops cfg now) s

-- ---------------------------------------------------------------------------
-- Drain of a forward
-- ---------------------------------------------------------------------------

def flushAbortAcks (s : State C H ρ) : State C H ρ :=
  let uids := s.pendingAbortAcks.insertionSort (· ≤ ·)
  let closes := uids.filterMap fun u =>
    (s.pendingSessionCloseAcks u).map fun (requestId, sid) =>
      Reply.sessionClosed sid requestId .closed
  { s with
    pendingAbortAcks := []
    pendingSessionCloseAcks := fun u =>
      if u ∈ uids then none else s.pendingSessionCloseAcks u
    outbox := s.outbox ++ (uids.map fun u => .error u .aborted) ++ closes }

/-- The stop string of the generated tail, looked for in the decoded suffix no
longer than the longest stop string plus one token. -/
def stopMatch (stopStrs : List Text) (promptLen : Nat) (ids : List Token) : Option Text :=
  if ids.length ≤ promptLen then none
  else
    let maxChars := (stopStrs.map List.length).foldr max 0
    let tailStart := max promptLen (ids.length - (maxChars + 1))
    let tail := cfg.decode (ids.drop tailStart)
    stopStrs.find? fun s => decide (s <:+: tail)

def matchStopStr (r : Req ρ) : Option Text :=
  stopMatch cfg r.samplingParams.stopStrs r.promptLen r.inputIds

/-- EOS and stop-string test of a request whose sampled token was just appended. -/
def hitEos (r : Req ρ) (tok : Token) : Bool :=
  !r.samplingParams.ignoreEos && decide (tok ∈ cfg.eosTokenIds)

def matchedStop (r : Req ρ) (tok : Token) : Option Text :=
  if !hitEos cfg r tok && !r.samplingParams.stopStrs.isEmpty then matchStopStr cfg r else none

def hitStop (r : Req ρ) (tok : Token) : Bool :=
  hitEos cfg r tok || (matchedStop cfg r tok).isSome

/-- The reply for a token appended to `r`; `length` only when nothing stopped it. -/
def detokenizeMsg (r : Req ρ) (tok : Token) : DetokenizeMsg :=
  let finished := !r.canDecode || hitStop cfg r tok
  { uid := r.uid
    nextToken := tok
    finished := finished
    finishReason :=
      if finished then some (if hitStop cfg r tok then .stop else .length) else none
    matchedStop := matchedStop cfg r tok }

structure DrainAcc (C H ρ : Type) where
  state : State C H ρ
  newFinished : List ReqId
  reply : List DetokenizeMsg

def removeRunning (s : State C H ρ) (rid : ReqId) : State C H ρ :=
  { s with runningReqs := s.runningReqs.erase rid }

/-- The sampled token joins the host copy; the first tool-call opener is remembered. -/
def appendToken (s : State C H ρ) (rid : ReqId) (tok : Token) (finished : Bool) :
    State C H ρ :=
  let req := (s.reqs rid).appendHost tok
  s.setReq rid <|
    if cfg.toolcallAnchorId = some tok ∧ req.toolcallAnchorLen = none ∧ finished = false then
      { req with toolcallAnchorLen := some req.inputIds.length }
    else req

/-- After the final chunk's forward the whole prompt goes to the prefix cache. -/
def commitPrompt (isPrefill : Bool) (s : State C H ρ) (rid : ReqId) : State C H ρ :=
  if isPrefill ∧ (s.reqs rid).tableIdx ≠ none then commitReq ops s rid false else s

/-- One row of `_process_last_data`. -/
def drainRow (now : Time) (isPrefill : Bool) (acc : DrainAcc C H ρ) (row : ReqId × Token) :
    DrainAcc C H ρ :=
  let s := acc.state
  let rid := row.1
  let tok := row.2
  let req := s.reqs rid
  if req.isChunked then
    -- an intermediate chunk is committed when its continuation is admitted
    if req.aborted then { acc with state := freeReqResources ops cfg now s rid false } else acc
  else if req.aborted then
    { acc with
      state := freeReqResources ops cfg now (removeRunning s rid) rid false
      newFinished := acc.newFinished.insert rid }
  else if rid ∈ s.finishedReqs then acc
  else
    let msg := detokenizeMsg cfg (req.appendHost tok) tok
    let s := appendToken cfg s rid tok msg.finished
    if msg.finished then
      { state := freeReqResources ops cfg now (removeRunning s rid) rid req.sessionId.isSome
        newFinished := acc.newFinished.insert rid
        reply := acc.reply ++ [msg] }
    else
      { acc with
        state := commitPrompt ops isPrefill s rid
        reply := acc.reply ++ [msg] }

def drainRows (now : Time) (s : State C H ρ) (b : Batch) : DrainAcc C H ρ :=
  b.rows.foldl (drainRow ops cfg now b.isPrefill) ⟨s, [], []⟩

/-- The end of a drain: who finished in it, and its replies. -/
def publish (acc : DrainAcc C H ρ) : State C H ρ :=
  { acc.state with finishedReqs := acc.newFinished }.send (acc.reply.map .detokenize)

def processLastData (now : Time) (s : State C H ρ) : Option Batch → State C H ρ
  | none => s
  | some b => publish (drainRows ops cfg now s b)

/-- `_drain_inflight`: the batch in flight is drained before the loop's own drain point. -/
def drainInflight (now : Time) (s : State C H ρ) : State C H ρ :=
  { flushAbortAcks (processLastData ops cfg now s s.lastData) with lastData := none }

-- ---------------------------------------------------------------------------
-- Leases served between the passes
-- ---------------------------------------------------------------------------

inductive ServiceEvent (E : Type)
  /-- `_release_soft_session_handle`, for the idle lease or for its owner. -/
  | release (sid : SessionId) (requireCheckpoint : Bool) (owner : Option Uid)
  /-- `_restore_cold_session` of a checkpoint's first tokens. -/
  | restore (sid : SessionId) (tokens : List Token)
  | cache (e : E)

def releaseSoftSessionHandle (now : Time) (s : State C H ρ) (sid : SessionId)
    (requireCheckpoint : Bool) (owner : Option Uid) : State C H ρ :=
  match s.sessions sid with
  | none => s
  | some l =>
    match l.handle with
    | none => s
    | some h =>
      if (!l.reclaimable && !requireCheckpoint) ||
          !(l.activeUid = none || l.activeUid = owner) then s
      else
        { s with cache := ops.unlock s.cache h }.setSession sid
          { l with
            handle := none
            protectedUntil := none
            expiresAt := if l.activeUid = none then some (now + l.ttl) else none }

def restoreColdSession (s : State C H ρ) (sid : SessionId) (tokens : List Token) :
    State C H ρ :=
  match s.sessions sid, ops.restore s.cache tokens with
  | some l, some (cache, h) =>
    let cache := match l.handle with
      | none => cache
      | some held => ops.unlock cache held
    { s with cache := cache }.setSession sid
      { l with handle := some h, tokenIds := some tokens }
  | _, _ => s

def serve (now : Time) (s : State C H ρ) : ServiceEvent E → State C H ρ
  | .release sid requireCheckpoint owner =>
    releaseSoftSessionHandle ops now s sid requireCheckpoint owner
  | .restore sid tokens => restoreColdSession ops s sid tokens
  | .cache e => { s with cache := ops.event s.cache e }

-- ---------------------------------------------------------------------------
-- A client prompt
-- ---------------------------------------------------------------------------

/-- What the pools and the checkpoint store do while a prompt is handled: the
leases released for it, the checkpoint restored for it, and whether that
restore had to grow the KV pool and so drained the batch in flight first. -/
structure UserEnv (E : Type) where
  reclaim : List (ServiceEvent E)
  restore : Option (List Token)
  growDrain : Bool

/-- `_free_sibling_session`: the first sibling id without a turn in flight. -/
def freeSibling (s : State C H ρ) (sid base : SessionId) (k : Nat) : Nat → SessionId
  | 0 => sid
  | fuel + 1 =>
    match s.sessions (siblingSession base k) with
    | none => siblingSession base k
    | some l =>
      if l.activeUid = none then siblingSession base k else freeSibling s sid base (k + 1) fuel

def freeSiblingSession (s : State C H ρ) (sid : SessionId) : SessionId :=
  freeSibling s sid (sessionFamily sid) 1 65535

def isBusy (s : State C H ρ) (sid : SessionId) : Bool :=
  match s.sessions sid with
  | none => false
  | some l => l.activeUid.isSome

/-- The session the prompt is bound to: an auto-bound one moves to a free
sibling when its own lease has a turn in flight. -/
def boundSession (s : State C H ρ) (msg : UserMsg) (sid : SessionId) : SessionId :=
  if isBusy s sid && msg.sessionReclaimable then freeSiblingSession s sid else sid

/-- `min(max(float(ttl or 300.0), 1.0), 86_400.0)`, in milliseconds. -/
def clampTtl (ttl : Option Time) : Time :=
  let t := match ttl with
    | none => 300000
    | some 0 => 300000
    | some t => t
  min (max t 1000) 86400000

/-- The session's lease, or the empty one a first prompt creates. -/
def leaseOf (now : Time) (s : State C H ρ) (sid : SessionId) (msg : UserMsg) :
    SessionLease H :=
  match s.sessions sid with
  | some l => l
  | none =>
    { handle := none, ttl := clampTtl msg.sessionTtl, expiresAt := none, activeUid := none,
      reclaimable := msg.sessionReclaimable, protectedUntil := none, lastUsedAt := now,
      tokenIds := none }

/-- The prompt takes the session's lease, which is busy with it from here on. -/
def takeLease (now : Time) (s : State C H ρ) (sid : SessionId) (msg : UserMsg) :
    State C H ρ :=
  { s with
    sessionKeys := if (s.sessions sid).isSome then s.sessionKeys else s.sessionKeys ++ [sid]
  }.setSession sid
    { leaseOf now s sid msg with
      ttl := clampTtl msg.sessionTtl
      reclaimable := msg.sessionReclaimable
      expiresAt := none
      protectedUntil := none
      lastUsedAt := now
      activeUid := some msg.uid }

/-- A prompt moved to a sibling lease is remembered under its uid, for its abort. -/
def noteAlias (s : State C H ρ) (msg : UserMsg) (sid bound : SessionId) : State C H ρ :=
  if isBusy s sid && msg.sessionReclaimable then
    { s with sessionAliases := Function.update s.sessionAliases msg.uid (some bound) }
  else s

/-- The session part of the `UserMsg` handler; `none` when the prompt was refused. -/
def bindSession (now : Time) (env : UserEnv E) (s : State C H ρ) (msg : UserMsg) :
    State C H ρ × Option UserMsg :=
  match msg.sessionId with
  | none => (s, some msg)
  | some sid =>
    if sid = [] ∨ 256 < sid.length then (s.send [.error msg.uid .invalidSession], none)
    else
      let bound := boundSession s msg sid
      let s := noteAlias s msg sid bound
      if isBusy s bound then (s.send [.error msg.uid (.sessionBusy bound)], none)
      else
        let s := env.reclaim.foldl (serve ops now) s
        (takeLease now s bound msg, some { msg with sessionId := some bound })

def hiddenStatesRefusal (msg : UserMsg) : Option RequestError :=
  match msg.hiddenStates with
  | none => none
  | some spec =>
    if spec.directory.isSome ∧ 0 < cfg.hiddenStatesMaxTokens ∧
        cfg.hiddenStatesMaxTokens < msg.inputIds.length then
      some (.probeTooLong msg.inputIds.length cfg.hiddenStatesMaxTokens)
    else
      match spec.layerIds.getLast? with
      | none => none
      | some layer =>
        if cfg.numLayers ≤ layer then some (.probeLayer layer cfg.numLayers) else none

/-- The lease of a prompt refused as too long goes idle again. -/
def idleLease (now : Time) (s : State C H ρ) (sid : SessionId) : State C H ρ :=
  match s.sessions sid with
  | none => s
  | some l => s.setSession sid { l with activeUid := none, expiresAt := some (now + l.ttl) }

def addOneReq (s : State C H ρ) (msg : UserMsg) : State C H ρ :=
  { s with
    pendingList := s.pendingList ++
      [{ uid := msg.uid, inputIds := msg.inputIds, samplingParams := msg.samplingParams,
         mmItems := msg.mmItems, sessionId := msg.sessionId, hiddenStates := msg.hiddenStates,
         prefixBoundary := msg.prefixBoundary, chunkedReq := none }]
    admitted := s.admitted ++ [msg] }

/-- The output budget a prompt is queued with, cut to what the context leaves it. -/
def clampMaxTokens (msg : UserMsg) : UserMsg :=
  { msg with samplingParams :=
    { msg.samplingParams with
      maxTokens := min msg.samplingParams.maxTokens (cfg.maxSeqLen - msg.inputIds.length) } }

/-- The checkpoint restore of an admitted session prompt; growing the pool for
it drains the batch in flight first. -/
def restoreSession (now : Time) (env : UserEnv E) (s : State C H ρ) (msg : UserMsg) :
    State C H ρ :=
  match msg.sessionId with
  | none => s
  | some sid =>
    let s := if env.growDrain then drainInflight ops cfg now s else s
    match env.restore with
    | none => s
    | some tokens => restoreColdSession ops s sid tokens

/-- The handler's part after the session was bound: three refusals, then the queue. -/
def admitUser (now : Time) (env : UserEnv E) (s : State C H ρ) (msg : UserMsg) :
    State C H ρ :=
  if msg.mmItems ≠ [] ∧ cfg.hasEncoder = false then s.send [.error msg.uid .imageUnsupported]
  else if cfg.maxSeqLen ≤ msg.inputIds.length then
    let s := s.send [.error msg.uid (.promptTooLong msg.inputIds.length cfg.maxSeqLen)]
    match msg.sessionId with
    | none => s
    | some sid => idleLease now s sid
  else
    match hiddenStatesRefusal cfg msg with
    | some e => s.send [.error msg.uid e]
    | none => addOneReq (restoreSession ops cfg now env s msg) (clampMaxTokens cfg msg)

def processUser (now : Time) (env : UserEnv E) (s : State C H ρ) (msg : UserMsg) :
    State C H ρ :=
  if cfg.sealed then s.send [.error msg.uid .sealed]
  else if msg.uid ∈ s.abortTombstones then
    { s with abortTombstones := s.abortTombstones.erase msg.uid }
  else
    match bindSession ops now env s msg with
    | (s, none) => s
    | (s, some msg) => admitUser ops cfg now env s msg

def processOneMsg (now : Time) (env : UserEnv E) (s : State C H ρ) :
    BackendMsg → State C H ρ
  | .user msg => processUser ops cfg now env s msg
  | .abort uid sid => processAbort ops cfg now s uid sid
  | .closeSession sid requestId => processClose ops cfg now s sid requestId

-- ---------------------------------------------------------------------------
-- Scheduling and forwarding
-- ---------------------------------------------------------------------------

/-- What a prefill pass does with one queued prompt. -/
inductive Decision
  | skip
  /-- Seated with a chunk that ends at this token. -/
  | seat (chunkEnd : Nat)
  /-- A continuation whose chunk snapshot was committed but that got no chunk. -/
  | defer
  deriving DecidableEq, Repr

/-- One iteration of the pass: the evictions it caused and its outcome. -/
structure LaneInput (E : Type) where
  events : List E
  decision : Decision

structure PassInput (E : Type) where
  tryPrefill : Bool
  lanes : List (LaneInput E)
  /-- `interleave_chunks and stopped_for_lane_cap`: unfinished lanes go to the back. -/
  rotate : Bool
  tryDecode : Bool

structure PassAcc (C H ρ : Type) where
  state : State C H ρ
  seated : List ReqId
  chunked : List PendingReq
  remaining : List PendingReq

/-- The request object of a chunk of `p` that ends at `chunkEnd`. -/
def newReq (p : PendingReq) (cachedLen chunkEnd : Nat) (tableIdx : Option Nat) (res : ρ) :
    Req ρ where
  uid := p.uid
  sessionId := p.sessionId
  samplingParams := p.samplingParams
  mmItems := p.mmItems
  isChunked := decide (chunkEnd < p.inputLen)
  inputIds := p.inputIds.take chunkEnd
  cachedLen := cachedLen
  deviceLen := chunkEnd
  maxDeviceLen := chunkEnd + p.outputLen
  outputLen := p.outputLen
  tableIdx := tableIdx
  toolcallAnchorLen := none
  aborted := false
  res := res

/-- `commit_chunk_snapshot` on the prompt's last chunk. -/
def commitLane (s : State C H ρ) (p : PendingReq) (old : ReqId) : State C H ρ :=
  let (cache, res) := ops.commitChunk s.cache (s.reqs old) p
  { s with cache := cache }.setReq old { s.reqs old with res := res }

/-- `_try_allocate_one` for a fresh prompt: its table slot, matched length and resources. -/
def admitLane (s : State C H ρ) (p : PendingReq) : Option (State C H ρ × Nat × Option Nat × ρ) :=
  match s.tableFree.getLast? with
  | none => none
  | some slot =>
    match ops.tryAllocateOne s.cache p slot with
    | none => none
    | some (cache, cachedLen, res) =>
      some ({ s with cache := cache, tableFree := s.tableFree.dropLast }, cachedLen,
        some slot, res)

/-- What a seated lane starts from: the chunk before it, or a fresh admission. -/
def laneStart (s : State C H ρ) (p : PendingReq) : Option (State C H ρ × Nat × Option Nat × ρ) :=
  match p.chunkedReq with
  | some old =>
    let s := commitLane ops s p old
    some (s, (s.reqs old).cachedLen, (s.reqs old).tableIdx, ops.continue_ (s.reqs old).res)
  | none => admitLane ops s p

def seatLane (s : State C H ρ) (p : PendingReq) (chunkEnd : Nat) :
    Option (State C H ρ × ReqId) :=
  match laneStart ops s p with
  | none => none
  | some (s, cachedLen, tableIdx, res) =>
    if cachedLen < chunkEnd ∧ chunkEnd ≤ p.inputLen then
      some ({ s with nextReq := s.nextReq + 1 }.setReq s.nextReq
        (newReq p cachedLen chunkEnd tableIdx res), s.nextReq)
    else none

def cacheEvents (s : State C H ρ) (events : List E) : State C H ρ :=
  { s with cache := events.foldl ops.event s.cache }

/-- One iteration of the admission loop of `PrefillManager.schedule_next_batch`. -/
def passLane (acc : PassAcc C H ρ) (p : PendingReq) (inp : LaneInput E) :
    Option (PassAcc C H ρ) :=
  let s := cacheEvents ops acc.state inp.events
  match inp.decision with
  | .skip => some { acc with state := s, remaining := acc.remaining ++ [p] }
  | .defer =>
    match p.chunkedReq with
    | none => some { acc with state := s, remaining := acc.remaining ++ [p] }
    | some old =>
      some { acc with state := commitLane ops s p old, remaining := acc.remaining ++ [p] }
  | .seat chunkEnd =>
    match seatLane ops s p chunkEnd with
    | none => none
    | some (s, rid) =>
      some { acc with
        state := s
        seated := acc.seated ++ [rid]
        chunked := if chunkEnd < p.inputLen then
            acc.chunked ++ [{ p with chunkedReq := some rid }]
          else acc.chunked }

/-- The admission loop; prompts behind the last decision were not reached. -/
def passLoop : PassAcc C H ρ → List PendingReq → List (LaneInput E) → Option (PassAcc C H ρ)
  | acc, [], _ => some acc
  | acc, ps, [] => some { acc with remaining := acc.remaining ++ ps }
  | acc, p :: ps, inp :: inps =>
    match passLane ops acc p inp with
    | none => none
    | some acc => passLoop acc ps inps

/-- `PrefillManager.schedule_next_batch`. -/
def prefillSchedule (s : State C H ρ) (lanes : List (LaneInput E)) (rotate : Bool) :
    Option (State C H ρ × List ReqId) :=
  match passLoop ops ⟨s, [], [], []⟩ s.pendingList lanes with
  | none => none
  | some acc =>
    let queue := if rotate then acc.remaining ++ acc.chunked else acc.chunked ++ acc.remaining
    some ({ acc.state with pendingList := queue }, acc.seated)

/-- `DecodeManager.schedule_next_batch`: every running request, by uid. -/
def decodeBatch (s : State C H ρ) : List ReqId :=
  s.runningReqs.insertionSort fun a b => (s.reqs a).uid ≤ (s.reqs b).uid

def scheduleNextBatch (s : State C H ρ) (inp : PassInput E) :
    Option (State C H ρ × Option (Bool × List ReqId)) :=
  let prefill := if inp.tryPrefill then prefillSchedule ops s inp.lanes inp.rotate
    else some (s, [])
  match prefill with
  | none => none
  | some (s, r :: rs) => some (s, some (true, r :: rs))
  | some (s, []) =>
    if inp.tryDecode ∧ s.runningReqs ≠ [] then some (s, some (false, decodeBatch s))
    else some (s, none)

/-- The forward of one row: the sampled token, `complete_one`, the state slots. -/
def forwardRow (isPrefill : Bool) (acc : State C H ρ × List (ReqId × Token)) (rid : ReqId) :
    State C H ρ × List (ReqId × Token) :=
  let s := acc.1
  let req := s.reqs rid
  let tok := cfg.script req.uid (req.deviceLen - req.promptLen)
  let (cache, res) := ops.forward s.cache isPrefill req
  ({ s with cache := cache }.setReq rid { req.completeOne with res := res },
    acc.2 ++ [(rid, tok)])

/-- `DecodeManager.filter_reqs`. -/
def filterReqs (s : State C H ρ) (rids : List ReqId) : State C H ρ :=
  { s with runningReqs :=
      (rids.foldl (fun run r => run.insert r) s.runningReqs).filter fun r =>
        (s.reqs r).canDecode }

/-- `_prepare_batch`. -/
def prepareBatch (s : State C H ρ) (isPrefill : Bool) (rids : List ReqId) : State C H ρ :=
  { s with cache := ops.allocatePaged s.cache isPrefill (rids.map s.reqs) }

def forwardRows (s : State C H ρ) (isPrefill : Bool) (rids : List ReqId) :
    State C H ρ × List (ReqId × Token) :=
  rids.foldl (forwardRow ops cfg isPrefill) (s, [])

/-- `_prepare_batch` and `_forward`. -/
def forwardBatch (s : State C H ρ) (isPrefill : Bool) (rids : List ReqId) :
    State C H ρ × Batch :=
  let out := forwardRows ops cfg (prepareBatch ops s isPrefill rids) isPrefill rids
  (filterReqs out.1 rids, ⟨isPrefill, out.2⟩)

-- ---------------------------------------------------------------------------
-- The loops
-- ---------------------------------------------------------------------------

inductive Step (E : Type)
  | msg (now : Time) (m : BackendMsg) (env : UserEnv E)
  | expire (now : Time)
  | service (now : Time) (e : ServiceEvent E)
  | drainInflight (now : Time)
  | schedule (inp : PassInput E)
  | forward
  | drain (now : Time)

/-- One step of `overlap_loop` (`overlap = true`) or `normal_loop`. -/
def step (overlap : Bool) (s : State C H ρ) : Step E → Option (State C H ρ)
  | .msg now m env =>
    if s.phase = .control then some (processOneMsg ops cfg now env s m) else none
  | .expire now => if s.phase = .control then some (expireSessions ops cfg now s) else none
  | .service now e => if s.phase = .control then some (serve ops now s e) else none
  | .drainInflight now =>
    match s.phase with
    | .launched _ => none
    | _ => some (drainInflight ops cfg now s)
  | .schedule inp =>
    if s.phase = .control then
      (scheduleNextBatch ops s inp).map fun out => { out.1 with phase := .scheduled out.2 }
    else none
  | .forward =>
    match s.phase with
    | .scheduled none => some { s with phase := .launched none }
    | .scheduled (some (isPrefill, rids)) =>
      let out := forwardBatch ops cfg s isPrefill rids
      some { out.1 with phase := .launched (some out.2) }
    | _ => none
  | .drain now =>
    match s.phase with
    | .launched b =>
      let drained := if overlap then s.lastData else b
      some { flushAbortAcks (processLastData ops cfg now s drained) with
        phase := .control
        lastData := if overlap then b else none }
    | _ => none

-- ---------------------------------------------------------------------------
-- The smallest instance
-- ---------------------------------------------------------------------------

/-- The naive cache manager on a pool that never runs short: it matches nothing
and keeps nothing. -/
def CacheOps.naive : CacheOps Unit Unit Unit Unit where
  cacheReq _ _ _ := ((), ())
  retainPrefix _ _ _ := ((), ())
  unlock _ _ := ()
  handleLen _ := 0
  restore _ _ := none
  event _ _ := ()
  tryAllocateOne _ _ _ := some ((), 0, ())
  commitChunk _ _ _ := ((), ())
  continue_ _ := ()
  allocatePaged _ _ _ := ()
  forward _ _ _ := ((), ())

/-- A text-only server whose model samples 1, 2, 3, … and ends a turn with 0. -/
def Config.plain : Config where
  eosTokenIds := [0]
  decode _ := []
  toolcallAnchorId := none
  maxSeqLen := 16
  hasEncoder := false
  hiddenStatesMaxTokens := 0
  numLayers := 1
  autoSessionGrace := 0
  sealed := false
  script _ i := i + 1

def Req.dummy : Req Unit where
  uid := 0
  sessionId := none
  samplingParams := ⟨1, false, []⟩
  mmItems := []
  isChunked := false
  inputIds := [0]
  cachedLen := 0
  deviceLen := 1
  maxDeviceLen := 2
  outputLen := 1
  tableIdx := none
  toolcallAnchorLen := none
  aborted := false
  res := ()

def UserEnv.quiet : UserEnv Unit := ⟨[], none, false⟩

end FreeToken.Scheduler

import FreeToken.Lib.Pages
import FreeToken.Scheduler.Loop
import FreeToken.Speculation.Drafter

/-!
# Speculative decoding of one turn

`SpecNgramDecoder` of `scheduler/spec_ngram.py` on the request it runs for, inside
one pass of `overlap_loop` or `normal_loop`. The model is a function `next` from
the tokens so far to the next one, for a decode row and for each row of a verify
step alike. What the clock, the pools and the other requests decide is an input of
the pass (`PassEnv`): whether the request is alone, whether the break-even gate is
open, whether a scratch slot is there, whether the pass's batch has the request's
row, and whether growing the KV pool drains the batch in flight first.

An assertion that fails is `none`.
-/

namespace FreeToken.Speculation

open FreeToken.Scheduler FreeToken.Lib

structure SpecConfig where
  n : Nat
  draftLen : Nat
  adaptive : Bool
  postDrain : Bool
  gateSeed : Bool
  hash : List Token → Int
  isHybrid : Bool
  pageSize : Nat
  nPos : 1 ≤ n

/-- The state-slot fields of a request that the decoder reads. -/
structure TrackSlots where
  mambaLastTrackSeqlen : Option Nat
  pingPong : Bool
  deriving DecidableEq, Repr

/-- The draft lengths of the probe steps that price the gate. -/
def seedWidths : List Nat := [1, 3]

/-- How often a closed gate lets a verify step through anyway. -/
def reprobeEvery : Nat := 16

/-- `_SpecState`, without the wall-clock estimates. -/
structure SpecState where
  drafter : NgramDrafter
  maxK : Nat
  adaptive : Bool
  tokens : List Token
  k : Nat
  gated : Nat
  seeding : Bool
  seedProbes : List Nat

namespace SpecState

def new (spec : SpecConfig) : SpecState where
  drafter := .new spec.n spec.nPos
  maxK := spec.draftLen
  adaptive := spec.adaptive
  tokens := []
  k := spec.draftLen
  gated := 0
  seeding := spec.gateSeed && decide (seedWidths.foldr max 0 < spec.draftLen)
  seedProbes := []

/-- Bring the token list up to `req.input_ids` and index the new n-grams. -/
def sync (hash : List Token → Int) (st : SpecState) (inputIds : List Token) : SpecState :=
  let known := st.tokens.length
  let want := inputIds.length
  let st :=
    if known < want then { st with tokens := st.tokens ++ inputIds.drop known }
    else if want < known then
      { st with
        tokens := st.tokens.take want
        drafter := { st.drafter with cursor := min st.drafter.cursor (want - st.drafter.n) } }
    else st
  { st with drafter := st.drafter.observe hash st.tokens }

/-- Adaptive draft length. -/
def note (st : SpecState) (drafted accepted : Nat) : SpecState :=
  if !st.adaptive then st
  else if accepted = drafted then { st with k := st.maxK }
  else if accepted = 0 then { st with k := max 1 (st.k / 2) }
  else st

/-- What a verify step of `drafted` tokens teaches the gate. -/
def learn (st : SpecState) (draftLen drafted accepted : Nat) : SpecState :=
  if st.seeding then
    let st := { st with seedProbes := st.seedProbes ++ [drafted + 1] }
    let st := if accepted < drafted then st.note draftLen accepted else st
    if seedWidths.length ≤ st.seedProbes.length then { st with seeding := false } else st
  else st.note drafted accepted

end SpecState

/-- One turn as the passes see it. -/
structure Turn where
  req : Req TrackSlots
  /-- The prompt's forward was not launched yet. -/
  fresh : Bool
  /-- In `running_reqs`. -/
  running : Bool
  /-- In `finished_reqs`, which only the last drain fills. -/
  inFinished : Bool
  /-- The token sampled by the batch in flight. -/
  lastData : Option Token
  /-- The decoder's `_state`, if it is this request's. -/
  state : Option SpecState
  outbox : List DetokenizeMsg

structure PassEnv where
  alone : Bool
  paysOff : Bool
  scratch : Bool
  scheduled : Bool
  grow : Bool
  deriving DecidableEq, Repr

variable (cfg : Config) (spec : SpecConfig) (next : List Token → Token)

-- ---------------------------------------------------------------------------
-- Ordinary steps
-- ---------------------------------------------------------------------------

/-- `append_host`, with its assertion that the tokens fit the output budget. -/
def appendHost (r : Req TrackSlots) (toks : List Token) : Option (Req TrackSlots) :=
  if r.inputIds.length + toks.length ≤ r.maxDeviceLen then
    some { r with inputIds := r.inputIds ++ toks }
  else none

/-- Freeze the recurrent state when `cached_len` is at the tool-call anchor. -/
def snapshotToolcallAnchor (r : Req TrackSlots) : Req TrackSlots :=
  match r.toolcallAnchorLen with
  | none => r
  | some a =>
    if spec.isHybrid ∧ r.res.pingPong ∧ r.res.mambaLastTrackSeqlen = none ∧ r.cachedLen = a ∧
        alignDown a spec.pageSize = a then
      { r with res := { r.res with mambaLastTrackSeqlen := some a } }
    else r

/-- The first tool-call opener that does not end the turn sets the anchor. -/
def noteAnchor (r : Req TrackSlots) (tok : Token) (finished : Bool) (len : Nat) :
    Req TrackSlots :=
  if cfg.toolcallAnchorId = some tok ∧ r.toolcallAnchorLen = none ∧ finished = false then
    { r with toolcallAnchorLen := some len }
  else r

/-- `_forward` of a batch with the request's row, and `filter_reqs`. The device has
the token in flight already. -/
def forward (t : Turn) : Turn × Token :=
  let req :=
    if cfg.toolcallAnchorId.isSome && !t.fresh then snapshotToolcallAnchor spec t.req else t.req
  let tok := next (t.req.inputIds ++ t.lastData.toList)
  let req := req.completeOne
  ({ t with req := req, fresh := false, running := req.canDecode }, tok)

/-- The request's row in `_process_last_data`. -/
def drainRow (t : Turn) (tok : Token) : Option Turn :=
  if t.inFinished then some { t with inFinished := false }
  else
    (appendHost t.req [tok]).map fun req =>
      let msg := detokenizeMsg cfg req tok
      let req := noteAnchor cfg req tok msg.finished req.inputIds.length
      let t := { t with req := req, outbox := t.outbox ++ [msg] }
      if msg.finished then
        { t with req := { req with tableIdx := none }, running := false, inFinished := true }
      else t

/-- Drain the batch in flight. -/
def drainInflight (t : Turn) : Option Turn :=
  match t.lastData with
  | none => some t
  | some tok => drainRow cfg { t with lastData := none } tok

-- ---------------------------------------------------------------------------
-- Engagement
-- ---------------------------------------------------------------------------

def candidate (t : Turn) (env : PassEnv) : Bool :=
  env.alone && t.running && t.req.tableIdx.isSome && !t.req.aborted && !t.inFinished &&
    t.req.canDecode && t.req.mmItems.isEmpty

def Turn.stateFor (t : Turn) : SpecState := t.state.getD (.new spec)

/-- The n-gram test: the superset test while the last token is still in flight. -/
def SpecState.predicts (st : SpecState) (stale : Bool) : Bool :=
  if stale && spec.postDrain then st.drafter.couldMatch spec.hash st.tokens
  else st.drafter.hasMatch st.tokens

/-- May a verify step run? -/
def peek (t : Turn) (env : PassEnv) (stale : Bool) : Bool × Turn :=
  if !candidate t env then (false, t)
  else
    let st := (t.stateFor spec).sync spec.hash t.req.inputIds
    if st.k = 0 || !st.predicts spec stale then (false, { t with state := some st })
    else if env.paysOff then (true, { t with state := some st })
    else
      let st := { st with gated := st.gated + 1 }
      (decide (st.gated % reprobeEvery = 0), { t with state := some st })

-- ---------------------------------------------------------------------------
-- The verify step
-- ---------------------------------------------------------------------------

/-- The draft length, clamped by the output budget, the tool-call anchor, the
probe widths, and to 0 without a scratch slot. -/
def budget (r : Req TrackSlots) (st : SpecState) (scratch : Bool) : Nat :=
  let k := min (min st.k spec.draftLen) (r.maxDeviceLen - r.cachedLen - 2)
  let k :=
    match r.toolcallAnchorLen with
    | none => k
    | some anchor =>
      if r.res.mambaLastTrackSeqlen = none ∧ r.cachedLen < anchor then
        min k (anchor - r.cachedLen - 1)
      else k
  let k :=
    if st.seeding ∧ st.seedProbes.length < seedWidths.length then
      min k (seedWidths.getD st.seedProbes.length 0)
    else k
  if scratch then k else 0

/-- The draft `run_step` verifies; empty when it declines. -/
def draftFor (r : Req TrackSlots) (st : SpecState) (scratch : Bool) : List Token :=
  if r.deviceLen ≠ r.cachedLen + 1 ∨ st.tokens.length ≠ r.deviceLen then []
  else st.drafter.draft st.tokens (budget spec r st scratch)

/-- What a verify step leaves: the request, its own state object, and the replies. -/
structure Verified where
  req : Req TrackSlots
  state : SpecState
  reply : List DetokenizeMsg
  stopped : Bool

/-- Adopt the emitted tokens; the last one is not forwarded yet. -/
def commit (r : Req TrackSlots) (st : SpecState) (len : Nat) (emitted : List Token) :
    Option (Req TrackSlots × SpecState) :=
  (appendHost r emitted).bind fun r =>
    let r := { r with cachedLen := len + emitted.length, deviceLen := len + emitted.length + 1 }
    if r.deviceLen = r.inputIds.length then
      some (r, { st with tokens := st.tokens ++ emitted })
    else none

/-- The reply for `tok` when the turn's tokens end at `posEnd`. -/
def finishMsg (r : Req TrackSlots) (tok : Token) (posEnd : Nat) : DetokenizeMsg :=
  let hitLength := decide (r.maxDeviceLen ≤ posEnd)
  let finished := hitLength || hitStop cfg r tok
  { uid := r.uid
    nextToken := tok
    finished := finished
    finishReason :=
      if finished then some (if hitStop cfg r tok then .stop else .length) else none
    matchedStop := matchedStop cfg r tok }

/-- The loop of `_finish` over the emitted tokens: `ids` is the host buffer, `pos` the
length of the tokens before the first of them. -/
def finishLoop (ids : List Token) : List Token → Nat → Req TrackSlots →
    Req TrackSlots × List DetokenizeMsg × Bool
  | [], _, r => (r, [], false)
  | tok :: rest, pos, r =>
    let posEnd := pos + 1
    let r := { r with inputIds := ids.take posEnd }
    let msg := finishMsg cfg r tok posEnd
    let r := noteAnchor cfg r tok msg.finished posEnd
    if msg.finished then (r, [msg], true)
    else
      let out := finishLoop ids rest posEnd r
      (out.1, msg :: out.2.1, out.2.2)

/-- Emit, and cut the request and the drafter's tokens at the stop. -/
def finish (r : Req TrackSlots) (st : SpecState) (len : Nat) (emitted : List Token) : Verified :=
  let out := finishLoop cfg r.inputIds emitted (len + 1) r
  let r := out.1
  let posEnd := r.inputIds.length
  if out.2.2 then
    { req := { r with cachedLen := posEnd - 1, deviceLen := posEnd, tableIdx := none }
      state := { st with tokens := st.tokens.take posEnd }
      reply := out.2.1
      stopped := true }
  else ⟨r, st, out.2.1, false⟩

def verify (r : Req TrackSlots) (st : SpecState) (draft : List Token) : Option Verified :=
  let len := r.cachedLen
  let greedy := rows next r.inputIds draft
  let r := if cfg.toolcallAnchorId.isSome then snapshotToolcallAnchor spec r else r
  let accepted := acceptedCount draft greedy
  let emitted := greedy.take (accepted + 1)
  (commit r st len emitted).map fun (r, st) =>
    let v := finish cfg r st len emitted
    { v with state := v.state.learn spec.draftLen draft.length accepted }

/-- `run_step`; no `Verified` when it declines. -/
def runStep (t : Turn) (scratch : Bool) : Option (Option Verified × Turn) :=
  let st := (t.stateFor spec).sync spec.hash t.req.inputIds
  let draft := draftFor spec t.req st scratch
  if draft = [] then some (none, { t with state := some st })
  else
    (verify cfg spec next t.req st draft).map fun v =>
      (some v, { t with
        req := v.req
        running := t.running && !v.stopped
        inFinished := t.inFinished || v.stopped
        state := if v.stopped then none else some v.state
        outbox := t.outbox ++ v.reply })

-- ---------------------------------------------------------------------------
-- The passes
-- ---------------------------------------------------------------------------

/-- The rest of an `overlap_loop` pass: launch the chosen batch, drain the one before. -/
def launchAndDrain (t : Turn) (env : PassEnv) : Option Turn :=
  if env.scheduled && (t.fresh || t.running) then
    -- growing the KV pool drains after the batch was chosen
    (if env.grow then drainInflight cfg t else some t).bind fun t =>
      let out := forward cfg spec next t
      (drainInflight cfg out.1).map fun t => { t with lastData := some out.2 }
  else drainInflight cfg t

/-- One pass of `overlap_loop`, with what its verify step left. -/
def overlapPass (t : Turn) (env : PassEnv) : Option (Option Verified × Turn) :=
  let peeked := peek spec t env t.lastData.isSome
  if peeked.1 then
    (drainInflight cfg peeked.2).bind fun t =>
      (runStep cfg spec next t env.scratch).bind fun out =>
        if out.1.isSome then some out
        else (launchAndDrain cfg spec next out.2 env).map (none, ·)
  else (launchAndDrain cfg spec next peeked.2 env).map (none, ·)

/-- The rest of a `normal_loop` pass: launch the chosen batch and drain it. -/
def launchDrained (t : Turn) (env : PassEnv) : Option Turn :=
  if env.scheduled && (t.fresh || t.running) then
    let out := forward cfg spec next t
    drainRow cfg out.1 out.2
  else some t

/-- One pass of `normal_loop`. -/
def normalPass (t : Turn) (env : PassEnv) : Option (Option Verified × Turn) :=
  let peeked := peek spec t env false
  if peeked.1 then
    (runStep cfg spec next peeked.2 env.scratch).bind fun out =>
      if out.1.isSome then some out
      else (launchDrained cfg spec next out.2 env).map (none, ·)
  else (launchDrained cfg spec next peeked.2 env).map (none, ·)

def pass (overlap : Bool) (t : Turn) (env : PassEnv) : Option (Option Verified × Turn) :=
  if overlap then overlapPass cfg spec next t env else normalPass cfg spec next t env

end FreeToken.Speculation

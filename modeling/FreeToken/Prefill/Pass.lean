import FreeToken.Prefill.Adder

/-!
# A prefill pass

`PrefillManager.schedule_next_batch`: the standing reservation, the seat scan of
the interleaving share, and the admission loop over the queue.

The counters and the batch's log fields are left out; `promptAdmissions` is the
list the batch publishes, one entry for each fresh prompt admitted. The encoder
cache's claims are left out.
-/

namespace FreeToken.Prefill

open FreeToken.Lib FreeToken.KvCache

variable {σ H : Type}

/-- A running decode, as `DecodeManager` reads it. -/
structure Running where
  cachedLen : Nat
  deviceLen : Nat
  maxDeviceLen : Nat
  deriving DecidableEq, Repr

def Running.remainLen (r : Running) : Nat := r.maxDeviceLen - r.deviceLen

/-- `DecodeManager.inflight_tokens`. -/
def inflightTokens (pageSize : Nat) (running : List Running) : Nat :=
  (running.map Running.remainLen).sum + (pageSize - 1) * running.length

/-- The settings of the `PrefillManager`; `maxBatchSeqs = 0` is no cap. -/
structure PrefillConfig where
  interleaveChunks : Bool
  maxBatchSeqs : Nat
  smallPromptGroupTokens : Nat
  maxChunkedPrefills : Nat
  keepImagesWhole : Bool
  deriving DecidableEq, Repr

/-- `_standing_reservation`. -/
def standingReservation (pending : List (PendingReq H)) : Nat :=
  (pending.map fun r =>
    match r.chunkedReq with
    | some chunked => (r.inputLen - chunked.cachedLen) + r.outputLen
    | none => 0).sum

def chunkedCount (pending : List (PendingReq H)) : Nat :=
  pending.countP fun r => r.chunkedReq.isSome

def laneCap (cfg : PrefillConfig) (pending : List (PendingReq H)) (prefillBudget : Nat) : Nat :=
  if cfg.maxBatchSeqs = 1 ∧ 0 < cfg.smallPromptGroupTokens ∧ 1 < pending.length ∧
      (pending.all fun r =>
        r.chunkedReq.isNone && decide (r.inputLen ≤ cfg.smallPromptGroupTokens)) = true ∧
      (pending.map PendingReq.inputLen).sum ≤ prefillBudget then 0
  else cfg.maxBatchSeqs

/-- The loop of `_seatable_lanes` over the queue, on a copy of the adder. -/
def seatLoop (cfg : PrefillConfig) (ops : PrefillOps σ H) (cap : Nat) :
    List (PendingReq H) → PrefillAdder σ H → Int → Int → Nat → Nat → PrefillAdder σ H × Nat
  | [], scan, _, _, _, seatable => (scan, seatable)
  | r :: rest, scan, tableFree, mambaFree, inflight, seatable =>
    let isFresh := r.chunkedReq.isNone
    if isFresh && decide (cfg.maxChunkedPrefills ≤ inflight) then
      seatLoop cfg ops cap rest scan tableFree mambaFree inflight seatable
    else
      let w := scan.wouldSeat ops r tableFree mambaFree
      if !w.2 then (w.1, seatable)
      else if cap ≠ 0 ∧ cap ≤ seatable + 1 then (w.1, seatable + 1)
      else if isFresh then
        seatLoop cfg ops cap rest w.1 (tableFree - 1) (mambaFree - 3) (inflight + 1) (seatable + 1)
      else seatLoop cfg ops cap rest w.1 tableFree mambaFree inflight (seatable + 1)

/-- `_seatable_lanes`. The scan's reservations are its own, but the tree it walks
and the memo it fills are the adder's. -/
def seatableLanes (cfg : PrefillConfig) (ops : PrefillOps σ H) (adder : PrefillAdder σ H)
    (pending : List (PendingReq H)) (cap chunkedInflight : Nat) : PrefillAdder σ H × Nat :=
  let mambaFree := if ops.isHybrid then ops.mambaAvailableSize adder.pools else 0
  let s := seatLoop cfg ops cap pending adder (ops.tableAvailable adder.pools) mambaFree
    chunkedInflight 0
  ({ adder with pools := s.1.pools, matchMemo := s.1.matchMemo }, s.2)

/-- The admission loop's variables. -/
structure Pass (σ H : Type) where
  adder : PrefillAdder σ H
  chunkedInflight : Nat
  reqs : List (Req H)
  chunkedList : List (PendingReq H)
  remaining : List (PendingReq H)
  promptAdmissions : List (Uid × Nat × Nat)
  stoppedForLaneCap : Bool

def Pass.keep (p : Pass σ H) (r : PendingReq H) : Pass σ H :=
  { p with remaining := p.remaining ++ [r] }

/-- The loop's bookkeeping for a lane it admitted as `req`. -/
def Pass.admitted (p : Pass σ H) (ops : PrefillOps σ H) (r : PendingReq H) (wasChunked : Bool)
    (req : Req H) : Pass σ H :=
  { p with
    chunkedInflight :=
      if req.isChunked then (if wasChunked then p.chunkedInflight else p.chunkedInflight + 1)
      else if wasChunked then p.chunkedInflight - 1 else p.chunkedInflight
    reqs := p.reqs ++ [req]
    chunkedList :=
      if req.isChunked then p.chunkedList ++ [{ r with chunkedReq := some req }] else p.chunkedList
    promptAdmissions :=
      if wasChunked then p.promptAdmissions
      else p.promptAdmissions ++ [(req.uid, r.inputLen, ops.cachedLen req.cacheHandle)] }

/-- This lane's share of the token budget. -/
def chunkLimit (seatable : Nat) (p : Pass σ H) : Option Nat :=
  if seatable = 0 then none
  else some (max 1 (p.adder.tokenBudget / max 1 (seatable - p.reqs.length)))

/-- The `for index, pending_req in enumerate(self.pending_list)` loop. -/
def passLoop (cfg : PrefillConfig) (ops : PrefillOps σ H) (cap seatable : Nat) :
    List (PendingReq H) → Pass σ H → Option (Pass σ H)
  | [], p => some p
  | r :: rest, p =>
    let isContinuation := r.chunkedReq.isSome
    if !isContinuation && decide (cfg.maxChunkedPrefills ≤ p.chunkedInflight) then
      passLoop cfg ops cap seatable rest (p.keep r)
    else
      (p.adder.tryAddOne ops r (chunkLimit seatable p)).bind fun t =>
        let p := { p with adder := t.1 }
        match t.2.2 with
        | some req =>
          let p := p.admitted ops t.2.1 isContinuation req
          if cap ≠ 0 ∧ cap ≤ p.reqs.length then
            some { p with remaining := p.remaining ++ rest, stoppedForLaneCap := !rest.isEmpty }
          else passLoop cfg ops cap seatable rest p
        | none =>
          if !isContinuation && decide ((0 : Int) < p.adder.headroom ops) then
            passLoop cfg ops cap seatable rest (p.keep t.2.1)
          else some { p with remaining := p.remaining ++ t.2.1 :: rest }

/-- The adder a pass starts with. -/
def newAdder (cfg : PrefillConfig) (ops : PrefillOps σ H) (s : σ) (running : List Running)
    (pending : List (PendingReq H)) (prefillBudget : Nat) : PrefillAdder σ H where
  tokenBudget := prefillBudget
  reservedSize := inflightTokens ops.pageSize running + standingReservation pending
  pools := s
  keepImagesWhole := cfg.keepImagesWhole
  passBudget := prefillBudget
  reservedSwa := 0
  reservedPages := inflightTokens ops.pageSize running
  refusal := .none
  matchMemo := []
  uses := []

/-- What a pass leaves: the pools, the queue and the batch's requests (none of
them is no batch), with the record of the matches it locked. -/
structure PassResult (σ H : Type) where
  pools : σ
  pending : List (PendingReq H)
  reqs : List (Req H)
  promptAdmissions : List (Uid × Nat × Nat)
  uses : List (σ × MatchResult H)

/-- `schedule_next_batch`. -/
def scheduleNextBatch (cfg : PrefillConfig) (ops : PrefillOps σ H) (s : σ)
    (running : List Running) (pending : List (PendingReq H)) (prefillBudget : Nat) :
    Option (PassResult σ H) :=
  if pending = [] then some ⟨s, [], [], [], []⟩
  else
    let cap := laneCap cfg pending prefillBudget
    let adder := newAdder cfg ops s running pending prefillBudget
    let inflight := chunkedCount pending
    let seat :=
      if cfg.interleaveChunks ∧ 1 < pending.length then
        seatableLanes cfg ops adder pending cap inflight
      else (adder, 0)
    (passLoop cfg ops cap seat.2 pending ⟨seat.1, inflight, [], [], [], [], false⟩).map fun p =>
      { pools := p.adder.pools
        pending :=
          if p.reqs = [] then p.remaining
          else if cfg.interleaveChunks && p.stoppedForLaneCap then p.remaining ++ p.chunkedList
          else p.chunkedList ++ p.remaining
        reqs := p.reqs
        promptAdmissions := p.promptAdmissions
        uses := p.adder.uses }

end FreeToken.Prefill

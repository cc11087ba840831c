import FreeToken.Lib.Pages
import FreeToken.KvCache.RadixTree

/-!
# The prefill adder

`PrefillAdder` of `scheduler/prefill.py`: the admission of one queued prompt, or of
the next chunk of one, against the pools. `σ` is the state of the cache manager
and the table manager as a pass sees them, `H` the cache's prefix handle, and
`PrefillOps` the calls the adder makes on them.

A Python `None` page tuple is the empty list, and an outer `none` is an assertion
that fails. The token pool's copies of the prompt are left out: only a forward
reads them. `uses` is not a field of the source: it
records, for each match the adder locks, the pools it was locked against.
-/

namespace FreeToken.Prefill

open FreeToken.Lib FreeToken.KvCache

abbrev Uid := Nat

structure MatchResult (H : Type) where
  cudaHandle : H
  mambaValue : Option Slot

/-- The request object a chunk runs as. -/
structure Req (H : Type) where
  uid : Uid
  isChunked : Bool
  inputIds : List Token
  tableIdx : Nat
  cachedLen : Nat
  outputLen : Nat
  cacheHandle : H
  linearSlotIdx : Option Slot
  mambaPingPong : List Slot
  mambaNextTrackIdx : Nat
  mambaRestoreSrc : Option Slot
  mambaLastTrackSeqlen : Option Nat
  mambaBoundaryCopy : Option Slot
  swaEvictedSeqlen : Nat
  hiddenStates : Bool

structure PendingReq (H : Type) where
  uid : Uid
  inputIds : List Token
  outputLen : Nat
  chunkedReq : Option (Req H)
  /-- The spans of each image item in the prompt. -/
  mmItems : List (List (Nat × Nat))
  /-- The pooling flag of a hidden-state request. -/
  hiddenStates : Option Bool
  noPrefixCache : Bool
  prefixBoundary : Option Nat

def PendingReq.inputLen {H : Type} (r : PendingReq H) : Nat := r.inputIds.length

/-- The cache manager and the table manager, as the adder calls them. -/
structure PrefillOps (σ H : Type) where
  pageSize : Nat
  isHybrid : Bool
  swaPaged : Bool
  slidingWindowSize : Nat
  prefillChunkAlign : Nat
  chunkSnapshots : Bool
  cachedLen : H → Nat
  availableSize : σ → Int
  matchReq : σ → PendingReq H → σ × MatchResult H
  lock : σ → H → σ
  unlock : σ → H → σ
  tableAvailable : σ → Nat
  /-- `table_manager.allocate` and the matched indices' copy into the new row. -/
  seat : σ → H → σ × Nat
  freeTable : σ → Nat → σ
  numFreeSlots : σ → Nat
  mambaAvailableSize : σ → Int
  reserveMambaSlots : σ → Nat → σ × Bool
  allocMamba : σ → Nat → σ × List Slot
  freeMamba : σ → List Slot → σ
  swaAvailableSize : σ → Int
  commitChunkSnapshot : σ → Req H → σ × Req H
  /-- `commit_prefix_boundary(prev, req, b)`, which rewrites both requests. -/
  commitPrefixBoundary : σ → Req H → Req H → Nat → σ × Req H × Req H

/-- Which pool refused the last fresh admit. -/
inductive Refusal
  | none
  | table
  | kv
  | mamba
  | swa
  | chunk
  deriving DecidableEq, Repr

structure PrefillAdder (σ H : Type) where
  tokenBudget : Nat
  reservedSize : Nat
  pools : σ
  keepImagesWhole : Bool
  passBudget : Nat
  reservedSwa : Nat
  reservedPages : Nat
  refusal : Refusal
  matchMemo : List (Uid × MatchResult H)
  uses : List (σ × MatchResult H)

-- ---------------------------------------------------------------------------
-- Image spans
-- ---------------------------------------------------------------------------

def mmChunkEndLoop (chunkLo end_ align : Nat) : List (Nat × Nat) → Nat → Nat
  | [], cut => cut
  | (lo, hi) :: spans, cut =>
    if lo < cut ∧ cut < hi then
      if lo ≤ chunkLo then end_
      else if alignDown lo align ≤ chunkLo then end_
      else mmChunkEndLoop chunkLo end_ align spans (alignDown lo align)
    else mmChunkEndLoop chunkLo end_ align spans cut

/-- The spans in descending order, as `sorted(…)[::-1]` gives them. -/
def descendingSpans (items : List (List (Nat × Nat))) : List (Nat × Nat) :=
  items.flatten.mergeSort fun a b => b.1 < a.1 || (b.1 == a.1 && b.2 ≤ a.2)

/-- `mm_chunk_end`. -/
def mmChunkEnd (items : List (List (Nat × Nat))) (chunkLo end_ align : Nat) : Nat :=
  mmChunkEndLoop chunkLo end_ align (descendingSpans items) end_

namespace PrefillAdder

variable {σ H : Type} (ops : PrefillOps σ H) (a : PrefillAdder σ H)

-- ---------------------------------------------------------------------------
-- The match memo
-- ---------------------------------------------------------------------------

/-- `_match`: the request's radix walk, at most once a pass. -/
def matchReq (req : PendingReq H) : PrefillAdder σ H × MatchResult H :=
  match a.matchMemo.lookup req.uid with
  | some hit => (a, hit)
  | none =>
    let m := ops.matchReq a.pools req
    ({ a with pools := m.1, matchMemo := (req.uid, m.2) :: a.matchMemo }, m.2)

def invalidateMatchMemo : PrefillAdder σ H := { a with matchMemo := [] }

-- ---------------------------------------------------------------------------
-- The gates
-- ---------------------------------------------------------------------------

/-- Tokens this pass could still sell to a lane behind the one it just refused. -/
def headroom : Int :=
  if a.tokenBudget = 0 ∨ ops.tableAvailable a.pools = 0 then 0
  else max 0 (ops.availableSize a.pools - a.reservedSize)

def pageSpan (start end_ : Nat) : Nat :=
  (divCeil end_ ops.pageSize - divCeil start ops.pageSize) * ops.pageSize

def kvGateOk (estimatedSize : Nat) : Bool :=
  ((estimatedSize + a.reservedSize : Nat) : Int) ≤ ops.availableSize a.pools

def swaSeatOk (extendLen : Nat) : Bool :=
  !ops.swaPaged ||
    decide ((divCeil (min (max extendLen 1) ops.slidingWindowSize + 1) ops.pageSize * ops.pageSize :
      Nat) ≤ ops.swaAvailableSize a.pools - a.reservedSwa)

/-- The highest offset the pool's remaining pages can back for this lane this pass. -/
def kvChunkEnd (cachedLen : Nat) : Nat :=
  let pages := (ops.availableSize a.pools - a.reservedPages).toNat / ops.pageSize
  (divCeil cachedLen ops.pageSize + pages) * ops.pageSize

/-- The token-equivalent cost of the additional KV pages for a request. -/
def kvReservationSize (totalLen cachedLen : Nat) : Nat :=
  (divCeil totalLen ops.pageSize - divCeil cachedLen ops.pageSize) * ops.pageSize

/-- What `_try_allocate_one` hands to `_add_one_req`. -/
structure Resource (H : Type) where
  cacheHandle : H
  tableIdx : Nat
  linearSlotIdx : Option Slot
  pingPong : List Slot
  restoreSrc : Option Slot

/-- The hybrid part of the admission: three state slots. The memo is dropped when
the reservation will have to evict. -/
def reserveStates : PrefillAdder σ H × Bool :=
  if ops.isHybrid then
    let a := if ops.numFreeSlots a.pools < 3 then a.invalidateMatchMemo else a
    let r := ops.reserveMambaSlots a.pools 3
    ({ a with pools := r.1 }, r.2)
  else (a, true)

/-- Everything a fresh prompt owns from its admission on. -/
def takeResources (mr : MatchResult H) : PrefillAdder σ H × Resource H :=
  let t := ops.seat a.pools mr.cudaHandle
  if ops.isHybrid then
    let live := ops.allocMamba t.1 1
    let pp := ops.allocMamba live.1 2
    ({ a with pools := pp.1 },
      ⟨mr.cudaHandle, t.2, live.2.head?, pp.2, mr.mambaValue⟩)
  else ({ a with pools := t.1 }, ⟨mr.cudaHandle, t.2, none, [], mr.mambaValue⟩)

def refuse (why : Refusal) : PrefillAdder σ H := { a with refusal := why }

/-- Give the match's lock back and refuse. -/
def unlockRefuse (h : H) (why : Refusal) : PrefillAdder σ H :=
  { a with pools := ops.unlock a.pools h, refusal := why }

/-- `_try_allocate_one`. -/
def tryAllocateOne (req : PendingReq H) : PrefillAdder σ H × Option (Resource H) :=
  if ops.tableAvailable a.pools = 0 then (a.refuse .table, none)
  else
    let m := a.matchReq ops req
    let a := m.1
    let handle := m.2.cudaHandle
    let cachedLen := ops.cachedLen handle
    let estimatedSize := kvReservationSize ops (req.inputLen + req.outputLen) cachedLen
    if !a.kvGateOk ops estimatedSize then (a.refuse .kv, none)
    else
      let a := { a with pools := ops.lock a.pools handle, uses := a.uses ++ [(a.pools, m.2)] }
      -- read again: the lock moved the matched prefix out of what is evictable
      if !a.kvGateOk ops estimatedSize then (a.unlockRefuse ops handle .kv, none)
      else
        let r := a.reserveStates ops
        if !r.2 then (r.1.unlockRefuse ops handle .mamba, none)
        else if !r.1.swaSeatOk ops (req.inputLen - cachedLen) then
          (r.1.unlockRefuse ops handle .swa, none)
        else
          let t := (r.1.refuse .chunk).takeResources ops m.2
          (t.1, some t.2)

-- ---------------------------------------------------------------------------
-- The size of a chunk
-- ---------------------------------------------------------------------------

/-- The page-aligned segment boundary a hybrid prefill chunk should end on. -/
def segmentCut (r : PendingReq H) : Option Nat :=
  match r.prefixBoundary with
  | none => none
  | some b =>
    if !(ops.isHybrid && ops.chunkSnapshots) then none
    else if r.hiddenStates.isSome || r.noPrefixCache then none
    else
      let b := alignDown b ops.pageSize
      if 0 < b ∧ b < r.inputLen then some b else none

/-- The swa pool's cap on a chunk; `none` puts the request off to the next pass. -/
def swaCap (cachedLen floor swaEvictedSeqlen remainLen chunkSize : Nat) : Option Nat :=
  if !ops.swaPaged then some chunkSize
  else
    let ps := ops.pageSize
    -- a negative frontier frees nothing, as zero does
    let newEvicted := alignDown (cachedLen - ops.slidingWindowSize - ps) ps
    let selfReclaim := newEvicted - max swaEvictedSeqlen floor
    let swaBudget := ops.swaAvailableSize a.pools + selfReclaim - a.reservedSwa
    let maxEnd := (divCeil cachedLen ps + swaBudget.toNat / ps) * ps
    let chunkSize := min chunkSize (maxEnd - cachedLen)
    if 0 < chunkSize ∧ chunkSize < remainLen then
      let aligned := alignDown (cachedLen + chunkSize) ps - cachedLen
      if aligned = 0 then none else some aligned
    else some chunkSize

/-- A chunk that ends inside the prompt ends on the snapshot grid if it can. -/
def alignCap (cachedLen remainLen chunkSize : Nat) : Nat :=
  if 1 < ops.prefillChunkAlign ∧ 0 < chunkSize ∧ chunkSize < remainLen then
    let aligned := alignDown (cachedLen + chunkSize) ops.prefillChunkAlign - cachedLen
    if 0 < aligned then aligned else chunkSize
  else chunkSize

def segmentCap (r : PendingReq H) (cachedLen chunkSize : Nat) : Nat :=
  match segmentCut ops r with
  | none => chunkSize
  | some b => if cachedLen < b ∧ b < cachedLen + chunkSize then b - cachedLen else chunkSize

/-- End the chunk before an image it would cut; `none` waits for a pass of its own. -/
def imageCap (r : PendingReq H) (cachedLen remainLen chunkSize : Nat) : Option Nat :=
  if a.keepImagesWhole ∧ r.mmItems ≠ [] ∧ chunkSize < remainLen then
    let unit := Nat.lcm (if ops.swaPaged then ops.pageSize else 1)
      (if 1 < ops.prefillChunkAlign then ops.prefillChunkAlign else 1)
    let end_ := mmChunkEnd r.mmItems cachedLen (cachedLen + chunkSize) unit
    match r.mmItems.flatten.find? fun s => s.1 < end_ && end_ < s.2 with
    | some (_, cut) =>
      if a.tokenBudget < a.passBudget ∧ cut - cachedLen ≤ a.passBudget then none
      else some (end_ - cachedLen)
    | none => some (end_ - cachedLen)
  else some chunkSize

/-- How much of the prompt this pass runs; `none` defers the request. -/
def chunkSize (r : PendingReq H) (handle : H) (cachedLen swaEvictedSeqlen : Nat)
    (chunkLimit : Option Nat) : Option Nat :=
  let remainLen := r.inputLen - cachedLen
  let size := min a.tokenBudget remainLen
  let size := match chunkLimit with | some k => min size k | none => size
  let size := min size (a.kvChunkEnd ops cachedLen - cachedLen)
  if size = 0 then none
  else
    (a.swaCap ops cachedLen (ops.cachedLen handle) swaEvictedSeqlen remainLen size).bind
      fun size =>
        a.imageCap ops r cachedLen remainLen
          (segmentCap ops r cachedLen (alignCap ops cachedLen remainLen size))

/-- The state slots and watermarks a chunk takes over, fresh or from the last chunk. -/
structure Carry (H : Type) where
  cacheHandle : H
  tableIdx : Nat
  cachedLen : Nat
  linearSlotIdx : Option Slot
  pingPong : List Slot
  nextTrackIdx : Nat
  restoreSrc : Option Slot
  swaEvictedSeqlen : Nat

/-- `_add_one_req`. The request object asserts that its chunk is not empty. -/
def addOneReq (r : PendingReq H) (c : Carry H) (chunkLimit : Option Nat) :
    Option (PrefillAdder σ H × Option (Req H)) :=
  match a.chunkSize ops r c.cacheHandle c.cachedLen c.swaEvictedSeqlen chunkLimit with
  | none => some (a, none)
  | some 0 => none
  | some (size + 1) =>
    let size := size + 1
    let span := pageSpan ops c.cachedLen (c.cachedLen + size)
    some ({ a with
        reservedSwa := if ops.swaPaged then a.reservedSwa + span else a.reservedSwa
        tokenBudget := a.tokenBudget - size
        -- a continuation's remaining footprint is in the standing reservation
        reservedSize :=
          if r.chunkedReq.isNone then
            a.reservedSize + kvReservationSize ops (r.inputLen + r.outputLen) c.cachedLen
          else a.reservedSize
        reservedPages := a.reservedPages + span },
      some
        { uid := r.uid
          isChunked := decide (size < r.inputLen - c.cachedLen)
          inputIds := r.inputIds.take (c.cachedLen + size)
          tableIdx := c.tableIdx
          cachedLen := c.cachedLen
          outputLen := r.outputLen
          cacheHandle := c.cacheHandle
          linearSlotIdx := c.linearSlotIdx
          mambaPingPong := c.pingPong
          mambaNextTrackIdx := c.nextTrackIdx
          mambaRestoreSrc := c.restoreSrc
          mambaLastTrackSeqlen := none
          mambaBoundaryCopy := none
          swaEvictedSeqlen := c.swaEvictedSeqlen
          hiddenStates := r.hiddenStates.isSome })

/-- The non-mutating mirror of `try_add_one`, up to the tree and the memo it shares
with the adder it copies. -/
def wouldSeat (r : PendingReq H) (tableFree mambaFree : Int) : PrefillAdder σ H × Bool :=
  match r.chunkedReq with
  | some chunked =>
    if a.kvChunkEnd ops chunked.cachedLen - chunked.cachedLen = 0 then (a, false)
    else ({ a with reservedPages := a.reservedPages + ops.pageSize }, true)
  | none =>
    if tableFree ≤ 0 then (a, false)
    else
      let m := a.matchReq ops r
      let a := m.1
      let cachedLen := ops.cachedLen m.2.cudaHandle
      let extendLen := r.inputLen - cachedLen
      if !a.kvGateOk ops (kvReservationSize ops (r.inputLen + r.outputLen) cachedLen) then
        (a, false)
      else if ops.isHybrid && mambaFree < 3 then (a, false)
      else if !a.swaSeatOk ops extendLen then (a, false)
      else if a.kvChunkEnd ops cachedLen - cachedLen = 0 then (a, false)
      else
        ({ a with
            reservedSize := a.reservedSize + (extendLen + r.outputLen)
            reservedPages := a.reservedPages + ops.pageSize
            reservedSwa := if ops.swaPaged then a.reservedSwa + ops.pageSize else a.reservedSwa },
          true)

/-- The continuation branch of `try_add_one`. -/
def addChunk (r : PendingReq H) (chunked : Req H) (chunkLimit : Option Nat) :
    Option (PrefillAdder σ H × PendingReq H × Option (Req H)) :=
  let c := ops.commitChunkSnapshot a.pools chunked
  let chunked := c.2
  let r := { r with chunkedReq := some chunked }
  (addOneReq ops { a with pools := c.1 } r
    { cacheHandle := chunked.cacheHandle
      tableIdx := chunked.tableIdx
      cachedLen := chunked.cachedLen
      linearSlotIdx := chunked.linearSlotIdx
      pingPong := chunked.mambaPingPong
      nextTrackIdx := chunked.mambaNextTrackIdx
      restoreSrc := none
      swaEvictedSeqlen := chunked.swaEvictedSeqlen } chunkLimit).map
    fun (added : PrefillAdder σ H × Option (Req H)) =>
    match added.2 with
    | none => (added.1, r, none)
    | some req =>
      if segmentCut ops r = some chunked.cachedLen then
        let p := ops.commitPrefixBoundary added.1.pools chunked req chunked.cachedLen
        ({ added.1 with pools := p.1 }, { r with chunkedReq := some p.2.1 }, some p.2.2)
      else (added.1, r, some req)

/-- Undo an admission that found no chunk to run this pass. -/
def giveBack (res : Resource H) : PrefillAdder σ H :=
  let s := ops.freeTable (ops.unlock a.pools res.cacheHandle) res.tableIdx
  { a with
    pools := match res.linearSlotIdx with
      | some live => ops.freeMamba s (live :: res.pingPong)
      | none => s }

/-- The fresh branch of `try_add_one`. -/
def addFresh (r : PendingReq H) (chunkLimit : Option Nat) :
    Option (PrefillAdder σ H × PendingReq H × Option (Req H)) :=
  let t := a.tryAllocateOne ops r
  match t.2 with
  | none => some (t.1, r, none)
  | some res =>
    (addOneReq ops t.1 r
      { cacheHandle := res.cacheHandle
        tableIdx := res.tableIdx
        cachedLen := ops.cachedLen res.cacheHandle
        linearSlotIdx := res.linearSlotIdx
        pingPong := res.pingPong
        nextTrackIdx := 0
        restoreSrc := res.restoreSrc
        swaEvictedSeqlen := 0 } chunkLimit).map
      fun (added : PrefillAdder σ H × Option (Req H)) =>
      match added.2 with
      | some req => (added.1, r, some req)
      | none => (added.1.giveBack ops res, r, none)

/-- `try_add_one`: the adder, the pending request (whose chunk a commit rewrites)
and the request object admitted. -/
def tryAddOne (r : PendingReq H) (chunkLimit : Option Nat) :
    Option (PrefillAdder σ H × PendingReq H × Option (Req H)) :=
  let a := a.refuse .none
  if a.tokenBudget = 0 then some (a, r, none)
  else
    match r.chunkedReq with
    | some chunked => a.addChunk ops r chunked chunkLimit
    | none => a.addFresh ops r chunkLimit

end PrefillAdder

end FreeToken.Prefill

import FreeToken.Spill.Promotion

/-!
# Spilling a session

`SessionSpillStore.spill` and what it rests on: the choice of state boundaries, the
files an earlier checkpoint of the session can lend, and the copy of the new pages
and states to the tier that has room.
-/

namespace FreeToken.Spill

open FreeToken.Lib

def spillChunkPages : Nat := 8192
def backgroundWriteMaxBytes : Nat := 512 * 2 ^ 20
def maxShortChunks : Nat := 4

/-! ## The pools -/

/-- One physical KV tensor: `row layer page` are the elements of a page. -/
structure KvBuffer where
  name : String
  layers : Nat
  elementSize : Nat
  row : Nat → Nat → List Int

/-- What a checkpoint reads of the KV pool and of the recurrent-state pool, at the time
it is taken. -/
structure Pools where
  fingerprint : Nat
  pageBytes : Nat
  buffers : List KvBuffer
  bytesPerSlot : Nat
  convStates : Nat → Tensor
  recurrentStates : Nat → Tensor

namespace Pools

/-- `session_spill_bytes`. -/
def spillBytes (p : Pools) (numPages : Nat) : Nat := p.pageBytes * numPages

/-- `range(start, n, step)`. -/
def starts (start n step : Nat) : List Nat :=
  List.range' start ((n - start + step - 1) / step) step

/-- `iter_session_spill_tensors`. -/
def iterSpillTensors (p : Pools) (pages : List Nat) (chunkPages startPage : Nat) :
    List (Family × Int × Nat × Tensor) :=
  p.buffers.flatMap fun b => (List.range b.layers).flatMap fun layer : Nat =>
    (starts startPage pages.length chunkPages).map fun start =>
      (.kv b.name, (layer : Int), start,
        ⟨((pages.drop start).take chunkPages).flatMap (b.row layer), b.elementSize⟩)

/-- `_payload_bytes`. -/
def payloadBytes (p : Pools) (numPages : Nat) (tokenIds : List Int) (numStates : Nat) : Nat :=
  p.spillBytes numPages + p.bytesPerSlot * max 1 numStates + tokenIds.length * 4

end Pools

/-! ## State boundaries -/

/-- Whether a boundary is at least `gap` away from every one kept. -/
def farFrom (gap boundary : Nat) (kept : List Nat) : Bool :=
  kept.all fun k => gap ≤ (boundary - k) + (k - boundary)

/-- One pass of `select_state_boundaries` over the candidates, newest first. -/
def thinPass (final maxStates gap : Nat) (candidates kept : List Nat) : List Nat :=
  candidates.foldl
    (fun kept b =>
      if maxStates ≤ kept.length || b = 0 || final ≤ b || kept.contains b ||
          (gap ≠ 0 && !farFrom gap b kept) then kept
      else kept ++ [b])
    kept

/-- `select_state_boundaries`: `stride`-spaced coverage first, then the freshest ones. -/
def selectStateBoundaries (candidates : List Nat) (final stride maxStates : Nat) : List Nat :=
  let newestFirst := candidates.dedup.insertionSort (· ≥ ·)
  let kept := thinPass final maxStates (max 1 stride) newestFirst [final]
  (thinPass final maxStates 0 newestFirst kept).insertionSort (· ≤ ·)

/-! ## Where a state comes from -/

/-- A live pool slot, a host capture, or the files of an earlier checkpoint. -/
inductive StateSource
  | slot (n : Nat)
  | capture (conv recurrent : Tensor)
  | files (pair : List SpillChunk)
  deriving DecidableEq, Repr

structure SpillRequest where
  sessionId : String
  tokenIds : List Int
  pageIndices : List Nat
  linearSlot : Nat
  extraStates : List (Nat × Nat)
  capturedStates : List (Nat × Tensor × Tensor)

/-- What of an earlier checkpoint a new one keeps: the KV pages reused, the reused
states by boundary, and the reused KV chunks. -/
structure IncrementalBase where
  reuseEnd : Nat
  states : List (Nat × List SpillChunk)
  reusedKv : List SpillChunk
  deriving DecidableEq, Repr

/-- The dict of states by boundary, newest entry first: a later `update` wins. -/
def stateSources (req : SpillRequest) (base : Option IncrementalBase) : List (Nat × StateSource) :=
  (req.pageIndices.length, .slot req.linearSlot) ::
    ((base.map (·.states)).getD []).map (fun (b, pair) => (b, .files pair)) ++
    req.extraStates.reverse.map (fun (b, slot) => (b, .slot slot)) ++
    req.capturedStates.reverse.map fun (b, conv, recurrent) => (b, .capture conv recurrent)

/-- A copy of a chunk that reads from its file. -/
def SpillChunk.onDisk (c : SpillChunk) : SpillChunk := { c with value := none }

/-- `(start, stop)` of the KV chunks of a record that end inside `shared`. -/
def sharedSpans (starts : List Nat) (numPages shared : Nat) : List (Nat × Nat) :=
  (starts.zip (starts.tail ++ [numPages])).filter fun span => span.2 ≤ shared

/-- How many pages of the shared spans a new checkpoint keeps: past a few short chunks
the tail is rewritten from the first short one. -/
def reuseEnd (spans : List (Nat × Nat)) : Nat :=
  let short := (spans.filter fun span => span.2 - span.1 < spillChunkPages).map (·.1)
  if maxShortChunks < short.length then short.headD 0 else (spans.getLast?.map (·.2)).getD 0

/-- The states of `previous` at a boundary inside the shared prefix: both halves, the
convolution first. -/
def sharedStates (previous : SessionSpillRecord) (shared numPages : Nat) :
    List (Nat × List SpillChunk) :=
  let usable := previous.chunks.filter fun c =>
    c.family.isState && 0 < c.start && c.start ≤ shared && c.start < numPages
  ((usable.map (·.start)).dedup.filterMap fun b =>
    let pair := usable.filter (·.start = b)
    if pair.length = 2 then
      some (b, (pair.filter (·.family = .gdnConv) ++ pair.filter (·.family = .gdnRecurrent)).map
        (·.onDisk))
    else none)

/-- `_incremental_base`. -/
def incrementalBase (pools : Pools) (k : Disk) (previous : Option SessionSpillRecord)
    (tokens : List Int) (numPages : Nat) : Option IncrementalBase :=
  match previous with
  | none => none
  | some r =>
    if r.valid && r.tier = .disk && r.directory = some (.session r.sessionId) &&
        r.fingerprint = pools.fingerprint then
      let common := min (min r.tokenIds.length tokens.length) (min r.numPages numPages)
      let shared := matchedLen (r.tokenIds.take common) (tokens.take common)
      let kv := r.chunks.filter fun c => !c.family.isState
      let starts := ((kv.map (·.start)).dedup).insertionSort (· ≤ ·)
      let reuseEnd := reuseEnd (sharedSpans starts r.numPages shared)
      let reusedKv := (kv.filter (·.start < reuseEnd)).map (·.onDisk)
      let states := sharedStates r shared numPages
      if reusedKv.isEmpty && states.isEmpty then none
      else if reusedKv.all fun c => c.file.any k.isFile then some ⟨reuseEnd, states, reusedKv⟩
      else none
    else none

/-! ## Copying out -/

/-- A chunk of the new checkpoint: kept as it is, or copied from a tensor. -/
inductive Part
  | kept (c : SpillChunk)
  | fresh (family : Family) (layer : Int) (start : Nat) (value : Tensor)

/-- The chunks of a state at its boundary. -/
def stateParts (pools : Pools) (boundary : Nat) : StateSource → List Part
  | .files pair => pair.map .kept
  | .slot n => [.fresh .gdnConv (-1) boundary (pools.convStates n),
      .fresh .gdnRecurrent (-1) boundary (pools.recurrentStates n)]
  | .capture conv recurrent => [.fresh .gdnConv (-1) boundary conv,
      .fresh .gdnRecurrent (-1) boundary recurrent]

/-- Where a new checkpoint goes: to RAM, to a directory now, or to a directory later. -/
inductive Target
  | ram
  | foreground (directory : DirName)
  | background (directory : DirName)
  deriving DecidableEq, Repr

def Target.directory : Target → Option DirName
  | .ram => none
  | .foreground d => some d
  | .background d => some d

/-- The chunks copied so far and the writes queued for them. -/
structure Copied where
  chunks : List SpillChunk
  jobs : List (Path × Tensor)

variable (env : Env)

/-- `save` of `spill`: queue the file, or write it. -/
def saveFor (target : Target) (path : Path) (value : Tensor) (done : Copied) : M Copied :=
  match target with
  | .ram => return done
  | .background _ => return { done with jobs := done.jobs ++ [(path, value)] }
  | .foreground _ => do
    save env value path
    return done

/-- One chunk of the copy; a file is numbered by the chunks before it. -/
def copyPart (target : Target) (uuid : Option Nat) (done : Copied) : Part → M Copied
  | .kept c => return { done with chunks := done.chunks ++ [c] }
  | .fresh family layer start value =>
    match target.directory with
    | none => do
      mayRaise env .runtimeError
      return { done with chunks := done.chunks ++ [⟨family, layer, start, some value, none, value⟩] }
    | some directory => do
      mayRaise env .runtimeError
      let path : Path := ⟨directory, .chunk uuid done.chunks.length⟩
      let done ← saveFor env target path value done
      let inRam := match target with
        | .background _ => some value
        | _ => none
      return { done with chunks := done.chunks ++ [⟨family, layer, start, inRam, some path, value⟩] }

def copyParts (target : Target) (uuid : Option Nat) : List Part → Copied → M Copied
  | [], done => return done
  | p :: ps, done => do
    let done ← copyPart env target uuid done p
    copyParts target uuid ps done

/-- The record of a copy that went through. -/
def newRecord (pools : Pools) (req : SpillRequest) (byteSize now : Nat) (tier : Tier)
    (directory : Option DirName) (uuid : Option Nat) (chunks : List SpillChunk) :
    SessionSpillRecord where
  tokenIds := req.tokenIds
  numPages := req.pageIndices.length
  byteSize := byteSize
  fingerprint := pools.fingerprint
  tier := tier
  chunks := chunks
  sessionId := req.sessionId
  createdAt := now
  lastUsedAt := now
  directory := directory
  tokenFile := directory.map fun d => ⟨d, .tokens uuid⟩

/-- What a spill has decided before it copies anything. -/
structure SpillPlan where
  byteSize : Nat
  now : Nat
  tier : Tier
  background : Bool
  base : Option IncrementalBase
  uuid : Option Nat
  parts : List Part

def SpillPlan.target (plan : SpillPlan) (sessionId : String) : Target :=
  match plan.tier with
  | .ram => .ram
  | .disk => if plan.background then .background (.session sessionId)
    else .foreground (.session sessionId)

/-- The body of the `try` of `spill`: the record, and the writes it owes. -/
def copyOut (pools : Pools) (req : SpillRequest) (plan : SpillPlan) :
    M (SessionSpillRecord × List (Path × Tensor)) := do
  let target := plan.target req.sessionId
  onlyIf (plan.tier = .disk ∧ plan.base = none) do
    let _ ← prepareDir env req.sessionId
  let started ← match target.directory with
    | none => pure (⟨[], []⟩ : Copied)
    | some d => saveFor env target ⟨d, .tokens plan.uuid⟩ (tokensTensor req.tokenIds) ⟨[], []⟩
  let done ← copyParts env target plan.uuid plan.parts started
  let r := newRecord pools req plan.byteSize plan.now plan.tier target.directory plan.uuid done.chunks
  onlyIf (plan.tier = .disk ∧ plan.background = false) (publish env r)
  return (r, done.jobs)

namespace Store

/-- `_detach`: forget a disk record whose files the next checkpoint takes over. -/
def detach (i : RecordId) (s : Store) : Store :=
  ((((s.cancelPrefetchOf i).forgetPromoted (s.record i).sessionId).untrack i).creditDisk
    (s.record i).byteSize).dropCache i

/-- `_queue_write`, but for handing the write to the thread. -/
def queueWrite (i : RecordId) (jobs : List (Path × Tensor)) (s : Store) : Store :=
  let nbytes := (jobs.map fun job => job.2.nbytes).sum
  let wid := s.nextWrite
  charge .queueWrite ⟨nbytes, 0, 0⟩
    { s.setRecord i fun r => { r with pending := some wid } with
      write := Function.update s.write wid { record := i, jobs := jobs, nbytes := nbytes }
      nextWrite := wid + 1
      pendingWrites := s.pendingWrites ++ [wid] }

end Store

/-- `_queue_write`. -/
def queueWrite (i : RecordId) (jobs : List (Path × Tensor)) : M Unit := do
  let s ← getStore
  modifyStore (·.queueWrite i jobs)
  modify (·.withWriter fun t => { t with queue := t.queue ++ [s.nextWrite] })

/-- The checkpoint filed under the session, its background write installed: its files
are the next base. -/
def settledPrevious (sessionId : String) : M (Option RecordId) := do
  let s ← getStore
  match s.get sessionId with
  | none => return none
  | some i =>
    finishOwed env i
    return some i

/-- What is given up of the previous checkpoint before the new one is copied. -/
def giveUpPrevious (previous : Option RecordId) (base : Option IncrementalBase) : M Unit :=
  match base, previous with
  | some _, some i => modifyStore (·.detach i)
  | _, _ => discardOption env previous

/-- `_discard_files`. -/
def discardFiles (i : Option RecordId) : M Unit := do
  let s ← getStore
  match (i.map s.record).bind (·.directory) with
  | none => pure ()
  | some d => rmtree env d

/-- Drop the base when its tier was not chosen. -/
def keepBase (previous : Option RecordId) (base : Option IncrementalBase) (tier : Option Tier) :
    M (Option IncrementalBase) :=
  if base.isSome ∧ tier ≠ some .disk then do
    discardFiles env previous
    return none
  else return base

/-- The bytes a spill writes anew. -/
def newBytes (pools : Pools) (req : SpillRequest) (base : Option IncrementalBase)
    (boundaries : List Nat) (states : List (Nat × StateSource)) : Nat :=
  let reusedStates := boundaries.countP fun b =>
    match states.lookup b with
    | some (.files _) => true
    | _ => false
  pools.spillBytes (req.pageIndices.length - (base.map (·.reuseEnd)).getD 0) +
    pools.bytesPerSlot * (boundaries.length - reusedStates) + req.tokenIds.length * 4

/-- Whether the new bytes are few enough for the writer thread. -/
def writesBehind (tier : Tier) (newBytes : Nat) : M Bool := do
  let s ← getStore
  let mem ← observe env env.memAvailable
  return tier = .disk && newBytes ≤ backgroundWriteMaxBytes &&
    (s.config.hostReserveBytes : Int) + 256 * 2 ^ 20 ≤ (mem : Int) - newBytes

/-- The generation prefix of an incremental checkpoint. -/
def generation (base : Option IncrementalBase) : M (Option Nat) :=
  if base.isSome then do
    let uuid ← freshUuid
    return some uuid
  else return none

/-- From the tier on: copy, track, and queue the write. -/
def spillTo (pools : Pools) (req : SpillRequest) (states : List (Nat × StateSource))
    (boundaries : List Nat) (byteSize : Nat) (tier : Tier) (base : Option IncrementalBase) :
    M (Option RecordId) := do
  let now ← observe env env.now
  let uuid ← generation base
  let background ← writesBehind env tier (newBytes pools req base boundaries states)
  let kv := pools.iterSpillTensors req.pageIndices spillChunkPages ((base.map (·.reuseEnd)).getD 0)
  let parts := ((base.map (·.reusedKv)).getD []).map .kept ++
    kv.map (fun (family, layer, start, value) => .fresh family layer start value) ++
    boundaries.flatMap fun b => (states.lookup b).elim [] (stateParts pools b)
  let plan : SpillPlan := ⟨byteSize, now, tier, background, base, uuid, parts⟩
  let copied ← tryCatch
    (do
      let done ← copyOut env pools req plan
      return some done)
    fun _ => do
      onlyIf (tier = .disk) (rmtree env (.session req.sessionId))
      return none
  match copied with
  | none => return none
  | some (r, jobs) =>
    let i ← track env r
    onlyIf (background = true) (queueWrite i jobs)
    if ← (if tier = .ram then belowReserve env else pure false) then
      if ← demoteToDisk env i then return some i
      else
        discard env i
        return none
    else return some i

/-- `spill`. -/
def spill (pools : Pools) (req : SpillRequest) : M (Option RecordId) := do
  collectWrites env false
  let previous ← settledPrevious env req.sessionId
  let w ← get
  let s := w.store
  let base := incrementalBase pools w.disk (previous.map s.record) req.tokenIds
    req.pageIndices.length
  let states := stateSources req base
  let boundaries := selectStateBoundaries (states.map (·.1)) req.pageIndices.length
    s.config.stateStrideTokens s.config.maxStates
  let byteSize := pools.payloadBytes req.pageIndices.length req.tokenIds boundaries.length
  giveUpPrevious env previous base
  let tier ← reserveTier env byteSize req.sessionId base.isSome
  let base ← keepBase env previous base tier
  match tier with
  | none => return none
  | some tier => spillTo env pools req states boundaries byteSize tier base

end FreeToken.Spill

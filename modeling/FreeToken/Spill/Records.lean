import Mathlib.Data.List.MinMax
import Mathlib.Data.List.Sort
import Mathlib.Data.Prod.Lex
import FreeToken.Spill.Manifest

/-!
# Records

How `SessionSpillStore` tracks, files, discards and moves its records: the
accounting of `session_spill.py` and the operations of one record. A record is in
RAM, in RAM with a disk copy, on disk, on disk with prefetched tensors, or on disk
with a background write still owed; only the functions of this module and of
`Promotion` move it between these.
-/

namespace FreeToken.Spill

open FreeToken.Lib

namespace Store

/-- `cancel_prefetch`, whatever session it is for. -/
def cancelPrefetch (s : Store) : Store :=
  { s with prefetch := s.prefetch.map fun p => { p with cancel := true } }

def cancelPrefetchOf (i : RecordId) (s : Store) : Store :=
  if s.prefetch.map (·.record) = some i then s.cancelPrefetch else s

def forgetPromoted (sessionId : String) (s : Store) : Store :=
  if s.promoted = some sessionId then { s with promoted := none } else s

def cancelWriteBehindOf (i : RecordId) (s : Store) : Store :=
  if s.writeBehind.map (·.record) = some i then
    { s with writeBehind := s.writeBehind.map fun b => { b with cancel := true } }
  else s

/-- The record is no longer valid, tracked or filed. -/
def untrack (i : RecordId) (s : Store) : Store :=
  let sessionId := (s.record i).sessionId
  { s.setRecord i fun r => { r with valid := false } with
    records := s.records.filter (· ≠ i)
    bySession := if s.bySession sessionId = some i then Function.update s.bySession sessionId none
      else s.bySession }

/-- `_drop_cache`. -/
def dropCache (i : RecordId) (s : Store) : Store :=
  if (s.record i).cachedBytes ≠ 0 then
    (s.creditRam (s.record i).cachedBytes).setRecord i fun r =>
      { r with
        chunks := r.chunks.map fun c => if c.file.isSome then { c with value := none } else c
        cachedBytes := 0 }
  else s

def removePending (i : WriteId) (s : Store) : Store :=
  { s with pendingWrites := s.pendingWrites.erase i }

/-- The write is no longer charged or owed, and its record reads from its files. -/
def settleWrite (i : WriteId) (s : Store) : Store :=
  let write := s.write i
  let written := write.jobs.map (·.1)
  let s := if write.charged then (s.creditRam write.nbytes).setWrite i fun p => { p with charged := false }
    else s
  (s.setRecord write.record fun r =>
    { r with
      pending := none
      chunks := r.chunks.map fun c =>
        if c.file.any written.contains then { c with value := none } else c }).setWrite i
    fun p => { p with jobs := [] }

/-- The appending half of `_track`. -/
def add (r : SessionSpillRecord) (s : Store) : Store :=
  let i := s.nextRecord
  let s := { s with
    records := s.records ++ [i]
    record := Function.update s.record i r
    nextRecord := i + 1
    bySession := if r.sessionId ≠ "" then Function.update s.bySession r.sessionId (some i)
      else s.bySession }
  match r.tier with
  | .ram => s.charge .trackRam ⟨r.byteSize, 0, 0⟩
  | .disk => s.charge .trackDisk ⟨0, r.byteSize, 0⟩

/-- The memory half of `_drop_to_backing`: the tensors are forgotten, the files stay. -/
def movedToBacking (i : RecordId) (b : Backing) (s : Store) : Store :=
  (s.setRecord i fun r =>
    { r with
      chunks := List.zipWith (fun c path => { c with value := none, file := some path })
        r.chunks b.files
      tier := .disk
      directory := some b.directory
      tokenFile := some b.tokenFile
      backing := none }).creditRam (s.record i).byteSize

/-- The memory half of a demotion that wrote the record's files. -/
def movedToDisk (i : RecordId) (target : DirName) (files : List Path) (s : Store) : Store :=
  let byteSize := (s.record i).byteSize
  ((s.setRecord i fun r =>
    { r with
      chunks := List.zipWith (fun c path => { c with value := none, file := some path })
        r.chunks files
      tier := .disk
      directory := some target
      tokenFile := some ⟨target, .tokens none⟩ }).creditRam byteSize).charge
    .demote ⟨0, byteSize, 0⟩

/-- A finished background copy becomes the record's disk copy. -/
def installBacking (i : RecordId) (b : Backing) (s : Store) : Store :=
  (s.setRecord i fun r => { r with backing := some b }).charge .collectWriteBehind
    ⟨0, (s.record i).byteSize, 0⟩

/-- The index half of `rekey`. -/
def refile (i : RecordId) (sessionId : String) (s : Store) : Store :=
  let old := (s.record i).sessionId
  let bySession := if s.bySession old = some i then Function.update s.bySession old none
    else s.bySession
  { s.setRecord i fun r => { r with sessionId := sessionId } with
    bySession := Function.update bySession sessionId (some i) }

end Store

/-- `record.last_used_at, record.created_at`, ordered lexicographically. -/
def lruKey (s : Store) (i : RecordId) : ℕ ×ₗ ℕ :=
  toLex ((s.record i).lastUsedAt, (s.record i).createdAt)

/-- `sorted(.., key=lambda record: (record.last_used_at, record.created_at))`. -/
def lruOrder (s : Store) (l : List RecordId) : List RecordId :=
  l.insertionSort fun i j => lruKey s i ≤ lruKey s j

def SessionSpillRecord.inRam (r : SessionSpillRecord) : Bool :=
  r.valid && (r.tier = .ram || r.cachedBytes ≠ 0)

variable (env : Env)

/-! ## Discarding -/

def rmtreeAll : List DirName → M Unit
  | [] => pure ()
  | d :: ds => do
    rmtree env d
    rmtreeAll ds

def dropBacking (i : RecordId) : M Unit := do
  let r ← getRecord i
  match r.backing with
  | none => pure ()
  | some b =>
    rmtree env b.directory
    modifyStore fun s => (s.setRecord i fun r => { r with backing := none }).creditDisk r.byteSize

/-- The bytes and the files of a record just untracked. -/
def discardBytes (i : RecordId) (r : SessionSpillRecord) : M Unit :=
  match r.tier with
  | .ram => do
    modifyStore (·.creditRam r.byteSize)
    dropBacking env i
    modifyStore (·.cancelWriteBehindOf i)
  | .disk => do
    modifyStore (·.creditDisk r.byteSize)
    modifyStore (·.dropCache i)
    rmtreeAll env (r.chunks.filterMap (fun c => c.file.map (·.dir)) ++ r.directory.toList).dedup

/-- `discard` of a record that owes no background write. -/
def discardSettled (i : RecordId) : M Unit := do
  let r ← getRecord i
  onlyIf r.valid do
    modifyStore fun s => ((s.cancelPrefetchOf i).forgetPromoted r.sessionId).untrack i
    discardBytes env i r
    modifyStore (·.setRecord i fun r => { r with chunks := [] })

/-- `write in self._pending_writes`: a list compares by identity first, then by the
dataclass's own `==`. Two writes are never equal, their events differ, but the
comparison reaches the token tensors before it reaches the events. -/
def memberOf (s : Store) (i : WriteId) : List WriteId → Except Fault Bool
  | [] => .ok false
  | j :: js =>
    if j = i then .ok true
    else if env.ambiguous (s.record (s.write j).record) (s.record (s.write i).record) then
      .error .runtimeError
    else memberOf s i js

def isPending (i : WriteId) : M Bool := do
  let s ← getStore
  match memberOf env s i s.pendingWrites with
  | .ok b => return b
  | .error e => throw e

/-- An upper bound on the steps the writer needs for all it has queued. -/
def writerWork (w : World) : Nat :=
  (w.threads.writer.queue.map fun i => 2 * (w.store.write i).jobs.length + 1).sum

def writerUntil (i : WriteId) : Nat → World → World
  | 0, w => w
  | n + 1, w => if w.threads.writer.done i then w else writerUntil i n (writerStep env w)

/-- `write.done.wait()`. -/
def waitDone (i : WriteId) : M Unit := modify fun w => writerUntil env i (writerWork w) w

/-- `_finish_write`: install one finished background write. `false` while it runs.
The record owes nothing any more when its write turns out to have failed, so that
the discard of it is `discardSettled`. -/
def finishWrite (i : WriteId) (wait : Bool) : M Bool := do
  let w ← get
  if !w.threads.writer.done i && !wait then return false
  else
    waitDone env i
    let member ← isPending env i
    onlyIf member (modifyStore (·.removePending i))
    modifyStore (·.settleWrite i)
    let w ← get
    let write := w.store.write i
    let r := w.store.record write.record
    if write.cancel || !r.valid then return true
    else
      tryCatch (do onlyIf (w.threads.writer.failed i) (throw .osError); publish env r) fun _ =>
        discardSettled env write.record
      return true

/-- `discard`. Waiting keeps the file in flight from landing in a later checkpoint
of the same session. -/
def discard (i : RecordId) : M Unit := do
  let r ← getRecord i
  onlyIf r.valid do
    match r.pending with
    | none => discardSettled env i
    | some wid =>
      modifyStore (·.setWrite wid fun p => { p with cancel := true })
      let _ ← finishWrite env wid true
      discardSettled env i

def discardOption : Option RecordId → M Unit
  | none => pure ()
  | some i => discard env i

def collectEach (wait : Bool) : List WriteId → M Unit
  | [] => pure ()
  | i :: is => do
    let finished ← finishWrite env i wait
    onlyIf finished (collectEach wait is)

/-- `collect_writes`; the queue is first in, first out, so a later write cannot be
done before one that runs. -/
def collectWrites (wait : Bool) : M Unit := do
  let s ← getStore
  collectEach env wait s.pendingWrites

/-! ## Tracking -/

/-- `_track`. -/
def track (r : SessionSpillRecord) : M RecordId := do
  let s ← getStore
  discardOption env (s.bySession r.sessionId)
  let s ← getStore
  modifyStore (·.add r)
  return s.nextRecord

/-- `touch`. -/
def touch (i : Option RecordId) : M Unit :=
  match i with
  | none => pure ()
  | some i => do
    let r ← getRecord i
    onlyIf r.valid do
      let now ← observe env env.now
      modifyStore (·.setRecord i fun r => { r with lastUsedAt := now })
      let r ← getRecord i
      ignoring (writeManifest env r)

/-- The least recently used valid record of another session. -/
def lruVictim (s : Store) (excludeSession : Option String) : Option RecordId :=
  (s.records.filter fun i =>
    (s.record i).valid && some (s.record i).sessionId ≠ excludeSession).argmin (lruKey s)

/-- `_evict_one_lru`. -/
def evictOneLru (excludeSession : Option String) : M Bool := do
  let s ← getStore
  match lruVictim s excludeSession with
  | none => return false
  | some victim =>
    discard env victim
    return true

/-! ## Room -/

/-- `_ram_has_room`. -/
def ramHasRoom (byteSize : Nat) : M Bool := do
  let mem ← observe env env.memAvailable
  let s ← getStore
  let headroom : Int := mem - s.config.hostReserveBytes - 256 * 2 ^ 20
  return (byteSize : Int) ≤ s.config.ramBudgetBytes - s.ramBytes - s.prefetchReservedBytes &&
    (byteSize : Int) ≤ headroom - s.prefetchReservedBytes

/-- `_disk_has_room`. -/
def diskHasRoom (byteSize : Nat) : M Bool := do
  let free ← observe env env.freeDisk
  let s ← getStore
  match free with
  | none => return false
  | some free =>
    return (byteSize : Int) ≤ s.config.diskBudgetBytes - s.diskBytes && byteSize + 2 ^ 30 ≤ free

/-- `_choose_tier`. -/
def chooseTier (byteSize : Nat) : M (Option Tier) := do
  if ← ramHasRoom env byteSize then return some .ram
  else if ← diskHasRoom env byteSize then return some .disk
  else return none

/-- The tier one pass of `_reserve_tier` picks, before it evicts anything. -/
def fittingTier (byteSize : Nat) (preferDisk : Bool) : M (Option Tier) := do
  let s ← getStore
  if s.ramBytes + s.diskBytes + byteSize ≤ s.config.limitBytes then
    if ← (if preferDisk then diskHasRoom env byteSize else pure false) then return some .disk
    else chooseTier env byteSize
  else return none

/-- The loop of `_reserve_tier`; every pass but the last evicts a record. -/
def reserveLoop (byteSize : Nat) (sessionId : String) (preferDisk : Bool) :
    Nat → M (Option Tier)
  | 0 => return none
  | n + 1 => do
    match ← fittingTier env byteSize preferDisk with
    | some tier => return some tier
    | none =>
      if ← evictOneLru env (some sessionId) then reserveLoop byteSize sessionId preferDisk n
      else return none

/-- `_reserve_tier`; a record larger than the whole cap is refused. -/
def reserveTier (byteSize : Nat) (sessionId : String) (preferDisk : Bool) : M (Option Tier) := do
  let s ← getStore
  if s.config.limitBytes < byteSize then return none
  else reserveLoop env byteSize sessionId preferDisk (s.records.length + 1)

end FreeToken.Spill

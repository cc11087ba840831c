import FreeToken.Spill.Records

/-!
# Moving records between the tiers

Write-behind (a disk copy of a RAM record, made in the background), demotion and
retirement, renaming a record to another session, and prefetch (the tensors of a
disk record, read in the background).
-/

namespace FreeToken.Spill

open FreeToken.Lib

variable (env : Env)

/-! ## Write-behind -/

def copierUntil : Nat → World → World
  | 0, w => w
  | n + 1, w => if (w.threads.copier.map (·.alive)).getD false then copierUntil n (copierStep env w)
    else w

/-- `state.thread.join()` of the write-behind. -/
def joinCopier : M Unit := modify fun w =>
  copierUntil env (2 * ((w.threads.copier.map (·.jobs.length)).getD 0) + 2) w

/-- The chunk files of a finished copy; the token file is not among them. -/
def Copier.files (c : Copier) : Option (List Path) :=
  if c.finished then some (c.jobs.tail.map (·.1)) else none

/-- Put the staging directory in the place of the record's directory. The manifest is
written in place here, not renamed over. -/
def installStaging (staging target : DirName) (m : Manifest) : M Unit := do
  rmtree env target
  call env (Disk.renameDir staging target)
  call env (Disk.put ⟨target, .manifest⟩ .unfinished)
  call env (Disk.put ⟨target, .manifest⟩ (.document m))

/-- The manifest of a disk copy: the record's own, over the files of the copy. -/
def copyManifest (modelId : String) (r : SessionSpillRecord) (files : List Path) : Manifest :=
  { manifestDocument env modelId r (some (.tokens none)) with
    chunks := List.zipWith (fun c path => ⟨c.family, c.layer, c.start, path.name, c.payload⟩)
      r.chunks files }

/-- Whether a finished copy can be adopted as the record's disk copy. -/
def copyFits (b : WriteBehind) (r : SessionSpillRecord) (files : Option (List Path)) : Bool :=
  !b.cancel && r.valid && r.tier = .ram && r.backing.isNone &&
    files.map (·.length) = some r.chunks.length

/-- `collect_write_behind` of the copy `b`, whose thread has ended. -/
def adoptCopy (b : WriteBehind) (files : Option (List Path)) : M Bool := do
  let s ← getStore
  let r := s.record b.record
  if copyFits b r files then
    let target : DirName := .session r.sessionId
    let files := (files.getD []).map fun path => ⟨target, path.name⟩
    let installed ← tryCatch
      (do
        installStaging env b.staging target (copyManifest env s.config.modelId r files)
        return true)
      fun _ => do
        rmtree env b.staging
        rmtree env target
        return false
    if installed then
      modifyStore (·.installBacking b.record ⟨target, ⟨target, .tokens none⟩, files⟩)
      return true
    else return false
  else
    rmtree env b.staging
    return false

/-- `collect_write_behind`. -/
def collectWriteBehind (wait : Bool) : M Bool := do
  let w ← get
  match w.store.writeBehind with
  | none => return false
  | some b =>
    if (w.threads.copier.map (·.alive)).getD false && !wait then return false
    else
      joinCopier env
      modifyStore fun s => { s with writeBehind := none }
      let w ← get
      adoptCopy env b (w.threads.copier.bind (·.files))

/-- `_drop_to_backing`: demote a record by forgetting its tensors. -/
def dropToBacking (i : RecordId) : M Bool := do
  let w ← get
  match (w.store.record i).backing with
  | none => return false
  | some b =>
    if b.files.all w.disk.isFile then
      modifyStore (·.movedToBacking i b)
      return true
    else
      dropBacking env i
      return false

/-! ## Demotion -/

def saveChunks (target : DirName) : Nat → List SpillChunk → M (List Path)
  | _, [] => return []
  | ordinal, c :: cs => do
    match c.value with
    | none => throw .valueError
    | some value =>
      let path : Path := ⟨target, .chunk none ordinal⟩
      save env value path
      let paths ← saveChunks target (ordinal + 1) cs
      return path :: paths

/-- Write every tensor of a RAM record; `none` when that fails. -/
def saveRecord (r : SessionSpillRecord) (target : DirName) : M (Option (List Path)) :=
  tryCatch
    (do
      save env (tokensTensor r.tokenIds) ⟨target, .tokens none⟩
      let files ← saveChunks env target 0 r.chunks
      return some files)
    fun _ => do
      rmtree env target
      return none

/-- The part of `_demote_to_disk` that writes the record out. -/
def writeOut (i : RecordId) : M Bool := do
  let r ← getRecord i
  if ← diskHasRoom env r.byteSize then
    let target ← prepareDir env r.sessionId
    match ← saveRecord env r target with
    | none => return false
    | some files =>
      modifyStore (·.movedToDisk i target files)
      let r ← getRecord i
      ignoring (writeManifest env r)
      return true
  else return false

/-- `_demote_to_disk`. -/
def demoteToDisk (i : RecordId) : M Bool := do
  let s ← getStore
  let r := s.record i
  if r.valid && r.tier = .disk && r.cachedBytes ≠ 0 then
    modifyStore (·.dropCache i)
    return true
  else if !r.valid || r.tier ≠ .ram then return false
  else
    onlyIf (s.writeBehind.map (·.record) = some i) do
      let _ ← collectWriteBehind env true
    if ← dropToBacking env i then return true
    else writeOut env i

/-- `retire`: keep a checkpoint its session has moved past only as the next one's
disk base. -/
def retire (i : Option RecordId) : M Unit :=
  match i with
  | none => pure ()
  | some i => do
    let r ← getRecord i
    onlyIf r.valid do
      modifyStore (·.dropCache i)
      onlyIf (r.tier = .ram) do
        let kept ← dropToBacking env i
        onlyIf (!kept) (discard env i)

def enforceEach : List RecordId → M Unit
  | [] => pure ()
  | i :: is => do
    if ← belowReserve env then
      let demoted ← demoteToDisk env i
      onlyIf (!demoted) (discard env i)
      enforceEach is
    else pure ()

/-- `enforce_host_reserve`: demote the oldest records in RAM until the live host
reserve is healthy, dropping those the disk does not take. -/
def enforceHostReserve : M Unit := do
  let s ← getStore
  enforceEach env ((s.records.filter fun i => (s.record i).inRam).insertionSort fun i j =>
    (s.record i).createdAt ≤ (s.record j).createdAt)

/-! ## Another session id -/

/-- The record's directory and its files, renamed. -/
def movedTo (target : DirName) (r : SessionSpillRecord) : SessionSpillRecord :=
  { r with
    chunks := r.chunks.map fun c => { c with file := c.file.map fun path => ⟨target, path.name⟩ }
    tokenFile := r.tokenFile.map fun path => ⟨target, path.name⟩
    directory := some target }

def Backing.movedTo (target : DirName) (b : Backing) : Backing :=
  ⟨target, ⟨target, b.tokenFile.name⟩, b.files.map fun path => ⟨target, path.name⟩⟩

/-- The files of a record move to the directory of another session. `false` when the
directory cannot be renamed; a disk copy that cannot be moved is dropped instead. -/
def moveFiles (i : RecordId) (target : DirName) : M Bool := do
  let r ← getRecord i
  match r.directory, r.backing with
  | some directory, _ => do
    rmtree env target
    tryCatch
      (do
        call env (Disk.renameDir directory target)
        modifyStore (·.setRecord i (movedTo target))
        return true)
      fun _ => return false
  | none, some b => do
    rmtree env target
    tryCatch
      (do
        call env (Disk.renameDir b.directory target)
        modifyStore (·.setRecord i fun r => { r with backing := some (b.movedTo target) }))
      fun _ => dropBacking env i
    return true
  | none, none => return true

/-- The write a record owes, if any, is waited for and installed. -/
def finishOwed (i : RecordId) : M Unit := do
  let r ← getRecord i
  match r.pending with
  | none => pure ()
  | some wid =>
    let _ ← finishWrite env wid true

/-- `rekey`: file a record under another session id, replacing any checkpoint there. -/
def rekey (i : Option RecordId) (sessionId : String) : M Bool := do
  match i with
  | none => return false
  | some i =>
    finishOwed env i
    let r ← getRecord i
    if !r.valid || r.sessionId = sessionId then return false
    else
      modifyStore fun s => (s.cancelPrefetchOf i).forgetPromoted r.sessionId
      let s ← getStore
      discardOption env (s.get sessionId)
      if ← moveFiles env i (.session sessionId) then
        modifyStore (·.refile i sessionId)
        let r ← getRecord i
        ignoring (writeManifest env r)
        return true
      else return false

/-! ## Prefetch -/

/-- `_chunk_needed` of a restore that reads the KV below its cut and the state at it. -/
def SpillChunk.needed (c : SpillChunk) (cut : Nat) : Bool :=
  if c.family.isState then c.start = cut else decide (c.start < cut)

/-- `state_boundaries`. -/
def SessionSpillRecord.stateBoundaries (r : SessionSpillRecord) : List Nat :=
  ((r.chunks.filter fun c => c.family = .gdnRecurrent).map (·.start)).dedup.insertionSort (· ≤ ·)

/-- `restorable_length`: the deepest stored boundary at or below the matched length. -/
def SessionSpillRecord.restorableLength (r : SessionSpillRecord) (matchedLen : Nat) : Nat :=
  (r.stateBoundaries.filter (· ≤ matchedLen)).foldr max 0

def matchedLen : List Int → List Int → Nat
  | a :: as, b :: bs => if a = b then matchedLen as bs + 1 else 0
  | _, _ => 0

/-- The size of a file, when it is there. -/
def Disk.size (fileSize : Content → Nat) (k : Disk) (p : Path) : Option Nat :=
  (k.content p).map fileSize

/-- `_prefetch_plan`: the positions of the chunks a restore of `tokenIds` reads, and
their bytes. `none`: nothing to restore; an empty list: a chunk is unreadable. -/
def planPrefetch (k : Disk) (r : SessionSpillRecord) (tokenIds : Option (List Int)) :
    Option (List Nat) × Nat :=
  let cut := match tokenIds with
    | none => r.numPages
    | some ids => r.restorableLength (matchedLen r.tokenIds ids)
  if tokenIds.isSome && cut = 0 then (none, 0)
  else
    let wanted := (List.range r.chunks.length).filter fun n =>
      r.chunks[n]?.any (·.needed cut)
    let sizes := wanted.mapM fun n =>
      (r.chunks[n]?.bind (·.file)).bind (k.size env.fileSize)
    match sizes with
    | none => (some [], 0)
    | some sizes => (some wanted, min sizes.sum r.byteSize)

/-- `_take_promoted`: report a promotion once, to the first caller that asks. -/
def takePromoted (sessionId : Option String) : M (Option String) := do
  let s ← getStore
  match s.promoted with
  | none => return none
  | some promoted =>
    if sessionId.isSome && some promoted ≠ sessionId then return none
    else
      modifyStore fun s => { s with promoted := none }
      return some promoted

def readerUntil : Nat → World → World
  | 0, w => w
  | n + 1, w => if (w.threads.reader.map (·.alive)).getD false then readerUntil n (readerStep env w)
    else w

/-- `state.thread.join()` of the prefetch. -/
def joinReader : M Unit := modify fun w =>
  readerUntil env ((w.threads.reader.map (·.files.length)).getD 0 + 1) w

/-- Lay the tensors a prefetch read on the chunks it read them for. -/
def withValues : List Nat → List Tensor → List SpillChunk → List SpillChunk
  | n :: ns, t :: ts, chunks =>
    withValues ns ts (chunks.modify n fun c => { c with value := some t })
  | _, _, chunks => chunks

/-- A finished promotion is installed: its reservation becomes the record's charge. -/
def Store.promote (p : Prefetch) (values : List Tensor) (s : Store) : Store :=
  let cached := (values.map (·.nbytes)).sum
  ((s.creditReserved p.reservedBytes).setRecord p.record fun r =>
    { r with chunks := withValues p.chunks values r.chunks, cachedBytes := cached }).charge
    .collectPrefetch ⟨cached, 0, 0⟩

/-- `collect_prefetch` of the promotion `p`, whose thread has ended. -/
def installPrefetch (p : Prefetch) (values : Option (List Tensor)) : M (Option String) := do
  let low ← belowReserve env
  let s ← getStore
  let r := s.record p.record
  match values with
  | some values =>
    if !p.cancel && r.valid && r.tier = .disk && r.cachedBytes = 0 &&
        p.chunks.all (· < r.chunks.length) && values.length = p.chunks.length && !low then
      modifyStore (·.promote p values)
      return some r.sessionId
    else
      modifyStore (·.creditReserved p.reservedBytes)
      return none
  | none =>
    modifyStore (·.creditReserved p.reservedBytes)
    return none

/-- `collect_prefetch`. -/
def collectPrefetch (sessionId : Option String) (wait : Bool) : M (Option String) := do
  let w ← get
  match w.store.prefetch with
  | none => takePromoted sessionId
  | some p =>
    if sessionId.isSome && some p.sessionId ≠ sessionId then takePromoted sessionId
    else if (w.threads.reader.map (·.alive)).getD false && !wait then return none
    else
      joinReader env
      -- the cancel event of the promotion itself, which the store forgets here
      let w ← get
      modifyStore fun s => { s with prefetch := none }
      installPrefetch env p (w.threads.reader.bind (·.result))

/-- `cancel_prefetch`. -/
def cancelPrefetch (sessionId : Option String) : M Bool := do
  let s ← getStore
  match s.prefetch with
  | none => return false
  | some p =>
    if sessionId.isSome && some p.sessionId ≠ sessionId then return false
    else
      modifyStore (·.cancelPrefetch)
      return true

def demoteUntil (byteSize : Nat) : List RecordId → M Bool
  | [] => ramHasRoom env byteSize
  | i :: is => do
    let demoted ← demoteToDisk env i
    if ← (if demoted then ramHasRoom env byteSize else pure false) then return true
    else demoteUntil byteSize is

/-- `_make_ram_room`: demote the least recently used records in RAM until it fits. -/
def makeRamRoom (byteSize : Nat) (protect : List String) : M Bool := do
  if ← ramHasRoom env byteSize then return true
  else
    let s ← getStore
    demoteUntil env byteSize (lruOrder s (s.records.filter fun i =>
      (s.record i).inRam && !protect.contains (s.record i).sessionId))

/-- The plan of a prefetch, read from the record's memo when it was made for a
request of the same length. -/
def prefetchPlan (i : RecordId) (tokenIds : Option (List Int)) : M PrefetchPlan := do
  let w ← get
  let r := w.store.record i
  match r.prefetchPlan.filter fun plan =>
      plan.numPages = r.numPages && plan.requestLen = tokenIds.map (·.length) with
  | some plan => return plan
  | none =>
    let (wanted, reserve) := planPrefetch env w.disk r tokenIds
    let plan : PrefetchPlan := ⟨r.numPages, tokenIds.map (·.length), wanted, reserve⟩
    modifyStore (·.setRecord i fun r => { r with prefetchPlan := some plan })
    return plan

/-- Reserve the bytes and start the reader; when the thread does not start, the
reservation is given back. -/
def beginPrefetch (sessionId : String) (i : RecordId) (wanted : List Nat) (reserve : Nat) :
    M Bool := do
  let r ← getRecord i
  modifyStore (·.charge .startPrefetch ⟨0, 0, reserve⟩)
  modifyStore fun s => { s with prefetch := some ⟨sessionId, i, false, reserve, wanted⟩ }
  if ← observe env env.fails then
    modifyStore fun s => { s with prefetch := none }
    modifyStore (·.creditReserved reserve)
    return false
  else
    let files := wanted.filterMap fun n => r.chunks[n]?.bind (·.file)
    modify fun w => { w with threads := { w.threads with reader := some ⟨files, [], none, true⟩ } }
    return true

/-- The record a prefetch of this session could promote. -/
def prefetchable (s : Store) (sessionId : String) : Option RecordId :=
  (s.get sessionId).filter fun i =>
    (s.record i).tier = .disk && (s.record i).cachedBytes = 0 && (s.record i).pending.isNone

/-- `start_prefetch`: one promotion at a time. -/
def startPrefetch (sessionId : String) (protect : List String) (tokenIds : Option (List Int)) :
    M Bool := do
  let reaped ← collectPrefetch env none false
  onlyIf (reaped.isSome) (modifyStore fun s => { s with promoted := reaped })
  let s ← getStore
  if s.prefetch.isSome then return false
  else
    match prefetchable s sessionId with
    | none => return false
    | some i =>
      let plan ← prefetchPlan env i tokenIds
      match plan.wanted with
      | none => return false
      | some [] => return false
      | some wanted =>
        if ← makeRamRoom env plan.reserve (sessionId :: protect) then
          beginPrefetch env sessionId i wanted plan.reserve
        else return false

/-! ## Starting a write-behind -/

/-- The least recently used RAM record without a disk copy. -/
def copyVictim (s : Store) (protect : List String) : Option RecordId :=
  (lruOrder s (s.records.filter fun i =>
    (s.record i).valid && (s.record i).tier = .ram && (s.record i).backing.isNone &&
      !protect.contains (s.record i).sessionId)).head?

/-- Start the thread that copies the tensors of record `i`. -/
def beginCopy (i : RecordId) (values : List Tensor) : M Bool := do
  let r ← getRecord i
  let uuid ← freshUuid
  let staging : DirName := .staging uuid
  modifyStore fun s => { s with writeBehind := some ⟨i, staging, false⟩ }
  if ← observe env env.fails then
    modifyStore fun s => { s with writeBehind := none }
    return false
  else
    let jobs := (⟨staging, .tokens none⟩, tokensTensor r.tokenIds) ::
      values.mapIdx fun n value => (⟨staging, .chunk none n⟩, value)
    modify fun w => { w with
      threads := { w.threads with copier := some ⟨staging, false, jobs, 0, false, false, true⟩ } }
    return true

/-- `start_write_behind`: one copy at a time, of the next demotion victim, and only when
the next promotion will demote it. -/
def startWriteBehind (protect : List String) : M Bool := do
  let _ ← collectWriteBehind env false
  let s ← getStore
  if s.writeBehind.isSome then return false
  else
    match copyVictim s protect with
    | none => return false
    | some i =>
      let r := s.record i
      if ← ramHasRoom env r.byteSize then return false
      else if !(← diskHasRoom env r.byteSize) then return false
      else if s.config.limitBytes < s.ramBytes + s.diskBytes + r.byteSize then return false
      else
        match r.chunks.mapM (·.value) with
        | none => return false
        | some values => beginCopy env i values

end FreeToken.Spill

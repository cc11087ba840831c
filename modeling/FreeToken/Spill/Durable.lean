import FreeToken.Spill.Checkpoint

/-!
# The durability barrier

`persist_durable` writes every RAM record and every resident source to disk as a new
generation of its session's directory. Each publication switches the manifest last,
then takes ownership in memory, then removes the files of the old generation.
-/

namespace FreeToken.Spill

open FreeToken.Lib

def durableGenerationOverhead : Nat := 64 * 2 ^ 20

inductive DurableError
  | disabled
  | invalidSource
  | finalCapacity
  | peakCapacity
  | diskCheckFailed
  | filesystemReserve
  | session (sessionId : String)
  deriving DecidableEq, Repr

structure DurableSpillResult where
  complete : Bool
  durableSessionIds : List String
  error : Option DurableError
  deriving DecidableEq, Repr

/-- A chunk to publish; `none` is a RAM chunk that has lost its tensor. -/
abbrev DurablePart := Family × Int × Nat × Option Tensor

namespace Store

/-- The previous record of a session gives its bytes up. -/
def release (i : RecordId) (s : Store) : Store :=
  let r := s.record i
  let s := { s with records := s.records.filter (· ≠ i) }
  let s := match r.tier with
    | .ram =>
      let s := s.creditRam r.byteSize
      if r.backing.isSome then
        (s.creditDisk r.byteSize).setRecord i fun r => { r with backing := none }
      else s
    | .disk => (s.creditDisk r.byteSize).dropCache i
  s.setRecord i fun r => { r with valid := false, chunks := [] }

/-- `_install_durable_record`. -/
def installDurable (r : SessionSpillRecord) (previous : Option RecordId) (s : Store) : Store :=
  let s := previous.elim s fun i => s.release i
  let i := s.nextRecord
  charge .durable ⟨0, r.byteSize, 0⟩
    { s with
      records := s.records ++ [i]
      record := Function.update s.record i r
      nextRecord := i + 1
      bySession := Function.update s.bySession r.sessionId (some i) }

end Store

variable (env : Env)

/-- Whether the body went through; a raise is swallowed. -/
def succeeds (m : M Unit) : M Bool :=
  tryCatch (do m; return true) fun _ => return false

/-- The bytes of the files of `created` that exist. -/
def writtenBytes (k : Disk) (created : List Path) : Nat :=
  (created.filterMap (k.size env.fileSize)).sum

/-- `_save_bounded`: no more than `limit` bytes reach the file. -/
def saveBounded (value : Tensor) (path : Path) (limit : Int) : M Unit := do
  call env (Disk.putNew path .unfinished)
  onlyIf (limit < env.fileSize (.tensor value)) (throw .osError)
  call env (Disk.put path (.tensor value))
  fsync env

/-- `remaining_bytes`. -/
def remainingBytes (limit : Nat) (created : List Path) : M Int := do
  let w ← get
  return (limit : Int) - writtenBytes env w.disk created

/-- The chunk files of a generation; `none` when one could not be written. -/
def stageChunks (d : DirName) (uuid limit : Nat) :
    Nat → List DurablePart → List Path → List SpillChunk → M (List Path × Option (List SpillChunk))
  | _, [], created, chunks => return (created, some chunks)
  | ordinal, (family, layer, start, value) :: parts, created, chunks => do
    match value with
    | none => return (created, none)
    | some value =>
      if ← succeeds (mayRaise env .runtimeError) then
        let path : Path := ⟨d, .chunk (some uuid) ordinal⟩
        let remaining ← remainingBytes env limit created
        if ← succeeds (saveBounded env value path remaining) then
          stageChunks d uuid limit (ordinal + 1) parts (path :: created)
            (chunks ++ [⟨family, layer, start, none, some path, value⟩])
        else return (path :: created, none)
      else return (created, none)

/-- Write the manifest of a generation beside the old one, and switch. -/
def switchManifest (d : DirName) (uuid limit : Nat) (r : SessionSpillRecord)
    (created : List Path) : M Unit := do
  let s ← getStore
  let m := manifestDocument env s.config.modelId r (some (.tokens (some uuid)))
  let tmp : Path := ⟨d, .manifestTmp (some uuid)⟩
  let remaining ← remainingBytes env limit created
  onlyIf (remaining < env.fileSize (.document m)) (throw .osError)
  call env (Disk.put tmp .unfinished)
  call env (Disk.put tmp (.document m))
  fsync env
  let w ← get
  onlyIf (limit < writtenBytes env w.disk (tmp :: created)) (throw .valueError)
  call env (Disk.replace d (.manifestTmp (some uuid)) .manifest)

/-- Everything up to the switch: the files created, and the record when it was
published. -/
def stageGeneration (r : SessionSpillRecord) (d : DirName) (uuid : Nat)
    (parts : List DurablePart) : M (List Path × Option SessionSpillRecord) := do
  let limit := r.byteSize + durableGenerationOverhead
  let tokens : Path := ⟨d, .tokens (some uuid)⟩
  let remaining ← remainingBytes env limit []
  if ← succeeds (saveBounded env (tokensTensor r.tokenIds) tokens remaining) then
    let (created, chunks) ← stageChunks env d uuid limit 0 parts [tokens] []
    match chunks with
    | none => return (created, none)
    | some chunks =>
      let r := { r with chunks := chunks, tokenFile := some tokens }
      if ← succeeds (switchManifest env d uuid limit r created) then return (created, some r)
      else return (⟨d, .manifestTmp (some uuid)⟩ :: created, none)
  else return ([tokens], none)

/-- `_load_record` of a directory, which may fail to be read. -/
def verify (pools : Pools) (d : DirName) : M (Option SessionSpillRecord) := do
  let s ← getStore
  if ← observe env env.fails then return none
  else
    let w ← get
    return loadRecord env s.config.modelId pools.fingerprint w.disk d

/-- The checks after the switch. -/
def confirm (pools : Pools) (r : SessionSpillRecord) (d : DirName) : M Unit := do
  fsync env
  fsync env
  let verified ← verify env pools d
  onlyIf (!verified.any fun v =>
      v.sessionId = r.sessionId && v.byteSize = r.byteSize && v.numPages = r.numPages &&
        v.chunks.length = r.chunks.length)
    (throw .valueError)

def unlinkPaths : List Path → M Unit
  | [] => pure ()
  | p :: ps => do
    call env (Disk.unlink p)
    unlinkPaths ps

/-- `_publish_durable`. Ownership in memory follows the switched manifest even when a
later check fails. -/
def publishDurable (pools : Pools) (sessionId : String) (tokenIds : List Int)
    (numPages byteSize : Nat) (parts : List DurablePart) (previous : Option RecordId) :
    M Unit := do
  let d : DirName := .session sessionId
  call env (Disk.mkdirExistOk d)
  let uuid ← freshUuid
  let now ← observe env env.now
  let r : SessionSpillRecord := {
    tokenIds := tokenIds, numPages := numPages, byteSize := byteSize
    fingerprint := pools.fingerprint, tier := .disk, chunks := [], sessionId := sessionId
    createdAt := now, lastUsedAt := now, directory := some d }
  let (created, staged) ← stageGeneration env r d uuid parts
  match staged with
  | none => do
    unlinkPaths env created
    throw .osError
  | some r => do
    let confirmed ← succeeds (confirm env pools r d)
    modifyStore (·.installDurable r previous)
    onlyIf (!confirmed) (throw .valueError)
    unlinkOthers env d (namedFiles r)
    fsync env
    fsync env

/-! ## The barrier -/

/-- `_source_plan`: the tensors of a resident source, and their bytes. -/
def sourcePlan (pools : Pools) (config : Config) (source : SpillRequest) :
    List DurablePart × Nat :=
  let states := stateSources source none
  let boundaries := selectStateBoundaries (states.map (·.1)) source.pageIndices.length
    config.stateStrideTokens config.maxStates
  let kv := pools.iterSpillTensors source.pageIndices spillChunkPages 0
  let parts := kv.map (fun (family, layer, start, value) => (family, layer, start, some value)) ++
    boundaries.flatMap fun b =>
      ((states.lookup b).elim [] (stateParts pools b)).filterMap fun
        | .fresh family layer start value => some (family, layer, start, some value)
        | .kept _ => none
  (parts, pools.payloadBytes source.pageIndices.length source.tokenIds boundaries.length)

/-- The valid records by session id; the last of a shared id counts. -/
def existingRecords (s : Store) : List (String × RecordId) :=
  (s.records.filter fun i => (s.record i).valid).reverse.map fun i => ((s.record i).sessionId, i)

/-- What the barrier has to do, computed before it writes anything. -/
structure BarrierPlan where
  existing : List (String × RecordId)
  sources : List (String × SpillRequest)
  expected : List String

def barrierPlan (s : Store) (sources : List SpillRequest) : BarrierPlan where
  existing := existingRecords s
  sources := sources.map fun source => (source.sessionId, source)
  expected := (((existingRecords s).map (·.1) ++ sources.map (·.sessionId)).dedup).insertionSort
    (· ≤ ·)

namespace BarrierPlan

/-- The bytes of a session's final checkpoint. -/
def finalSize (plan : BarrierPlan) (pools : Pools) (s : Store) (sid : String) : Nat :=
  match plan.sources.lookup sid with
  | some source => (sourcePlan pools s.config source).2
  | none => ((plan.existing.lookup sid).map fun i => (s.record i).byteSize).getD 0

/-- Whether the session's checkpoint is written anew. -/
def rewrites (plan : BarrierPlan) (s : Store) (sid : String) : Bool :=
  (plan.sources.lookup sid).isSome ||
    (plan.existing.lookup sid).any fun i => (s.record i).tier = .ram

def finalBytes (plan : BarrierPlan) (pools : Pools) (s : Store) : Nat :=
  (plan.expected.map (plan.finalSize pools s)).sum

def writeBytes (plan : BarrierPlan) (pools : Pools) (s : Store) : Nat :=
  ((plan.expected.filter (plan.rewrites s)).map fun sid =>
    plan.finalSize pools s sid + durableGenerationOverhead).sum

end BarrierPlan

/-- `_owned_physical_bytes`: the files of the session directories. -/
def ownedPhysicalBytes (k : Disk) : Nat :=
  (k.entries.filterMap fun entry =>
    match entry.1 with
    | .session _ => some (entry.2.entries.map fun file => env.fileSize file.2).sum
    | .staging _ => none).sum

/-- The checks of a disk record: its files are flushed and its manifest is read back. -/
def flushRecord (pools : Pools) (sid : String) (r : SessionSpillRecord) : M Unit := do
  let w ← get
  let d := r.directory.getD (.session sid)
  let tokens := r.tokenFile.getD ⟨d, .tokens none⟩
  let files := tokens :: ⟨d, .manifest⟩ :: r.chunks.filterMap (·.file)
  onlyIf (!files.all w.disk.isFile) (throw .osError)
  fsync env
  let verified ← verify env pools d
  onlyIf (!verified.any fun v => v.sessionId = sid) (throw .valueError)

/-- Make the checkpoint of one session durable. -/
def persistOne (pools : Pools) (plan : BarrierPlan) (sid : String) : M Unit := do
  let s ← getStore
  let previous := plan.existing.lookup sid
  match plan.sources.lookup sid, previous with
  | some source, _ => do
    mayRaise env .runtimeError
    let (parts, byteSize) := sourcePlan pools s.config source
    publishDurable env pools sid source.tokenIds source.pageIndices.length byteSize parts previous
  | none, some i =>
    let r := s.record i
    if r.tier = .ram then
      publishDurable env pools sid r.tokenIds r.numPages r.byteSize
        (r.chunks.map fun c => (c.family, c.layer, c.start, c.value)) previous
    else flushRecord env pools sid r
  | none, none => pure ()

def persistEach (pools : Pools) (plan : BarrierPlan) :
    List String → List String → M DurableSpillResult
  | [], durable => return ⟨true, durable, none⟩
  | sid :: sids, durable => do
    if ← succeeds (persistOne env pools plan sid) then
      persistEach pools plan sids (durable ++ [sid])
    else return ⟨false, durable, some (.session sid)⟩

/-- `persist_durable`. -/
def persistDurable (pools : Pools) (sources : List SpillRequest) : M DurableSpillResult := do
  let s ← getStore
  if !s.config.persist then return ⟨false, [], some .disabled⟩
  else
    collectWrites env true
    let ids := sources.map (·.sessionId)
    if ids.contains "" || decide (¬ids.Nodup) then return ⟨false, [], some .invalidSource⟩
    else
      let w ← get
      let s := w.store
      let plan := barrierPlan s sources
      let peak := ownedPhysicalBytes env w.disk + plan.writeBytes pools s
      if s.config.diskBudgetBytes < plan.finalBytes pools s ||
          s.config.limitBytes < plan.finalBytes pools s then
        return ⟨false, [], some .finalCapacity⟩
      else if s.config.diskBudgetBytes < peak || s.config.limitBytes < peak then
        return ⟨false, [], some .peakCapacity⟩
      else
        match ← observe env env.freeDisk with
        | none => return ⟨false, [], some .diskCheckFailed⟩
        | some free =>
          if free < plan.writeBytes pools s + 2 ^ 30 then
            return ⟨false, [], some .filesystemReserve⟩
          else persistEach env pools plan plan.expected []

end FreeToken.Spill

import Mathlib.Algebra.BigOperators.Group.List.Basic
import Mathlib.Algebra.Ring.Nat
import Mathlib.Logic.Function.Basic
import FreeToken.Lib.Hoare
import FreeToken.Spill.Disk

/-!
# The spill store, its threads and its disk

`World` is everything `SessionSpillStore` works on: the store object with its
records (a heap of objects, numbered), the three background threads, and the disk.

What the store does not decide is an `Env`, read at a clock that each file-system
call moves on: whether a call fails, which threads took a step before it, how a
directory is listed, how much host RAM is available. Every interleaving of the
threads with the scheduler thread is the schedule of some `Env`.

Three fields are not in the source. `disks` are the states the disk has passed
through, `moments` the balances the counters have passed through, and `charges`
what was charged, where, and on top of which balance; `clamped` says whether a
`max(0, ..)` has ever cut a negative number off.
-/

namespace FreeToken.Spill

open FreeToken.Lib

abbrev RecordId := Nat
abbrev WriteId := Nat

inductive Tier
  | ram
  | disk
  deriving DecidableEq, Repr

/-- `payload` is not in the source: the tensor the chunk stands for, in RAM or not. -/
structure SpillChunk where
  family : Family
  layer : Int
  start : Nat
  value : Option Tensor
  file : Option Path
  payload : Tensor
  deriving DecidableEq, Repr

/-- The disk copy of a RAM record: directory, token file, chunk files. -/
structure Backing where
  directory : DirName
  tokenFile : Path
  files : List Path
  deriving DecidableEq, Repr

/-- `start_prefetch`'s memo: the request it was made for, the positions of the
chunks to read (`none`: nothing to restore), and their bytes. -/
structure PrefetchPlan where
  numPages : Nat
  requestLen : Option Nat
  wanted : Option (List Nat)
  reserve : Nat
  deriving DecidableEq, Repr

structure SessionSpillRecord where
  tokenIds : List Int
  numPages : Nat
  byteSize : Nat
  fingerprint : Nat
  tier : Tier
  chunks : List SpillChunk
  valid : Bool := true
  sessionId : String := ""
  createdAt : Nat := 0
  lastUsedAt : Nat := 0
  directory : Option DirName := none
  tokenFile : Option Path := none
  backing : Option Backing := none
  cachedBytes : Nat := 0
  pending : Option WriteId := none
  prefetchPlan : Option PrefetchPlan := none
  deriving DecidableEq, Repr

/-- A place in the heap no object was made at. -/
def SessionSpillRecord.absent : SessionSpillRecord where
  tokenIds := []
  numPages := 0
  byteSize := 0
  fingerprint := 0
  tier := .disk
  chunks := []
  valid := false

/-- `_PendingWrite`; whether it is `done` or has `failed` is the writer's to say. -/
structure PendingWrite where
  record : RecordId
  jobs : List (Path × Tensor)
  nbytes : Nat
  cancel : Bool := false
  charged : Bool := true
  deriving DecidableEq, Repr

/-- `_Prefetch`; `chunks` are positions in the record's chunk list. -/
structure Prefetch where
  sessionId : String
  record : RecordId
  cancel : Bool
  reservedBytes : Nat
  chunks : List Nat
  deriving DecidableEq, Repr

structure WriteBehind where
  record : RecordId
  staging : DirName
  cancel : Bool
  deriving DecidableEq, Repr

structure Config where
  ramBudgetBytes : Nat
  diskBudgetBytes : Nat
  hostReserveBytes : Nat
  limitBytes : Nat
  persist : Bool
  modelId : String
  stateStrideTokens : Nat
  maxStates : Nat
  deriving DecidableEq, Repr

structure Balance where
  ram : Nat
  disk : Nat
  reserved : Nat
  deriving DecidableEq, Repr

/-- The places that charge a counter. -/
inductive Site
  | trackRam
  | trackDisk
  | queueWrite
  | demote
  | durable
  | startPrefetch
  | collectPrefetch
  | collectWriteBehind
  deriving DecidableEq, Repr

structure Charge where
  site : Site
  amount : Balance
  before : Balance
  deriving DecidableEq, Repr

structure Store where
  config : Config
  prefetch : Option Prefetch
  prefetchReservedBytes : Nat
  promoted : Option String
  writeBehind : Option WriteBehind
  pendingWrites : List WriteId
  ramBytes : Nat
  diskBytes : Nat
  records : List RecordId
  bySession : String → Option RecordId
  record : RecordId → SessionSpillRecord
  write : WriteId → PendingWrite
  nextRecord : RecordId
  nextWrite : WriteId
  moments : List Balance
  charges : List Charge
  clamped : Bool

namespace Store

def empty (config : Config) : Store where
  config := config
  prefetch := none
  prefetchReservedBytes := 0
  promoted := none
  writeBehind := none
  pendingWrites := []
  ramBytes := 0
  diskBytes := 0
  records := []
  bySession := fun _ => none
  record := fun _ => .absent
  write := fun _ => ⟨0, [], 0, false, true⟩
  nextRecord := 0
  nextWrite := 0
  moments := []
  charges := []
  clamped := false

def balance (s : Store) : Balance := ⟨s.ramBytes, s.diskBytes, s.prefetchReservedBytes⟩

/-- Write the balance just reached down. -/
def noted (s : Store) : Store := { s with moments := s.balance :: s.moments }

def charge (site : Site) (amount : Balance) (s : Store) : Store :=
  noted { s with
    ramBytes := s.ramBytes + amount.ram
    diskBytes := s.diskBytes + amount.disk
    prefetchReservedBytes := s.prefetchReservedBytes + amount.reserved
    charges := ⟨site, amount, s.balance⟩ :: s.charges }

/-- `self.ram_bytes = max(0, self.ram_bytes - n)`. -/
def creditRam (n : Nat) (s : Store) : Store :=
  noted { s with
    ramBytes := s.ramBytes - n
    clamped := s.clamped || decide (s.ramBytes < n) }

/-- `self.disk_bytes = max(0, self.disk_bytes - n)`. -/
def creditDisk (n : Nat) (s : Store) : Store :=
  noted { s with
    diskBytes := s.diskBytes - n
    clamped := s.clamped || decide (s.diskBytes < n) }

/-- `self._prefetch_reserved_bytes = max(0, self._prefetch_reserved_bytes - n)`. -/
def creditReserved (n : Nat) (s : Store) : Store :=
  noted { s with
    prefetchReservedBytes := s.prefetchReservedBytes - n
    clamped := s.clamped || decide (s.prefetchReservedBytes < n) }

def setRecord (i : RecordId) (f : SessionSpillRecord → SessionSpillRecord) (s : Store) : Store :=
  { s with record := Function.update s.record i (f (s.record i)) }

def setWrite (i : WriteId) (f : PendingWrite → PendingWrite) (s : Store) : Store :=
  { s with write := Function.update s.write i (f (s.write i)) }

/-- `get`: the checkpoint filed under a session id, while it is valid. -/
def get (sessionId : String) (s : Store) : Option RecordId :=
  (s.bySession sessionId).filter fun i => (s.record i).valid

end Store

/-! ## Threads -/

inductive Thread
  | writer
  | reader
  | copier
  deriving DecidableEq, Repr

/-- The writer thread: its queue, how many files of the head it has finished, and
whether the next one is open. -/
structure Writer where
  queue : List WriteId
  position : Nat
  opened : Bool
  done : WriteId → Bool
  failed : WriteId → Bool

/-- The thread of a prefetch: the files it has yet to read, and what it has read. -/
structure Reader where
  files : List Path
  values : List Tensor
  result : Option (List Tensor)
  alive : Bool

/-- The thread of a write-behind: the files of its staging directory, of which the
first `position` are written. -/
structure Copier where
  staging : DirName
  made : Bool
  jobs : List (Path × Tensor)
  position : Nat
  opened : Bool
  finished : Bool
  alive : Bool

structure Threads where
  writer : Writer
  reader : Option Reader
  copier : Option Copier

def Threads.idle : Threads := ⟨⟨[], 0, false, fun _ => false, fun _ => false⟩, none, none⟩

/-- What is outside the store. `ambiguous` is torch's: comparing two records field
by field asks whether a tensor of truth values is true, and raises unless it has
exactly one element. `freeDisk` is `none` when the file system does not answer. -/
structure Env where
  fails : Nat → Bool
  schedule : Nat → List Thread
  scan : Nat → List FileName → List FileName
  entries : Nat → List DirName → List DirName
  memAvailable : Nat → Nat
  freeDisk : Nat → Option Nat
  now : Nat → Nat
  fileSize : Content → Nat
  hash : List Int → Nat
  ambiguous : SessionSpillRecord → SessionSpillRecord → Bool

structure World where
  store : Store
  threads : Threads
  disk : Disk
  disks : List Disk
  tick : Nat
  uuid : Nat

namespace World

def ticked (w : World) : World := { w with tick := w.tick + 1 }

/-- The disk after one more file-system step. -/
def wrote (k : Disk) (w : World) : World :=
  { w with disk := k, disks := k :: w.disks, tick := w.tick + 1 }

def withWriter (f : Writer → Writer) (w : World) : World :=
  { w with threads := { w.threads with writer := f w.threads.writer } }

end World

/-- One file-system call of a thread: the disk after it, or `none` when it fails. -/
def attempt (env : Env) (act : Disk → Option Disk) (w : World) : Option Disk :=
  if env.fails w.tick then none else act w.disk

/-- The head of the queue is finished, `failed` or not. -/
def Writer.finish (failed : Bool) (t : Writer) : Writer :=
  match t.queue with
  | [] => t
  | i :: rest =>
    { queue := rest, position := 0, opened := false
      done := Function.update t.done i true
      failed := Function.update t.failed i failed }

/-- One step of `_writer`: open a file, complete it, or finish with a write. The
cancel event is looked at before each file. -/
def writerStep (env : Env) (w : World) : World :=
  let t := w.threads.writer
  match t.queue with
  | [] => w
  | i :: _ =>
    match (w.store.write i).jobs[t.position]? with
    | none => w.ticked.withWriter (·.finish false)
    | some (path, value) =>
      if t.opened then
        match attempt env (Disk.put path (.tensor value)) w with
        | some k => (w.wrote k).withWriter
            fun t => { t with position := t.position + 1, opened := false }
        | none => w.ticked.withWriter (·.finish true)
      else if (w.store.write i).cancel then w.ticked.withWriter (·.finish false)
      else
        match attempt env (Disk.put path .unfinished) w with
        | some k => (w.wrote k).withWriter fun t => { t with opened := true }
        | none => w.ticked.withWriter (·.finish true)

/-- One step of `_read`: the next file, or the end. -/
def readerStep (env : Env) (w : World) : World :=
  let set (r : Reader) : World := { w.ticked with threads := { w.threads with reader := some r } }
  match w.threads.reader with
  | none => w
  | some r =>
    if r.alive then
      match r.files with
      | [] => set { r with result := some r.values, alive := false }
      | path :: rest =>
        if (w.store.prefetch.map (·.cancel)).getD true || env.fails w.tick then
          set { r with alive := false }
        else
          match w.disk.content path with
          | some (.tensor t) => set { r with files := rest, values := r.values ++ [t] }
          | _ => set { r with alive := false }
    else w

/-- One step of `_write`: make the staging directory, then the token file and the
chunk files. The cancel event is looked at before each chunk file. -/
def copierStep (env : Env) (w : World) : World :=
  let set (w' : World) (c : Copier) : World :=
    { w' with threads := { w'.threads with copier := some c } }
  match w.threads.copier with
  | none => w
  | some c =>
    if !c.alive then w
    else if !c.made then
      match attempt env (Disk.mkdir c.staging) w with
      | some k => set (w.wrote k) { c with made := true }
      | none => set w.ticked { c with alive := false }
    else
      match c.jobs[c.position]? with
      | none => set w.ticked { c with finished := true, alive := false }
      | some (path, value) =>
        if c.opened then
          match attempt env (Disk.put path (.tensor value)) w with
          | some k => set (w.wrote k) { c with position := c.position + 1, opened := false }
          | none => set w.ticked { c with alive := false }
        else if c.position ≠ 0 && (w.store.writeBehind.map (·.cancel)).getD true then
          set w.ticked { c with alive := false }
        else
          match attempt env (Disk.put path .unfinished) w with
          | some k => set (w.wrote k) { c with opened := true }
          | none => set w.ticked { c with alive := false }

def threadStep (env : Env) (w : World) : Thread → World
  | .writer => writerStep env w
  | .reader => readerStep env w
  | .copier => copierStep env w

/-! ## Programs of the scheduler thread -/

inductive Fault
  | osError
  | valueError
  | runtimeError
  deriving DecidableEq, Repr

abbrev M := Prog World Fault

variable (env : Env)

/-- The steps the threads take before the next call of the scheduler thread. -/
def interfere (w : World) : World := (env.schedule w.tick).foldl (threadStep env) w

/-- One file-system call. -/
def call (act : Disk → Option Disk) : M Unit := do
  modify (interfere env)
  let w ← get
  match attempt env act w with
  | some k => set (w.wrote k)
  | none =>
    set w.ticked
    throw .osError

/-- Take one look outside: the clock moves on. -/
def observe {α : Type} (look : Nat → α) : M α := do
  modify (interfere env)
  let w ← get
  set w.ticked
  return look w.tick

/-- A call outside the file system that may raise: a copy from the device, starting
a thread. -/
def mayRaise (e : Fault) : M Unit := do
  let failed ← observe env env.fails
  onlyIf failed (throw e)

def modifyStore (f : Store → Store) : M Unit :=
  modify fun w => { w with store := f w.store }

def getStore : M Store := do return (← get).store

def getRecord (i : RecordId) : M SessionSpillRecord := do return (← get).store.record i

/-- `uuid.uuid4().hex`. -/
def freshUuid : M Nat := do
  let w ← get
  set { w with uuid := w.uuid + 1 }
  return w.uuid

/-- `try .. except Exception: pass`. -/
def ignoring (m : M Unit) : M Unit := tryCatch m fun _ => pure ()

/-- `_mem_available_bytes() < self.host_reserve_bytes + (256 << 20)`. -/
def belowReserve : M Bool := do
  let s ← getStore
  let mem ← observe env env.memAvailable
  return decide (mem < s.config.hostReserveBytes + 256 * 2 ^ 20)

/-! ## Files -/

def unlinkAll (d : DirName) : List FileName → M Unit
  | [] => pure ()
  | n :: ns => do
    ignoring (call env (Disk.unlink ⟨d, n⟩))
    unlinkAll d ns

/-- `shutil.rmtree(.., ignore_errors=True)`: the files in the order the directory
lists them, then the directory. -/
def rmtree (d : DirName) : M Unit := do
  let w ← get
  match w.disk.lookup d with
  | none => pure ()
  | some dir =>
    unlinkAll env d (env.scan w.tick dir.keys)
    ignoring (call env (Disk.rmdir d))

/-- `torch.save`: the file is there before it is complete. -/
def save (value : Tensor) (path : Path) : M Unit := do
  call env (Disk.put path .unfinished)
  call env (Disk.put path (.tensor value))

/-- `_fsync_file` and `_fsync_dir`, which may fail and change no content. -/
def fsync : M Unit := call env some

/-- `_prepare_dir`. -/
def prepareDir (sessionId : String) : M DirName := do
  rmtree env (.session sessionId)
  call env (Disk.mkdir (.session sessionId))
  return .session sessionId

end FreeToken.Spill

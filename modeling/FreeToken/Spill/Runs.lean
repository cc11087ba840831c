import FreeToken.Lib.Reach
import FreeToken.Spill.Durable

/-!
# Runs of the store

A store is started over whatever its root holds (`boot`), and from then on the
scheduler calls its methods in any order, with any records it was once given, while
the threads take steps in between. A call that raises leaves the store as it is at
the raise, and the run goes on from there.
-/

namespace FreeToken.Spill

open FreeToken.Lib

variable (env : Env)

/-- One entry of `_adopt_root`: a checkpoint that still matches is tracked, anything
else is deleted. -/
def adoptEntry (fingerprint : Nat) (d : DirName) : M Unit := do
  let s ← getStore
  let unreadable ← observe env env.fails
  let w ← get
  let loaded := if s.config.persist && !unreadable then
      loadRecord env s.config.modelId fingerprint w.disk d
    else none
  match loaded with
  | some r =>
    let _ ← track env r
  | none => rmtree env d

def adoptEach (fingerprint : Nat) : List DirName → M Unit
  | [] => pure ()
  | d :: ds => do
    adoptEntry env fingerprint d
    adoptEach fingerprint ds

/-- The loop at the end of `_adopt_root`. -/
def evictToLimit : Nat → M Unit
  | 0 => pure ()
  | n + 1 => do
    let s ← getStore
    if s.config.limitBytes < s.ramBytes + s.diskBytes then
      let evicted ← evictOneLru env none
      onlyIf evicted (evictToLimit n)
    else pure ()

/-- `_adopt_root`. -/
def adoptRoot (fingerprint : Nat) : M Unit := do
  let w ← get
  adoptEach env fingerprint (env.entries w.tick w.disk.keys)
  let s ← getStore
  evictToLimit env (s.records.length + 1)

def World.fresh (config : Config) (k : Disk) (uuid : Nat) : World where
  store := .empty config
  threads := .idle
  disk := k
  disks := [k]
  tick := 0
  uuid := uuid

/-- A store just made over the root `k`. -/
def boot (config : Config) (fingerprint : Nat) (k : Disk) (uuid : Nat) : World :=
  final (adoptRoot env fingerprint) (.fresh config k uuid)

/-- The calls of the scheduler. -/
inductive Op
  | spill (pools : Pools) (req : SpillRequest)
  | collectWrites (wait : Bool)
  | touch (i : Option RecordId)
  | rekey (i : Option RecordId) (sessionId : String)
  | retire (i : Option RecordId)
  | discard (i : Option RecordId)
  | evictOneLru (excludeSession : Option String)
  | demote (i : RecordId)
  | enforceHostReserve
  | startPrefetch (sessionId : String) (protect : List String) (tokenIds : Option (List Int))
  | collectPrefetch (sessionId : Option String) (wait : Bool)
  | cancelPrefetch (sessionId : Option String)
  | startWriteBehind (protect : List String)
  | collectWriteBehind (wait : Bool)
  | persistDurable (pools : Pools) (sources : List SpillRequest)
  | threads (steps : List Thread)

def perform : Op → M Unit
  | .spill pools req => do let _ ← spill env pools req
  | .collectWrites wait => collectWrites env wait
  | .touch i => touch env i
  | .rekey i sessionId => do let _ ← rekey env i sessionId
  | .retire i => retire env i
  | .discard i => discardOption env i
  | .evictOneLru excludeSession => do let _ ← evictOneLru env excludeSession
  | .demote i => do let _ ← demoteToDisk env i
  | .enforceHostReserve => enforceHostReserve env
  | .startPrefetch sessionId protect tokenIds => do
    let _ ← startPrefetch env sessionId protect tokenIds
  | .collectPrefetch sessionId wait => do let _ ← collectPrefetch env sessionId wait
  | .cancelPrefetch sessionId => do let _ ← cancelPrefetch sessionId
  | .startWriteBehind protect => do let _ ← startWriteBehind env protect
  | .collectWriteBehind wait => do let _ ← collectWriteBehind env wait
  | .persistDurable pools sources => do let _ ← persistDurable env pools sources
  | .threads steps => modify fun w => steps.foldl (threadStep env) w

def step (w : World) (op : Op) : Option World := some (final (perform env op) w)

/-- The worlds a store started over `k` reaches. -/
abbrev Reachable (config : Config) (fingerprint : Nat) (k : Disk) (uuid : Nat) : World → Prop :=
  Reach (step env) (fun _ _ => True) (boot env config fingerprint k uuid)

/-! ## A small store -/

/-- Nothing fails, there is room, and the threads only run when they are waited for. -/
def Env.calm : Env where
  fails := fun _ => false
  schedule := fun _ => []
  scan := fun _ names => names
  entries := fun _ dirs => dirs
  memAvailable := fun _ => 2 ^ 40
  freeDisk := fun _ => some (2 ^ 40)
  now := fun tick => tick
  fileSize := fun
    | .tensor t => t.nbytes
    | _ => 0
  hash := fun tokenIds => tokenIds.length
  ambiguous := fun r r' => decide (r.tokenIds.length ≠ 1 ∨ r'.tokenIds.length ≠ 1)

/-- Two KV tensors of one layer, eight bytes a page, and one state of eight bytes. -/
def smallPools : Pools where
  fingerprint := 7
  pageBytes := 8
  buffers := [⟨"k", 1, 4, fun _ page => [page]⟩, ⟨"v", 1, 4, fun _ page => [page + 100]⟩]
  bytesPerSlot := 8
  convStates := fun slot => ⟨[slot], 4⟩
  recurrentStates := fun slot => ⟨[slot], 4⟩

/-- A turn of a session over its pages, one token a page. -/
def smallTurn (sessionId : String) (tokenIds : List Int) (pages : List Nat) : SpillRequest :=
  ⟨sessionId, tokenIds, pages, 1, [], []⟩

def smallConfig (ramBudgetBytes diskBudgetBytes limitBytes : Nat) : Config :=
  ⟨ramBudgetBytes, diskBudgetBytes, 0, limitBytes, true, "model", 64, 8⟩

/-- A calm run over an empty root. -/
def calmRun (config : Config) (ops : List Op) : World :=
  ops.foldl (fun w op => final (perform .calm op) w) (boot .calm config 7 ∅ 0)

theorem calmRun_reachable (config : Config) (ops : List Op) :
    Reachable .calm config 7 ∅ 0 (calmRun config ops) := by
  refine reach_of_run ops ?_
  have hrun : ∀ (ops : List Op) (w : World), run (step .calm) w ops =
      some (ops.foldl (fun w op => final (perform .calm op) w) w) := by
    intro ops
    induction ops with
    | nil => exact fun _ => rfl
    | cons op ops ih => exact fun w => ih _
  exact hrun ops _

end FreeToken.Spill

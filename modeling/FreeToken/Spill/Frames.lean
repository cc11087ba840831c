import FreeToken.Spill.Runs

/-!
# What the file operations leave alone

The threads and every file operation of the scheduler thread work on the disk only:
the store object is the same after them. `Leaves World.store` says so of each, and
is all the accounting needs to know of them.
-/

namespace FreeToken.Spill

open FreeToken.Lib

variable {env : Env}

section Threads

theorem writerStep_store (w : World) : (writerStep env w).store = w.store := by
  simp only [writerStep]
  split
  · rfl
  · split
    · rfl
    · split
      · split <;> rfl
      · split
        · rfl
        · split <;> rfl

theorem readerStep_store (w : World) : (readerStep env w).store = w.store := by
  simp only [readerStep]
  split
  · rfl
  · split
    · split
      · rfl
      · split
        · rfl
        · split <;> rfl
    · rfl

theorem copierStep_store (w : World) : (copierStep env w).store = w.store := by
  simp only [copierStep]
  split
  · rfl
  · split
    · rfl
    · split
      · split <;> rfl
      · split
        · rfl
        · split
          · split <;> rfl
          · split
            · rfl
            · split <;> rfl

theorem threadStep_store (w : World) (t : Thread) : (threadStep env w t).store = w.store := by
  cases t with
  | writer => exact writerStep_store w
  | reader => exact readerStep_store w
  | copier => exact copierStep_store w

theorem foldl_threadStep_store (ts : List Thread) :
    ∀ w : World, (ts.foldl (threadStep env) w).store = w.store := by
  induction ts with
  | nil => exact fun _ => rfl
  | cons t ts ih => exact fun w => (ih _).trans (threadStep_store w t)

theorem interfere_store (w : World) : (interfere env w).store = w.store :=
  foldl_threadStep_store _ w

theorem writerUntil_store (i : WriteId) (n : Nat) :
    ∀ w : World, (writerUntil env i n w).store = w.store := by
  induction n with
  | zero => exact fun _ => rfl
  | succ n ih =>
    intro w
    rw [writerUntil]
    split
    · rfl
    · exact (ih _).trans (writerStep_store w)

theorem copierUntil_store (n : Nat) : ∀ w : World, (copierUntil env n w).store = w.store := by
  induction n with
  | zero => exact fun _ => rfl
  | succ n ih =>
    intro w
    rw [copierUntil]
    split
    · exact (ih _).trans (copierStep_store w)
    · rfl

theorem readerUntil_store (n : Nat) : ∀ w : World, (readerUntil env n w).store = w.store := by
  induction n with
  | zero => exact fun _ => rfl
  | succ n ih =>
    intro w
    rw [readerUntil]
    split
    · exact (ih _).trans (readerStep_store w)
    · rfl

end Threads

section Calls

theorem call_store (act : Disk → Option Disk) : Leaves World.store (call env act) := by
  refine .of_triple fun c => Triple.bind (Q := fun _ w => w.store = c)
    (.modify fun w hw => (interfere_store w).trans hw) fun _ => .read fun w hw => ?_
  cases attempt env act w with
  | some k => exact .set fun _ _ => hw
  | none =>
    exact Triple.bind (Q := fun _ w => w.store = c) (.set fun _ _ => hw) fun _ =>
      Triple.throw fun _ h => h

theorem observe_store {α : Type} (look : Nat → α) : Leaves World.store (observe env look) :=
  fun w => interfere_store w

theorem getStore_store : Leaves World.store getStore := fun _ => rfl

theorem getRecord_store (i : RecordId) : Leaves World.store (getRecord i) := fun _ => rfl

theorem freshUuid_store : Leaves World.store freshUuid := fun _ => rfl

theorem mayRaise_store (e : Fault) : Leaves World.store (mayRaise env e) :=
  (observe_store _).bind fun _ => .onlyIf (.throw e)

theorem ignoring_store {m : M Unit} (h : Leaves World.store m) : Leaves World.store (ignoring m) :=
  h.tryCatch fun _ => .pure ()

theorem succeeds_store {m : M Unit} (h : Leaves World.store m) : Leaves World.store (succeeds m) :=
  (h.bind fun _ => .pure true).tryCatch fun _ => .pure false

theorem belowReserve_store : Leaves World.store (belowReserve env) :=
  getStore_store.bind fun _ => (observe_store _).bind fun _ => .pure _

theorem ramHasRoom_store (n : Nat) : Leaves World.store (ramHasRoom env n) :=
  (observe_store _).bind fun _ => getStore_store.bind fun _ => .pure _

theorem diskHasRoom_store (n : Nat) : Leaves World.store (diskHasRoom env n) := by
  refine (observe_store _).bind fun free => getStore_store.bind fun _ => ?_
  cases free with
  | none => exact .pure _
  | some free => exact .pure _

theorem unlinkAll_store (d : DirName) (ns : List FileName) :
    Leaves World.store (unlinkAll env d ns) := by
  induction ns with
  | nil => exact .pure ()
  | cons n ns ih => exact (ignoring_store (call_store _)).bind fun _ => ih

theorem rmtree_store (d : DirName) : Leaves World.store (rmtree env d) := by
  refine Leaves.get.bind fun w => ?_
  split
  · exact .pure ()
  · exact (unlinkAll_store d _).bind fun _ => ignoring_store (call_store _)

theorem ignoring_quiet {m : M Unit} (h : Leaves World.store m) : Quiet World.store (ignoring m) :=
  h.quiet_of_caught fun _ => .pure ()

theorem unlinkAll_quiet (d : DirName) (ns : List FileName) :
    Quiet World.store (unlinkAll env d ns) := by
  induction ns with
  | nil => exact .pure ()
  | cons n ns ih => exact (ignoring_quiet (call_store _)).bind fun _ => ih

/-- Removing a directory never raises. -/
theorem rmtree_quiet (d : DirName) : Quiet World.store (rmtree env d) := by
  refine Quiet.get.bind fun w => ?_
  split
  · exact .pure ()
  · exact (unlinkAll_quiet d _).bind fun _ => ignoring_quiet (call_store _)

theorem rmtreeAll_quiet (ds : List DirName) : Quiet World.store (rmtreeAll env ds) := by
  induction ds with
  | nil => exact .pure ()
  | cons d ds ih => exact (rmtree_quiet d).bind fun _ => ih

theorem save_store (value : Tensor) (path : Path) : Leaves World.store (save env value path) :=
  (call_store _).bind fun _ => call_store _

theorem fsync_store : Leaves World.store (fsync env) := call_store _

theorem prepareDir_store (sid : String) : Leaves World.store (prepareDir env sid) :=
  (rmtree_store _).bind fun _ => (call_store _).bind fun _ => .pure _

end Calls

section Manifests

theorem writeManifest_store (r : SessionSpillRecord) : Leaves World.store (writeManifest env r) := by
  simp only [writeManifest]
  split
  · exact getStore_store.bind fun _ => (call_store _).bind fun _ => (call_store _).bind fun _ =>
      fsync_store.bind fun _ => (call_store _).bind fun _ => fsync_store
  · exact .pure ()

theorem unlinkEach_store (d : DirName) (ns : List FileName) :
    Leaves World.store (unlinkEach env d ns) := by
  induction ns with
  | nil => exact .pure ()
  | cons n ns ih => exact (call_store _).bind fun _ => ih

theorem unlinkOthers_store (d : DirName) (keep : List FileName) :
    Leaves World.store (unlinkOthers env d keep) := by
  refine Leaves.get.bind fun w => ?_
  split
  · exact .throw _
  · exact unlinkEach_store d _

theorem publish_store (r : SessionSpillRecord) : Leaves World.store (publish env r) := by
  refine (writeManifest_store r).bind fun _ => ?_
  split
  · exact .throw _
  · exact unlinkOthers_store _ _

end Manifests

section Copies

theorem installStaging_store (staging target : DirName) (m : Manifest) :
    Leaves World.store (installStaging env staging target m) :=
  (rmtree_store _).bind fun _ => (call_store _).bind fun _ => (call_store _).bind fun _ =>
    call_store _

theorem saveChunks_store (target : DirName) (cs : List SpillChunk) :
    ∀ n, Leaves World.store (saveChunks env target n cs) := by
  induction cs with
  | nil => exact fun _ => .pure _
  | cons c cs ih =>
    intro n
    rw [saveChunks]
    split
    · exact .throw _
    · exact (save_store _ _).bind fun _ => (ih _).bind fun _ => .pure _

theorem saveRecord_store (r : SessionSpillRecord) (target : DirName) :
    Leaves World.store (saveRecord env r target) :=
  Leaves.tryCatch ((save_store _ _).bind fun _ => (saveChunks_store target _ 0).bind fun _ => .pure _)
    fun _ => (rmtree_store _).bind fun _ => .pure _

theorem saveBounded_store (value : Tensor) (path : Path) (limit : Int) :
    Leaves World.store (saveBounded env value path limit) :=
  (call_store _).bind fun _ => (Leaves.onlyIf (.throw _)).bind fun _ => (call_store _).bind fun _ =>
    fsync_store

theorem remainingBytes_store (limit : Nat) (created : List Path) :
    Leaves World.store (remainingBytes env limit created) := fun _ => rfl

theorem stageChunks_store (d : DirName) (uuid limit : Nat) (parts : List DurablePart) :
    ∀ n created chunks, Leaves World.store (stageChunks env d uuid limit n parts created chunks) := by
  induction parts with
  | nil => exact fun _ _ _ => .pure _
  | cons part parts ih =>
    obtain ⟨family, layer, start, value⟩ := part
    intro n created chunks
    cases value with
    | none => exact .pure _
    | some value =>
      refine (succeeds_store (mayRaise_store _)).bind fun _ => .ite ?_ (.pure _)
      exact (remainingBytes_store _ _).bind fun _ =>
        (succeeds_store (saveBounded_store _ _ _)).bind fun _ => .ite (ih _ _ _) (.pure _)

theorem switchManifest_store (d : DirName) (uuid limit : Nat) (r : SessionSpillRecord)
    (created : List Path) : Leaves World.store (switchManifest env d uuid limit r created) :=
  getStore_store.bind fun _ => (remainingBytes_store _ _).bind fun _ =>
    (Leaves.onlyIf (.throw _)).bind fun _ => (call_store _).bind fun _ => (call_store _).bind fun _ =>
    fsync_store.bind fun _ => Leaves.get.bind fun _ => (Leaves.onlyIf (.throw _)).bind fun _ =>
    call_store _

theorem verify_store (pools : Pools) (d : DirName) : Leaves World.store (verify env pools d) :=
  getStore_store.bind fun _ => (observe_store _).bind fun _ =>
    .ite (.pure _) (Leaves.get.bind fun _ => .pure _)

theorem confirm_store (pools : Pools) (r : SessionSpillRecord) (d : DirName) :
    Leaves World.store (confirm env pools r d) :=
  fsync_store.bind fun _ => fsync_store.bind fun _ => (verify_store pools d).bind fun _ =>
    .onlyIf (.throw _)

theorem unlinkPaths_store (ps : List Path) : Leaves World.store (unlinkPaths env ps) := by
  induction ps with
  | nil => exact .pure ()
  | cons p ps ih => exact (call_store _).bind fun _ => ih

theorem flushRecord_store (pools : Pools) (sid : String) (r : SessionSpillRecord) :
    Leaves World.store (flushRecord env pools sid r) :=
  Leaves.get.bind fun _ => (Leaves.onlyIf (.throw _)).bind fun _ => fsync_store.bind fun _ =>
    (verify_store pools _).bind fun _ => .onlyIf (.throw _)

end Copies

end FreeToken.Spill

import Mathlib.Algebra.Ring.Nat
import Mathlib.Data.Finset.Card
import FreeToken.Lib.Reach

/-!
# Admission, rebuilds and the stop barrier

`maintenance_state` of the frontend manager, with everything that reads and writes it: the
handlers of the event loop (`new_user`, the listener, the rebuild endpoint,
`prepare_stop_accounting`) and the supervisor thread (`_on_ready`, `_on_failure`), whose steps
may fall between two accesses of one handler.

The loop is in one handler at a time until that handler awaits; `Handler` says where it is, and
only the supervisor moves while it is not idle. The futures that waiters of a rebuild hold, and
the telemetry of a reply, do not meet the gate and are left out.
-/

namespace FreeToken.Server.Admission

open FreeToken.Lib

abbrev Text := List Char

/-! ## State -/

/-- `maintenance_state`. -/
inductive Maintenance where
  | loading
  | serving
  | rebuilding
  | stopping
  | failed
deriving DecidableEq

/-- Where the supervisor thread is. -/
inductive Supervisor where
  /-- The workers have not all acknowledged. -/
  | draining
  /-- `_on_ready` has read `loading`. -/
  | readySeen
  | watching
  /-- `_on_failure` has set `fatal_error`, and not yet `maintenance_state`. -/
  | failing
  | ended
deriving DecidableEq

/-- A call of `prepare_stop_accounting`; timeouts only decide which step comes next. -/
structure Call where
  checkpointSessions : Bool
  operationId : Option Text
deriving DecidableEq

/-- What such a call returns. -/
structure Snapshot where
  promptTokens : Nat
  completionTokens : Nat
  /-- The operation of the completed checkpoint. -/
  checkpoint : Option Text
deriving DecidableEq

/-- Where the event loop is. -/
inductive Handler where
  | idle
  /-- `cache_rebuild` has made this many of its reads. -/
  | checking (reads : Nat)
  /-- `_resolve_rebuild` of a reply that says `failed` or not, with what it saw of
  `fatal_error`. -/
  | resolving (failed fatalSeen : Bool)
  /-- `prepare_stop_accounting` has read `maintenance_state`. -/
  | closing (seen : Maintenance) (call : Call)
deriving DecidableEq

/-- The holder of the accounting lock, at one of its awaits. -/
inductive Stopper where
  | free
  | waiting (call : Call)
  | aborting (call : Call)
  | checkpointing (call : Call) (accounting : Snapshot)
deriving DecidableEq

/-- A `UserReply`, as far as it is counted. -/
structure Reply where
  uid : Nat
  promptTokensDelta : Nat
  completionTokensDelta : Nat
  finished : Bool
  error : Bool
deriving DecidableEq

inductive Reason where
  | clientDisconnect
  | explicit
deriving DecidableEq

/-- `StatsTracker`. -/
structure Stats where
  inflight : Finset Nat := ∅
  aborting : Finset Nat := ∅
  completed : Nat := 0
  promptTokensTotal : Nat := 0
  completionTokensTotal : Nat := 0
  abortsClientDisconnect : Nat := 0
  abortsExplicit : Nat := 0
  abortsError : Nat := 0

/-- What has happened, oldest first. -/
inductive Event where
  | admitted (uid : Nat)
  | replied (reply : Reply)
  | fatal
  | returned (accounting : Snapshot)
deriving DecidableEq

structure Frontend where
  maintenance : Maintenance := .loading
  fatalError : Bool := false
  supervisor : Supervisor := .draining
  handler : Handler := .idle
  /-- Rebuilds whose message is being sent. -/
  sending : Nat := 0
  /-- Rebuilds that were sent and not answered. -/
  sent : Nat := 0
  uidCounter : Nat := 0
  stats : Stats := {}
  sealedAccounting : Option Snapshot := none
  stopper : Stopper := .free
  /-- The engine's side: admitted requests whose finished reply has not come. -/
  owed : Finset Nat := ∅
  log : List Event := []

/-! ## Statistics -/

namespace Stats

def active (t : Stats) : Nat := t.inflight.card

def onNewUser (t : Stats) (uid : Nat) : Stats :=
  { t with inflight := insert uid t.inflight, aborting := t.aborting.erase uid }

def onAbort (t : Stats) (uid : Nat) (reason : Reason) : Stats :=
  let t :=
    match reason with
    | .clientDisconnect => { t with abortsClientDisconnect := t.abortsClientDisconnect + 1 }
    | .explicit => { t with abortsExplicit := t.abortsExplicit + 1 }
  if uid ∈ t.inflight then { t with aborting := insert uid t.aborting } else t

def observe (t : Stats) (r : Reply) : Stats :=
  let t :=
    { t with
      completionTokensTotal := t.completionTokensTotal + r.completionTokensDelta
      promptTokensTotal := t.promptTokensTotal + r.promptTokensDelta }
  if r.finished ∧ r.uid ∈ t.inflight then
    let t := { t with inflight := t.inflight.erase r.uid }
    if r.uid ∈ t.aborting then { t with aborting := t.aborting.erase r.uid }
    else
      { t with
        completed := t.completed + 1
        abortsError := if r.error then t.abortsError + 1 else t.abortsError }
  else t

end Stats

/-! ## Requests -/

namespace Frontend

/-- `new_user`; a closed gate raises and changes nothing. -/
def newUser (s : Frontend) : Frontend :=
  if s.maintenance ≠ .serving then s
  else
    { s with
      uidCounter := s.uidCounter + 1
      stats := s.stats.onNewUser s.uidCounter
      owed := insert s.uidCounter s.owed
      log := s.log ++ [.admitted s.uidCounter] }

/-- The listener sees a reply of a request that has not had its finished one. -/
def reply (s : Frontend) (r : Reply) : Option Frontend :=
  if r.uid ∈ s.owed then
    some
      { s with
        stats := s.stats.observe r
        owed := if r.finished then s.owed.erase r.uid else s.owed
        log := s.log ++ [.replied r] }
  else none

/-- `_dispatch_abort`. -/
def abort (s : Frontend) (uid : Nat) (reason : Reason) : Frontend :=
  { s with stats := s.stats.onAbort uid reason }

/-! ## Rebuilds -/

/-- What `cache_rebuild` compares `maintenance_state` with, one read each. -/
def refusals : List Maintenance := [.loading, .failed, .rebuilding, .stopping]

/-- The next read of `cache_rebuild`. -/
def checkRead (s : Frontend) (reads : Nat) : Option Frontend :=
  match refusals[reads]? with
  | some m =>
    some { s with handler := if s.maintenance = m then .idle else .checking (reads + 1) }
  | none => none

/-- `dispatch_rebuild`, up to its await. -/
def dispatchRebuild (s : Frontend) : Frontend :=
  { s with handler := .idle, maintenance := .rebuilding, sending := s.sending + 1 }

/-- The message could not be sent: the gate is rolled back. -/
def sendFails (s : Frontend) : Frontend :=
  { s with sending := s.sending - 1, maintenance := .serving }

/-- `_resolve_rebuild` of a reply, up to its read of `fatal_error`. -/
def rebuildReply (s : Frontend) (failed : Bool) : Frontend :=
  { s with sent := s.sent - 1, handler := .resolving failed s.fatalError }

/-- Its write. -/
def resolveWrite (s : Frontend) (failed fatalSeen : Bool) : Frontend :=
  { s with
    handler := .idle
    maintenance := if fatalSeen then .failed else if failed then .failed else .serving }

/-! ## The stop barrier -/

/-- The sealed snapshot that answers a call without more work. -/
def cachedSnapshot (s : Frontend) (c : Call) : Option Snapshot :=
  s.sealedAccounting.filter fun a =>
    !c.checkpointSessions || (a.checkpoint.isSome && a.checkpoint == c.operationId)

/-- `not checkpoint_operation_id`. -/
def Call.noOperation (c : Call) : Bool := (c.operationId.getD []).isEmpty

/-- `prepare_stop_accounting`, up to its read of `maintenance_state`. -/
def prepareStop (s : Frontend) (c : Call) : Frontend :=
  match s.cachedSnapshot c with
  | some a => { s with log := s.log ++ [.returned a] }
  | none =>
    if c.checkpointSessions && Call.noOperation c then s
    else { s with handler := .closing s.maintenance c }

/-- Closing the gate, unless a rebuild is going on. -/
def close (s : Frontend) (seen : Maintenance) (c : Call) : Frontend :=
  if seen = .rebuilding then { s with handler := .idle }
  else { s with handler := .idle, maintenance := .stopping, stopper := .waiting c }

/-- The totals of a new snapshot, unless there is a sealed one. -/
def accounting (s : Frontend) : Snapshot :=
  s.sealedAccounting.getD
    { promptTokens := s.stats.promptTokensTotal
      completionTokens := s.stats.completionTokensTotal
      checkpoint := none }

/-- The end of `prepare_stop_accounting`. -/
def sealWith (s : Frontend) (a : Snapshot) : Frontend :=
  { s with sealedAccounting := some a, stopper := .free, log := s.log ++ [.returned a] }

/-- No request is active any more. -/
def drained (s : Frontend) (c : Call) : Frontend :=
  if c.checkpointSessions then { s with stopper := .checkpointing c s.accounting }
  else s.sealWith s.accounting

end Frontend

/-! ## Steps -/

inductive Step where
  | newUser
  | reply (r : Reply)
  | abort (uid : Nat) (reason : Reason)
  | rebuildRequest
  | checkRead
  /-- The arguments of the rebuild are refused. -/
  | rebuildInvalid
  | dispatchRebuild
  | sendDone
  | sendFails
  /-- The engine answers a rebuild, in time or not. -/
  | rebuildReply (failed : Bool)
  | resolveWrite
  | prepareStop (call : Call)
  | close
  /-- The wait for idle is over: no request is active. -/
  | drained
  /-- It timed out, and the active requests are aborted. -/
  | drainTimeout
  | checkpointed
  /-- The holder of the lock raises: a timeout, a failed abort or checkpoint. -/
  | giveUp
  | readyRead
  | readyWrite
  | failureBegins
  | failureWrite
deriving DecidableEq

/-- One step; `none` when it is not enabled. -/
def step (s : Frontend) : Step → Option Frontend
  | .newUser => if s.handler = .idle then some s.newUser else none
  | .reply r => if s.handler = .idle then s.reply r else none
  | .abort uid reason => if s.handler = .idle then some (s.abort uid reason) else none
  | .rebuildRequest =>
    if s.handler = .idle then some { s with handler := .checking 0 } else none
  | .checkRead =>
    match s.handler with
    | .checking reads => s.checkRead reads
    | _ => none
  | .rebuildInvalid =>
    if s.handler = .checking Frontend.refusals.length then some { s with handler := .idle }
    else none
  | .dispatchRebuild =>
    if s.handler = .checking Frontend.refusals.length then some s.dispatchRebuild else none
  | .sendDone =>
    if 0 < s.sending then some { s with sending := s.sending - 1, sent := s.sent + 1 } else none
  | .sendFails => if s.handler = .idle ∧ 0 < s.sending then some s.sendFails else none
  | .rebuildReply failed =>
    if s.handler = .idle ∧ 0 < s.sent then some (s.rebuildReply failed) else none
  | .resolveWrite =>
    match s.handler with
    | .resolving failed fatalSeen => some (s.resolveWrite failed fatalSeen)
    | _ => none
  | .prepareStop c =>
    if s.handler = .idle ∧ s.stopper = .free then some (s.prepareStop c) else none
  | .close =>
    match s.handler with
    | .closing seen c => some (s.close seen c)
    | _ => none
  | .drained =>
    if s.handler = .idle ∧ s.stats.active = 0 then
      match s.stopper with
      | .waiting c => some (s.drained c)
      | .aborting c => some (s.drained c)
      | _ => none
    else none
  | .drainTimeout =>
    if s.handler = .idle ∧ s.stats.active ≠ 0 then
      match s.stopper with
      | .waiting c => some { s with stopper := .aborting c }
      | _ => none
    else none
  | .checkpointed =>
    if s.handler = .idle then
      match s.stopper with
      | .checkpointing c a => some (s.sealWith { a with checkpoint := c.operationId })
      | _ => none
    else none
  | .giveUp => if s.handler = .idle then some { s with stopper := .free } else none
  | .readyRead =>
    if s.supervisor = .draining then
      some { s with supervisor := if s.maintenance = .loading then .readySeen else .watching }
    else none
  | .readyWrite =>
    if s.supervisor = .readySeen then
      some { s with supervisor := .watching, maintenance := .serving }
    else none
  | .failureBegins =>
    if s.supervisor = .draining ∨ s.supervisor = .watching then
      some { s with supervisor := .failing, fatalError := true, log := s.log ++ [.fatal] }
    else none
  | .failureWrite =>
    if s.supervisor = .failing then
      some { s with supervisor := .ended, maintenance := .failed }
    else none

end FreeToken.Server.Admission

import Mathlib.Data.List.Infix
import Mathlib.Data.List.Sort
import Mathlib.Logic.Function.Basic

/-!
# Requests, messages and leases

The data the scheduler's control plane works on: the client messages of
`message/backend.py`, the queued prompt (`PendingReq`), the request object
(`Req`, whose subclass `ChunkedReq` is the flag `isChunked`) and the session
lease. Text is a list of characters, a token is its id, `-1` as a table index
is `none`, and the monotonic clock counts milliseconds.

Request objects live in a heap indexed by `ReqId`, because the batch in flight,
the running set and the queue share them and the handlers mutate them in place.
`ρ` stands for the fields only the cache manager reads (the cache handle and
the recurrent-state slots) and `H` for the manager's prefix handle.
-/

namespace FreeToken.Scheduler

abbrev Token := Nat
abbrev Uid := Nat
abbrev ReqId := Nat
abbrev Text := List Char
abbrev SessionId := Text
abbrev Time := Nat

structure SamplingParams where
  maxTokens : Nat
  ignoreEos : Bool
  stopStrs : List Text
  deriving DecidableEq, Repr

structure HiddenStateSpec where
  directory : Option Text
  layerIds : List Nat
  deriving DecidableEq, Repr

structure UserMsg where
  uid : Uid
  inputIds : List Token
  samplingParams : SamplingParams
  /-- The hashes of the image items; empty for a text request. -/
  mmItems : List Nat
  sessionId : Option SessionId
  sessionTtl : Option Time
  sessionReclaimable : Bool
  hiddenStates : Option HiddenStateSpec
  prefixBoundary : Option Nat
  deriving DecidableEq, Repr

/-- A queued prompt; `chunkedReq` is the request object of its last chunk. -/
structure PendingReq where
  uid : Uid
  inputIds : List Token
  samplingParams : SamplingParams
  mmItems : List Nat
  sessionId : Option SessionId
  hiddenStates : Option HiddenStateSpec
  prefixBoundary : Option Nat
  chunkedReq : Option ReqId
  deriving DecidableEq, Repr

namespace PendingReq

def inputLen (p : PendingReq) : Nat := p.inputIds.length

def outputLen (p : PendingReq) : Nat := p.samplingParams.maxTokens

end PendingReq

structure Req (ρ : Type) where
  uid : Uid
  sessionId : Option SessionId
  samplingParams : SamplingParams
  mmItems : List Nat
  isChunked : Bool
  inputIds : List Token
  cachedLen : Nat
  deviceLen : Nat
  maxDeviceLen : Nat
  outputLen : Nat
  tableIdx : Option Nat
  toolcallAnchorLen : Option Nat
  aborted : Bool
  res : ρ
  deriving DecidableEq, Repr

namespace Req

variable {ρ : Type} (r : Req ρ)

def remainLen : Nat := r.maxDeviceLen - r.deviceLen

def extendLen : Nat := r.deviceLen - r.cachedLen

/-- A `ChunkedReq` never decodes, whatever budget it has left. -/
def canDecode : Bool := !r.isChunked && decide (0 < r.remainLen)

/-- The prompt's length as the scheduler recovers it from a request object. -/
def promptLen : Nat := r.maxDeviceLen - r.outputLen

def completeOne : Req ρ := { r with cachedLen := r.deviceLen, deviceLen := r.deviceLen + 1 }

def appendHost (t : Token) : Req ρ := { r with inputIds := r.inputIds ++ [t] }

end Req

structure SessionLease (H : Type) where
  handle : Option H
  ttl : Time
  expiresAt : Option Time
  activeUid : Option Uid
  reclaimable : Bool
  protectedUntil : Option Time
  lastUsedAt : Time
  tokenIds : Option (List Token)
  deriving DecidableEq, Repr

/-- A launched batch: its rows in order, each with the token its forward sampled. -/
structure Batch where
  isPrefill : Bool
  rows : List (ReqId × Token)
  deriving DecidableEq, Repr

def Batch.reqs (b : Batch) : List ReqId := b.rows.map Prod.fst

-- ---------------------------------------------------------------------------
-- Messages
-- ---------------------------------------------------------------------------

inductive BackendMsg
  | user (msg : UserMsg)
  | abort (uid : Uid) (sessionId : Option SessionId)
  | closeSession (sessionId : SessionId) (requestId : Nat)
  deriving DecidableEq, Repr

inductive FinishReason
  | stop
  | length
  deriving DecidableEq, Repr

structure DetokenizeMsg where
  uid : Uid
  nextToken : Token
  finished : Bool
  finishReason : Option FinishReason
  matchedStop : Option Text
  deriving DecidableEq, Repr

/-- What an `ErrorReplyMsg` says, with the values its text carries. -/
inductive RequestError
  /-- "server checkpoint is sealed" -/
  | sealed
  /-- "invalid session_id" -/
  | invalidSession
  /-- "session {session_id!r} is busy" -/
  | sessionBusy (sessionId : SessionId)
  /-- "image input is not supported by this server" -/
  | imageUnsupported
  /-- "prompt is too long: {input_len} tokens > {max_seq_len} maximum …",
  code `context_length_exceeded` -/
  | promptTooLong (inputLen maxSeqLen : Nat)
  /-- "prompt is too long for a hidden-state probe: …", code `context_length_exceeded` -/
  | probeTooLong (inputLen limit : Nat)
  /-- "kv_transfer_params.layer_ids asks for layer …", code `invalid_request_error` -/
  | probeLayer (layer numLayers : Nat)
  /-- "request aborted" -/
  | aborted
  deriving DecidableEq, Repr

inductive CloseStatus
  | closed
  | notFound
  | sealed
  deriving DecidableEq, Repr

inductive Reply
  | detokenize (m : DetokenizeMsg)
  | error (uid : Uid) (e : RequestError)
  | sessionClosed (sessionId : SessionId) (requestId : Nat) (status : CloseStatus)
  deriving DecidableEq, Repr

-- ---------------------------------------------------------------------------
-- Session identifiers
-- ---------------------------------------------------------------------------

/-- The conversation a sibling (`id~N`) or replaced (`id~prev`) lease belongs to. -/
def sessionFamily (sid : SessionId) : SessionId := sid.takeWhile (· ≠ '~')

/-- The `k`-th sibling of a conversation, `f"{base}~{k}"`. -/
def siblingSession (base : SessionId) (k : Nat) : SessionId := base ++ '~' :: Nat.toDigits 10 k

end FreeToken.Scheduler

import Mathlib.Data.List.AList

/-!
# The spill root on disk

What `SessionSpillStore` keeps under its root: one directory per session, named by
the hash of the session id, and the staging directories of the write-behind thread.
The hash is taken to be injective, so a directory is named by the session id itself,
and so are uuids, which are numbers drawn once.

A file holds a serialized tensor, a manifest, or what an unfinished write has left
of one. Every function below is one file-system step; `none` is the error it raises.
-/

namespace FreeToken.Spill

/-- A host tensor: its elements and the bytes of one. -/
structure Tensor where
  data : List Int
  elementSize : Nat
  deriving DecidableEq, Repr

namespace Tensor

def numel (t : Tensor) : Nat := t.data.length

def nbytes (t : Tensor) : Nat := t.numel * t.elementSize

end Tensor

/-- The int32 tensor of token ids. -/
def tokensTensor (tokenIds : List Int) : Tensor := ⟨tokenIds, 4⟩

/-- The pool names its KV families; the recurrent state has two of its own. -/
inductive Family
  | kv (name : String)
  | gdnConv
  | gdnRecurrent
  deriving DecidableEq, Repr

/-- `family in STATE_FAMILIES`. -/
def Family.isState : Family → Bool
  | .kv _ => false
  | .gdnConv => true
  | .gdnRecurrent => true

inductive DirName
  | session (sessionId : String)
  | staging (uuid : Nat)
  deriving DecidableEq, Repr

/-- The names the store gives its files; `uuid` is the generation prefix. -/
inductive FileName
  | manifest
  | manifestTmp (uuid : Option Nat)
  | tokens (uuid : Option Nat)
  | chunk (uuid : Option Nat) (ordinal : Nat)
  deriving DecidableEq, Repr

structure Path where
  dir : DirName
  name : FileName
  deriving DecidableEq, Repr

/-- One chunk line of a manifest. `payload` is not in the file: it is the tensor of
the record the line was written for, kept to say what the line promises. -/
structure ManifestChunk where
  family : Family
  layer : Int
  start : Nat
  name : FileName
  payload : Tensor
  deriving DecidableEq, Repr

/-- A manifest document; `tokenIds` is what `tokens` promises, as `payload` above. -/
structure Manifest where
  version : Nat
  sessionId : String
  modelId : String
  prefixHash : Nat
  numTokens : Nat
  numPages : Nat
  byteSize : Nat
  fingerprint : Nat
  createdAt : Nat
  lastUsedAt : Nat
  tokens : FileName
  chunks : List ManifestChunk
  tokenIds : List Int
  deriving DecidableEq, Repr

inductive Content
  /-- Opened for writing and not complete. -/
  | unfinished
  | tensor (t : Tensor)
  | document (m : Manifest)
  deriving DecidableEq, Repr

abbrev Dir := AList fun _ : FileName => Content

abbrev Disk := AList fun _ : DirName => Dir

namespace Disk

def content (k : Disk) (p : Path) : Option Content :=
  (k.lookup p.dir).bind fun dir => dir.lookup p.name

def isFile (k : Disk) (p : Path) : Bool := (k.content p).isSome

def mkdir (d : DirName) (k : Disk) : Option Disk :=
  if (k.lookup d).isSome then none else some (k.insert d ∅)

/-- `mkdir(exist_ok=True)`. -/
def mkdirExistOk (d : DirName) (k : Disk) : Option Disk :=
  if (k.lookup d).isSome then some k else some (k.insert d ∅)

def put (p : Path) (c : Content) (k : Disk) : Option Disk :=
  (k.lookup p.dir).map fun dir => k.insert p.dir (dir.insert p.name c)

/-- Opening a file in mode `x`. -/
def putNew (p : Path) (c : Content) (k : Disk) : Option Disk :=
  if k.isFile p then none else k.put p c

/-- `unlink(missing_ok=True)`. -/
def unlink (p : Path) (k : Disk) : Option Disk :=
  match k.lookup p.dir with
  | none => some k
  | some dir => some (k.insert p.dir (dir.erase p.name))

def rmdir (d : DirName) (k : Disk) : Option Disk :=
  match k.lookup d with
  | none => none
  | some dir => if dir.keys = [] then some (k.erase d) else none

/-- Rename a file over another one of its directory. -/
def replace (d : DirName) (src dst : FileName) (k : Disk) : Option Disk :=
  (k.lookup d).bind fun dir =>
    (dir.lookup src).map fun c => k.insert d ((dir.erase src).insert dst c)

/-- Rename a directory; a target that is not an empty directory is an error. -/
def renameDir (src dst : DirName) (k : Disk) : Option Disk :=
  (k.lookup src).bind fun dir =>
    match k.lookup dst with
    | none => some ((k.erase src).insert dst dir)
    | some old => if old.keys = [] ∧ src ≠ dst then some ((k.erase src).insert dst dir) else none

end Disk

end FreeToken.Spill

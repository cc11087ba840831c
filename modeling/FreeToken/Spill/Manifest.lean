import FreeToken.Spill.World

/-!
# Manifests

The manifest of a record is written last: to a temporary file, then renamed over the
old one. On a restart `loadRecord` rebuilds the record from it, and looks at the
token file, but asks of a chunk file only that it exists.
-/

namespace FreeToken.Spill

def manifestVersion : Nat := 2

variable (env : Env)

/-- `_manifest_document`: the chunks that have a file. -/
def manifestDocument (modelId : String) (r : SessionSpillRecord) (tokensName : Option FileName) :
    Manifest where
  version := manifestVersion
  sessionId := r.sessionId
  modelId := modelId
  prefixHash := env.hash r.tokenIds
  numTokens := r.tokenIds.length
  numPages := r.numPages
  byteSize := r.byteSize
  fingerprint := r.fingerprint
  createdAt := r.createdAt
  lastUsedAt := r.lastUsedAt
  tokens := tokensName.getD ((r.tokenFile.map (·.name)).getD (.tokens none))
  chunks := r.chunks.filterMap fun c =>
    c.file.map fun path => ⟨c.family, c.layer, c.start, path.name, c.payload⟩
  tokenIds := r.tokenIds

/-- `_write_manifest`, on a record that may not be tracked yet. -/
def writeManifest (r : SessionSpillRecord) : M Unit := do
  match r.directory, r.tier with
  | some directory, .disk =>
    let s ← getStore
    let tmp : Path := ⟨directory, .manifestTmp none⟩
    call env (Disk.put tmp .unfinished)
    call env (Disk.put tmp (.document (manifestDocument env s.config.modelId r none)))
    fsync env
    call env (Disk.replace directory (.manifestTmp none) .manifest)
    fsync env
  | _, _ => pure ()

def unlinkEach (d : DirName) : List FileName → M Unit
  | [] => pure ()
  | n :: ns => do
    call env (Disk.unlink ⟨d, n⟩)
    unlinkEach d ns

/-- Unlink the files of `d` that `keep` does not name. -/
def unlinkOthers (d : DirName) (keep : List FileName) : M Unit := do
  let w ← get
  match w.disk.lookup d with
  | none => throw .osError
  | some dir =>
    unlinkEach env d ((env.scan w.tick dir.keys).filter fun n => !keep.contains n)

/-- The files a record names in its directory. -/
def namedFiles (r : SessionSpillRecord) : List FileName :=
  .manifest :: (r.tokenFile.map (·.name)).toList ++
    r.chunks.filterMap fun c => c.file.map (·.name)

/-- `_publish`: manifest last, then drop the files no chunk of the record names any more. -/
def publish (r : SessionSpillRecord) : M Unit := do
  writeManifest env r
  match r.directory with
  | none => throw .valueError
  | some directory => unlinkOthers env directory (namedFiles r)

/-- The starts of the manifest's chunks of one family. -/
def Manifest.starts (m : Manifest) (family : Family) : List Nat :=
  (m.chunks.filter fun c => c.family = family).map (·.start)

/-- The checks `_load_record` makes of a manifest before it looks at any chunk file. -/
def Manifest.accepted (m : Manifest) (modelId : String) (fingerprint : Nat) (directory : DirName) :
    Bool :=
  m.version = manifestVersion && DirName.session m.sessionId = directory &&
    m.modelId = modelId && m.fingerprint = fingerprint

/-- Every boundary needs both halves of the recurrent state, and the record's own end
must be one of them. -/
def Manifest.complete (m : Manifest) : Bool :=
  let conv := m.starts .gdnConv
  let recurrent := m.starts .gdnRecurrent
  !m.chunks.isEmpty && !conv.isEmpty && conv.all recurrent.contains &&
    recurrent.all conv.contains && recurrent.contains m.numPages

/-- `_load_record`: the record a directory's manifest describes, or `none` when the
directory must be deleted. -/
def loadRecord (modelId : String) (fingerprint : Nat) (k : Disk) (directory : DirName) :
    Option SessionSpillRecord :=
  match k.content ⟨directory, .manifest⟩ with
  | some (.document m) =>
    match k.content ⟨directory, m.tokens⟩ with
    | some (.tensor tokens) =>
      if m.accepted modelId fingerprint directory && tokens.elementSize = 4 &&
          tokens.numel = m.numTokens && env.hash tokens.data = m.prefixHash &&
          m.chunks.all (fun c => k.isFile ⟨directory, c.name⟩) && m.complete then
        some {
          tokenIds := tokens.data
          numPages := m.numPages
          byteSize := m.byteSize
          fingerprint := fingerprint
          tier := .disk
          chunks := m.chunks.map fun c =>
            { family := c.family, layer := c.layer, start := c.start, value := none
              file := some ⟨directory, c.name⟩, payload := c.payload }
          sessionId := m.sessionId
          createdAt := m.createdAt
          lastUsedAt := m.lastUsedAt
          directory := some directory
          tokenFile := some ⟨directory, m.tokens⟩ }
      else none
    | _ => none
  | _ => none

end FreeToken.Spill

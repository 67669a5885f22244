import Vcache.ArtifactText
import Vcache.Blob
import Vcache.DepFile
import Vcache.FileOps
import Vcache.RootText

/-!
# Putting the outputs of a hit in place

A link entry names its outputs and their digests, and the stored files are cloned beside the
outputs, checked and renamed onto them one by one (`core/link`). A Rust entry holds small
files itself and names the large ones by digest: all large ones are cloned and checked
before the first is renamed, and the small ones are written last (`rust/rust_compile`).
The steps are the calls of `util/fs` that can fail.
-/

namespace Vcache

open FileOps Triples

structure OutFile where
  contents : Str
  executable : Bool
deriving DecidableEq

/-- The machine the outputs are placed on. `stored` is the store of outputs when an operation
is made, and `suffix` the letters `mkostemp` ends a name with. -/
structure RestoreWorld (L : Type) extends World Str L where
  suffix : ℕ → Str
  suffix_plain : ∀ n, '/' ∉ suffix n
  stored : ℕ → Str → Option Str
  hash : Str → Str

abbrev Files (L : Type) := State Str L OutFile

abbrev Act (L α : Type) := Action (Files L) α

/-- The directories on the way to a directory and the directory itself. -/
def dirsOnTheWay (dir : Str) : List Str :=
  dir.inits.filter (fun front => front ≠ [] && (front = dir || dir[front.length]? = some '/'))

def tempBeside (path suffix : Str) : Str :=
  (if dirName path = [] then [] else dirName path ++ "/".toList) ++ ".vcache-tmp-".toList ++ suffix

namespace RestoreWorld

variable {L : Type} [DecidableEq L] (w : RestoreWorld L)

def now : Act L ℕ := .read State.count

def makeWay (path : Str) : Act L Bool :=
  if dirName path = [] then pure true else makeDirs w.toWorld (dirsOnTheWay (dirName path))

def createTempBeside (path : Str) : Act L (Option Str) := do
  let ready ← w.makeWay path
  if !ready then pure none
  else
    let n ← now
    let temp := tempBeside path (w.suffix n)
    let created ← createExclusive w.toWorld temp ⟨[], false⟩
    if !created then pure none
    else
      let ok ← attempt w.toWorld
      if ok then pure (some temp)
      else
        FileOps.unlink w.toWorld temp
        pure none

def isHexDigest (digest : Str) : Bool := digest.length = kDigestHexLen && digest.all isHexDigit

def getFile (digest : Str) : Act L Bool := do
  let n ← now
  let ok ← attempt w.toWorld
  pure (ok && isHexDigest digest && (w.stored n digest).isSome)

def cloneToTempBeside (digest beside : Str) : Act L (Option Str) := do
  let n ← now
  match w.stored n digest with
  | none => pure none
  | some contents =>
    let temp? ← w.createTempBeside beside
    match temp? with
    | none => pure none
    | some temp =>
      let ok ← attempt w.toWorld
      if ok then
        put w.toWorld temp ⟨contents, false⟩
        pure (some temp)
      else
        FileOps.unlink w.toWorld temp
        pure none

def hashFile (path : Str) : Act L (Option Str) := do
  let ok ← attempt w.toWorld
  let file ← contentsAt w.toWorld path
  pure (if ok then file.map (fun f => w.hash f.contents) else none)

def addExecuteBitsUnderUmask (path : Str) : Act L Bool := do
  let ok ← attempt w.toWorld
  let file ← contentsAt w.toWorld path
  match file with
  | none => pure false
  | some f =>
    if ok then
      put w.toWorld path { f with executable := true }
      pure true
    else pure false

def writeFileAtomic (path contents : Str) : Act L Bool := do
  let temp? ← w.createTempBeside path
  match temp? with
  | none => pure false
  | some temp =>
    let written ← attempt w.toWorld
    if !written then
      FileOps.unlink w.toWorld temp
      pure false
    else
      put w.toWorld temp ⟨contents, false⟩
      let renamed ← FileOps.rename w.toWorld temp path
      if renamed then pure true
      else
        FileOps.unlink w.toWorld temp
        pure false

/-- The mode change, if one is asked for. -/
def makeExecutable (executable : Bool) (path : Str) : Act L Bool :=
  if executable then w.addExecuteBitsUnderUmask path else pure true

/-! ## Links -/

inductive Materialized where
  | placed
  | unusable
  | failed
deriving DecidableEq

def placeVerifiedClone (digest output : Str) (executable : Bool) : Act L Bool := do
  let temp? ← w.cloneToTempBeside digest output
  match temp? with
  | none => pure false
  | some temp =>
    let cloneDigest ← w.hashFile temp
    if cloneDigest ≠ some digest then
      FileOps.unlink w.toWorld temp
      pure false
    else
      let ready ← w.makeExecutable executable temp
      if !ready then
        FileOps.unlink w.toWorld temp
        pure false
      else
        let renamed ← FileOps.rename w.toWorld temp output
        if renamed then pure true
        else
          FileOps.unlink w.toWorld temp
          pure false

def isXDigit (c : Char) : Bool := isHexDigit c || ('A' ≤ c && c ≤ 'F')

/-- The first loop of `MaterializeOutputs`: every output is found before any is placed. -/
def findOutputs (outputs : List Str) : List BlobFile → Act L Bool
  | [] => pure true
  | f :: files => do
    if f.name ∉ outputs then pure false
    else if !(f.contents.length = kDigestHexLen && f.contents.all isXDigit) then pure false
    else
      let found ← w.getFile f.contents
      if found then findOutputs outputs files else pure false

def placeOutputs : List BlobFile → Act L Bool
  | [] => pure true
  | f :: files => do
    let ok ← w.placeVerifiedClone f.contents f.name f.executable
    if ok then placeOutputs files else pure false

def materializeOutputs (blob : Blob) (outputs : List Str) : Act L Materialized := do
  if outputs.insertionSort (· ≤ ·) ≠ (blob.files.map BlobFile.name).insertionSort (· ≤ ·) then
    pure .unusable
  else
    let found ← w.findOutputs outputs blob.files
    if !found then pure .unusable
    else
      let ok ← w.placeOutputs blob.files
      pure (if ok then .placed else .failed)

/-! ## Rust -/

/-- The rewrite of every target and prerequisite that starts with a directory's text. -/
def fixDir (source target path : Str) : Str :=
  if startsWith path source then target ++ path.drop source.length else path

def substituteDir (source target : Str) (dep : DepFile) : DepFile :=
  { dep with rules := dep.rules.map (remapDepRule (fixDir source target)) }

def isSafeOutputName (name : Str) : Bool :=
  name ≠ [] && !name.contains '\x00' && name.head? ≠ some '/' &&
    (split '/' name).all (· ≠ "..".toList)

/-- What an output directory's tree is restored with. -/
structure Restore where
  outDir : Str
  roots : RootMap
  pathEnvVars : List Str
  getenv : Str → Option Str

namespace Restore

variable (r : Restore)

def target (name : Str) : Str := r.outDir ++ "/".toList ++ name

def bytesOf (file : BlobFile) : Str :=
  if endsWith file.name ".d".toList then
    match parseDepFile file.contents with
    | some dep => renderDepFile (substituteDir kOutDirPlaceholder r.outDir
        (remapDepFile r.roots .localize r.pathEnvVars r.getenv dep))
    | none => file.contents
  else file.contents

end Restore

/-- The loop of `RestoreOutputs`, with the number of files placed before it. -/
def restoreFiles (r : Restore) : List BlobFile → ℕ → Act L (Bool × ℕ)
  | [], placed => pure (true, placed)
  | file :: files, placed => do
    let written ← w.writeFileAtomic (r.target file.name) (r.bytesOf file)
    if !written then pure (false, placed)
    else
      let ready ← w.makeExecutable file.executable (r.target file.name)
      if ready then restoreFiles r files (placed + 1) else pure (false, placed + 1)

def restoreOutputs (r : Restore) (files : List BlobFile) : Act L (Bool × ℕ) :=
  if files.all (fun file => isSafeOutputName file.name) then w.restoreFiles r files 0
  else pure (false, 0)

inductive HitOutcome where
  | served
  | unusable
  | partiallyPlaced
deriving DecidableEq

abbrev VerifiedClone := Str × Str

def discard : List VerifiedClone → Act L Unit
  | [] => pure ()
  | clone :: clones => do
    FileOps.unlink w.toWorld clone.1
    discard clones

/-- The loop over the sidecars; `none` if one cannot be had, with every clone removed again. -/
def cloneSidecars (r : Restore) :
    List BlobSidecarFile → List VerifiedClone → Act L (Option (List VerifiedClone))
  | [], clones => pure (some clones)
  | file :: files, clones => do
    let found ← w.getFile file.digest
    if !found then
      w.discard clones
      pure none
    else
      let temp? ← w.cloneToTempBeside file.digest (r.target file.name)
      match temp? with
      | none =>
        w.discard clones
        pure none
      | some temp =>
        let digest ← w.hashFile temp
        if digest ≠ some file.digest then
          w.discard (clones ++ [(temp, r.target file.name)])
          pure none
        else
          let ready ← w.makeExecutable file.executable temp
          if ready then cloneSidecars r files (clones ++ [(temp, r.target file.name)])
          else
            w.discard (clones ++ [(temp, r.target file.name)])
            pure none

/-- The loop over the renames; the outcome if one fails, `first` until one has succeeded. -/
def renameClones : Bool → List VerifiedClone → Act L (Option HitOutcome)
  | _, [] => pure none
  | first, clone :: clones => do
    let renamed ← FileOps.rename w.toWorld clone.1 clone.2
    if renamed then renameClones false clones
    else
      w.discard (clone :: clones)
      pure (some (if first then .unusable else .partiallyPlaced))

/-- `ServeHit` for an entry that was read. -/
def serveBlob (r : Restore) (blob : Blob) : Act L HitOutcome := do
  if blob.files = [] ∧ blob.sidecarFiles = [] then pure .unusable
  else if !(blob.files.map BlobFile.name ++ blob.sidecarFiles.map BlobSidecarFile.name).all
      isSafeOutputName then pure .unusable
  else
    let clones? ← w.cloneSidecars r blob.sidecarFiles []
    match clones? with
    | none => pure .unusable
    | some clones =>
      let failed ← w.renameClones true clones
      match failed with
      | some outcome => pure outcome
      | none =>
        let restored ← w.restoreOutputs r blob.files
        if restored.1 then pure .served
        else pure (if 0 < clones.length + restored.2 then .partiallyPlaced else .unusable)

/-- The diagnostics a served hit replays. -/
def replayedText (r : Restore) (blob : Blob) : Str :=
  rewriteArtifactDir (r.roots.localizeText blob.stderrText) kOutDirPlaceholder r.outDir

/-- `ServeHit`; `none` if the entry's reader has not ended within the fuel. -/
def serveHit (r : Restore) (fuel : ℕ) (value : Str) (s : Files L) : Option (HitOutcome × Files L) :=
  match deserializeBlob w.hash fuel value {} with
  | none => none
  | some (.failed _) => some (.unusable, s)
  | some (.accepted blob) => some (w.serveBlob r blob s)

end RestoreWorld

end Vcache

import Vcache.CxxManifestKey
import Vcache.Interleaving
import Vcache.LinkHit
import Vcache.RustKey
import Vcache.TimedFiles

/-!
# The four cached operations

Each operation as the sequence of files it reads: what it hashes for its key,
what the tool reads to make the output, and what it hashes afterwards for the
manifest. A read is tagged with what it is for. Tools are processes that ask for
files; what the operation computes from the answers is computed by the functions
of the other modules. Whether a lookup serves is up to the caches.
-/

namespace Vcache

open QueryProcess (Process Setting)

/-! ## Files that change -/

structure Stamped where
  contents : Str
  changed : ℕ
deriving DecidableEq

/-- The files, the time, and the granule timestamps are rounded down to. -/
structure Disk where
  files : Str → Option Stamped
  clock : ℕ
  granule : ℕ

structure Edit where
  path : Str
  contents : Option Str

/-- An edit stamps the file with the time it is made at, as far as timestamps tell. -/
def Disk.edit (e : Edit) (d : Disk) : Disk :=
  { d with
    files := Function.update d.files e.path
      (e.contents.map (fun data => ⟨data, TimedFiles.stamp d.granule d.clock⟩))
    clock := d.clock + 1 }

/-- What a read is for: the entry's key, the key of the manifest, finding out what there is
to hash, the output, the state to be recorded, or the timestamps of a file. -/
inductive Purpose where
  | key | manifestKey | survey | produce | record | stat
deriving DecidableEq

structure FileQuery where
  purpose : Purpose
  path : Str
deriving DecidableEq

def diskSetting : Setting FileQuery (Option Stamped) Disk Edit where
  answer d q := d.files q.path
  change := Disk.edit

abbrev OpProcess (R : Type) := Process FileQuery (Option Stamped) R

/-- A compiler, linker or scanner: it asks for paths as it spells them. -/
abbrev Tool (R : Type) := Process Str (Option Str) R

def runTool {R : Type} (purpose : Purpose) (host : Host) : Tool R → OpProcess R
  | .done r => .done r
  | .ask path next => .ask ⟨purpose, absoluteLexical host path⟩
      (fun file => runTool purpose host (next (file.map Stamped.contents)))

abbrev FilesRead := List (Str × Option Stamped)

def readAll (purpose : Purpose) (host : Host) : List Str → OpProcess FilesRead
  | [] => .done []
  | path :: paths => .ask ⟨purpose, absoluteLexical host path⟩ (fun file =>
      (readAll purpose host paths).andThen (fun read =>
        .done ((absoluteLexical host path, file) :: read)))

def FilesRead.find (read : FilesRead) (host : Host) (path : Str) : Option Stamped :=
  (read.find? (fun file => file.1 == absoluteLexical host path)).bind Prod.snd

def FilesRead.fileSystem (read : FilesRead) (host : Host) : FileSystem :=
  fun path => (read.find host path).map Stamped.contents

/-! ## What a run leaves -/

/-- An entry put into the cache: its key, whether what was read for the key is in it, the
output, and the manifest state that names it with the key of the manifest. -/
structure StoredEntry where
  key : Str
  keyed : Bool
  output : Str
  manifest : Option (Str × List (Str × Str))
deriving DecidableEq

inductive Outcome where
  | passthrough
  | served
  | failed
  | notStored
  | stored (entry : StoredEntry)
deriving DecidableEq

def manifestFilePieces (files : List (Str × Str)) : List Str :=
  files.flatMap (fun file => [file.1, file.2])

/-! ## C and C++ compiles -/

structure PreprocessRun where
  exitCode : ℕ
  text : Str

/-- What a compile leaves: the object, whether the caller's depfile parsed, the
prerequisites of the depfile a manifest state is read from, and the files the trace adds. -/
structure CompileRun where
  exitCode : ℕ
  object : Str
  depfileParsed : Bool
  prerequisites : Option (List Str)
  traced : List Str
  written : List Str

structure CompileOp where
  digest : Digest
  config : Config
  compilerId : CompilerId
  nativeTarget : Str
  host : Host
  environ : List (Str × Str)
  isDirectory : Str → Bool
  roots : RootMap
  parsed : CompilerArgs
  cxxManifest : Bool
  readOnly : Bool
  /-- The cache has an entry under the key that fits this compile. -/
  serves : Str → Bool
  /-- A state of the manifest under the key matches, and its entry serves. -/
  lookup : Str → Bool
  preprocess : List Str → Tool PreprocessRun
  compile : List Str → Tool CompileRun
  /-- What else declines a state: the source is not among the files, a `.gch` or a probe
  that no depfile names. -/
  otherDeclines : CompileRun → List (Str × Str) → Bool

def kCxxDerivedKeyVersion : Str := "vcache-cxx-derived-v1".toList

/-- `DeriveCxxResultKey`. -/
def deriveCxxResultKey (digest : Digest) (manifestKey : Str) (files : List (Str × Str)) : Str :=
  digest.hash (delimitedStream ([kCxxDerivedKeyVersion, manifestKey] ++ manifestFilePieces files))

def setsWorkingDirectory (parsed : CompilerArgs) : Bool :=
  parsed.argv.any (fun arg =>
    (["-working-directory", "--working-directory"].map String.toList).any (fun flag =>
      arg == flag || startsWith arg (flag ++ "=".toList)))

namespace CompileOp

def keyInput (op : CompileOp) (read : FilesRead) : KeyInput where
  digest := op.digest
  config := op.config
  world :=
    { host := op.host
      files := read.fileSystem op.host
      mtime := fun path => (read.find op.host path).map (fun file => (file.changed : ℤ))
      environ := op.environ }
  compilerId := op.compilerId
  nativeTarget := op.nativeTarget
  roots := op.roots
  parsed := op.parsed

/-- The files `ComputeKey` reads beside the preprocessed text: those the command line
names, and the PCHs the text names, each with its side files. -/
def keyReads (op : CompileOp) (text : Str) : List Str :=
  op.parsed.keyFiles ++ match normalizePreprocessed op.roots text with
    | none => []
    | some normalized => normalized.pchPaths.flatMap (fun pch =>
        [pch, pch ++ ".sum".toList, pch ++ ".vcache-key".toList])

/-- One file of a manifest state: read first, then its timestamps; `none` declines. -/
def recordFile (op : CompileOp) (started : ℕ) (declines : Str → Bool) (path : Str) :
    OpProcess (Option (Str × Str)) :=
  .ask ⟨.record, absoluteLexical op.host path⟩ (fun bytes =>
    .ask ⟨.stat, absoluteLexical op.host path⟩ (fun changed => .done (match bytes, changed with
      | some bytes, some changed =>
        if started ≤ changed.changed ∨ declines bytes.contents then none
        else some (op.roots.canonicalize path, op.digest.hash bytes.contents)
      | _, _ => none)))

def recordDepfileInputs (op : CompileOp) (started : ℕ) (scanIncbin : Bool) :
    List Str → OpProcess (Option (List (Str × Str)))
  | [] => .done (some [])
  | path :: paths =>
    (op.recordFile started (fun text =>
      (findTimeMacro text).isSome || (scanIncbin && containsIncbin text)) path).andThen (fun file =>
        match file with
        | none => .done none
        | some file => (op.recordDepfileInputs started scanIncbin paths).andThen (fun files =>
            .done (files.map (file :: ·))))

/-- The loop of `AddCxxTraceInputs` over the reads the depfile does not list. A file that
is gone may be one the compile wrote itself. -/
def addCxxTraceInputs (op : CompileOp) (started : ℕ) (written : List Str) :
    List Str → OpProcess (Option (List (Str × Str)))
  | [] => .done (some [])
  | path :: paths => .ask ⟨.stat, absoluteLexical op.host path⟩ (fun st => match st with
    | none => if path ∈ written then op.addCxxTraceInputs started written paths else .done none
    | some _ => (op.recordFile started (fun _ => false) path).andThen (fun file => match file with
      | none => .done none
      | some file => (op.addCxxTraceInputs started written paths).andThen (fun files =>
          .done (files.map (file :: ·)))))

def readCxxManifestInputs (op : CompileOp) (started : ℕ) (scanIncbin : Bool)
    (compiled : CompileRun) : OpProcess (Option (List (Str × Str))) :=
  match compiled.prerequisites with
  | none => .done none
  | some prerequisites =>
    let paths := (prerequisites.map (cxxAbsolutePath op.host.currentDir)).eraseDups
    (op.recordDepfileInputs started scanIncbin paths).andThen (fun files => match files with
      | none => .done none
      | some files =>
        if op.otherDeclines compiled files then .done none
        else (op.addCxxTraceInputs started compiled.written
          (compiled.traced.filter (fun path => path ∉ paths))).andThen (fun traced =>
            .done (traced.map (files ++ ·))))

/-- What the compile read, for the manifest under the key. -/
def recordState (op : CompileOp) (started : ℕ) (manifestKey : Option Str) (scanIncbin : Bool)
    (compiled : CompileRun) : OpProcess (Option (Str × List (Str × Str))) :=
  match manifestKey with
  | none => .done none
  | some manifestKey =>
    if setsWorkingDirectory op.parsed then .done none
    else (op.readCxxManifestInputs started scanIncbin compiled).andThen (fun files =>
      .done (files.map (fun files => (manifestKey, files))))

def asksForDepfile (op : CompileOp) : Bool := op.parsed.generatesDeps && op.parsed.depfile != []

def compileCommand (op : CompileOp) (manifestKey : Option Str) : List Str :=
  let addMd := manifestKey.isSome && !op.parsed.generatesDeps
  let depfile := if addMd then "manifest.d".toList
    else if op.asksForDepfile then "out.d".toList else []
  buildCompileCommand op.parsed op.roots "out".toList depfile addMd []

def store (op : CompileOp) (compiled : CompileRun) (entry : StoredEntry) : Outcome :=
  if op.readOnly || (op.asksForDepfile && !compiled.depfileParsed) then .notStored
  else .stored entry

/-- `RunCompile` after the lookups missed; without a key it is derived from what the
compile read. -/
def compileAndStore (op : CompileOp) (started : ℕ) (manifestKey key : Option Str) :
    OpProcess Outcome :=
  (runTool .produce op.host (op.compile (op.compileCommand manifestKey))).andThen (fun compiled =>
    if compiled.exitCode ≠ 0 then .done .failed
    else (op.recordState started manifestKey key.isNone compiled).andThen (fun state =>
      match key, state with
      | some key, _ => .done (op.store compiled ⟨key, true, compiled.object, state⟩)
      | none, some state => .done (op.store compiled
          ⟨deriveCxxResultKey op.digest state.1 state.2, false, compiled.object, some state⟩)
      | none, none => .done .notStored))

def preprocessCommand (op : CompileOp) : List Str :=
  buildPreprocessCommand op.parsed op.roots op.compilerId [] []

/-- `RunCompile` from the preprocessor on. Only an error the compiler reported lets the
key be derived. -/
def preprocessAndCompile (op : CompileOp) (started : ℕ) (manifestKey : Option Str) :
    OpProcess Outcome :=
  (runTool .key op.host (op.preprocess op.preprocessCommand)).andThen (fun preprocessed =>
      if preprocessed.exitCode ≠ 0 then
        if preprocessed.exitCode = 1 ∧ manifestKey.isSome ∧ ¬ op.readOnly then
          op.compileAndStore started manifestKey none
        else .done .passthrough
      else (readAll .key op.host (op.keyReads preprocessed.text)).andThen (fun read =>
        match (op.keyInput read).computeKey preprocessed.text with
        | none => .done .passthrough
        | some streams =>
          if streams.sawIncbin then .done .passthrough
          else if op.serves (op.digest.hash streams.stream) then .done .served
          else op.compileAndStore started manifestKey (some (op.digest.hash streams.stream))))

/-- The key of the manifest, from what was read for it. -/
def manifestKey (op : CompileOp) (read : FilesRead) : Option Str :=
  if op.cxxManifest then
    ((op.keyInput read).computeCxxManifestKey op.isDirectory).map op.digest.hash
  else none

def process (op : CompileOp) (started : ℕ) : OpProcess Outcome :=
  (readAll .manifestKey op.host (if op.cxxManifest then (op.keyInput []).manifestReads
    else [])).andThen (fun read => match op.manifestKey read with
      | none => op.preprocessAndCompile started none
      | some manifestKey =>
        if op.lookup manifestKey then .done .served
        else op.preprocessAndCompile started (some manifestKey))

end CompileOp

/-! ## Dependency scans -/

/-- What a scan leaves; `prerequisites` is `none` when its output is missing or does not
parse. -/
structure ScanRun where
  exitCode : ℕ
  text : Str
  prerequisites : Option (List Str)

structure DepScanOp where
  digest : Digest
  config : Config
  compilerId : CompilerId
  nativeTarget : Str
  host : Host
  environ : List (Str × Str)
  roots : RootMap
  parsed : CompilerArgs
  readOnly : Bool
  lookup : Str → Bool
  scan : List Str → Tool ScanRun

def kDepScanKeyVersion : Str := "vcache-depscan-v5".toList

namespace DepScanOp

def key (op : DepScanOp) (sourceDigest : Str) : Str :=
  op.digest.hash (delimitedStream
    ([kDepScanKeyVersion, op.compilerId.fingerprint, op.nativeTarget, op.roots.fingerprint,
      sourceDigest] ++ depScanKeyArgs op.parsed op.roots op.compilerId.isClang ++
      op.config.extraEnvVars.flatMap (fun name =>
        [name, ((op.environ.find? (fun entry => entry.1 == name)).map Prod.snd).getD []])))

def resultKey (op : DepScanOp) (key : Str) (files : List (Str × Str)) : Str :=
  op.digest.hash (delimitedStream
    (["vcache-depscan-result-v1".toList, key] ++ manifestFilePieces files))

/-- The caller's command with the answer sent to a file of its own. -/
def command (op : DepScanOp) : List Str :=
  TokenScan.scan (fun arg =>
    if arg = "-o".toList ∨ arg = "-MF".toList then .dropValue
    else if startsWith arg "-MF".toList && 3 < arg.length then .drop
    else .keep) op.parsed.argv ++ ["-MF".toList, "deps.d".toList]

/-- Every prerequisite becomes a file of the state; one that cannot be hashed ends the
store. -/
def hashPrerequisites (op : DepScanOp) : List Str → OpProcess (Option (List (Str × Str)))
  | [] => .done (some [])
  | path :: paths => .ask ⟨.record, absoluteLexical op.host path⟩ (fun file => match file with
    | none => .done none
    | some file => (op.hashPrerequisites paths).andThen (fun files => .done (files.map
        ((op.roots.canonicalize path, op.digest.hash file.contents) :: ·))))

def scanAndStore (op : DepScanOp) (key : Str) : OpProcess Outcome :=
  (runTool .produce op.host (op.scan op.command)).andThen (fun scanned =>
    if scanned.exitCode ≠ 0 then .done .failed
    else match scanned.prerequisites with
      | none => .done .notStored
      | some prerequisites =>
        if op.readOnly then .done .notStored
        else (op.hashPrerequisites prerequisites).andThen (fun files => match files with
          | none => .done .notStored
          | some files => .done (.stored
              ⟨op.resultKey key files, true, scanned.text, some (key, files)⟩)))

def process (op : DepScanOp) : OpProcess Outcome :=
  .ask ⟨.key, absoluteLexical op.host op.parsed.source⟩ (fun source => match source with
    | none => .done .passthrough
    | some source =>
      let key := op.key (op.digest.hash source.contents)
      if op.lookup key then .done .served else op.scanAndStore key)

end DepScanOp

/-! ## Links -/

/-- What a link leaves: its outputs, unless one is missing, and the trace, unless the
tracer could not record something. -/
structure LinkRun where
  exitCode : ℕ
  output : Option Str
  records : Option TraceRecords

structure LinkOp where
  digest : Digest
  setting : LinkSetting
  host : Host
  parsed : LinkArgs
  readOnly : Bool
  lookup : Str → Bool
  link : List Str → Tool LinkRun

namespace LinkOp

def preKey (op : LinkOp) (read : FilesRead) : Str :=
  op.digest.hash (op.setting.preKeyStream
    (fun path => (read.fileSystem op.host path).map op.digest.hash) op.parsed)

def trace (op : LinkOp) (records : TraceRecords) : LinkTrace :=
  parseTraceLog op.host (allOutputs op.parsed) records

/-- The files hashed after the link: the tools and the inputs the command does not name. -/
def recordedPaths (op : LinkOp) (records : TraceRecords) : List Str :=
  (op.trace records).tools ++ (op.trace records).inputs.filter (fun path =>
    op.setting.roots.canonicalize path ∉ namedInputs op.setting.roots op.host op.parsed)

def linkAndStore (op : LinkOp) (preKey : Str) : OpProcess Outcome :=
  (runTool .produce op.host (op.link op.parsed.argv)).andThen (fun linked =>
    if linked.exitCode ≠ 0 then .done .failed
    else match linked.records with
      | none => .done .notStored
      | some records =>
        if (op.trace records).tools = [] ∨ op.readOnly then .done .notStored
        else (readAll .record op.host (op.recordedPaths records)).andThen (fun read =>
          let entry := linkEntry op.digest op.setting op.host (read.fileSystem op.host) preKey
            op.parsed records
          match linked.output with
          | none => .done .notStored
          | some output =>
            .done (.stored ⟨entry.resultKey, true, output, some (preKey, entry.inputs)⟩)))

def process (op : LinkOp) : OpProcess Outcome :=
  (readAll .key op.host op.parsed.inputs).andThen (fun read =>
    if op.lookup (op.preKey read) then .done .served else op.linkAndStore (op.preKey read))

end LinkOp

/-! ## rustc -/

/-- What rustc leaves; `output` is `none` when the outputs cannot be captured or their
dep-info does not parse. -/
structure RustRun where
  exitCode : ℕ
  output : Option Str

structure RustOp where
  digest : Digest
  setting : RustSetting
  host : Host
  env : Str → Option Str
  parsed : RustcArgs
  usesManifest : Bool
  readOnly : Bool
  serves : Str → Bool
  /-- A state of the manifest for this source and these externs matches and serves. -/
  lookup : Str → List RustExtern → Bool
  depInfo : Tool CrateInputs
  compile : List Str → Tool RustRun

namespace RustOp

def world (op : RustOp) (read : FilesRead) : RustWorld where
  files := read.fileSystem op.host
  env := op.env

def externPaths (op : RustOp) : List Str :=
  op.parsed.externs.filterMap (fun ext => if ext.path = [] then none else some ext.path)

def command (op : RustOp) : List Str :=
  op.parsed.compiler :: op.parsed.baseArgs ++ op.setting.roots.prefixMapArgs .rust ++
    ["--emit=".toList ++ join ",".toList op.parsed.emitKinds, "--out-dir".toList, "out".toList,
      op.parsed.source]

def compileAndStore (op : RustOp) (source : Option Str) (key : Str) (files : List (Str × Str)) :
    OpProcess Outcome :=
  (runTool .produce op.host (op.compile op.command)).andThen (fun compiled =>
    if compiled.exitCode ≠ 0 then .done .failed
    else match compiled.output with
      | none => .done .notStored
      | some output =>
        if op.readOnly then .done .notStored
        else .done (.stored ⟨key, true, output, source.map (fun source => (source, files))⟩))

/-- From the dep-info run on. Its reads decide which sources are hashed; what goes into
the key is what `HashSources` reads. -/
def collectAndCompile (op : RustOp) (source : Option Str) (externs : List RustExtern) :
    OpProcess Outcome :=
  (runTool .survey op.host op.depInfo).andThen (fun inputs =>
    if inputs.sources = [] then .done .passthrough
    else (readAll .key op.host inputs.sources).andThen (fun read =>
      match inputs.sources.mapM (hashSource op.digest op.setting.roots (op.world read)) with
      | none => .done .passthrough
      | some files =>
        let key := op.digest.hash (delimitedStream (op.setting.keyPieces op.parsed (op.world read)
          files (inputs.envDeps.map op.setting.keyedEnvDep) externs))
        if op.serves key then .done .served else op.compileAndStore source key files))

def process (op : RustOp) : OpProcess Outcome :=
  (readAll .key op.host op.externPaths).andThen (fun read =>
    match hashExterns op.digest (op.world read) op.parsed with
    | none => .done .passthrough
    | some externs =>
      (readAll .manifestKey op.host (if op.usesManifest then [op.parsed.source]
        else [])).andThen (fun read =>
          match (read.fileSystem op.host op.parsed.source).map op.digest.hash with
          | none => op.collectAndCompile none externs
          | some source =>
            if op.lookup source externs then .done .served
            else op.collectAndCompile (some source) externs))

end RustOp

/-! ## All four -/

inductive Operation where
  | compile (op : CompileOp)
  | depScan (op : DepScanOp)
  | link (op : LinkOp)
  | rustc (op : RustOp)

def Operation.process (started : ℕ) : Operation → OpProcess Outcome
  | .compile op => op.process started
  | .depScan op => op.process
  | .link op => op.process
  | .rustc op => op.process

end Vcache

import Vcache.CompileKey
import Vcache.ManifestKeyArgs
import Vcache.RootText

/-!
# The key of a C/C++ manifest

`ComputeCxxManifestKey` covers what the preprocessor key covers except the
preprocessed text, and what decides that text before a header is read: the
working directory, the source, the include path's header maps and the
precompiled headers the command may load (`core/compile`, `core/cxx_manifest`).
-/

namespace Vcache

def cxxAbsolutePath (cwd path : Str) : Str :=
  if isAbsolute path then path else cwd ++ "/".toList ++ path

/-- `__DATE__`, `__TIME__` or `__TIMESTAMP__` occurs in the text. -/
def findTimeMacro (text : Str) : Option Str :=
  (["__DATE__", "__TIME__", "__TIMESTAMP__"].map String.toList).find?
    (fun name => contains name text)

/-- What a reader finds along a command line: at each token something and the number of
tokens it took besides, or nothing. -/
def collectArgs {α : Type*} (readAt : Str → List Str → Option (α × ℕ)) : ℕ → List Str → List α
  | _, [] => []
  | skip + 1, _ :: rest => collectArgs readAt skip rest
  | 0, arg :: rest => match readAt arg rest with
    | none => collectArgs readAt 0 rest
    | some (found, taken) => found :: collectArgs readAt taken rest

/-! ## The include path -/

def kIncludeFlags : List Str := ["-iquote", "-I", "-isystem", "-idirafter"].map String.toList

def includeDirAt (arg : Str) (rest : List Str) : Option (Str × ℕ) :=
  kIncludeFlags.findSome? (fun flag =>
    if arg = flag ∧ rest ≠ [] then some (rest.headD [], 1)
    else if flag.length < arg.length ∧ startsWith arg flag then some (arg.drop flag.length, 0)
    else none)

def kIncludePathEnvVars : List Str :=
  ["CPATH", "C_INCLUDE_PATH", "CPLUS_INCLUDE_PATH", "OBJC_INCLUDE_PATH",
    "OBJCPLUS_INCLUDE_PATH"].map String.toList

def cxxIncludeDirs (w : CompileWorld) (parsed : CompilerArgs) : List Str :=
  let cwd := w.host.currentDir
  (collectArgs includeDirAt 0 parsed.baseArgs).map (cxxAbsolutePath cwd) ++
    (kIncludePathEnvVars.filterMap w.getenv).flatMap (fun value =>
      (split ':' value).map (fun dir => if dir = [] then cwd else cxxAbsolutePath cwd dir))

/-! ## Precompiled headers a command may load -/

inductive PchMention where
  | named (path : Str)
  | beside (header : Str)

def pchMentionAt (arg : Str) (rest : List Str) : Option (PchMention × ℕ) :=
  if arg = "-include-pch".toList ∧ rest ≠ [] then some (.named (rest.headD []), 1)
  else if arg = "-Xclang".toList ∧ 2 < rest.length ∧ rest[0]? = some "-include-pch".toList ∧
      rest[1]? = some "-Xclang".toList then some (.named (rest.getD 2 []), 3)
  else if arg = "-include".toList ∧ rest ≠ [] then some (.beside (rest.headD []), 1)
  else if 8 < arg.length ∧ startsWith arg "-include".toList then some (.beside (arg.drop 8), 0)
  else none

/-- Where the PCHs of a mention may be. -/
def PchMention.candidates (w : CompileWorld) (parsed : CompilerArgs) : PchMention → List Str
  | .named path => [cxxAbsolutePath w.host.currentDir path]
  | .beside header =>
    let headers :=
      if isAbsolute header then [header]
      else (w.host.currentDir :: cxxIncludeDirs w parsed).map (fun dir =>
        dir ++ "/".toList ++ header)
    headers.flatMap (fun candidate => [candidate ++ ".pch".toList, candidate ++ ".gch".toList])

/-- A PCH named by the command counts whether it exists or not. -/
def PchMention.paths (w : CompileWorld) (parsed : CompilerArgs) : PchMention → List Str
  | .named path => [cxxAbsolutePath w.host.currentDir path]
  | .beside header => ((PchMention.beside header).candidates w parsed).filter
      (fun pch => (w.files pch).isSome)

structure ConsumedPchs where
  paths : List Str
  /-- A `.gch` directory holds several PCHs the compiler chooses between. -/
  unsupported : Bool

def findConsumedPchs (w : CompileWorld) (isDirectory : Str → Bool) (parsed : CompilerArgs) :
    ConsumedPchs :=
  let mentions := collectArgs pchMentionAt 0 parsed.baseArgs
  { paths := (mentions.flatMap (PchMention.paths w parsed)).eraseDups
    unsupported := mentions.any (fun mention => match mention with
      | .named _ => false
      | .beside header => ((PchMention.beside header).candidates w parsed).any isDirectory) }

/-! ## The key -/

def kCxxManifestKeyVersion : Str := "vcache-cxx-manifest-v7".toList

def kDependencyEnvVars : List Str :=
  ["DEPENDENCIES_OUTPUT", "SUNPRO_DEPENDENCIES"].map String.toList

def usesDependencyFlag (parsed : CompilerArgs) (flag : Str) : Bool := parsed.depArgs.contains flag

namespace KeyInput

/-- The compile cannot use a manifest, whatever its files hold. -/
def manifestRefused (k : KeyInput) : Bool :=
  usesDependencyFlag k.parsed "-MMD".toList ||
    kDependencyEnvVars.any (fun name => (k.world.getenv name).isSome) ||
    k.parsed.argv.any (fun arg => (findTimeMacro arg).isSome)

/-- The digests of the include path's files, which are clang header maps. -/
def headerMapPieces (k : KeyInput) : List Str :=
  (cxxIncludeDirs k.world k.parsed).flatMap (fun dir => match k.world.hashFile k.digest dir with
    | none => []
    | some digest => ["header-map".toList, digest])

def includeEnvPieces (k : KeyInput) : List Str :=
  kIncludePathEnvVars.flatMap (fun name => [name, match k.world.getenv name with
    | none => "unset".toList
    | some value => "=".toList ++ k.roots.canonicalizeText value])

def sourcePieces (k : KeyInput) (sourceDigest : Str) : List Str :=
  let cwd := k.world.host.currentDir
  [k.roots.canonicalize cwd, k.roots.canonicalize (cxxAbsolutePath cwd k.parsed.source),
    k.roots.canonicalize k.parsed.source, sourceDigest]

/-- The stream `ComputeCxxManifestKey` hashes; `none` when the compile uses no manifest. -/
def computeCxxManifestKey (k : KeyInput) (isDirectory : Str → Bool) : Option Str := do
  let pchs := findConsumedPchs k.world isDirectory k.parsed
  if k.manifestRefused || pchs.unsupported then none
  else
    let identities ← pchs.paths.mapM (Vcache.pchIdentity k.digest k.world)
    let sourceDigest ← k.world.hashFile k.digest k.parsed.source
    let fileDigests ← k.parsed.keyFiles.mapM (k.world.hashFile k.digest)
    let keyArgs := cxxManifestKeyArgs k.parsed k.roots k.compilerId.isClang
    let driverEnv := driverEnvironment k.world
    some (delimitedStream ([kCxxManifestKeyVersion, kCacheKeyVersion, k.compilerId.fingerprint,
        k.nativeTarget, k.roots.fingerprint] ++ k.sourcePieces sourceDigest ++ k.pchPieces) ++
      updateU64 keyArgs.length ++ delimitedStream (keyArgs ++ fileDigests ++ k.headerMapPieces ++
        k.extraEnvPieces ++ k.includeEnvPieces) ++
      updateU64 driverEnv.length ++ delimitedStream (driverEnv.flatMap (fun e => [e.1, e.2])) ++
      updateU64 identities.length ++ delimitedStream identities)

/-- The files the key may read. -/
def manifestReads (k : KeyInput) : List Str :=
  ((collectArgs pchMentionAt 0 k.parsed.baseArgs).flatMap
      (PchMention.candidates k.world k.parsed)).flatMap (fun pch =>
        [pch, pch ++ ".sum".toList, pch ++ ".vcache-key".toList]) ++
    k.parsed.source :: k.parsed.keyFiles ++ cxxIncludeDirs k.world k.parsed

end KeyInput

end Vcache

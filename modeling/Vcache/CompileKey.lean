import Vcache.CompilerArgs
import Vcache.Hasher
import Vcache.Preprocessed
import Vcache.PrefixMaps

/-!
# The preprocessor key

`ComputeKey` hashes the compiler, the root targets, the flags that affect code
generation and the normalised output of `-E` (`core/compile`). The pieces before
the text are delimited; the text itself is not.
-/

namespace Vcache

structure Config where
  rootSpecs : List Str := []
  mapCwd : Bool := true
  cwdCanonicalName : Str := "cwd".toList
  extraEnvVars : List Str := []

structure CompilerId where
  fingerprint : Str
  isClang : Bool := false

/-- What a compile finds on the machine it runs on. -/
structure CompileWorld where
  host : Host
  files : FileSystem
  mtime : Str → Option Int
  /-- `environ`, entry by entry. -/
  environ : List (Str × Str)

def CompileWorld.getenv (w : CompileWorld) (name : Str) : Option Str :=
  (w.environ.find? (fun entry => entry.1 == name)).map Prod.snd

def CompileWorld.hashFile (w : CompileWorld) (digest : Digest) (path : Str) : Option Str :=
  (w.files path).map digest.hash

def buildRootMap (config : Config) (host : Host) : RootMap :=
  let roots := fromSpecs host config.rootSpecs
  if config.mapCwd ∧ host.currentDir ≠ [] then
    (roots.addIfUncovered host host.currentDir config.cwdCanonicalName).getD roots
  else roots

/-- The preprocessing command: the caller's flags without those that write files. -/
def buildPreprocessCommand (parsed : CompilerArgs) (roots : RootMap) (compilerId : CompilerId)
    (depfile absentListPath : Str) : List Str :=
  parsed.compiler :: parsed.baseArgs ++ roots.prefixMapArgs .c ++
    (if compilerId.isClang then [] else ["-fno-working-directory".toList]) ++
    (if ¬ compilerId.isClang ∧ ¬ parsed.producesPch then ["-fpch-preprocess".toList] else []) ++
    (if parsed.producesPch then ["-dD".toList] else []) ++
    (if depfile = [] then [] else ["-MD".toList, "-MF".toList, depfile]) ++
    (if absentListPath = [] then [] else ["-fabsent-deps=".toList ++ absentListPath]) ++
    ["-E".toList, parsed.source]

/-- The compile itself: `output` is where the object goes, and `addMd` asks for a depfile
the caller did not ask for. -/
def buildCompileCommand (parsed : CompilerArgs) (roots : RootMap) (output depfile : Str)
    (addMd : Bool) (absentListPath : Str) : List Str :=
  parsed.compiler :: parsed.baseArgs ++
    (if parsed.xclangEmitPch then ["-Xclang".toList, "-emit-pch".toList] else []) ++
    roots.prefixMapArgs .c ++
    (if depfile = [] then [] else parsed.depArgs ++ if addMd then ["-MD".toList] else []) ++
    (if parsed.compileOnly then ["-c".toList] else []) ++
    (if parsed.assembleOnly then ["-S".toList] else []) ++
    (if depfile = [] then []
      else ["-MF".toList, depfile] ++
        if parsed.depTargetExplicit then [] else ["-MT".toList, parsed.output]) ++
    (if absentListPath = [] then [] else ["-fabsent-deps=".toList ++ absentListPath]) ++
    ["-o".toList, output, parsed.source]

/-! ## The environment of the driver -/

def kDriverEnvVars : List Str :=
  ["SDKROOT", "DEVELOPER_DIR", "TOOLCHAINS", "CCC_OVERRIDE_OPTIONS", "GCC_EXEC_PREFIX",
    "COMPILER_PATH"].map String.toList

def kDeploymentTarget : Str := "_DEPLOYMENT_TARGET".toList

def PairBefore (a b : Str × Str) : Prop := a.1 < b.1 ∨ (a.1 = b.1 ∧ a.2 ≤ b.2)

instance : DecidableRel PairBefore := fun _ _ => inferInstanceAs (Decidable (_ ∨ _))

def driverEnvironment (w : CompileWorld) : List (Str × Str) :=
  let named := kDriverEnvVars.filterMap (fun name =>
    (w.getenv name).map (fun value => (name, value)))
  let targets := w.environ.filter (fun entry =>
    kDeploymentTarget.length < entry.1.length && endsWith entry.1 kDeploymentTarget)
  (named ++ targets).insertionSort PairBefore

/-! ## Precompiled headers -/

/-- The identity a side file gives a PCH, unless it is older or blank. -/
def pchSideIdentity (digest : Digest) (w : CompileWorld) (pch : Str) (pchMtime : Int)
    (side : Str × Str) : Option Str := do
  let path := pch ++ side.1
  let sideMtime ← w.mtime path
  if sideMtime < pchMtime then none
  else
    let text ← w.files path
    if trimWhitespace text = [] then none else some (side.2 ++ " ".toList ++ digest.hash text)

def pchIdentity (digest : Digest) (w : CompileWorld) (pch : Str) : Option Str := do
  let pchMtime ← w.mtime pch
  let sides := [(".sum".toList, "sum".toList), (".vcache-key".toList, "vcache-key".toList)]
  match sides.findSome? (pchSideIdentity digest w pch pchMtime) with
  | some identity => some identity
  | none => (w.hashFile digest pch).map (fun hash => "bytes ".toList ++ hash)

/-! ## The key -/

def kCacheKeyVersion : Str := "vcache-key-v6".toList

def kPchIdentityVersion : Str := "vcache-pch-identity-v1".toList

/-- What `ComputeKey` gives back: the stream it hashed, whether it saw `.incbin`, and
for a PCH build the stream of its identity. -/
structure KeyStreams where
  stream : Str
  sawIncbin : Bool
  pchIdentity : Option Str
deriving DecidableEq

/-- One call of `ComputeKey`: the machine, the compiler and the parsed command. -/
structure KeyInput where
  digest : Digest
  config : Config
  world : CompileWorld
  compilerId : CompilerId
  nativeTarget : Str
  roots : RootMap
  parsed : CompilerArgs

namespace KeyInput

def headPieces (k : KeyInput) : List Str :=
  [kCacheKeyVersion, k.compilerId.fingerprint, k.nativeTarget,
    if k.parsed.assembleOnly then "assembly".toList else "object".toList, k.roots.fingerprint]

def argPieces (k : KeyInput) : List Str := k.parsed.keyArgs.map k.roots.canonicalize

/-- A PCH is keyed by where it was built, as typed. -/
def pchPieces (k : KeyInput) : List Str :=
  if k.parsed.producesPch then
    "pch-built-at".toList :: k.world.host.currentDir :: k.parsed.argv
  else []

/-- The pieces up to those of a PCH build. -/
def placedPieces (k : KeyInput) : List Str := k.headPieces ++ k.argPieces ++ k.pchPieces

def linkPieces (k : KeyInput) : List Str :=
  if k.compilerId.isClang then k.parsed.linkArgs.map k.roots.canonicalize else []

def extraEnvPieces (k : KeyInput) : List Str :=
  k.config.extraEnvVars.flatMap (fun name => [name, (k.world.getenv name).getD []])

def driverEnvPieces (k : KeyInput) : List Str :=
  (driverEnvironment k.world).flatMap (fun entry => ["driver-env".toList, entry.1, entry.2])

/-- The pieces after those of a PCH build, given the digests of the keyed files. -/
def tailPieces (k : KeyInput) (fileDigests : List Str) : List Str :=
  k.linkPieces ++ fileDigests ++ k.extraEnvPieces ++ k.driverEnvPieces

/-- A PCH the text names: its identity, and whether its bytes hold `.incbin`. -/
def consumedPch (k : KeyInput) (pch : Str) : Option (Str × Bool) := do
  let bytes ← k.world.files pch
  let identity ← Vcache.pchIdentity k.digest k.world pch
  some (identity, containsIncbin bytes)

def consumedPieces (pchs : List (Str × Bool)) : List Str :=
  pchs.flatMap (fun pch => ["consumed-pch".toList, pch.1])

/-- `ComputeKey` on the text the preprocessor wrote; `none` when there is no key. -/
def computeKey (k : KeyInput) (preprocessed : Str) : Option KeyStreams := do
  let fileDigests ← k.parsed.keyFiles.mapM (k.world.hashFile k.digest)
  let normalized ← normalizePreprocessed k.roots preprocessed
  let pchs ← normalized.pchPaths.mapM k.consumedPch
  let front := k.headPieces ++ k.argPieces
  let tail := k.tailPieces fileDigests
  let after := normalized.text ++ delimitedStream (consumedPieces pchs)
  some
    { stream := delimitedStream (k.placedPieces ++ tail) ++ after
      sawIncbin := normalized.sawIncbin || pchs.any Prod.snd
      pchIdentity :=
        if k.parsed.producesPch then
          some (delimitedStream (kPchIdentityVersion :: front ++ tail) ++ after)
        else none }

end KeyInput

/-! ## A compile -/

/-- A compile as the key sees it: the machine, the compiler with what its `-E` run
writes, and the command line. -/
structure Compile where
  world : CompileWorld
  compilerId : CompilerId
  nativeTarget : Str
  preprocess : List Str → Option Str
  rawArgv : List Str

namespace Compile

def parsed (c : Compile) : CompilerArgs := parse c.world.files c.rawArgv

def roots (config : Config) (c : Compile) : RootMap := buildRootMap config c.world.host

def keyInput (digest : Digest) (config : Config) (c : Compile) : KeyInput :=
  ⟨digest, config, c.world, c.compilerId, c.nativeTarget, c.roots config, c.parsed⟩

def key (digest : Digest) (config : Config) (c : Compile) : Option KeyStreams := do
  let text ← c.preprocess (buildPreprocessCommand c.parsed (c.roots config) c.compilerId [] [])
  (c.keyInput digest config).computeKey text

/-- The working directory as the prefix maps leave it in `DW_AT_comp_dir`. -/
def canonicalDir (config : Config) (c : Compile) : Str :=
  (c.roots config).canonicalize c.world.host.currentDir

end Compile

end Vcache

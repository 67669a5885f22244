import Vcache.CommandLine
import Vcache.Paths

/-!
# Parsing of gcc and clang command lines

`args::Parse` walks the expanded argument list once. `nextCompilerItem` says
which branch takes the next word or words, in the source's order, and the lists
of a `CompilerArgs` are what each branch pushes.
-/

namespace Vcache

/-! ## The flag tables -/

def separateValueFlags : List Str :=
  ["-o", "-I", "-isystem", "-iquote", "-idirafter", "-iprefix", "-iwithprefix",
    "-iwithprefixbefore", "-isysroot", "-imultilib", "-imacros", "-include", "-L", "-D", "-U",
    "-MF", "-MT", "-MQ", "-x", "-Xpreprocessor", "-Xassembler", "-Xlinker", "-Xclang", "-arch",
    "-aux-info", "-B", "--param", "-T", "-u", "-z", "-target", "--sysroot", "-iframework", "-F",
    "-system-header-prefix", "-include-pch"].map String.toList

def sideOutputExact : List Str :=
  ["--coverage", "-ftest-coverage", "-fprofile-arcs", "-fstack-usage", "-gsplit-dwarf",
    "-gsplit-dwarf=split", "-ftime-trace", "-fsave-optimization-record", "-aux-info", "-MJ",
    "-serialize-diagnostics", "--serialize-diagnostics", "-gen-cdb-fragment-path"].map
    String.toList

def sideOutputStarts : List Str :=
  ["-fprofile-note=", "-fcallgraph-info", "-fdump-", "-ftime-trace=",
    "-ftime-trace-granularity=", "-fsave-optimization-record=", "-foptimization-record-file=",
    "-fabsent-deps="].map String.toList

def isSideOutputFlag (arg : Str) : Bool :=
  arg ∈ sideOutputExact || sideOutputStarts.any (startsWith arg) ||
    (startsWith arg "-fopt-info".toList && '=' ∈ arg)

def sideOutputFlagTakesValue (arg : Str) : Bool :=
  arg ∈ ["-MJ", "-serialize-diagnostics", "--serialize-diagnostics", "-gen-cdb-fragment-path",
    "-aux-info"].map String.toList

def preprocessorOnlyOptions : List Str :=
  ["-I", "-isystem", "-iquote", "-idirafter", "-iprefix", "-iwithprefix", "-iwithprefixbefore",
    "-imacros", "-include", "-D", "-U", "-iframework", "-F", "-system-header-prefix"].map
    String.toList

def preprocessorOnlyPrefixes : List Str :=
  ["-I", "-D", "-U", "-isystem", "-iquote", "-idirafter", "-imacros", "-include", "-F",
    "-iframework"].map String.toList

def isPreprocessorOnlyJoined (arg : Str) : Bool :=
  preprocessorOnlyPrefixes.any (fun opt => opt.length < arg.length && startsWith arg opt)

def keyedFilePrefixes : List Str :=
  ["-fsanitize-blacklist=", "-fsanitize-ignorelist=", "-fsanitize-system-ignorelist=",
    "-fsanitize-coverage-allowlist=", "-fsanitize-coverage-ignorelist=", "-fprofile-list=",
    "-fprofile-sample-use=", "-fprofile-remapping-file=", "-fxray-attr-list=",
    "-fxray-always-instrument=", "-fxray-never-instrument=", "-fplugin=",
    "-frandomize-layout-seed-file=", "--config="].map String.toList

def keyedFileFlagValue (arg : Str) : Option Str :=
  (keyedFilePrefixes.find? (startsWith arg)).map (fun opt => arg.drop opt.length)

def depFlags : List Str :=
  ["-M", "-MM", "-MD", "-MMD", "-MG", "-MP", "-MF", "-MT", "-MQ"].map String.toList

def isDepFlag (arg : Str) : Bool :=
  arg ∈ depFlags || startsWith arg "-MF".toList || startsWith arg "-MT".toList ||
    startsWith arg "-MQ".toList

def isNativeTargetFlag (arg : Str) : Bool :=
  arg ∈ ["-march=native", "-mtune=native", "-mcpu=native"].map String.toList

def unsupportedExact : List Str :=
  ["-save-temps", "-fsyntax-only", "-fpch-preprocess", "-fno-validate-pch", "-frepo"].map
    String.toList

def unsupportedStarts : List Str :=
  ["-save-temps=", "-specs=", "-fprofile-generate", "-fprofile-use", "-fauto-profile",
    "-fmodules", "-fmodule-file=", "-fmodule-map-file=", "-fprebuilt-module-path=",
    "-fprofile-instr-use"].map String.toList

def isUnsupportedFlag (arg : Str) : Bool :=
  arg ∈ unsupportedExact || unsupportedStarts.any (startsWith arg)

def linkOnlyExact : List Str :=
  ["-rdynamic", "-s", "-nostdlib", "-nostdlib++", "-nodefaultlibs", "-nostartfiles",
    "-static-libgcc", "-shared-libgcc", "-static-libstdc++"].map String.toList

def linkOnlyFlagTakesValue (arg : Str) : Bool :=
  arg ∈ ["-l", "-L", "-Xlinker", "-T", "-u", "-z", "-e"].map String.toList

def isLinkOnlyFlag (arg : Str) : Bool :=
  arg ∈ linkOnlyExact || startsWith arg "-Wl,".toList ||
    (2 < arg.length && (startsWith arg "-l".toList || startsWith arg "-L".toList)) ||
    linkOnlyFlagTakesValue arg

/-! ## `-Wp,` dependency options in the driver's spelling -/

/-- The fields of one `-Wp,` argument: the arguments they become, and what stays. -/
def rewriteFields : List Str → List Str × List Str
  | [] => ([], [])
  | [field] =>
    if field ∈ ["-MP", "-MG"].map String.toList then ([field], []) else ([], [field])
  | field :: value :: fields =>
    if field ∈ ["-MD", "-MMD", "-MF", "-MT", "-MQ"].map String.toList then
      let (out, residual) := rewriteFields fields
      let fileFlag := if field ∈ ["-MD", "-MMD"].map String.toList then ["-MF".toList] else []
      (field :: fileFlag ++ value :: out, residual)
    else
      let (out, residual) := rewriteFields (value :: fields)
      if field ∈ ["-MP", "-MG"].map String.toList then (field :: out, residual)
      else (out, field :: residual)

def rewritePreprocessorArg (arg : Str) : List Str :=
  if startsWith arg "-Wp,".toList then
    let (out, residual) := rewriteFields (split ',' (arg.drop 4))
    if out = [] then [arg]
    else if residual = [] then out
    else out ++ ["-Wp,".toList ++ join ",".toList residual]
  else [arg]

def rewritePreprocessorDepOptions (argv : List Str) : List Str :=
  argv.flatMap rewritePreprocessorArg

/-! ## One turn of the loop -/

/-- The branch a turn of the loop of `Parse` takes, with the words it took. -/
inductive CompilerItem where
  | source (word : Str)
  | stdin
  | prefixMap (words : List Str)
  -- -MD, -MMD; -M, -MM; -MF; -MT, -MQ; -MG; -MP
  | depOutput (flag : Str)
  | depOnly (flag : Str)
  | depfileMissing
  | depfile (path : Str)
  | depfileJoined (path : Str)
  | depTargetMissing (flag : Str)
  | depTarget (flag value : Str)
  | depTargetJoined (word : Str)
  | depGenerated
  | depPhony
  | compileOnly
  | preprocessOnly
  | assembleOnly
  | outputMissing
  | output (path : Str)
  | outputJoined (path : Str)
  | languageMissing
  | language (value : Str)
  | native (word : Str)
  | keyedFile (word file : Str)
  | config (file : Str)
  | unsupported (word : Str)
  | emitPch
  | noValidatePch
  | sideOutput (flag : Str) (value : Option Str)
  | linkOnly (flag : Str) (value : Option Str)
  | separateMissing (flag : Str)
  | separate (flag value : Str)
  | joined (word : Str)
  | plainFlag (word : Str)
deriving DecidableEq, Repr

namespace CompilerItem

/-- A flag that may take the next word as its value. -/
def withValue (mk : Str → Option Str → CompilerItem) (takesValue : Bool) (arg : Str)
    (rest : List Str) : CompilerItem × List Str :=
  match takesValue, rest with
  | true, value :: rest' => (mk arg (some value), rest')
  | _, _ => (mk arg none, rest)

def ofDepFlag (arg : Str) (rest : List Str) : CompilerItem × List Str :=
  if arg = "-MD".toList ∨ arg = "-MMD".toList then (depOutput arg, rest)
  else if arg = "-M".toList ∨ arg = "-MM".toList then (depOnly arg, rest)
  else if arg = "-MF".toList then
    match rest with
    | [] => (depfileMissing, [])
    | path :: rest' => (depfile path, rest')
  else if startsWith arg "-MF".toList && 3 < arg.length then (depfileJoined (arg.drop 3), rest)
  else if arg = "-MT".toList ∨ arg = "-MQ".toList then
    match rest with
    | [] => (depTargetMissing arg, [])
    | value :: rest' => (depTarget arg value, rest')
  else if startsWith arg "-MT".toList || startsWith arg "-MQ".toList then
    (depTargetJoined arg, rest)
  else if arg = "-MG".toList then (depGenerated, rest)
  else (depPhony, rest)

/-- The branches after `-g` has been noticed. -/
def ofLateFlag (arg : Str) (rest : List Str) : CompilerItem × List Str :=
  if isNativeTargetFlag arg then (native arg, rest)
  else match keyedFileFlagValue arg with
    | some file => (keyedFile arg file, rest)
    | none =>
      if arg = "--config".toList ∧ rest ≠ [] then (config (rest.headD []), rest.tail)
      else if isUnsupportedFlag arg then (unsupported arg, rest)
      else if arg = "-Xclang".toList ∧ rest.head? = some "-emit-pch".toList then
        (emitPch, rest.tail)
      else if arg = "-Xclang".toList ∧ rest.head? = some "-fno-validate-pch".toList then
        (noValidatePch, rest.tail)
      else if isSideOutputFlag arg then withValue sideOutput (sideOutputFlagTakesValue arg) arg rest
      else if isLinkOnlyFlag arg then withValue linkOnly (linkOnlyFlagTakesValue arg) arg rest
      else if arg ∈ separateValueFlags then
        match rest with
        | [] => (separateMissing arg, [])
        | value :: rest' => (separate arg value, rest')
      else if isPreprocessorOnlyJoined arg then (joined arg, rest)
      else (plainFlag arg, rest)

end CompilerItem

open CompilerItem in
/-- One turn of the loop of `Parse` at the word `arg`, with the words left. -/
def nextCompilerItem (arg : Str) (rest : List Str) : CompilerItem × List Str :=
  if arg = [] ∨ arg.head? ≠ some '-' then (source arg, rest)
  else if arg = "-".toList then (stdin, rest)
  else if isPrefixMapFlag arg then
    if arg = remapPathPrefix ∧ rest ≠ [] then (prefixMap [arg, rest.headD []], rest.tail)
    else (prefixMap [arg], rest)
  else if isDepFlag arg then ofDepFlag arg rest
  else if arg = "-c".toList then (compileOnly, rest)
  else if arg = "-E".toList then (preprocessOnly, rest)
  else if arg = "-S".toList then (assembleOnly, rest)
  else if arg = "-o".toList then
    match rest with
    | [] => (outputMissing, [])
    | path :: rest' => (output path, rest')
  else if startsWith arg "-o".toList then (outputJoined (arg.drop 2), rest)
  else if arg = "-x".toList then
    match rest with
    | [] => (languageMissing, [])
    | value :: rest' => (language value, rest')
  else ofLateFlag arg rest

/-- Every turn takes a word, so as many turns as there are words are enough. -/
def compilerItemsFuel : Nat → List Str → List CompilerItem
  | 0, _ => []
  | _ + 1, [] => []
  | turns + 1, arg :: rest =>
    (nextCompilerItem arg rest).1 :: compilerItemsFuel turns (nextCompilerItem arg rest).2

def compilerItems (words : List Str) : List CompilerItem := compilerItemsFuel words.length words

namespace CompilerItem

/-- The words of the command line a turn took. -/
def words : CompilerItem → List Str
  | source word => [word]
  | stdin => ["-".toList]
  | prefixMap words => words
  | depOutput flag => [flag]
  | depOnly flag => [flag]
  | depfileMissing => ["-MF".toList]
  | depfile path => ["-MF".toList, path]
  | depfileJoined path => ["-MF".toList ++ path]
  | depTargetMissing flag => [flag]
  | depTarget flag value => [flag, value]
  | depTargetJoined word => [word]
  | depGenerated => ["-MG".toList]
  | depPhony => ["-MP".toList]
  | compileOnly => ["-c".toList]
  | preprocessOnly => ["-E".toList]
  | assembleOnly => ["-S".toList]
  | outputMissing => ["-o".toList]
  | output path => ["-o".toList, path]
  | outputJoined path => ["-o".toList ++ path]
  | languageMissing => ["-x".toList]
  | language value => ["-x".toList, value]
  | native word => [word]
  | keyedFile word _ => [word]
  | config file => ["--config".toList, file]
  | unsupported word => [word]
  | emitPch => ["-Xclang".toList, "-emit-pch".toList]
  | noValidatePch => ["-Xclang".toList, "-fno-validate-pch".toList]
  | sideOutput flag value => flag :: value.toList
  | linkOnly flag value => flag :: value.toList
  | separateMissing flag => [flag]
  | separate flag value => [flag, value]
  | joined word => [word]
  | plainFlag word => [word]

/-- What a turn pushes to `key_args`. -/
def keyArgs : CompilerItem → List Str
  | depTarget flag value => [flag, value]
  | depTargetJoined word => [word]
  | depPhony => ["-MP".toList]
  | language value => ["-x".toList, value]
  | native word => [word]
  | keyedFile word _ => [word]
  | config file => ["--config".toList, file]
  | emitPch => ["-Xclang".toList, "-emit-pch".toList]
  | separate flag value => if flag ∈ preprocessorOnlyOptions then [] else [flag, value]
  | plainFlag word => [word]
  | _ => []

/-- What a turn pushes to `base_args`. -/
def baseArgs : CompilerItem → List Str
  | stdin => ["-".toList]
  | preprocessOnly => ["-E".toList]
  | language value => ["-x".toList, value]
  | native word => [word]
  | keyedFile word _ => [word]
  | config file => ["--config".toList, file]
  | unsupported word => [word]
  | noValidatePch => ["-Xclang".toList, "-fno-validate-pch".toList]
  | sideOutput flag value => flag :: value.toList
  | linkOnly flag value => flag :: value.toList
  | separateMissing flag => [flag]
  | separate flag value => [flag, value]
  | joined word => [word]
  | plainFlag word => [word]
  | _ => []

def depArgs : CompilerItem → List Str
  | depOutput flag => [flag]
  | depOnly flag => [flag]
  | depTarget flag value => [flag, value]
  | depTargetJoined word => [word]
  | depGenerated => ["-MG".toList]
  | depPhony => ["-MP".toList]
  | _ => []

def linkArgs : CompilerItem → List Str
  | linkOnly flag value => flag :: value.toList
  | _ => []

def keyFile? : CompilerItem → Option Str
  | keyedFile _ file => if file = [] then none else some file
  | config file => some file
  | _ => none

def nativeFlag? : CompilerItem → Option Str
  | native word => some word
  | _ => none

def prefixMaps : CompilerItem → List Str
  | prefixMap words => words
  | _ => []

def source? : CompilerItem → Option Str
  | source word => some word
  | _ => none

def output? : CompilerItem → Option Str
  | output path => some path
  | outputJoined path => some path
  | _ => none

def depfile? : CompilerItem → Option Str
  | depfile path => some path
  | depfileJoined path => some path
  | _ => none

def language? : CompilerItem → Option Str
  | language value => some value
  | _ => none

def pending? : CompilerItem → Option Decision
  | stdin => some ⟨.sourceFromStdin, []⟩
  | depGenerated => some ⟨.unsupportedFlag, "-MG".toList⟩
  | unsupported word => some ⟨.unsupportedFlag, word⟩
  | noValidatePch => some ⟨.unsupportedFlag, "-fno-validate-pch".toList⟩
  | sideOutput flag _ => some ⟨.secondOutputFile, flag⟩
  | _ => none

def isDepOutput : CompilerItem → Bool
  | depOutput _ => true
  | _ => false

def isDepOnly : CompilerItem → Bool
  | depOnly _ => true
  | _ => false

def setsDepTarget : CompilerItem → Bool
  | depTargetMissing _ | depTarget _ _ | depTargetJoined _ => true
  | _ => false

/-- `-g` and its relatives, whichever branch then takes the word. -/
def setsDebugInfo (item : CompilerItem) : Bool :=
  match item.words with
  | word :: _ => startsWith word "-g".toList && word != "-g0".toList
  | [] => false

end CompilerItem

/-! ## The result -/

inductive Language where
  | unknown | c | cxx | objC | objCxx | assemblerWithCpp | assembler | cHeader | cxxHeader
deriving DecidableEq, Repr

def languageName : Language → Str
  | .c => "c".toList
  | .cxx => "c++".toList
  | .objC => "objective-c".toList
  | .objCxx => "objective-c++".toList
  | .assemblerWithCpp => "assembler-with-cpp".toList
  | .assembler => "assembler".toList
  | .cHeader => "c-header".toList
  | .cxxHeader => "c++-header".toList
  | .unknown => "unknown".toList

/-- The text before and after the last dot. -/
def splitLastDot (s : Str) : Option (Str × Str) :=
  match s.reverse.span (· != '.') with
  | (_, []) => none
  | (ext, _ :: stem) => some (stem.reverse, ext.reverse)

def extension (path : Str) : Str :=
  match splitLastDot (baseName path) with
  | none => []
  | some (_, ext) => ext

def languageFromExtension (path : Str) : Language :=
  let ext := extension path
  if ext = "c".toList then .c
  else if ext ∈ ["cc", "cpp", "cxx", "c++", "C", "CPP", "cp", "CC"].map String.toList then .cxx
  else if ext = "m".toList then .objC
  else if ext ∈ ["mm", "M"].map String.toList then .objCxx
  else if ext ∈ ["S", "sx"].map String.toList then .assemblerWithCpp
  else if ext = "s".toList then .assembler
  else if ext = "i".toList then .c
  else if ext = "ii".toList then .cxx
  else .unknown

def languageFromXFlag (value : Str) : Language :=
  if value = "c".toList then .c
  else if value = "c++".toList then .cxx
  else if value = "objective-c".toList then .objC
  else if value = "objective-c++".toList then .objCxx
  else if value = "assembler-with-cpp".toList then .assemblerWithCpp
  else if value = "assembler".toList then .assembler
  else if value = "c-header".toList then .cHeader
  else if value = "c++-header".toList then .cxxHeader
  else .unknown

def stemOf (path : Str) : Str :=
  match splitLastDot (baseName path) with
  | none => baseName path
  | some (stem, _) => stem

def defaultOutputFor (source : Str) (compileOnly assembleOnly : Bool) : Str :=
  if assembleOnly then stemOf source ++ ".s".toList
  else if compileOnly then stemOf source ++ ".o".toList
  else "a.out".toList

/-- gcc's implicit depfile: the output's stem with `.d`, in its directory. -/
def impliedDepfile (output : Str) : Str :=
  let name := stemOf output ++ ".d".toList
  if dirName output = [] then name else dirName output ++ "/".toList ++ name

structure CompilerArgs where
  argv : List Str := []
  compiler : Str := []
  source : Str := []
  output : Str := []
  language : Language := .unknown
  compileOnly : Bool := false
  preprocessOnly : Bool := false
  assembleOnly : Bool := false
  generatesDebugInfo : Bool := false
  producesPch : Bool := false
  xclangEmitPch : Bool := false
  pchTimestampDisabled : Bool := false
  depOnly : Bool := false
  generatesDeps : Bool := false
  depfile : Str := []
  depfileFromFlag : Bool := false
  depTargetExplicit : Bool := false
  incomingPrefixMaps : List Str := []
  nativeFlags : List Str := []
  keyArgs : List Str := []
  linkArgs : List Str := []
  keyFiles : List Str := []
  baseArgs : List Str := []
  depArgs : List Str := []
  uncacheable : Option Decision := none
deriving DecidableEq, Repr

def CompilerArgs.Cacheable (p : CompilerArgs) : Prop := p.uncacheable = none

instance instDecidableCompilerCacheable (p : CompilerArgs) : Decidable p.Cacheable :=
  inferInstanceAs (Decidable (_ = _))

open CompilerItem in
/-- What the loop leaves of the items. -/
def recordCompilerItems (argv : List Str) (items : List CompilerItem) : CompilerArgs where
  argv := argv
  compiler := argv.headD []
  output := lastOf output? items []
  compileOnly := compileOnly ∈ items
  preprocessOnly := preprocessOnly ∈ items
  assembleOnly := assembleOnly ∈ items
  generatesDebugInfo := items.any setsDebugInfo
  xclangEmitPch := emitPch ∈ items
  pchTimestampDisabled := separate "-Xclang".toList "-fno-pch-timestamp".toList ∈ items
  generatesDeps := items.any isDepOutput
  depfile := lastOf depfile? items []
  depfileFromFlag := items.any (fun item => item.depfile?.isSome)
  depTargetExplicit := items.any setsDepTarget
  incomingPrefixMaps := items.flatMap prefixMaps
  nativeFlags := items.filterMap nativeFlag?
  keyArgs := items.flatMap keyArgs
  linkArgs := items.flatMap linkArgs
  keyFiles := items.filterMap keyFile?
  baseArgs := items.flatMap baseArgs
  depArgs := items.flatMap depArgs

def CompilerArgs.declined (r : CompilerArgs) (reason : Reason) (detail : Str) : CompilerArgs :=
  { r with uncacheable := some ⟨reason, detail⟩ }

/-- The checks for a dependency scan. -/
def finishDepOnly (r : CompilerArgs) : CompilerArgs :=
  let r := { r with
    depfile := if r.depfile = [] then r.output else r.depfile
    output := []
    generatesDeps := true }
  if r.depfile = "-".toList ∨ r.depfile = "/dev/null".toList then r.declined .depfileNotAFile []
  else r

/-- The checks for a compile, and what it is completed with. -/
def finishCompile (sawDepOutput : Bool) (r : CompilerArgs) : CompilerArgs :=
  if r.producesPch ∧ ¬ r.compileOnly then r.declined .unsupportedFlag "-S".toList
  else if r.producesPch ∧ r.output = [] then r.declined .noOutputFlag r.source
  else
    let r := { r with
      output := if r.output = [] then defaultOutputFor r.source r.compileOnly r.assembleOnly
        else r.output }
    if r.output = "-".toList ∨ r.output = "/dev/null".toList then r.declined .outputNotAFile []
    else
      let r := { r with
        depfile := if sawDepOutput ∧ r.depfile = [] then impliedDepfile r.output else r.depfile }
      { r with
        generatesDeps := r.generatesDeps || !r.depfile.isEmpty
        keyArgs := r.keyArgs ++ ["--vcache-lang=".toList ++ languageName r.language] }

/-- The checks after the loop, in the source's order. -/
def finishParse (items : List CompilerItem) (r : CompilerArgs) : CompilerArgs :=
  match items.filterMap CompilerItem.source? with
  | [] => r.declined .noInputFile []
  | sources@(_ :: _ :: _) => r.declined .multipleInputs (toDecimal sources.length)
  | [source] =>
    let explicitX := lastOf CompilerItem.language? items []
    let language : Language := if explicitX = [] then languageFromExtension source
      else languageFromXFlag explicitX
    let r := { r with
      source, language
      producesPch :=
        r.xclangEmitPch || language == Language.cHeader || language == Language.cxxHeader }
    if r.preprocessOnly then r.declined .preprocessOnly []
    else
      let r := { r with depOnly := items.any CompilerItem.isDepOnly && !r.compileOnly }
      if ¬ r.depOnly ∧ ¬ r.compileOnly ∧ ¬ r.assembleOnly then r.declined .notCompileOnly []
      else if r.language = Language.unknown then r.declined .unknownLanguage r.source
      else if r.language = Language.assembler then r.declined .plainAssembly []
      else match items.findSome? CompilerItem.pending? with
        | some decision => { r with uncacheable := some decision }
        | none =>
          if r.depOnly then finishDepOnly r
          else finishCompile (items.any CompilerItem.isDepOutput) r

def parse (readFile : ReadFile) (rawArgv : List Str) : CompilerArgs :=
  if rawArgv = [] then { uncacheable := some ⟨.emptyCommandLine, []⟩ }
  else match expandResponseFiles readFile rawArgv with
    | none => { argv := rawArgv, uncacheable := some ⟨.badResponseFile, []⟩ }
    | some expanded =>
      let argv := rewritePreprocessorDepOptions expanded
      let items := compilerItems argv.tail
      finishParse items (recordCompilerItems argv items)

end Vcache

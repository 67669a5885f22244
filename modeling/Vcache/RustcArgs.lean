import Vcache.CommandLine

/-!
# Parsing of rustc command lines

`ParseRustc` brings every option to one form, an option and its value, and sorts
it by what the key needs of it. Search paths are left out of the key because the
`--extern` contents are said to pin what was linked.
-/

namespace Vcache

def separateValueOptions : List Str :=
  ["--crate-name", "--crate-type", "--edition", "--emit", "--out-dir", "-L", "-l", "--extern",
    "--target", "-C", "-Z", "-W", "-A", "-D", "-F", "--cfg", "--check-cfg", "--error-format",
    "--json", "--color", "--sysroot", "--explain", "-o", "--print", "--cap-lints",
    "--remap-path-scope", "--codegen"].map String.toList

def isSearchPathOption (opt : Str) : Bool :=
  opt == "-L".toList || opt == "--sysroot".toList || opt == "--out-dir".toList

def isIncrementalDir (opt value : Str) : Bool :=
  opt == "-C".toList && startsWith value "incremental=".toList

/-- `--opt=value` or `-Xvalue` for an option that takes a value. -/
def splitJoined (arg : Str) : Option (Str × Str) :=
  if startsWith arg "--".toList then
    match findChar '=' arg with
    | none => none
    | some eq =>
      if arg.take eq ∈ separateValueOptions then some (arg.take eq, arg.drop (eq + 1)) else none
  else if 2 < arg.length ∧ arg.head? = some '-' ∧ arg.take 2 ∈ separateValueOptions then
    some (arg.take 2, arg.drop 2)
  else none

structure ExternCrate where
  name : Str
  path : Str
deriving DecidableEq, Repr

def externOf (value : Str) : ExternCrate :=
  match findChar '=' value with
  | none => ⟨value, []⟩
  | some eq => ⟨value.take eq, value.drop (eq + 1)⟩

inductive RustcItem where
  | input (word : Str)
  | stdin
  | prefixMap (words : List Str)
  | dangling (opt : Str)
  | standalone (arg : Str)
  | outDir (value : Str)
  | emit (value : Str)
  | output (value : Str)
  | externArg (value : Str)
  | incremental (value : Str)
  | option (opt value : Str)
deriving DecidableEq, Repr

namespace RustcItem

/-- An option that has its value, `--codegen` already spelled `-C`. -/
def ofOption (opt value : Str) : RustcItem :=
  if opt = "--out-dir".toList then outDir value
  else if opt = "--emit".toList then emit value
  else if opt = "-o".toList then output value
  else if opt = "--extern".toList then externArg value
  else if isIncrementalDir opt value then incremental value
  else option opt value

def oneSpelling (opt : Str) : Str := if opt = "--codegen".toList then "-C".toList else opt

end RustcItem

open RustcItem in
def nextRustcItem (arg : Str) (rest : List Str) : RustcItem × List Str :=
  if arg = [] ∨ arg.head? ≠ some '-' then (input arg, rest)
  else if arg = "-".toList then (stdin, rest)
  else if isPrefixMapFlag arg then
    if arg = remapPathPrefix ∧ rest ≠ [] then (prefixMap [arg, rest.headD []], rest.tail)
    else (prefixMap [arg], rest)
  else match splitJoined arg with
    | some (opt, value) => (ofOption (oneSpelling opt) value, rest)
    | none =>
      if arg ∈ separateValueOptions then
        match rest with
        | [] => (dangling arg, [])
        | value :: rest' => (ofOption (oneSpelling arg) value, rest')
      else (standalone arg, rest)

/-- Every turn takes a word, so as many turns as there are words are enough. -/
def rustcItemsFuel : Nat → List Str → List RustcItem
  | 0, _ => []
  | _ + 1, [] => []
  | turns + 1, arg :: rest =>
    (nextRustcItem arg rest).1 :: rustcItemsFuel turns (nextRustcItem arg rest).2

def rustcItems (words : List Str) : List RustcItem := rustcItemsFuel words.length words

namespace RustcItem

def keyArgs : RustcItem → List Str
  | standalone arg => [arg]
  | externArg value => ["--extern-name=".toList ++ (externOf value).name]
  | incremental _ => ["-C".toList, "incremental".toList]
  | option opt value => if isSearchPathOption opt then [] else [opt, value]
  | _ => []

def baseArgs : RustcItem → List Str
  | dangling opt => [opt]
  | standalone arg => [arg]
  | output value => ["-o".toList, value]
  | externArg value => ["--extern".toList, value]
  | incremental value => ["-C".toList, value]
  | option opt value => [opt, value]
  | _ => []

/-- `base_args` without the pairs at `incremental_positions`. -/
def depInfoArgs : RustcItem → List Str
  | incremental _ => []
  | item => item.baseArgs

def input? : RustcItem → Option Str
  | input word => some word
  | _ => none

def externCrate? : RustcItem → Option ExternCrate
  | externArg value => some (externOf value)
  | _ => none

def outDir? : RustcItem → Option Str
  | outDir value => some value
  | _ => none

def emit? : RustcItem → Option (List Str)
  | emit value => some (splitSkipEmpty ',' value)
  | _ => none

def crateName? : RustcItem → Option Str
  | option opt value => if opt = "--crate-name".toList then some value else none
  | _ => none

def prefixMaps : RustcItem → List Str
  | prefixMap words => words
  | _ => []

def isOutput : RustcItem → Bool
  | output _ => true
  | _ => false

end RustcItem

structure RustcArgs where
  argv : List Str := []
  compiler : Str := []
  source : Str := []
  outDir : Str := []
  crateName : Str := []
  emitKinds : List Str := []
  externs : List ExternCrate := []
  keyArgs : List Str := []
  baseArgs : List Str := []
  depInfoArgs : List Str := []
  incomingPrefixMaps : List Str := []
  uncacheable : Option Decision := none
deriving DecidableEq, Repr

def recordRustcItems (argv : List Str) (items : List RustcItem) : RustcArgs where
  argv := argv
  compiler := argv.headD []
  outDir := lastOf RustcItem.outDir? items []
  crateName := lastOf RustcItem.crateName? items []
  emitKinds := lastOf RustcItem.emit? items []
  externs := items.filterMap RustcItem.externCrate?
  keyArgs := items.flatMap RustcItem.keyArgs
  baseArgs := items.flatMap RustcItem.baseArgs
  depInfoArgs := items.flatMap RustcItem.depInfoArgs
  incomingPrefixMaps := items.flatMap RustcItem.prefixMaps

/-- The checks after the loop, in the source's order. -/
def rustcUncacheable (items : List RustcItem) (r : RustcArgs) : Option Decision :=
  match items.filterMap RustcItem.input? with
  | [] => some ⟨.noInputFile, []⟩
  | _ :: _ :: _ => some ⟨.multipleInputs, []⟩
  | [_] =>
    if r.outDir = [] then some ⟨.noOutDir, []⟩
    else if items.any RustcItem.isOutput then some ⟨.explicitOutput, []⟩
    else if r.emitKinds = [] then some ⟨.noEmit, []⟩
    else (r.emitKinds.find? (fun kind => '=' ∈ kind)).map (fun kind => ⟨.emitWithPath, kind⟩)

def parseRustc (argv : List Str) : RustcArgs :=
  if argv = [] then { uncacheable := some ⟨.emptyCommandLine, []⟩ }
  else
    let items := rustcItems argv.tail
    let seen := items.takeWhile (fun item => item ≠ .stdin)
    let r := recordRustcItems argv seen
    -- a lone `-` returns from inside the loop
    if seen.length < items.length then
      { r with depInfoArgs := [], uncacheable := some ⟨.sourceFromStdin, []⟩ }
    else
      match items.filterMap RustcItem.input? with
      | [source] => { r with source, uncacheable := rustcUncacheable items r }
      | _ => { r with uncacheable := rustcUncacheable items r }

def RustcArgs.Cacheable (r : RustcArgs) : Prop := r.uncacheable = none

instance instDecidableRustcCacheable (r : RustcArgs) : Decidable r.Cacheable :=
  inferInstanceAs (Decidable (_ = _))

end Vcache

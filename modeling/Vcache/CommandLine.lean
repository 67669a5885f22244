import Vcache.Strings

/-!
# Command lines

What the compiler, link and rustc parsers share: the reasons for declining to
cache, the prefix-map flags of the caller, and the expansion of `@file` arguments.
-/

namespace Vcache

inductive Reason where
  | emptyCommandLine | badResponseFile | sourceFromStdin | noInputFile | multipleInputs
  | outputNotAFile
  | unsupportedFlag | secondOutputFile | preprocessOnly | notCompileOnly | unknownLanguage
  | plainAssembly | depfileNotAFile
  | missingFlagValue | buildIdUuid | compileAndLink | noOutputFlag
  | noOutDir | explicitOutput | noEmit | emitWithPath
deriving DecidableEq, Repr

structure Decision where
  reason : Reason
  detail : Str := []
deriving DecidableEq, Repr

def prefixMapPrefixes : List Str :=
  ["-ffile-prefix-map=", "-fdebug-prefix-map=", "-fmacro-prefix-map=", "-fprofile-prefix-map=",
    "--remap-path-prefix="].map String.toList

def remapPathPrefix : Str := "--remap-path-prefix".toList

def isPrefixMapFlag (arg : Str) : Bool :=
  prefixMapPrefixes.any (startsWith arg) || arg == remapPathPrefix

/-- `ReadFile`: the contents of a path, if it can be read. -/
abbrev ReadFile := Str → Option Str

structure Lexer where
  tokens : List Str := []
  current : Str := []
  inToken : Bool := false
  quote : Option Char := none

namespace Lexer

def push (lx : Lexer) (c : Char) : Lexer := { lx with current := lx.current ++ [c] }

def endToken (lx : Lexer) : Lexer :=
  if lx.inToken then
    { lx with tokens := lx.tokens ++ [lx.current], current := [], inToken := false }
  else lx

/-- GNU response-file lexing: whitespace separates, quotes group, a backslash
escapes the next character. -/
def run : Lexer → Str → Lexer
  | lx, [] => lx
  | lx, '\\' :: c :: text => run { lx.push c with inToken := true } text
  | lx, c :: text =>
    match lx.quote with
    | some q => if c = q then run { lx with quote := none } text else run (lx.push c) text
    | none =>
      if c = '\'' ∨ c = '"' then run { lx with quote := some c, inToken := true } text
      else if isSpace c then run lx.endToken text
      else run { lx.push c with inToken := true } text

end Lexer

/-- `Tokenize`; `none` for an unterminated quote. -/
def tokenize (text : Str) : Option (List Str) :=
  let lx := Lexer.run {} text
  if lx.quote.isSome then none else some lx.endToken.tokens

def kMaxDepth : Nat := 8

def isResponseArg (arg : Str) : Bool := 2 ≤ arg.length && arg.head? == some '@'

/-- `Expander::Run` with `depth` levels left; `none` is `ok == false`. A file that
cannot be read stays a literal argument. -/
def expandArgs (readFile : ReadFile) : Nat → List Str → Option (List Str)
  | 0, args => if args.any isResponseArg then none else some args
  | depth + 1, args =>
    (args.mapM (fun arg =>
      if isResponseArg arg then
        match readFile (arg.drop 1) with
        | none => some [arg]
        | some contents => (tokenize contents).bind (expandArgs readFile depth)
      else some [arg])).map List.flatten

def expandResponseFiles (readFile : ReadFile) (args : List Str) : Option (List Str) :=
  expandArgs readFile kMaxDepth args

/-- A field that several items may set keeps the last value. -/
def lastOf {α β : Type} (get? : α → Option β) (items : List α) (default : β) : β :=
  (items.reverse.findSome? get?).getD default

end Vcache

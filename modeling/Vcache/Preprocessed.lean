import Vcache.Roots

/-!
# Normalised preprocessor output

The text `-E` writes enters the key line by line (`core/preprocessed`): the
path of a linemarker and the name in a `pch_preprocess` pragma are
canonicalised, every other line is hashed as it stands. The source reads the
file in blocks; the text it emits does not depend on where they end.
-/

namespace Vcache

def unescape : Str → Str
  | '\\' :: c :: s => c :: unescape s
  | c :: s => c :: unescape s
  | [] => []

def escape (s : Str) : Str :=
  s.flatMap (fun c => if c = '\\' ∨ c = '"' then ['\\', c] else [c])

def containsIncbin (line : Str) : Bool := contains ".incbin".toList line

/-- The text before the first quote that no backslash escapes, and the rest from that
quote on. -/
def scanQuoted : Str → Option (Str × Str)
  | '\\' :: c :: s => (scanQuoted s).map (fun (raw, tail) => ('\\' :: c :: raw, tail))
  | ['\\'] => none
  | '"' :: s => some ([], '"' :: s)
  | c :: s => (scanQuoted s).map (fun (raw, tail) => (c :: raw, tail))
  | [] => none

/-- A line `# <number> "<path>" flags...` with its path canonicalised; any other line
as it is. -/
def normalizeLinemarker (roots : RootMap) (line : Str) : Str :=
  match line with
  | '#' :: s =>
    let number := s.dropWhile isBlank
    let afterNumber := number.dropWhile isDigit
    if number.takeWhile isDigit = [] then line
    else match afterNumber.dropWhile isBlank with
      | '"' :: quoted =>
        match scanQuoted quoted with
        | none => line
        | some (raw, tail) =>
          line.take (line.length - quoted.length) ++
            escape (roots.canonicalize (unescape raw)) ++ tail
      | _ => line
  | _ => line

def kPchPragma : Str := "#pragma GCC pch_preprocess \"".toList

/-- What `HashNormalizedPreprocessedOutput` emits and notes. -/
structure NormalizedText where
  text : Str
  sawIncbin : Bool
  pchPaths : List Str
deriving DecidableEq, Repr

/-- `feed_line`; `none` for a pragma whose name is not closed. -/
def feedLine (roots : RootMap) (line : Str) : Option NormalizedText :=
  if startsWith line kPchPragma then
    if line.length ≤ kPchPragma.length ∨ line.getLast? ≠ some '"' then none
    else
      let pch := (line.drop kPchPragma.length).dropLast
      some ⟨kPchPragma ++ escape (roots.canonicalize pch) ++ ['"'], false, [pch]⟩
  else if line.head? = some '#' then some ⟨normalizeLinemarker roots line, false, []⟩
  else some ⟨line, containsIncbin line, []⟩

def normalizePreprocessed (roots : RootMap) (text : Str) : Option NormalizedText :=
  ((split '\n' text).mapM (feedLine roots)).map (fun lines =>
    ⟨join ['\n'] (lines.map NormalizedText.text), lines.any NormalizedText.sawIncbin,
      lines.flatMap NormalizedText.pchPaths⟩)

end Vcache

import Vcache.Strings

/-!
# Paths as text

The lexical path functions of `util/fs` and `util/str`. What the process asks
the kernel and its environment for (`HOME`, the working directory, `realpath`)
is a `Host`; everything else is a function of the spelling alone.
-/

namespace Vcache

/-- What path handling asks of the machine it runs on. `currentDir` is empty
when `getcwd` fails, and `realPath` is `none` when the path does not resolve. -/
structure Host where
  home : Option Str
  currentDir : Str
  realPath : Str → Option Str

abbrev FileSystem := Str → Option Str

def isAbsolute (path : Str) : Bool := path.head? == some '/'

theorem isAbsolute_iff {path : Str} : isAbsolute path = true ↔ ∃ rest, path = '/' :: rest := by
  cases path with
  | nil | cons c rest => simp [isAbsolute]

theorem isAbsolute_append {path : Str} (h : isAbsolute path = true) (more : Str) :
    isAbsolute (path ++ more) = true := by
  obtain ⟨rest, rfl⟩ := isAbsolute_iff.mp h
  rfl

/-- The position just past the last `'/'`, as a split of the path. -/
def splitLastSlash : Str → Option (Str × Str)
  | [] => none
  | c :: s => match splitLastSlash s with
    | some (dir, base) => some (c :: dir, base)
    | none => if c = '/' then some ([], s) else none

theorem splitLastSlash_eq_none {path : Str} : splitLastSlash path = none ↔ '/' ∉ path := by
  induction path with
  | nil => simp [splitLastSlash]
  | cons c path ih =>
    rw [splitLastSlash, List.mem_cons, not_or]
    cases hsplit : splitLastSlash path with
    | none =>
      have hpath := ih.mp hsplit
      by_cases hc : c = '/'
      · simp [hc]
      · simpa [hc, hpath] using Ne.symm hc
    | some found =>
      rw [hsplit] at ih
      simp [← ih]

theorem splitLastSlash_eq_some {path dir base : Str} :
    splitLastSlash path = some (dir, base) ↔ path = dir ++ '/' :: base ∧ '/' ∉ base := by
  constructor
  · intro h
    induction path generalizing dir with
    | nil => cases h
    | cons c path ih =>
      rw [splitLastSlash] at h
      cases hsplit : splitLastSlash path with
      | none =>
        rw [hsplit] at h
        by_cases hc : c = '/'
        · simp only [if_pos hc, Option.some.injEq, Prod.mk.injEq] at h
          obtain ⟨rfl, rfl⟩ := h
          exact ⟨by rw [hc, List.nil_append], splitLastSlash_eq_none.mp hsplit⟩
        · simp only [if_neg hc] at h
          cases h
      | some found =>
        obtain ⟨dir', base'⟩ := found
        simp only [hsplit, Option.some.injEq, Prod.mk.injEq] at h
        obtain ⟨rfl, rfl⟩ := h
        obtain ⟨hpath, hbase⟩ := ih hsplit
        exact ⟨by rw [hpath, List.cons_append], hbase⟩
  · rintro ⟨rfl, hbase⟩
    induction dir with
    | nil =>
      rw [List.nil_append, splitLastSlash, splitLastSlash_eq_none.mpr hbase]
      rfl
    | cons c dir ih => rw [List.cons_append, splitLastSlash, ih]

def baseName (path : Str) : Str :=
  match splitLastSlash path with
  | none => path
  | some (_, base) => base

def dirName (path : Str) : Str :=
  match splitLastSlash path with
  | none => []
  | some ([], _) => ['/']
  | some (dir, _) => dir

theorem eq_dirName_append {path : Str} (h : 1 < (dirName path).length) :
    ∃ base, path = dirName path ++ '/' :: base ∧ '/' ∉ base := by
  rw [dirName] at h ⊢
  cases hsplit : splitLastSlash path with
  | none => simp [hsplit] at h
  | some found =>
    obtain ⟨dir, base⟩ := found
    cases dir with
    | nil => simp [hsplit] at h
    | cons c dir => exact ⟨base, splitLastSlash_eq_some.mp hsplit⟩

def expandTilde (host : Host) (path : Str) : Str :=
  if startsWith path "~/".toList then
    match host.home with
    | none => path
    | some [] => path
    | some home => home ++ path.drop 1
  else path

/-- One element of `lexically_normal`: the names kept so far, innermost first,
and whether a separator stands after the last of them. -/
def normalStep (absolute : Bool) (acc : List Str × Bool) (segment : Str) : List Str × Bool :=
  if segment = [] ∨ segment = ".".toList then (acc.1, true)
  else if segment = "..".toList then
    match acc.1 with
    | [] => if absolute then acc else ([segment], false)
    | name :: names => if name = "..".toList then (segment :: acc.1, false) else (names, true)
  else (segment :: acc.1, false)

/-- `std::filesystem::path::lexically_normal` of a non-empty path. -/
def lexicallyNormal (path : Str) : Str :=
  let absolute := isAbsolute path
  let (names, slash) := (split '/' path).foldl (normalStep absolute) ([], false)
  let trailing : Str := if slash ∧ names ≠ [] ∧ names.head? ≠ some "..".toList then ['/'] else []
  let body := join ['/'] names.reverse ++ trailing
  if absolute then '/' :: body else if body = [] then ['.'] else body

def absoluteLexical (host : Host) (path : Str) : Str :=
  if isAbsolute path then lexicallyNormal path
  else if host.currentDir = [] then lexicallyNormal path
  else lexicallyNormal (host.currentDir ++ ['/'] ++ path)

/-- `StripTrailingSlashes` keeps a lone separator. -/
def stripTrailingSlashes (s : Str) : Str :=
  match (s.reverse.dropWhile (· == '/')).reverse with
  | [] => s.take 1
  | kept => kept

/-- Every path that resolves does so without a symbolic link, so that resolving
it is normalising its spelling. -/
def Host.NoSymlinks (host : Host) : Prop :=
  ∀ path real, host.realPath path = some real →
    stripTrailingSlashes real = stripTrailingSlashes (absoluteLexical host path)

example : lexicallyNormal "/a/./b//../c/.".toList = "/a/c/".toList := by decide

end Vcache

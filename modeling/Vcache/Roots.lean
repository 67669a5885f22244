import Vcache.Paths

/-!
# Root maps

A root map lists source-tree roots with the canonical prefix each is rewritten
to, most general path first (`core/roots`). `fromSpecs` and `addIfUncovered`
are the only ways the program builds one, and both sort, so the order is part
of the type. `canonicalize` takes the last root that covers a path, `localize`
the root with the longest canonical prefix.
-/

namespace Vcache

open List

structure Root where
  path : Str
  canonical : Str
deriving DecidableEq, Repr

/-- `IsUnder`: `path` is `root` itself or lies beneath it, component-wise. -/
def isUnder (path root : Str) : Bool :=
  if path.length < root.length then false
  else if path.take root.length != root then false
  else if path.length == root.length then true
  else if root == ['/'] then true
  else path[root.length]? == some '/'

/-- The text after a path prefix ends there or goes on with a separator. -/
def Separated (rest : Str) : Prop := rest = [] ∨ ∃ below, rest = '/' :: below

instance (rest : Str) : Decidable (Separated rest) :=
  match rest with
  | [] => .isTrue (.inl rfl)
  | c :: below =>
    if h : c = '/' then .isTrue (.inr ⟨below, by rw [h]⟩)
    else .isFalse (by
      rintro (h' | ⟨_, h'⟩)
      · cases h'
      · exact h (List.cons.inj h').1)

theorem isUnder_iff {path root : Str} :
    isUnder path root = true ↔ ∃ rest, path = root ++ rest ∧ (root = ['/'] ∨ Separated rest) := by
  unfold isUnder
  constructor
  · intro h
    split_ifs at h with hlen htake heq hroot
    · have ht : path.take root.length = root := by simpa using htake
      refine ⟨[], ?_, .inr (.inl rfl)⟩
      rw [append_nil, ← ht, ← (by simpa using heq : path.length = root.length),
        take_length]
    · have ht : path.take root.length = root := by simpa using htake
      exact ⟨path.drop root.length, by rw [← ht, length_take_of_le (by omega),
        take_append_drop], .inl (by simpa using hroot)⟩
    · have ht : path.take root.length = root := by simpa using htake
      refine ⟨path.drop root.length, ?_, .inr ?_⟩
      · conv_lhs => rw [← take_append_drop root.length path, ht]
      · cases hd : path.drop root.length with
        | nil => exact .inl rfl
        | cons c below =>
          have hc : path[root.length]? = some c := by
            rw [← head?_drop, hd, head?_cons]
          rw [hc] at h
          exact .inr ⟨below, by rw [show c = '/' by simpa using h]⟩
  · rintro ⟨rest, rfl, hsep⟩
    rw [if_neg (by simp), if_neg (by simp)]
    split_ifs with hlen hroot
    · rfl
    · rfl
    · rcases hsep with hr | rfl | ⟨below, rfl⟩
      · exact absurd hr (by simpa using hroot)
      · simp at hlen
      · simp

/-- `SortRoots` order: shorter paths first, then byte order. -/
def Root.Before (a b : Root) : Prop :=
  a.path.length < b.path.length ∨ (a.path.length = b.path.length ∧ a.path ≤ b.path)

instance : DecidableRel Root.Before := fun _ _ => inferInstanceAs (Decidable (_ ∨ _))

instance : Std.Total Root.Before where
  total a b := by
    rcases lt_trichotomy a.path.length b.path.length with h | h | h
    · exact .inl (.inl h)
    · rcases le_total a.path b.path with h' | h'
      · exact .inl (.inr ⟨h, h'⟩)
      · exact .inr (.inr ⟨h.symm, h'⟩)
    · exact .inr (.inl h)

instance : IsTrans Root Root.Before where
  trans a b c hab hbc := by
    rcases hab with hab | ⟨hab, hab'⟩ <;> rcases hbc with hbc | ⟨hbc, hbc'⟩
    · exact .inl (hab.trans hbc)
    · exact .inl (hbc ▸ hab)
    · exact .inl (hab ▸ hbc)
    · exact .inr ⟨hab.trans hbc, hab'.trans hbc'⟩

structure RootMap where
  roots : List Root
  sorted : roots.Pairwise Root.Before
deriving DecidableEq

namespace RootMap

def sortRoots (roots : List Root) : RootMap :=
  ⟨roots.insertionSort Root.Before, List.pairwise_insertionSort _ roots⟩

@[simp] theorem mem_sortRoots {roots : List Root} {r : Root} :
    r ∈ (sortRoots roots).roots ↔ r ∈ roots := List.mem_insertionSort _

/-- The root `Canonicalize` uses: the last one in order that covers the path. -/
def rootOf (m : RootMap) (path : Str) : Option Root :=
  m.roots.reverse.find? (fun r => isUnder path r.path)

theorem find?_reverse_roots {m : RootMap} {test : Root → Bool} {r : Root}
    (h : m.roots.reverse.find? test = some r) :
    r ∈ m.roots ∧ test r = true ∧
      ∀ s ∈ m.roots, test s = true → s.path.length ≤ r.path.length := by
  obtain ⟨htest, before, after, hsplit, hnone⟩ := find?_eq_some_iff_append.mp h
  have hroots : m.roots = after.reverse ++ r :: before.reverse := by
    have := congrArg reverse hsplit
    simpa using this
  refine ⟨by rw [hroots]; simp, htest, ?_⟩
  intro s hs hstest
  have hsorted := m.sorted
  rw [hroots] at hs hsorted
  rcases mem_append.mp hs with hs | hs
  · rcases (pairwise_append.mp hsorted).2.2 s hs r mem_cons_self with hlt | ⟨heq, _⟩
    · exact hlt.le
    · exact heq.le
  · rcases mem_cons.mp hs with rfl | hs
    · exact le_rfl
    · have := hnone s (mem_reverse.mp hs)
      simp [hstest] at this

def canonicalize (m : RootMap) (path : Str) : Str :=
  match m.rootOf path with
  | none => path
  | some r => r.canonical ++ path.drop r.path.length

def covers (m : RootMap) (path : Str) : Bool := m.roots.any (fun r => isUnder path r.path)

/-- One turn of the loop of `Localize`: the first root among those with the
longest canonical prefix stays. -/
def betterRoot (path : Str) (best : Option Root) (r : Root) : Option Root :=
  if isUnder path r.canonical then
    match best with
    | none => some r
    | some b => if r.canonical.length > b.canonical.length then some r else some b
  else best

/-- The root `Localize` uses. -/
def canonicalRootOf (m : RootMap) (path : Str) : Option Root :=
  m.roots.foldl (betterRoot path) none

def localize (m : RootMap) (path : Str) : Str :=
  match m.canonicalRootOf path with
  | none => path
  | some r => r.path ++ path.drop r.canonical.length

/-- Canonical targets only, sorted and without repetition, one per line. -/
def fingerprint (m : RootMap) : Str :=
  (sortUnique (m.roots.map Root.canonical)).flatMap (fun c => c ++ ['\n'])

end RootMap

/-! ## Building a map from specs -/

def kDefaultCanonicalBase : Str := "/vcache/".toList

/-- The symlink-resolved path where it exists, else the lexical one. -/
def resolveRoot (host : Host) (path : Str) : Str :=
  stripTrailingSlashes ((host.realPath path).getD (absoluteLexical host path))

def canonicalTarget (abs target : Str) : Str :=
  if target = [] then kDefaultCanonicalBase ++ baseName abs
  else if isAbsolute target then stripTrailingSlashes target
  else kDefaultCanonicalBase ++ target

def numbered (canonical : Str) (i : Nat) : Str := canonical ++ "-".toList ++ toDecimal i

/-- `canonical`, `canonical-2`, `canonical-3`, ... until one is unused; `fuel`
bounds the search. -/
def firstUnused (used : List Str) (canonical : Str) : Nat → Nat → Str
  | 0, i => numbered canonical i
  | fuel + 1, i =>
    if numbered canonical i ∈ used then firstUnused used canonical fuel (i + 1)
    else numbered canonical i

def uniqueCanonical (used : List Str) (canonical : Str) : Str :=
  if canonical ∈ used then firstUnused used canonical used.length 2 else canonical

structure SpecState where
  roots : List Root := []
  usedCanonicals : List Str := []
  errors : List Str := []

def splitSpec (spec : Str) : Str × Str :=
  match findChar '=' spec with
  | none => (spec, [])
  | some eq => (spec.take eq, spec.drop (eq + 1))

def SpecState.error (st : SpecState) (message : Str) : SpecState :=
  { st with errors := st.errors ++ [message] }

/-- The resolved root, and the spelling the caller used when a symlink makes
the two differ, both under one canonical prefix. -/
def SpecState.addRoot (st : SpecState) (abs lexical canonical : Str) : SpecState :=
  let unique := uniqueCanonical st.usedCanonicals canonical
  let errors := if unique = canonical then st.errors
    else st.errors ++
      ["duplicate canonical prefix ".toList ++ canonical ++ "; using ".toList ++ unique]
  let roots := st.roots ++ [⟨abs, unique⟩]
  let isAlias := lexical ≠ abs ∧ lexical ≠ [] ∧ lexical ≠ ['/'] ∧ ∀ r ∈ roots, r.path ≠ lexical
  { roots := if isAlias then roots ++ [⟨lexical, unique⟩] else roots
    usedCanonicals := unique :: st.usedCanonicals
    errors }

def addSpec (host : Host) (st : SpecState) (raw : Str) : SpecState :=
  let spec := trimWhitespace raw
  if spec = [] then st
  else
    let path := expandTilde host (trimWhitespace (splitSpec spec).1)
    if path = [] then st.error ("empty root path in spec: ".toList ++ spec)
    else
      let abs := resolveRoot host path
      let canonical := canonicalTarget abs (trimWhitespace (splitSpec spec).2)
      if canonical = [] ∨ canonical = ['/'] then
        st.error ("invalid canonical target in spec: ".toList ++ spec)
      else st.addRoot abs (stripTrailingSlashes (absoluteLexical host path)) canonical

def readSpecs (host : Host) (specs : List Str) : SpecState := specs.foldl (addSpec host) {}

def fromSpecs (host : Host) (specs : List Str) : RootMap :=
  RootMap.sortRoots (readSpecs host specs).roots

/-- `AddIfUncovered`: the map with `dir` added under `/vcache/name`, or `none`
when the directory is covered or the name taken. -/
def RootMap.addIfUncovered (m : RootMap) (host : Host) (dir name : Str) : Option RootMap :=
  let abs := resolveRoot host dir
  let canonical := kDefaultCanonicalBase ++ name
  if abs = [] ∨ abs = ['/'] then none
  else if m.covers abs then none
  else if m.roots.any (fun r => r.canonical = canonical) then none
  else some (RootMap.sortRoots (m.roots ++ [⟨abs, canonical⟩]))

end Vcache

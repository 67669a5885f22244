import Vcache.CxxManifestKey
import Vcache.FileTree
import Vcache.Trace

/-!
# What a traced compile records

The paths a compile read become files of a manifest state by digest, and the
paths it looked for in vain become absent paths, each as the highest of its
ancestors that is not there either (`core/cxx_manifest`). A later lookup accepts
the state if every file still has its digest and no absent path has appeared
(`core/manifest`).
-/

namespace Vcache

open List

open FileTree (Lookup Node Step Tree)

variable {segment field contents : Str} {segments fields : List Str}

/-! ## Paths in a file tree -/

abbrev DiskTree := Tree Str Str

def stepOf (segment : Str) : Step Str :=
  if segment = [] ∨ segment = ".".toList then .stay
  else if segment = "..".toList then .up
  else .into segment

/-- The steps of an absolute path from the root. -/
def stepsOf (path : Str) : List (Step Str) := (split '/' path).map stepOf

/-- The symbolic links a lookup follows before it gives up. -/
def kMaxSymlinks : ℕ := 40

namespace DiskTree

def stat (F : DiskTree) (path : Str) : Lookup (Node Str Str) :=
  Tree.stat F kMaxSymlinks (stepsOf path)

def lstat (F : DiskTree) (path : Str) : Lookup Unit := Tree.lstat F kMaxSymlinks (stepsOf path)

def readFile (F : DiskTree) (path : Str) : Option Str :=
  match stat F path with
  | .found (.file contents) => some contents
  | _ => none

end DiskTree

/-! ## Spellings -/

/-- The loop of `WithoutDotSegments`; `slash` says that separators wait to be written. -/
def dotLoop (slash : Bool) : Str → Str
  | [] => if slash then ['/'] else []
  | c :: rest =>
    if c = '/' then dotLoop true rest
    else if slash then
      if c = '.' ∧ (rest = [] ∨ rest.head? = some '/') then dotLoop false rest
      else '/' :: c :: dotLoop false rest
    else c :: dotLoop false rest

def dropTrailingSlash (path : Str) : Str :=
  if 1 < path.length ∧ path.getLast? = some '/' then path.dropLast else path

def withoutDotSegments (path : Str) : Str :=
  let out := dropTrailingSlash (dotLoop false path)
  if out = [] then "/".toList else out

def lexicalSegment (segments : List Str) (segment : Str) : List Str :=
  if segment = "..".toList then segments.dropLast
  else if segment ≠ [] ∧ segment ≠ ".".toList then segments ++ [segment]
  else segments

def lexicalNormal (path : Str) : Str :=
  if isAbsolute path then
    let segments := (split '/' path).foldl lexicalSegment []
    if segments = [] then "/".toList else segments.flatMap ('/' :: ·)
  else dropTrailingSlash (lexicallyNormal path)

/-! ## Noise -/

structure CxxTraceFilter where
  scratchDir : Str := []
  tracer : Str := []
  keyedPchs : List Str := []
  compilerFiles : List Str := []
  compilerDirs : List Str := []
  includeDirs : List Str := []
  searchPathDirs : List Str := []
  searchPathNames : List Str := []

def inNormalDir (normal dir : Str) : Bool :=
  dir = "/".toList || (startsWith normal dir &&
    (normal.length = dir.length || normal[dir.length]? = some '/'))

def normalFilter (filter : CxxTraceFilter) : CxxTraceFilter where
  scratchDir := if filter.scratchDir = [] then [] else lexicalNormal filter.scratchDir
  tracer := if filter.tracer = [] then [] else lexicalNormal filter.tracer
  keyedPchs := filter.keyedPchs.map lexicalNormal
  compilerFiles := filter.compilerFiles.map lexicalNormal
  compilerDirs := filter.compilerDirs.map lexicalNormal
  includeDirs := filter.includeDirs.map lexicalNormal
  searchPathDirs := filter.searchPathDirs.map lexicalNormal
  searchPathNames := filter.searchPathNames

def isNoiseUnderNormalFilter (path normal : Str) (filter : CxxTraceFilter) : Bool :=
  isIgnoredPath path || isIgnoredPath normal || normal = filter.tracer ||
    filter.keyedPchs.contains normal || filter.compilerFiles.contains normal ||
    (filter.scratchDir ≠ [] && inNormalDir normal filter.scratchDir) ||
    (filter.compilerDirs.any (inNormalDir normal) && !filter.includeDirs.any (inNormalDir normal))

def isCxxTraceNoise (path : Str) (filter : CxxTraceFilter) : Bool :=
  isNoiseUnderNormalFilter path (lexicalNormal path) (normalFilter filter)

/-- An absent path that is one of the compiler's own tools looked for along PATH. -/
def isSearchPathProbe (path : Str) (filter : CxxTraceFilter) : Bool :=
  let normal := lexicalNormal path
  (normalFilter filter).searchPathDirs.contains (dirName normal) &&
    (normalFilter filter).searchPathNames.contains (baseName normal)

structure CxxTraceInputs where
  reads : List Str
  absent : List Str
  allReads : List Str
  written : List Str

def selectCxxTraceInputs (records : TraceRecords) (filter : CxxTraceFilter) : CxxTraceInputs :=
  let select (paths : List Str) := sortUnique
    ((paths.filter (fun path => !isCxxTraceNoise path filter)).map withoutDotSegments)
  { reads := select records.reads
    absent := (select records.absent).filter (fun path =>
      path ∉ select records.reads && !isSearchPathProbe path filter)
    allReads := sortUnique (records.reads.map withoutDotSegments)
    written := sortUnique (records.written.map withoutDotSegments) }

/-! ## Recording -/

/-- The loop of `AddCxxTraceInputs` that goes up from an absent path. -/
def climb (stops : List Str) (present : Str → Bool) : ℕ → Str → Str
  | 0, highest => highest
  | fuel + 1, highest =>
    let parent := dirName highest
    if highest ∉ stops ∧ 1 < parent.length ∧ parent ≠ highest ∧ ¬ present parent then
      climb stops present fuel parent
    else highest

def highestAbsent (stops : List Str) (present : Str → Bool) (path : Str) : Str :=
  if contains "/../".toList path then path else climb stops present path.length path

/-- A run's machine as the recording finds it: the files, and when each last changed. -/
structure RecordingView where
  files : DiskTree
  lastChange : Str → Option ℕ
  digest : Digest
  roots : RootMap
  cwd : Str
  started : ℕ

namespace RecordingView

variable (v : RecordingView)

def present (dir : Str) : Bool := v.files.lstat dir = .found ()

def walkStops : List Str := withoutDotSegments v.cwd :: v.roots.roots.map Root.path

def highest (path : Str) : Str := highestAbsent v.walkStops v.present path

/-- One prerequisite of a depfile; `none` declines the state. -/
def recordPrerequisite (scanIncbin : Bool) (path : Str) : Option (Str × Str) := do
  let bytes ← v.files.readFile path
  let changed ← v.lastChange path
  if v.started ≤ changed ∨ (findTimeMacro bytes).isSome ∨ (scanIncbin && containsIncbin bytes) then
    none
  else some (v.roots.canonicalize path, v.digest.hash bytes)

def absolutePrerequisites (prerequisites : List Str) : List Str :=
  (prerequisites.map (cxxAbsolutePath v.cwd)).eraseDups

def recordDepfileInputs (scanIncbin : Bool) (prerequisites : List Str) :
    Option (List (Str × Str)) :=
  (v.absolutePrerequisites prerequisites).mapM (v.recordPrerequisite scanIncbin)

structure RecordedInputs where
  files : List (Str × Str)
  absent : List Str
deriving DecidableEq

/-- One read of the trace that the depfile does not list: recorded, skipped (`some none`)
or a reason to decline. -/
def recordRead (written : List Str) (path : Str) : Option (Option (Str × Str)) :=
  match v.files.stat path with
  | .found (.file contents) => do
    let changed ← v.lastChange path
    if v.started ≤ changed then none
    else some (some (v.roots.canonicalize path, v.digest.hash contents))
  | .found .directory => some none
  | .found _ => none
  | .missing | .refused => if path ∈ written then some none else none

def listed (files : List (Str × Str)) : List Str :=
  files.map (fun file => withoutDotSegments (v.roots.localize file.1))

def addCxxTraceInputs (trace : CxxTraceInputs) (files : List (Str × Str)) :
    Option RecordedInputs := do
  let added ← (trace.reads.filter (fun path => path ∉ v.listed files)).mapM
    (v.recordRead trace.written)
  some { files := files ++ added.filterMap id
         absent :=
           sortUnique (trace.absent.map (fun path => v.roots.canonicalize (v.highest path))) }

end RecordingView

/-! ## Looking up -/

namespace DiskTree

def findStaleManifestFile (F : DiskTree) (digest : Digest) (roots : RootMap)
    (files : List (Str × Str)) : Option Str :=
  files.findSome? (fun file =>
    let path := roots.localize file.1
    match (readFile F path).map digest.hash with
    | none => some (path ++ " is gone".toList)
    | some actual => if actual = file.2 then none else some (path ++ " changed".toList))

def findAppearedPath (F : DiskTree) (roots : RootMap) (absent : List Str) : Option Str :=
  absent.findSome? (fun canonical =>
    let path := roots.localize canonical
    match lstat F path with
    | .found _ => some (path ++ " exists now".toList)
    | .missing => none
    | .refused => some (path ++ " cannot be shown absent".toList))

end DiskTree

namespace DiskTree

variable {F : DiskTree} {digest : Digest} {roots : RootMap}

theorem readFile_of_not_stale {files : List (Str × Str)}
    (h : findStaleManifestFile F digest roots files = none) {file : Str × Str}
    (hfile : file ∈ files) :
    (readFile F (roots.localize file.1)).map digest.hash = some file.2 := by
  have hnone := findSome?_eq_none_iff.mp h file hfile
  cases hread : (readFile F (roots.localize file.1)).map digest.hash with
  | none => simp [hread] at hnone
  | some actual =>
    simp only [hread] at hnone
    split at hnone
    · rename_i heq
      rw [heq]
    · cases hnone

theorem lstat_of_not_appeared {absent : List Str} (h : findAppearedPath F roots absent = none)
    {path : Str} (hpath : path ∈ absent) : lstat F (roots.localize path) = .missing := by
  have hnone := findSome?_eq_none_iff.mp h path hpath
  cases hstat : lstat F (roots.localize path) with
  | found _ => simp [hstat] at hnone
  | missing => rfl
  | refused => simp [hstat] at hnone

end DiskTree

/-! ## Segments -/

def keptSegment (segment : Str) : Bool := segment ≠ [] && segment ≠ ".".toList

/-- What the loop leaves of the segments after a separator. -/
def trimSegments (segments : List Str) : List Str :=
  segments.filter keptSegment ++ if segments.getLast? = some [] then [[]] else []

theorem trimSegments_skip (h : keptSegment segment = false)
    (hne : segments ≠ []) : trimSegments (segment :: segments) = trimSegments segments := by
  obtain ⟨first, rest, rfl⟩ := exists_cons_of_ne_nil hne
  rw [trimSegments, trimSegments, filter_cons, if_neg (by simp [h]), getLast?_cons_cons]

theorem trimSegments_keep (h : keptSegment segment = true) (segments : List Str) :
    trimSegments (segment :: segments) = segment :: trimSegments segments := by
  rw [trimSegments, filter_cons, if_pos h, cons_append]
  cases segments with
  | nil =>
    have hne : segment ≠ [] := by
      rintro rfl
      cases h
    simp [trimSegments, hne]
  | cons first rest => rw [getLast?_cons_cons, trimSegments]

theorem eq_nil_of_split {s : Str} (h : split '/' s = field :: fields) :
    field = [] ↔ s = [] ∨ s.head? = some '/' := by
  cases s with
  | nil => simp [(cons.inj h).1.symm]
  | cons c s =>
    obtain ⟨first, rest, hsplit⟩ := exists_cons_of_ne_nil (split_ne_nil '/' s)
    by_cases hc : c = '/'
    · rw [hc, split_delim] at h
      simp [(cons.inj h).1.symm, hc]
    · rw [split_cons hc hsplit] at h
      simp [(cons.inj h).1.symm, hc]

def pathOf (segments : List Str) : Str := segments.flatMap ('/' :: ·)

theorem pathOf_append (segments more : List Str) :
    pathOf (segments ++ more) = pathOf segments ++ pathOf more := List.flatMap_append

theorem pathOf_cons (segment : Str) (segments : List Str) :
    pathOf (segment :: segments) = '/' :: segment ++ pathOf segments := List.flatMap_cons

theorem eq_of_split {path : Str}
    (h : split '/' path = field :: fields) : path = field ++ pathOf fields := by
  induction path generalizing field fields with
  | nil =>
    obtain ⟨rfl, rfl⟩ := cons.inj h
    rfl
  | cons c path ih =>
    obtain ⟨first, rest, hsplit⟩ := exists_cons_of_ne_nil (split_ne_nil '/' path)
    by_cases hc : c = '/'
    · rw [hc, split_delim, hsplit] at h
      obtain ⟨rfl, rfl⟩ := cons.inj h
      rw [hc, ih hsplit, pathOf_cons, nil_append, cons_append]
    · rw [split_cons hc hsplit] at h
      obtain ⟨rfl, rfl⟩ := cons.inj h
      rw [cons_append, ← ih hsplit]

theorem split_pathOf (h : ∀ s ∈ segments, '/' ∉ s) :
    split '/' (pathOf segments) = [] :: segments := by
  induction segments using reverseRecOn with
  | nil => rfl
  | append_singleton segments segment ih =>
    have hsegment := h segment (mem_append_right _ mem_cons_self)
    have hlast : pathOf [segment] = '/' :: segment := append_nil _
    rw [pathOf_append, hlast, split_append, ih (fun s hs => h s (mem_append_left _ hs)),
      split_of_notMem hsegment, cons_append]

theorem dotLoop_eq (slash : Bool) (s : Str)
    (h : split '/' s = field :: fields) :
    dotLoop slash s = if slash then pathOf (trimSegments (field :: fields))
      else field ++ pathOf (trimSegments fields) := by
  induction s generalizing slash field fields with
  | nil =>
    obtain ⟨rfl, rfl⟩ := cons.inj h
    cases slash <;> decide
  | cons c s ih =>
    obtain ⟨first, rest, hsplit⟩ := exists_cons_of_ne_nil (split_ne_nil '/' s)
    by_cases hc : c = '/'
    · rw [hc, split_delim, hsplit] at h
      obtain ⟨rfl, rfl⟩ := cons.inj h
      rw [dotLoop, if_pos hc, ih true hsplit, if_pos rfl,
        trimSegments_skip (by decide) (cons_ne_nil _ _), nil_append, ite_self]
    · rw [split_cons hc hsplit] at h
      obtain ⟨rfl, rfl⟩ := cons.inj h
      rw [dotLoop, if_neg hc, ih false hsplit, if_neg Bool.false_ne_true]
      cases slash with
      | false => rfl
      | true =>
        rw [if_pos rfl, if_pos rfl]
        have hempty := eq_nil_of_split hsplit
        by_cases hdot : c = '.' ∧ (s = [] ∨ s.head? = some '/')
        · -- The segment is a single dot.
          rw [if_pos hdot, hdot.1, hempty.mpr hdot.2]
          by_cases hlast : rest = []
          · rw [hlast]
            decide
          · rw [trimSegments_skip (by decide) hlast, nil_append]
        · rw [if_neg hdot]
          rw [← hempty] at hdot
          rw [trimSegments_keep (by simpa [keptSegment, imp_iff_not_or] using hdot), pathOf_cons]
          rfl

/-! ## Paths without dot segments -/

def keptSegments (path : Str) : List Str := (split '/' path).filter keptSegment

theorem of_mem_keptSegments {path : Str} (h : segment ∈ keptSegments path) :
    segment ≠ [] ∧ '/' ∉ segment := by
  obtain ⟨hmem, hkept⟩ := mem_filter.mp h
  refine ⟨?_, notMem_of_mem_split hmem⟩
  rintro rfl
  exact absurd hkept (by decide)

theorem getLast?_pathOf (h : ∀ s ∈ segments, s ≠ [] ∧ '/' ∉ s) :
    (pathOf segments).getLast? ≠ some '/' := by
  induction segments using reverseRecOn with
  | nil => simp [pathOf]
  | append_singleton segments last =>
    obtain ⟨hne, hslash⟩ := h last (mem_append_right _ mem_cons_self)
    obtain ⟨front, c, rfl⟩ := (eq_nil_or_concat' last).resolve_left hne
    have hlast : pathOf [front ++ [c]] = '/' :: front ++ [c] := append_nil _
    rw [pathOf_append, hlast, ← append_assoc, getLast?_concat]
    rintro ⟨⟩
    exact hslash (mem_append_right _ mem_cons_self)

theorem dropTrailingSlash_pathOf (h : ∀ s ∈ segments, s ≠ [] ∧ '/' ∉ s) :
    dropTrailingSlash (pathOf segments) = pathOf segments :=
  if_neg (fun hends => getLast?_pathOf h hends.2)

theorem dropTrailingSlash_slash {text : Str} (h : text ≠ []) :
    dropTrailingSlash (text ++ ['/']) = text := by
  have hlength := length_pos_of_ne_nil h
  rw [dropTrailingSlash, if_pos ⟨by simpa using hlength, getLast?_concat⟩, dropLast_concat]

theorem withoutDotSegments_eq {path : Str} (habs : isAbsolute path = true) :
    withoutDotSegments path =
      if keptSegments path = [] then "/".toList else pathOf (keptSegments path) := by
  obtain ⟨s, rfl⟩ := isAbsolute_iff.mp habs
  have hkept : keptSegments ('/' :: s) = (split '/' s).filter keptSegment := by
    rw [keptSegments, split_delim, filter_cons, if_neg (by decide)]
  have hloop : dotLoop false ('/' :: s) = pathOf (keptSegments ('/' :: s)) ++
      pathOf (if (split '/' s).getLast? = some [] then [[]] else []) := by
    rw [dotLoop_eq false _ (split_delim '/' s), if_neg Bool.false_ne_true, trimSegments,
      pathOf_append, ← hkept, nil_append]
  by_cases hnone : keptSegments ('/' :: s) = []
  · rw [if_pos hnone, withoutDotSegments, hloop, hnone]
    split <;> rfl
  · have hpath : pathOf (keptSegments ('/' :: s)) ≠ [] := by
      obtain ⟨first, rest, hcons⟩ := exists_cons_of_ne_nil hnone
      rw [hcons]
      exact cons_ne_nil _ _
    have hdrop : dropTrailingSlash (dotLoop false ('/' :: s)) =
        pathOf (keptSegments ('/' :: s)) := by
      rw [hloop]
      split
      · exact dropTrailingSlash_slash hpath
      · rw [show pathOf [] = [] from rfl, append_nil]
        exact dropTrailingSlash_pathOf (fun _ => of_mem_keptSegments)
    rw [if_neg hnone, withoutDotSegments, hdrop]
    exact if_neg hpath

theorem split_withoutDotSegments {path : Str} (habs : isAbsolute path = true)
    (hne : keptSegments path ≠ []) :
    split '/' (withoutDotSegments path) = [] :: keptSegments path := by
  rw [withoutDotSegments_eq habs, if_neg hne]
  exact split_pathOf (fun _ h => (of_mem_keptSegments h).2)

theorem keptSegments_withoutDotSegments {path : Str} (habs : isAbsolute path = true) :
    keptSegments (withoutDotSegments path) = keptSegments path := by
  by_cases hnone : keptSegments path = []
  · rw [withoutDotSegments_eq habs, if_pos hnone, hnone]
    decide
  · rw [keptSegments, split_withoutDotSegments habs hnone, filter_cons, if_neg (by decide),
      keptSegments, filter_filter]
    simp

/-! ## What is at a path -/

def Above (above path : Str) : Prop := above = path ∨ ∃ rest, path = above ++ '/' :: rest

theorem moves_stepOf (segment : Str) : (stepOf segment).moves = keptSegment segment := by
  by_cases hstay : segment = [] ∨ segment = ".".toList
  · rw [stepOf, if_pos hstay]
    rcases hstay with rfl | rfl <;> decide
  · have hkept : keptSegment segment = true := by
      rw [not_or] at hstay
      rw [keptSegment, Bool.and_eq_true]
      exact ⟨decide_eq_true hstay.1, decide_eq_true hstay.2⟩
    rw [stepOf, if_neg hstay, hkept]
    split <;> rfl

theorem moving_stepsOf (path : Str) :
    Tree.moving (stepsOf path) = (keptSegments path).map stepOf := by
  rw [Tree.moving, stepsOf, filter_map, keptSegments]
  congr 2
  funext segment
  exact moves_stepOf segment

theorem endsStaying_stepsOf (path : Str) :
    Tree.endsStaying (stepsOf path) = (split '/' path).getLast?.any (fun s => !keptSegment s) := by
  rw [Tree.endsStaying, stepsOf, getLast?_map, Option.any_map]
  congr 1
  funext segment
  exact congrArg _ (moves_stepOf segment)

theorem endsStaying_withoutDotSegments {path : Str} (habs : isAbsolute path = true)
    (hne : keptSegments path ≠ []) :
    Tree.endsStaying (stepsOf (withoutDotSegments path)) = false := by
  obtain ⟨first, rest, hcons⟩ := exists_cons_of_ne_nil hne
  rw [endsStaying_stepsOf, split_withoutDotSegments habs hne, hcons, getLast?_cons_cons, ← hcons]
  cases hlast : (keptSegments path).getLast? with
  | none => rfl
  | some segment =>
    have hkept := (mem_filter.mp (mem_of_getLast? hlast)).2
    simp [hkept]

namespace DiskTree

variable {F : DiskTree} {path : Str}

def named (F : DiskTree) (segments : List Str) : Lookup (Node Str Str) :=
  Tree.stat F kMaxSymlinks (segments.map stepOf)

theorem stat_eq_file_iff :
    stat F path = .found (.file contents) ↔
      Tree.endsStaying (stepsOf path) = false ∧
        named F (keptSegments path) = .found (.file contents) := by
  rw [stat, Tree.stat_eq_file_iff, moving_stepsOf, named]

theorem stat_missing_of_named (h : named F (keptSegments path) = .missing) :
    stat F path = .missing :=
  Tree.stat_missing_of_moving (by rw [moving_stepsOf]; exact h)

theorem stat_missing_of_staying (hends : Tree.endsStaying (stepsOf path) = true)
    (h : named F (keptSegments path) = .found (.file contents)) : stat F path = .missing := by
  rw [named, ← moving_stepsOf] at h
  rw [stat, Tree.stat_staying hends, h]

theorem readFile_eq_some :
    readFile F path = some contents ↔ stat F path = .found (.file contents) := by
  rw [readFile]
  cases stat F path with
  | missing | refused => simp
  | found node => cases node <;> simp

theorem stat_of_lstat_missing (h : lstat F path = .missing) {below : Str}
    (hbelow : Above path below) : stat F below = .missing := by
  rcases hbelow with rfl | ⟨rest, rfl⟩
  · rw [stat, ← append_nil (stepsOf path)]
    exact Tree.stat_of_lstat_missing [] h
  · rw [stat, stepsOf, split_append, map_append]
    exact Tree.stat_of_lstat_missing _ h

theorem lstat_of_lstat_missing (h : lstat F path = .missing) {below : Str}
    (hbelow : Above path below) : lstat F below = .missing := by
  rcases hbelow with rfl | ⟨rest, rfl⟩
  · exact h
  · rw [lstat, stepsOf, split_append, map_append]
    exact Tree.lstat_of_lstat_missing _ h

theorem stat_withoutDotSegments (habs : isAbsolute path = true) (hne : keptSegments path ≠ []) :
    stat F (withoutDotSegments path) = named F (keptSegments path) := by
  rw [stat, Tree.stat_of_moves (endsStaying_withoutDotSegments habs hne), moving_stepsOf,
    keptSegments_withoutDotSegments habs, named]

theorem stat_of_no_segments (h : keptSegments path = []) :
    stat F path = .found .directory := by
  have hroot : Tree.stat F kMaxSymlinks [] = .found .directory := by
    rw [Tree.stat, kMaxSymlinks]
    simp only [Tree.walk, Tree.walkWith, F.root]
  have hends : Tree.endsStaying (stepsOf path) = true := by
    rw [endsStaying_stepsOf]
    cases hlast : (split '/' path).getLast? with
    | none => exact absurd (getLast?_eq_none_iff.mp hlast) (split_ne_nil '/' path)
    | some segment =>
      have hnot := filter_eq_nil_iff.mp h segment (mem_of_getLast? hlast)
      simpa using hnot
  rw [stat, Tree.stat_staying hends, moving_stepsOf, h, map_nil, hroot]

end DiskTree

/-! ## Going up -/

theorem climb_ancestor (stops : List Str) (present : Str → Bool) (fuel : ℕ) (path : Str) :
    Above (climb stops present fuel path) path := by
  induction fuel generalizing path with
  | zero => exact .inl rfl
  | succ fuel ih =>
    rw [climb]
    split
    · rename_i hcond
      obtain ⟨base, hbase, -⟩ := eq_dirName_append hcond.2.1
      rcases ih (dirName path) with heq | ⟨rest, hrest⟩
      · exact .inr ⟨base, by rw [heq]; exact hbase⟩
      · refine .inr ⟨rest ++ '/' :: base, ?_⟩
        calc path = dirName path ++ '/' :: base := hbase
          _ = climb stops present fuel (dirName path) ++ '/' :: rest ++ '/' :: base := by
            rw [← hrest]
          _ = _ := by simp
    · exact .inl rfl

theorem highestAbsent_ancestor (stops : List Str) (present : Str → Bool) (path : Str) :
    Above (highestAbsent stops present path) path := by
  rw [highestAbsent]
  split
  · exact .inl rfl
  · exact climb_ancestor stops present path.length path

/-- The loop ends by its own condition, never for want of fuel. -/
theorem climb_stops (stops : List Str) (present : Str → Bool) {fuel : ℕ} {path : Str}
    (hfuel : path.length ≤ fuel) {highest : Str} (h : climb stops present fuel path = highest) :
    ¬ (highest ∉ stops ∧ 1 < (dirName highest).length ∧ dirName highest ≠ highest ∧
      ¬ present (dirName highest)) := by
  induction fuel generalizing path with
  | zero =>
    obtain rfl : path = highest := h
    rintro ⟨-, hlength, -⟩
    obtain ⟨base, hbase, -⟩ := eq_dirName_append hlength
    have hshort := congrArg length hbase
    rw [length_append] at hshort
    omega
  | succ fuel ih =>
    rw [climb] at h
    split at h
    · rename_i hcond
      refine ih ?_ h
      obtain ⟨base, hbase, -⟩ := eq_dirName_append hcond.2.1
      have hshort := congrArg length hbase
      rw [length_append, length_cons] at hshort
      omega
    · rename_i hcond
      rwa [← h]

end Vcache

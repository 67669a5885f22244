import Vcache.CxxTrace
import Vcache.QueryProcess

/-!
# Manifest hits

A compile asks for paths and is answered with contents or with absence. A state
recorded from its run pins every answer: what was read by digest, what was not
there by an ancestor that is not there. In a file tree that the state is accepted
in, the compile asks the same questions and gives the same result.
-/

namespace Vcache

open List Option

open FileTree (Lookup Node Tree)
open QueryProcess (Process)

variable {path contents : Str}

abbrev CompileProcess (R : Type) := Process Str (Lookup (Node Str Str)) R

def ContentsOrAbsent : Lookup (Node Str Str) → Prop
  | .found (.file _) | .missing => True
  | _ => False

instance instDecidableContentsOrAbsent : DecidablePred ContentsOrAbsent
  | .found (.file _) | .missing => .isTrue trivial
  | .found .directory | .found .special | .found (.link _ _) | .refused => .isFalse id

/-- The tracer's records of a compile beside the paths it wrote. -/
def traceRecords {R : Type} (F : DiskTree) (compile : CompileProcess R) (written : List Str) :
    TraceRecords where
  reads := (compile.asked F.stat).filter (fun path => (F.stat path).isFound)
  absent := (compile.asked F.stat).filter (fun path => decide (F.stat path = .missing))
  written := written

/-- One compile and what its recording is made with. -/
structure TracedCompile (R : Type) where
  compile : CompileProcess R
  view : RecordingView
  filter : CxxTraceFilter
  written : List Str
  prerequisites : List Str
  scanIncbin : Bool

namespace TracedCompile

variable {R : Type} (c : TracedCompile R)

def trace : CxxTraceInputs :=
  selectCxxTraceInputs (traceRecords c.view.files c.compile c.written) c.filter

/-- The state: the depfile's files, then those of the trace, and the absent paths. -/
def record : Option RecordingView.RecordedInputs := do
  let files ← c.view.recordDepfileInputs c.scanIncbin c.prerequisites
  c.view.addCxxTraceInputs c.trace files

def recordedPaths : List Str :=
  c.view.absolutePrerequisites c.prerequisites ++ c.trace.reads ++ c.trace.absent.map c.view.highest

/-- The working directory and every path the compile asks for are absolute, and each path is
answered with contents or absence and is not dropped as noise. -/
structure Recordable : Prop where
  cwd : isAbsolute c.view.cwd = true
  absolute : ∀ path ∈ c.compile.asked c.view.files.stat, isAbsolute path = true
  answered : ∀ path ∈ c.compile.asked c.view.files.stat, ContentsOrAbsent (c.view.files.stat path)
  notNoise : ∀ path ∈ c.compile.asked c.view.files.stat, isCxxTraceNoise path c.filter = false
  notProbe : ∀ path ∈ c.compile.asked c.view.files.stat,
    isSearchPathProbe (withoutDotSegments path) c.filter = false

variable {c}

/-! ## The selected paths -/

theorem mem_trace_reads (hc : c.Recordable) (hasked : path ∈ c.compile.asked c.view.files.stat)
    (hread : c.view.files.stat path = .found (.file contents)) :
    withoutDotSegments path ∈ c.trace.reads := by
  rw [trace, selectCxxTraceInputs, mem_sortUnique, List.mem_map]
  refine ⟨path, List.mem_filter.mpr ⟨List.mem_filter.mpr ⟨hasked, ?_⟩, ?_⟩, rfl⟩
  · rw [hread]
    rfl
  · simp [hc.notNoise path hasked]

theorem mem_trace_absent (hc : c.Recordable) (hasked : path ∈ c.compile.asked c.view.files.stat)
    (habsent : c.view.files.stat path = .missing)
    (hunread : withoutDotSegments path ∉ c.trace.reads) :
    withoutDotSegments path ∈ c.trace.absent := by
  rw [trace, selectCxxTraceInputs] at hunread ⊢
  refine List.mem_filter.mpr ⟨?_, ?_⟩
  · rw [mem_sortUnique, List.mem_map]
    refine ⟨path, List.mem_filter.mpr ⟨List.mem_filter.mpr ⟨hasked, ?_⟩, ?_⟩, rfl⟩
    · simp [habsent]
    · simp [hc.notNoise path hasked]
  · rw [Bool.and_eq_true]
    exact ⟨decide_eq_true hunread, by simp [hc.notProbe path hasked]⟩

theorem exists_of_mem_trace_reads (hc : c.Recordable) (h : path ∈ c.trace.reads) :
    ∃ asked contents, asked ∈ c.compile.asked c.view.files.stat ∧
      withoutDotSegments asked = path ∧ c.view.files.stat asked = .found (.file contents) := by
  rw [trace, selectCxxTraceInputs, mem_sortUnique, List.mem_map] at h
  obtain ⟨asked, hmem, rfl⟩ := h
  obtain ⟨hasked, hfound⟩ := List.mem_filter.mp (List.mem_filter.mp hmem).1
  have hanswer := hc.answered asked hasked
  cases hstat : c.view.files.stat asked with
  | missing | refused => simp [hstat, Lookup.isFound] at hfound
  | found node =>
    rw [hstat] at hanswer
    cases node with
    | file contents => exact ⟨asked, contents, hasked, rfl, hstat⟩
    | directory => exact hanswer.elim
    | special => exact hanswer.elim
    | link absolute target => exact hanswer.elim

theorem Recordable.segments_ne_nil (hc : c.Recordable)
    (hasked : path ∈ c.compile.asked c.view.files.stat) : keptSegments path ≠ [] := by
  intro hnone
  have hanswer := hc.answered path hasked
  rw [DiskTree.stat_of_no_segments hnone] at hanswer
  exact hanswer

theorem segments_eq_of_spelling {path' : Str} (habs : isAbsolute path = true)
    (habs' : isAbsolute path' = true) (h : withoutDotSegments path = withoutDotSegments path') :
    keptSegments path = keptSegments path' := by
  rw [← keptSegments_withoutDotSegments habs, h, keptSegments_withoutDotSegments habs']

/-! ## What the state names -/

theorem exists_of_record {state : RecordingView.RecordedInputs} (h : c.record = some state) :
    ∃ files added, c.view.recordDepfileInputs c.scanIncbin c.prerequisites = some files ∧
      (c.trace.reads.filter (fun path => path ∉ c.view.listed files)).mapM
        (c.view.recordRead c.trace.written) = some added ∧
      state.files = files ++ added.filterMap id ∧
      state.absent = sortUnique
        (c.trace.absent.map (fun path => c.view.roots.canonicalize (c.view.highest path))) := by
  obtain ⟨files, hfiles, h⟩ := bind_eq_some_iff.mp h
  obtain ⟨added, hadded, h⟩ := bind_eq_some_iff.mp h
  cases h
  exact ⟨files, added, hfiles, hadded, rfl, rfl⟩

theorem exists_of_mem_depfile {files : List (Str × Str)}
    (h : c.view.recordDepfileInputs c.scanIncbin c.prerequisites = some files)
    {file : Str × Str} (hfile : file ∈ files) :
    ∃ path ∈ c.view.absolutePrerequisites c.prerequisites, ∃ contents,
      c.view.files.readFile path = some contents ∧
        file = (c.view.roots.canonicalize path, c.view.digest.hash contents) := by
  obtain ⟨path, hpath, hrecord⟩ := (mem_of_mapM h).2 file hfile
  obtain ⟨contents, hcontents, hrecord⟩ := bind_eq_some_iff.mp hrecord
  obtain ⟨changed, -, hrecord⟩ := bind_eq_some_iff.mp hrecord
  split at hrecord
  · cases hrecord
  · exact ⟨path, hpath, contents, hcontents, (some.inj hrecord).symm⟩

theorem absolute_of_mem_prerequisites (hc : c.Recordable)
    (h : path ∈ c.view.absolutePrerequisites c.prerequisites) : isAbsolute path = true := by
  rw [RecordingView.absolutePrerequisites, List.mem_eraseDups, List.mem_map] at h
  obtain ⟨spelled, -, rfl⟩ := h
  rw [cxxAbsolutePath]
  split
  · assumption
  · have hcwd := hc.cwd
    cases hdir : c.view.cwd with
    | nil => rw [hdir] at hcwd; cases hcwd
    | cons first rest => rwa [hdir] at hcwd

variable {state : RecordingView.RecordedInputs}

/-- Localize brings every recorded path back. -/
def Invertible (c : TracedCompile R) : Prop :=
  ∀ path ∈ c.recordedPaths, c.view.roots.localize (c.view.roots.canonicalize path) = path

/-- What was read is in the state by digest, under a path with the same segments. -/
theorem exists_pinned_read (hc : c.Recordable) (hinverse : c.Invertible)
    (hstate : c.record = some state) (hasked : path ∈ c.compile.asked c.view.files.stat)
    (hread : c.view.files.stat path = .found (.file contents)) :
    ∃ recorded ∈ c.recordedPaths,
      (c.view.roots.canonicalize recorded, c.view.digest.hash contents) ∈ state.files ∧
        keptSegments recorded = keptSegments path := by
  obtain ⟨files, added, hfiles, hadded, hstatefiles, -⟩ := exists_of_record hstate
  have habs := hc.absolute path hasked
  have hne := hc.segments_ne_nil hasked
  have hnamed := (DiskTree.stat_eq_file_iff.mp hread).2
  by_cases hlisted : withoutDotSegments path ∈ c.view.listed files
  · -- The depfile names it.
    obtain ⟨file, hfile, hspelled⟩ := mem_map.mp hlisted
    obtain ⟨recorded, hmem, contents', hcontents, rfl⟩ := exists_of_mem_depfile hfiles hfile
    have hrecorded : recorded ∈ c.recordedPaths :=
      mem_append_left _ (mem_append_left _ hmem)
    rw [hinverse recorded hrecorded] at hspelled
    rw [DiskTree.readFile_eq_some] at hcontents
    have hsegments := segments_eq_of_spelling (absolute_of_mem_prerequisites hc hmem) habs
      hspelled
    have hsame : contents' = contents := by
      have hnamed' := (DiskTree.stat_eq_file_iff.mp hcontents).2
      rw [hsegments, hnamed] at hnamed'
      simpa using hnamed'.symm
    refine ⟨recorded, hrecorded, ?_, hsegments⟩
    rw [hstatefiles, ← hsame]
    exact mem_append_left _ hfile
  · -- The trace adds it.
    have hmem := mem_trace_reads hc hasked hread
    have hfilter : withoutDotSegments path ∈
        c.trace.reads.filter (fun path => path ∉ c.view.listed files) :=
      mem_filter.mpr ⟨hmem, decide_eq_true hlisted⟩
    obtain ⟨outcome, houtcome, hrecord⟩ := (mem_of_mapM hadded).1 _ hfilter
    have hstat : c.view.files.stat (withoutDotSegments path) = .found (.file contents) := by
      rw [DiskTree.stat_withoutDotSegments habs hne, hnamed]
    simp only [RecordingView.recordRead, hstat] at hrecord
    obtain ⟨changed, -, hrecord⟩ := bind_eq_some_iff.mp hrecord
    split at hrecord
    · cases hrecord
    · refine ⟨withoutDotSegments path, mem_append_left _ (mem_append_right _ hmem), ?_,
        keptSegments_withoutDotSegments habs⟩
      rw [hstatefiles]
      refine mem_append_right _ (mem_filterMap.mpr ⟨outcome, houtcome, ?_⟩)
      exact (some.inj hrecord).symm

section Accepted

variable {F : DiskTree} (hc : c.Recordable) (hinverse : c.Invertible)
  (hstate : c.record = some state)
  (hfresh : F.findStaleManifestFile c.view.digest c.view.roots state.files = none)
  (habsent : F.findAppearedPath c.view.roots state.absent = none)

include hc hinverse hstate hfresh in
theorem stat_of_read (hasked : path ∈ c.compile.asked c.view.files.stat)
    (hread : c.view.files.stat path = .found (.file contents)) :
    F.stat path = .found (.file contents) := by
  obtain ⟨recorded, hrecorded, hmem, hsegments⟩ :=
    exists_pinned_read hc hinverse hstate hasked hread
  have hhash := DiskTree.readFile_of_not_stale hfresh hmem
  rw [hinverse recorded hrecorded] at hhash
  obtain ⟨contents', hcontents, hsame⟩ := map_eq_some_iff.mp hhash
  obtain rfl := c.view.digest.injective hsame
  have hnamed := (DiskTree.stat_eq_file_iff.mp (DiskTree.readFile_eq_some.mp hcontents)).2
  rw [hsegments] at hnamed
  exact DiskTree.stat_eq_file_iff.mpr ⟨(DiskTree.stat_eq_file_iff.mp hread).1, hnamed⟩

include hc hinverse hstate hfresh habsent in
theorem stat_of_absent (hasked : path ∈ c.compile.asked c.view.files.stat)
    (hmissing : c.view.files.stat path = .missing) : F.stat path = .missing := by
  have habs := hc.absolute path hasked
  have hne := hc.segments_ne_nil hasked
  by_cases hread : withoutDotSegments path ∈ c.trace.reads
  · -- The same file was read without the separator or dot at the end.
    obtain ⟨asked, contents, hasked', hspelled, hstat⟩ := exists_of_mem_trace_reads hc hread
    have hsegments := segments_eq_of_spelling (hc.absolute asked hasked') habs hspelled
    have hnamed := (DiskTree.stat_eq_file_iff.mp hstat).2
    have hends : Tree.endsStaying (stepsOf path) = true := by
      by_contra hmoves
      rw [hsegments] at hnamed
      rw [DiskTree.stat_eq_file_iff.mpr ⟨by simpa using hmoves, hnamed⟩] at hmissing
      cases hmissing
    have hnamed' := (DiskTree.stat_eq_file_iff.mp
      (stat_of_read hc hinverse hstate hfresh hasked' hstat)).2
    rw [hsegments] at hnamed'
    exact DiskTree.stat_missing_of_staying hends hnamed'
  · obtain ⟨files, added, -, -, -, hstateabsent⟩ := exists_of_record hstate
    have hmem := mem_trace_absent hc hasked hmissing hread
    have hrecorded : c.view.highest (withoutDotSegments path) ∈ c.recordedPaths :=
      mem_append_right _ (mem_map_of_mem hmem)
    have hlstat : F.lstat (c.view.highest (withoutDotSegments path)) = .missing := by
      rw [← hinverse _ hrecorded]
      refine DiskTree.lstat_of_not_appeared habsent ?_
      rw [hstateabsent, mem_sortUnique]
      exact mem_map.mpr ⟨_, hmem, rfl⟩
    apply DiskTree.stat_missing_of_named
    rw [← DiskTree.stat_withoutDotSegments habs hne]
    exact DiskTree.stat_of_lstat_missing hlstat (highestAbsent_ancestor _ _ _)

end Accepted

end TracedCompile

/-- In every file tree in which a lookup accepts the recorded state, the compile asks the
same questions, gets the same answers and gives the same result. -/
theorem manifestHit_sound {R : Type} (c : TracedCompile R) (hc : c.Recordable)
    (hinverse : c.Invertible) (state : RecordingView.RecordedInputs)
    (hstate : c.record = some state) (F : DiskTree)
    (hfresh : F.findStaleManifestFile c.view.digest c.view.roots state.files = none)
    (habsent : F.findAppearedPath c.view.roots state.absent = none) :
    c.compile.log F.stat = c.compile.log c.view.files.stat ∧
      c.compile.result F.stat = c.compile.result c.view.files.stat := by
  apply Process.run_eq_of_agree
  intro path hasked
  have hanswer := hc.answered path hasked
  cases hstat : c.view.files.stat path with
  | missing =>
    exact TracedCompile.stat_of_absent hc hinverse hstate hfresh habsent hasked hstat
  | refused =>
    rw [hstat] at hanswer
    exact hanswer.elim
  | found node =>
    cases node with
    | file contents => exact TracedCompile.stat_of_read hc hinverse hstate hfresh hasked hstat
    | directory | special | link _ _ =>
      rw [hstat] at hanswer
      exact hanswer.elim

def treeOf (files : List (String × String)) : DiskTree where
  node place :=
    if place = [] then some .directory
    else match files.find? (fun file => keptSegments file.1.toList == place) with
      | some file => some (.file file.2.toList)
      | none =>
        if files.any (fun file => place.isPrefixOf (keptSegments file.1.toList)) then
          some .directory
        else none
  root := rfl

/-- A compile that looks for a header below a directory that is not there. -/
def probingCompile : TracedCompile Str where
  compile := .ask "/w/inc/x.h".toList (fun _ => .ask "/w/./a.c".toList (fun source =>
    .done (match source with
      | .found (.file contents) => contents
      | _ => [])))
  view :=
    { files := treeOf [("/w/a.c", "int x;")]
      lastChange := fun _ => some 0
      digest := Digest.ofContents
      roots := fromSpecs bareHost ["/w=/vcache/w".toList]
      cwd := "/w".toList
      started := 1 }
  filter := {}
  written := []
  prerequisites := ["a.c".toList]
  scanIncbin := false

def probingState : RecordingView.RecordedInputs where
  files := [("/vcache/w/a.c".toList, Digest.ofContents.hash "int x;".toList)]
  absent := ["/vcache/w/inc".toList]

/-- Its state is accepted with other files beside the source. -/
theorem manifestHit_sound_beside :
    let F := treeOf [("/w/a.c", "int x;"), ("/w/b.c", "int y;"), ("/v/inc/x.h", "")]
    probingCompile.record = some probingState ∧
      probingCompile.compile.log F.stat = [("/w/inc/x.h".toList, .missing),
        ("/w/./a.c".toList, .found (.file "int x;".toList))] ∧
      probingCompile.compile.log F.stat =
        probingCompile.compile.log probingCompile.view.files.stat := by
  have hrecord : probingCompile.record = some probingState := by decide +kernel
  have hinverse : probingCompile.Invertible := by
    unfold TracedCompile.Invertible
    decide +kernel
  refine ⟨hrecord, by decide +kernel, ?_⟩
  exact (manifestHit_sound probingCompile ⟨by decide, by decide +kernel, by decide +kernel,
    by decide +kernel, by decide +kernel⟩ hinverse probingState hrecord _ (by decide +kernel)
    (by decide +kernel)).1

end Vcache

import Vcache.Blob
import Vcache.DepFile

/-!
# The local paths a Rust entry must not hold

The key of a Rust compile leaves out the local value of a path-valued variable, so
an entry is stored only when that value is in none of its bytes. Diagnostics and
inline files are in memory. A sidecar file is read in blocks, and each block is
searched together with the end of the ones before it, one byte short of the longest
value (`rust/rust_compile`).
-/

namespace Vcache

open List Option

/-! ## Searching a stream through a window -/

/-- What is left of `text` when all but its last `n` characters are erased. -/
def keepLast (n : ℕ) (text : Str) : Str := text.drop (text.length - n)

theorem keepLast_append_keepLast (n : ℕ) (text more : Str) :
    keepLast n (keepLast n text ++ more) = keepLast n (text ++ more) := by
  simp only [keepLast, length_append, length_drop]
  rw [← drop_append_of_le_length (Nat.sub_le _ _), drop_drop]
  congr 1
  omega

/-- A needle of at most `n + 1` characters that is not in the first text reaches at most `n`
characters back into it. -/
theorem infix_keepLast_append {needle text more : Str} {n : ℕ} (hlen : needle.length ≤ n + 1)
    (h : needle <:+: text ++ more) (hnot : ¬ needle <:+: text) :
    needle <:+: keepLast n text ++ more := by
  obtain ⟨before, after, heq⟩ := h
  rw [append_assoc] at heq
  have hreach : text.length < before.length + needle.length := by
    by_contra hshort
    apply hnot
    have htake : text = (before ++ (needle ++ after)).take text.length := by
      rw [heq, take_left']
      rfl
    refine ⟨before, after.take (text.length - before.length - needle.length), ?_⟩
    rw [take_append, take_append, take_of_length_le (by omega),
      take_of_length_le (by omega)] at htake
    rw [append_assoc]
    exact htake.symm
  have hdrop : keepLast n text ++ more =
      (before ++ (needle ++ after)).drop (text.length - n) := by
    rw [heq, drop_append_of_le_length (Nat.sub_le _ _), keepLast]
  rw [hdrop, drop_append_of_le_length (by omega)]
  exact ⟨_, after, by rw [append_assoc]⟩

/-! ## `HashAndScanFile` -/

/-- What one `read` gives. The end of the file is `data []`, or the end of the list. -/
inductive FileBlock where
  | data (chunk : Str)
  | interrupted
  | failed
deriving DecidableEq

/-- A file that could be opened: what `fstat` says of its size, and its reads. -/
structure OpenedFile where
  statSize : Option ℕ
  reads : List FileBlock
deriving DecidableEq

structure ScanState where
  hashed : Str := []
  size : ℕ := 0
  foundPattern : Option ℕ := none
  window : Str := []

structure ScannedOutput where
  size : ℕ
  foundPattern : Option ℕ
  digest : Str
deriving DecidableEq

def carriedBytes (patterns : List Str) : ℕ :=
  patterns.foldl (fun carried pattern =>
    if pattern = [] then carried else max carried (pattern.length - 1)) 0

def findPattern (patterns : List Str) (window : Str) : Option ℕ :=
  patterns.findIdx? (fun pattern => pattern ≠ [] && contains pattern window)

namespace ScanState

def feed (patterns : List Str) (s : ScanState) (chunk : Str) : ScanState :=
  let hashed := s.hashed ++ chunk
  let size := s.size + chunk.length
  if s.foundPattern.isSome then { s with hashed := hashed, size := size }
  else
    let window := s.window ++ chunk
    ⟨hashed, size, findPattern patterns window,
      if carriedBytes patterns < window.length then keepLast (carriedBytes patterns) window
      else window⟩

def readAll (patterns : List Str) (s : ScanState) : List FileBlock → Option ScanState
  | [] => some s
  | .interrupted :: reads => s.readAll patterns reads
  | .failed :: _ => none
  | .data chunk :: reads =>
    if chunk = [] then some s else (s.feed patterns chunk).readAll patterns reads

end ScanState

/-- `hash` is the digest of all that was fed to the hasher. -/
def hashAndScanFile (hash : Str → Str) (patterns : List Str) (file : Option OpenedFile) :
    Option ScannedOutput := do
  let opened ← file
  let statSize ← opened.statSize
  let s ← ({ } : ScanState).readAll patterns opened.reads
  if s.size ≠ statSize then none
  else some ⟨s.size, s.foundPattern, hash s.hashed⟩

/-- The reads of a file that holds `contents`: any blocks, in any number. -/
inductive ReadsOf : Str → List FileBlock → Prop where
  | nil : ReadsOf [] []
  | eof (reads : List FileBlock) : ReadsOf [] (.data [] :: reads)
  | data {contents : Str} {reads : List FileBlock} (chunk : Str) (hne : chunk ≠ [])
      (h : ReadsOf contents reads) : ReadsOf (chunk ++ contents) (.data chunk :: reads)
  | interrupted {contents : Str} {reads : List FileBlock} (h : ReadsOf contents reads) :
      ReadsOf contents (.interrupted :: reads)
  | failed (contents : Str) (reads : List FileBlock) : ReadsOf contents (.failed :: reads)

theorem le_foldl_max {α : Type*} (f : ℕ → α → ℕ) (hf : ∀ n a, n ≤ f n a) (as : List α) (n : ℕ) :
    n ≤ as.foldl f n := by
  induction as generalizing n with
  | nil => exact le_rfl
  | cons a as ih => exact (hf n a).trans (ih (f n a))

theorem length_le_carriedBytes {patterns : List Str} {pattern : Str} (h : pattern ∈ patterns) :
    pattern.length ≤ carriedBytes patterns + 1 := by
  have hgrow : ∀ (carried : ℕ) (p : Str),
      carried ≤ if p = [] then carried else max carried (p.length - 1) := by
    intro carried p
    split
    · exact le_rfl
    · exact le_max_left _ _
  obtain ⟨before, after, rfl⟩ := mem_iff_append.mp h
  rw [carriedBytes, foldl_append, foldl_cons]
  refine le_trans ?_ (Nat.succ_le_succ (le_foldl_max _ hgrow after _))
  split
  next hnil => simp [hnil]
  next => omega

/-- After all of `seen`: the hasher has it, the window is its end, and either a pattern was
found or none of them is in it. -/
structure Scanned (patterns : List Str) (seen : Str) (s : ScanState) : Prop where
  hashed : s.hashed = seen
  window : s.foundPattern = none → s.window = keepLast (carriedBytes patterns) seen
  clean : s.foundPattern = none → ∀ pattern ∈ patterns, pattern ≠ [] → ¬ pattern <:+: seen

namespace Scanned

variable {patterns : List Str} {seen : Str} {s s' : ScanState}

theorem start (patterns : List Str) : Scanned patterns [] { } where
  hashed := rfl
  window _ := by simp [keepLast]
  clean _ pattern _ hne h := hne (List.infix_nil.mp h)

theorem feed (h : Scanned patterns seen s) (chunk : Str) :
    Scanned patterns (seen ++ chunk) (s.feed patterns chunk) := by
  by_cases hfound : s.foundPattern.isSome = true
  case pos =>
    have hfeed : s.feed patterns chunk =
        { s with hashed := s.hashed ++ chunk, size := s.size + chunk.length } := by
      simp [ScanState.feed, hfound]
    rw [hfeed]
    refine ⟨congrArg (· ++ chunk) h.hashed, ?_, ?_⟩
    · intro hnone
      simp [show s.foundPattern = none from hnone] at hfound
    · intro hnone
      simp [show s.foundPattern = none from hnone] at hfound
  case neg =>
    have hnone : s.foundPattern = none := by simpa using hfound
    have hwindow := h.window hnone
    have hfeed : s.feed patterns chunk = ⟨s.hashed ++ chunk, s.size + chunk.length,
        findPattern patterns (s.window ++ chunk),
        keepLast (carriedBytes patterns) (s.window ++ chunk)⟩ := by
      simp only [ScanState.feed, hfound, ScanState.mk.injEq, true_and, Bool.false_eq_true, if_false]
      split
      next => rfl
      next hshort => rw [keepLast, Nat.sub_eq_zero_of_le (by omega), drop_zero]
    rw [hfeed]
    refine ⟨congrArg (· ++ chunk) h.hashed, ?_, ?_⟩
    · intro _
      change keepLast _ (s.window ++ chunk) = _
      rw [hwindow, keepLast_append_keepLast]
    · intro hnot pattern hmem hne hin
      have hsearched : contains pattern (s.window ++ chunk) = true := by
        rw [contains_iff, hwindow]
        exact infix_keepLast_append (length_le_carriedBytes hmem) hin
          (h.clean hnone pattern hmem hne)
      have hmiss := (findIdx?_eq_none_iff.mp hnot) pattern hmem
      simp [hne, hsearched] at hmiss

theorem readAll {contents : Str} {reads : List FileBlock} (hreads : ReadsOf contents reads)
    (h : Scanned patterns seen s) (hall : s.readAll patterns reads = some s') :
    Scanned patterns (seen ++ contents) s' := by
  induction hreads generalizing seen s with
  | nil | eof reads =>
    cases hall
    simpa using h
  | data chunk hne hrest ih =>
    rw [ScanState.readAll, if_neg hne] at hall
    rw [← append_assoc]
    exact ih (h.feed chunk) hall
  | interrupted hrest ih => exact ih h hall
  | failed contents reads => cases hall

end Scanned

variable {hash : Str → Str}

/-- A scan that reports nothing has seen the whole file, and no pattern is in it. -/
theorem hashAndScanFile_complete {patterns : List Str} {opened : OpenedFile}
    {contents : Str} (hreads : ReadsOf contents opened.reads) {scanned : ScannedOutput}
    (h : hashAndScanFile hash patterns (some opened) = some scanned) :
    scanned.digest = hash contents ∧ (scanned.foundPattern = none →
      ∀ pattern ∈ patterns, pattern ≠ [] → ¬ pattern <:+: contents) := by
  obtain ⟨statSize, -, h⟩ := bind_eq_some_iff.mp h
  obtain ⟨s, hs, h⟩ := bind_eq_some_iff.mp h
  split at h
  next => cases h
  next =>
    cases h
    have hscanned := (Scanned.start patterns).readAll hreads hs
    rw [nil_append] at hscanned
    exact ⟨congrArg hash hscanned.hashed, hscanned.clean⟩

/-! ## `PrepareSidecarStore` -/

structure LocalEnvPath where
  name : Str
  value : Str
deriving DecidableEq

/-- `getenv` is the process's own environment. -/
def localEnvPaths (getenv : Str → Option Str) (envDeps : List DepEnv) (pathEnvVars : List Str)
    (roots : RootMap) : List LocalEnvPath :=
  envDeps.filterMap (fun env =>
    if env.value = none ∨ env.name ∉ pathEnvVars then none
    else match getenv env.name with
      | none => none
      | some raw => if raw = [] ∨ roots.canonicalize raw = raw then none
        else some ⟨env.name, raw⟩)

/-- Names the first local path that is in the diagnostics or an inline file. -/
def findEnvPathInOutput (localPaths : List LocalEnvPath) (stderrText : Str)
    (files : List BlobFile) : Option Str :=
  localPaths.findSome? (fun path =>
    if contains path.value stderrText then some path.name
    else (files.find? (fun file => contains path.value file.contents)).map
      (fun file => path.name ++ " in ".toList ++ file.name))

inductive StorePrepared where
  | ready
  /-- A decision was recorded: the entry must not be stored. -/
  | refused
  /-- A sidecar could not be read or stored. -/
  | failed
deriving DecidableEq

inductive PutFileStatus where
  | stored | failed | sourceMissing | readOnly
deriving DecidableEq

/-- What the function returns, writes to `*sidecar_files` and records as the reason of a
refusal. -/
structure PreparedStore where
  outcome : StorePrepared
  sidecarFiles : List BlobSidecarFile
  envPathInOutput : Option Str := none
deriving DecidableEq

/-- The staged files by path, and the store with what its `PutFile` of a digest and a path
answers. -/
structure Staging where
  stageDir : Str
  opened : Str → Option OpenedFile
  sidecarStore : Option (Str → Str → PutFileStatus)

def Staging.path (stage : Staging) (file : BlobSidecarFile) : Str :=
  stage.stageDir ++ "/".toList ++ file.name

/-- The first loop over the sidecars; `done` are those it is through with. -/
def scanSidecars (hash : Str → Str) (stage : Staging) (localPaths : List LocalEnvPath)
    (done : List BlobSidecarFile) : List BlobSidecarFile → PreparedStore
  | [] => ⟨.ready, done, none⟩
  | file :: files =>
    match hashAndScanFile hash (localPaths.map LocalEnvPath.value)
        (stage.opened (stage.path file)) with
    | none => ⟨.failed, done ++ file :: files, none⟩
    | some scanned =>
      match scanned.foundPattern with
      | some i => ⟨.refused, done ++ file :: files,
          (localPaths[i]?).map (fun path => path.name ++ " in ".toList ++ file.name)⟩
      | none => scanSidecars hash stage localPaths
          (done ++ [{ file with digest := scanned.digest }]) files

def putSidecars (stage : Staging) (put : Str → Str → PutFileStatus) :
    List BlobSidecarFile → StorePrepared
  | [] => .ready
  | file :: files =>
    if put file.digest (stage.path file) = .stored then putSidecars stage put files else .failed

def prepareSidecarStore (hash : Str → Str) (stage : Staging) (files : List BlobFile)
    (canonicalStderr : Str) (localPaths : List LocalEnvPath)
    (sidecarFiles : List BlobSidecarFile) : PreparedStore :=
  match findEnvPathInOutput localPaths canonicalStderr files with
  | some leaked => ⟨.refused, sidecarFiles, some leaked⟩
  | none =>
    let scanned := scanSidecars hash stage localPaths [] sidecarFiles
    if scanned.outcome ≠ .ready ∨ scanned.sidecarFiles = [] then scanned
    else match stage.sidecarStore with
      | none => { scanned with outcome := .failed }
      | some put => { scanned with outcome := putSidecars stage put scanned.sidecarFiles }

theorem value_ne_nil_of_mem_localEnvPaths {getenv : Str → Option Str} {envDeps : List DepEnv}
    {pathEnvVars : List Str} {roots : RootMap} {path : LocalEnvPath}
    (h : path ∈ localEnvPaths getenv envDeps pathEnvVars roots) : path.value ≠ [] := by
  obtain ⟨env, -, henv⟩ := mem_filterMap.mp h
  split at henv
  next => cases henv
  next =>
    split at henv
    next => cases henv
    next raw _ =>
      split at henv
      next => cases henv
      next hraw =>
        cases henv
        exact fun hnil => hraw (.inl hnil)

variable {localPaths : List LocalEnvPath}

theorem clean_of_findEnvPathInOutput {stderrText : Str}
    {files : List BlobFile} (h : findEnvPathInOutput localPaths stderrText files = none)
    {path : LocalEnvPath} (hpath : path ∈ localPaths) :
    ¬ path.value <:+: stderrText ∧ ∀ file ∈ files, ¬ path.value <:+: file.contents := by
  have hnone := findSome?_eq_none_iff.mp h path hpath
  split at hnone
  next => cases hnone
  next hstderr =>
    refine ⟨fun hin => hstderr (contains_iff.mpr hin), ?_⟩
    intro file hfile hin
    have hmiss := find?_eq_none.mp (map_eq_none_iff.mp hnone) file hfile
    exact hmiss (contains_iff.mpr hin)

/-- What is known of a sidecar file the first loop is through with. -/
def SidecarClean (hash : Str → Str) (stage : Staging) (contents : Str → Str)
    (localPaths : List LocalEnvPath) (file : BlobSidecarFile) : Prop :=
  file.digest = hash (contents (stage.path file)) ∧
    ∀ path ∈ localPaths, path.value ≠ [] → ¬ path.value <:+: contents (stage.path file)

theorem scanSidecars_clean {stage : Staging} {contents : Str → Str}
    {done files : List BlobSidecarFile} (hreads : ∀ path opened, stage.opened path = some opened →
      ReadsOf (contents path) opened.reads)
    (hdone : ∀ file ∈ done, SidecarClean hash stage contents localPaths file)
    (hready : (scanSidecars hash stage localPaths done files).outcome = .ready) :
    ∀ file ∈ (scanSidecars hash stage localPaths done files).sidecarFiles,
      SidecarClean hash stage contents localPaths file := by
  induction files generalizing done with
  | nil => exact hdone
  | cons file files ih =>
    rw [scanSidecars] at hready ⊢
    split at hready
    next => cases hready
    next scanned hscan =>
      split at hready
      next => cases hready
      next hnone =>
        refine ih (forall_mem_concat.mpr ⟨hdone, ?_⟩) hready
        cases hopened : stage.opened (stage.path file) with
        | none =>
          rw [hopened] at hscan
          cases hscan
        | some opened =>
          rw [hopened] at hscan
          obtain ⟨hdigest, hclean⟩ := hashAndScanFile_complete (hreads _ _ hopened) hscan
          refine ⟨hdigest, ?_⟩
          intro path hpath hne
          exact hclean hnone path.value (mem_map_of_mem hpath) hne

theorem scanSidecars_names {stage : Staging} {done files : List BlobSidecarFile} :
    (scanSidecars hash stage localPaths done files).sidecarFiles.map BlobSidecarFile.name =
      (done ++ files).map BlobSidecarFile.name := by
  induction files generalizing done with
  | nil => simp [scanSidecars]
  | cons file files ih =>
    rw [scanSidecars]
    split
    next => rfl
    next =>
      split
      next => rfl
      next => rw [ih]; simp

theorem prepareSidecarStore_ready {stage : Staging} {files : List BlobFile}
    {canonicalStderr : Str} {sidecarFiles : List BlobSidecarFile}
    (h : (prepareSidecarStore hash stage files canonicalStderr localPaths sidecarFiles).outcome =
      .ready) :
    findEnvPathInOutput localPaths canonicalStderr files = none ∧
      (scanSidecars hash stage localPaths [] sidecarFiles).outcome = .ready ∧
      (prepareSidecarStore hash stage files canonicalStderr localPaths sidecarFiles).sidecarFiles =
        (scanSidecars hash stage localPaths [] sidecarFiles).sidecarFiles := by
  rw [prepareSidecarStore] at h ⊢
  split at h
  next => cases h
  next hinline =>
    simp only at h ⊢
    split_ifs at h ⊢ with hscan
    · exact ⟨hinline, h, rfl⟩
    · rw [not_or, not_not] at hscan
      refine ⟨hinline, hscan.1, ?_⟩
      split <;> rfl

/-- An entry that may be stored holds no local path, in its diagnostics, its inline files or
its sidecars, however these were read; and each sidecar is named by the digest of all of it. -/
theorem ready_holds_no_local_path (hash : Str → Str) (stage : Staging) (contents : Str → Str)
    (hreads : ∀ path opened, stage.opened path = some opened →
      ReadsOf (contents path) opened.reads)
    (getenv : Str → Option Str) (envDeps : List DepEnv) (pathEnvVars : List Str) (roots : RootMap)
    (files : List BlobFile) (canonicalStderr : Str) (sidecarFiles : List BlobSidecarFile) :
    let localPaths := localEnvPaths getenv envDeps pathEnvVars roots
    let prepared :=
      prepareSidecarStore hash stage files canonicalStderr localPaths sidecarFiles
    prepared.outcome = .ready →
      prepared.sidecarFiles.map BlobSidecarFile.name = sidecarFiles.map BlobSidecarFile.name ∧
      (∀ file ∈ prepared.sidecarFiles, file.digest = hash (contents (stage.path file))) ∧
      ∀ path ∈ localPaths, ¬ path.value <:+: canonicalStderr ∧
        (∀ file ∈ files, ¬ path.value <:+: file.contents) ∧
        ∀ file ∈ prepared.sidecarFiles, ¬ path.value <:+: contents (stage.path file) := by
  intro localPaths prepared hready
  obtain ⟨hinline, hscan, hfiles⟩ := prepareSidecarStore_ready hready
  have hclean := scanSidecars_clean hreads (by simp) hscan
  rw [← hfiles] at hclean
  refine ⟨?_, fun file hfile => (hclean file hfile).1, ?_⟩
  · change (prepareSidecarStore hash stage files canonicalStderr _ sidecarFiles).sidecarFiles.map
      BlobSidecarFile.name = _
    rw [hfiles, scanSidecars_names, nil_append]
  · intro path hpath
    obtain ⟨hstderr, hinlined⟩ := clean_of_findEnvPathInOutput hinline hpath
    refine ⟨hstderr, hinlined, ?_⟩
    intro file hfile
    exact (hclean file hfile).2 path hpath (value_ne_nil_of_mem_localEnvPaths hpath)

def stagedLib : Staging where
  stageDir := "/s".toList
  opened _ := some ⟨some 6, [.data "/w".toList, .interrupted, .data "/lib".toList]⟩
  sidecarStore := some (fun _ _ => .stored)

theorem ready_holds_no_local_path_stagedLib :
    let localPaths := localEnvPaths (fun _ => some "/w/out".toList)
      [⟨"OUT_DIR".toList, some "/w/out".toList⟩] ["OUT_DIR".toList]
      (RootMap.sortRoots [⟨"/w".toList, "/vcache/w".toList⟩])
    let prepared := prepareSidecarStore Digest.ofContents.hash stagedLib [] [] localPaths
      [⟨"lib".toList, [], false⟩]
    prepared.outcome = .ready ∧ ⟨"OUT_DIR".toList, "/w/out".toList⟩ ∈ localPaths ∧
      ∀ path ∈ localPaths, ∀ file ∈ prepared.sidecarFiles, ¬ path.value <:+: "/w/lib".toList := by
  intro localPaths prepared
  have hreads : ∀ path opened, stagedLib.opened path = some opened →
      ReadsOf "/w/lib".toList opened.reads := by
    intro path opened h
    cases h
    exact .data "/w".toList (by decide) (.interrupted (.data "/lib".toList (by decide) .nil))
  have hready : prepared.outcome = .ready := by decide +kernel
  have hentry := ready_holds_no_local_path Digest.ofContents.hash stagedLib
    (fun _ => "/w/lib".toList) hreads _ _ _ _ [] [] [⟨"lib".toList, [], false⟩] hready
  exact ⟨hready, by decide +kernel, fun path hpath => (hentry.2.2 path hpath).2.2⟩

end Vcache

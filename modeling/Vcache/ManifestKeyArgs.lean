import Vcache.CompilerArgs
import Vcache.Roots
import Vcache.TokenScan

/-!
# Key arguments of the manifests

`CxxManifestKeyArgs` and `DepScanKeyArgs` scan a flat argument list again and
leave out linker flags by their spelling, with the token that follows where the
flag takes one. `Parse` has already decided which tokens are values. The two
agree unless a value is itself spelled like a flag that is left out.
-/

namespace Vcache

open List

open TokenScan (Verdict scan)

/-! ## The key functions -/

/-- The path behind a joined flag is canonicalised, any other argument as a whole. -/
def canonicalizeJoined (prefixes : List Str) (roots : RootMap) (arg : Str) : Str :=
  match prefixes.find? (fun pre => decide (pre.length < arg.length) && startsWith arg pre) with
  | some pre => pre ++ roots.canonicalize (arg.drop pre.length)
  | none => roots.canonicalize arg

def cxxPathPrefixes : List Str :=
  ["-isystem", "-iquote", "-idirafter", "-include", "-imacros", "-isysroot", "-iframework",
    "--sysroot=", "-I", "-F"].map String.toList

def canonicalizeArg (roots : RootMap) (arg : Str) : Str :=
  canonicalizeJoined cxxPathPrefixes roots arg

def depScanPathPrefixes : List Str :=
  ["-include-pch=", "-isystem", "-iquote", "-idirafter", "-include", "-imacros", "-isysroot",
    "-iframework", "-iprefix", "-iwithprefixbefore", "-iwithprefix", "--sysroot=", "-I", "-F",
    "-L", "-fsanitize-ignorelist=", "-fsanitize-blacklist=", "-fsanitize-system-ignorelist=",
    "-fsanitize-coverage-allowlist=", "-fsanitize-coverage-ignorelist=", "-fprofile-list=",
    "-fprofile-sample-use=", "-fprofile-remapping-file="].map String.toList

def depScanCanonicalArg (roots : RootMap) (arg : Str) : Str :=
  canonicalizeJoined depScanPathPrefixes roots arg

def linkVerdict (keepLinkArgs : Bool) (arg : Str) : Verdict :=
  if !keepLinkArgs && isLinkOnlyFlag arg then
    if linkOnlyFlagTakesValue arg then .dropValue else .drop
  else .keep

def keyArgsSeparator : Str := "--vcache-key-args".toList

def cxxManifestKeyArgs (parsed : CompilerArgs) (roots : RootMap) (keepLinkArgs : Bool) :
    List Str :=
  (if parsed.compileOnly then ["-c".toList] else []) ++
    (if parsed.assembleOnly then ["-S".toList] else []) ++
    (scan (linkVerdict keepLinkArgs) parsed.baseArgs).map (canonicalizeArg roots) ++
    keyArgsSeparator :: parsed.keyArgs.map roots.canonicalize

def depScanVerdict (keepLinkArgs : Bool) (arg : Str) : Verdict :=
  if arg = "-o".toList ∨ arg = "-MF".toList then .dropValue
  else if startsWith arg "-MF".toList && 3 < arg.length then .drop
  else linkVerdict keepLinkArgs arg

def depScanKeyArgs (parsed : CompilerArgs) (roots : RootMap) (keepLinkArgs : Bool) : List Str :=
  (scan (depScanVerdict keepLinkArgs) parsed.argv.tail).map (depScanCanonicalArg roots)

/-! ## Spellings -/

theorem startsWith_getElem? {arg pre : Str} (h : startsWith arg pre = true) {i : ℕ}
    (hi : i < pre.length) : arg[i]? = pre[i]? := by
  obtain ⟨rest, rfl⟩ := startsWith_iff.mp h
  exact getElem?_append_left hi

/-- The letters a linker flag can have after its dash. -/
def linkOnlySeconds : List (Option Char) :=
  "rsnWlLXTuze".toList.map some

theorem isLinkOnlyFlag_start {arg : Str} (h : isLinkOnlyFlag arg = true) :
    arg[0]? = some '-' ∧ arg[1]? ∈ linkOnlySeconds := by
  have hexact : ∀ word ∈ linkOnlyExact, word[0]? = some '-' ∧ word[1]? ∈ linkOnlySeconds := by
    decide
  have hvalue : ∀ word ∈ ["-l", "-L", "-Xlinker", "-T", "-u", "-z", "-e"].map String.toList,
      word[0]? = some '-' ∧ word[1]? ∈ linkOnlySeconds := by decide
  have hstart : ∀ pre ∈ ["-Wl,", "-l", "-L"].map String.toList, startsWith arg pre = true →
      arg[0]? = some '-' ∧ arg[1]? ∈ linkOnlySeconds := by
    intro pre hpre hstart
    have hall : ∀ pre ∈ ["-Wl,", "-l", "-L"].map String.toList,
        1 < pre.length ∧ pre[0]? = some '-' ∧ pre[1]? ∈ linkOnlySeconds := by decide
    obtain ⟨hlen, hfirst, hsecond⟩ := hall pre hpre
    rw [startsWith_getElem? hstart hlen, startsWith_getElem? hstart (by omega)]
    exact ⟨hfirst, hsecond⟩
  simp only [isLinkOnlyFlag, Bool.or_eq_true, Bool.and_eq_true, decide_eq_true_eq] at h
  rcases h with ((h | h) | ⟨_, h | h⟩) | h
  · exact hexact arg h
  · exact hstart _ (by decide) h
  · exact hstart _ (by decide) h
  · exact hstart _ (by decide) h
  · exact hvalue arg (of_decide_eq_true h)

theorem not_isLinkOnlyFlag_of_second {arg : Str} (h : arg[1]? ∉ linkOnlySeconds) :
    isLinkOnlyFlag arg = false := by
  by_contra hlink
  exact h (isLinkOnlyFlag_start (by simpa using hlink)).2

theorem not_isLinkOnlyFlag_of_startsWith {arg pre : Str} (h : startsWith arg pre = true)
    (hlen : 1 < pre.length) (hpre : pre[1]? ∉ linkOnlySeconds) : isLinkOnlyFlag arg = false :=
  not_isLinkOnlyFlag_of_second (by rwa [startsWith_getElem? h hlen])

theorem depScanVerdict_eq_keep_iff {arg : Str} :
    depScanVerdict false arg = .keep ↔
      arg ≠ "-o".toList ∧ startsWith arg "-MF".toList = false ∧ isLinkOnlyFlag arg = false := by
  unfold depScanVerdict linkVerdict
  have hshort : startsWith arg "-MF".toList = true → ¬ 3 < arg.length → arg = "-MF".toList := by
    intro hstart hlen
    obtain ⟨rest, rfl⟩ := startsWith_iff.mp hstart
    rw [length_append] at hlen
    have hrest : rest = [] := eq_nil_of_length_eq_zero (by
      have : "-MF".toList.length = 3 := by decide
      omega)
    rw [hrest, append_nil]
  constructor
  · intro h
    split_ifs at h with hexact hjoined hlink htakes
    simp only [not_or] at hexact
    refine ⟨hexact.1, ?_, by simpa using hlink⟩
    by_contra hstart
    simp only [Bool.not_eq_false] at hstart
    simp only [hstart, Bool.true_and, decide_eq_true_eq] at hjoined
    exact hexact.2 (hshort hstart hjoined)
  · rintro ⟨ho, hmf, hlink⟩
    have hne : arg ≠ "-MF".toList := by
      rintro rfl
      exact absurd hmf (by decide)
    rw [if_neg (not_or.mpr ⟨ho, hne⟩), if_neg (by rw [hmf]; simp), if_neg (by rw [hlink]; simp)]

theorem depScanVerdict_of_no_dash {arg : Str} (h : arg[0]? ≠ some '-') :
    depScanVerdict false arg = .keep := by
  refine depScanVerdict_eq_keep_iff.mpr ⟨?_, ?_, ?_⟩
  · rintro rfl
    exact h rfl
  · by_contra hstart
    exact h (startsWith_getElem? (by simpa using hstart) (by decide : 0 < "-MF".toList.length))
  · by_contra hlink
    exact h (isLinkOnlyFlag_start (by simpa using hlink)).1

/-! ## Turns of the parser, as the scans see them -/

namespace CompilerItem

/-- The value a turn took that a scan judges as a token of its own. -/
def value? : CompilerItem → Option Str
  | prefixMap (_ :: value :: _) => some value
  | depTarget _ value => some value
  | language value => some value
  | config value => some value
  | emitPch => some "-emit-pch".toList
  | separate _ value => some value
  | _ => none

/-- Linker flags, and `-o` and `-MF` with a value of their own. -/
def isLeftOut : CompilerItem → Bool
  | linkOnly _ _ | output _ | outputMissing | depfile _ | depfileMissing | depfileJoined _ => true
  | _ => false

theorem baseArgs_eq (item : CompilerItem) : item.baseArgs = [] ∨ item.baseArgs = item.words := by
  cases item with
  | _ => first
    | exact .inl rfl
    | exact .inr rfl

end CompilerItem

/-- What a turn at `arg` took, and how a scan judges the words. -/
inductive Turn (arg : Str) (rest : List Str) (item : CompilerItem) : List Str → Prop where
  | flag (hwords : item.words = [arg]) (hvalue : item.value? = none)
      (hkeep : depScanVerdict false arg = .keep) (hleft : item.isLeftOut = false)
      (hphase : item.baseArgs = [] ∨ (arg ≠ "-c".toList ∧ arg ≠ "-S".toList)) :
      Turn arg rest item rest
  | flagValue (value : Str) (rest' : List Str) (hrest : rest = value :: rest')
      (hwords : item.words = [arg, value]) (hvalue : item.value? = some value)
      (hkeep : depScanVerdict false arg = .keep) (hleft : item.isLeftOut = false)
      (hphase : arg ≠ "-c".toList ∧ arg ≠ "-S".toList) :
      Turn arg rest item rest'
  | leftOut (hwords : item.words = [arg]) (hleft : item.isLeftOut = true)
      (hverdict : depScanVerdict false arg = .drop ∨
        (depScanVerdict false arg ≠ .keep ∧ rest = []))
      (hbase : item.baseArgs = [] ∨ depScanVerdict false arg = linkVerdict false arg) :
      Turn arg rest item rest
  | leftOutValue (value : Str) (rest' : List Str) (hrest : rest = value :: rest')
      (hwords : item.words = [arg, value]) (hleft : item.isLeftOut = true)
      (hverdict : depScanVerdict false arg = .dropValue)
      (hbase : item.baseArgs = [] ∨ depScanVerdict false arg = linkVerdict false arg) :
      Turn arg rest item rest'

def IsDashed (arg : Str) : Prop := arg.head? = some '-' ∧ arg ≠ "-".toList

/-- What is known of a word that reaches the tables of late flags. -/
structure IsLate (arg : Str) : Prop where
  dashed : IsDashed arg
  map : isPrefixMapFlag arg = false
  dep : isDepFlag arg = false
  phase : arg ∉ ["-c", "-S"].map String.toList
  output : startsWith arg "-o".toList = false
  language : arg ≠ "-x".toList

/-- The branches of `ofLateFlag` that leave nothing pending. -/
inductive LateBranch (arg : Str) : List Str → CompilerItem → List Str → Prop where
  | native (rest : List Str) (h : isNativeTargetFlag arg = true) :
      LateBranch arg rest (.native arg) rest
  | keyedFile (rest : List Str) (file : Str) (h : keyedFileFlagValue arg = some file) :
      LateBranch arg rest (.keyedFile arg file) rest
  | config (value : Str) (rest : List Str) (h : arg = "--config".toList) :
      LateBranch arg (value :: rest) (.config value) rest
  | emitPch (rest : List Str) (h : arg = "-Xclang".toList) :
      LateBranch arg ("-emit-pch".toList :: rest) .emitPch rest
  | linkOnly (rest : List Str) (hlink : isLinkOnlyFlag arg = true)
      (htakes : linkOnlyFlagTakesValue arg = false) : LateBranch arg rest (.linkOnly arg none) rest
  | linkMissing (hlink : isLinkOnlyFlag arg = true) (htakes : linkOnlyFlagTakesValue arg = true) :
      LateBranch arg [] (.linkOnly arg none) []
  | linkValue (value : Str) (rest : List Str) (hlink : isLinkOnlyFlag arg = true)
      (htakes : linkOnlyFlagTakesValue arg = true) :
      LateBranch arg (value :: rest) (.linkOnly arg (some value)) rest
  | separateMissing (hlink : isLinkOnlyFlag arg = false) (h : arg ∈ separateValueFlags) :
      LateBranch arg [] (.separateMissing arg) []
  | separate (value : Str) (rest : List Str) (hlink : isLinkOnlyFlag arg = false)
      (h : arg ∈ separateValueFlags)
      (hpch : arg = "-Xclang".toList → value ≠ "-emit-pch".toList) :
      LateBranch arg (value :: rest) (.separate arg value) rest
  | joined (rest : List Str) (hlink : isLinkOnlyFlag arg = false)
      (hside : isSideOutputFlag arg = false) (hseparate : arg ∉ separateValueFlags)
      (hconfig : arg = "--config".toList → rest = []) (h : isPreprocessorOnlyJoined arg = true) :
      LateBranch arg rest (.joined arg) rest
  | plainFlag (rest : List Str) (hlink : isLinkOnlyFlag arg = false)
      (hside : isSideOutputFlag arg = false) (hseparate : arg ∉ separateValueFlags)
      (hconfig : arg = "--config".toList → rest = []) (h : isPreprocessorOnlyJoined arg = false) :
      LateBranch arg rest (.plainFlag arg) rest

/-- The branches of a turn that leave nothing pending. -/
inductive Branch (arg : Str) : List Str → CompilerItem → List Str → Prop where
  | source (rest : List Str) (h : arg = [] ∨ arg.head? ≠ some '-') :
      Branch arg rest (.source arg) rest
  | prefixMapValue (value : Str) (rest : List Str) (hdash : IsDashed arg)
      (h : arg = remapPathPrefix) : Branch arg (value :: rest) (.prefixMap [arg, value]) rest
  | prefixMap (rest : List Str) (hdash : IsDashed arg) (h : isPrefixMapFlag arg = true)
      (hremap : arg = remapPathPrefix → rest = []) : Branch arg rest (.prefixMap [arg]) rest
  | dep (rest : List Str) (hdash : IsDashed arg) (h : isDepFlag arg = true)
      (hpending : (CompilerItem.ofDepFlag arg rest).1.pending? = none) :
      Branch arg rest (CompilerItem.ofDepFlag arg rest).1 (CompilerItem.ofDepFlag arg rest).2
  | phase (rest : List Str) (item : CompilerItem) (hdash : IsDashed arg)
      (h : item ∈ [.compileOnly, .preprocessOnly, .assembleOnly]) (hwords : item.words = [arg]) :
      Branch arg rest item rest
  | outputMissing (h : arg = "-o".toList) : Branch arg [] .outputMissing []
  | output (path : Str) (rest : List Str) (hdash : IsDashed arg) (h : arg = "-o".toList) :
      Branch arg (path :: rest) (.output path) rest
  | outputJoined (rest : List Str) (hdash : IsDashed arg) (hdep : isDepFlag arg = false)
      (ho : arg ≠ "-o".toList) (h : startsWith arg "-o".toList = true) :
      Branch arg rest (.outputJoined (arg.drop 2)) rest
  | languageMissing (h : arg = "-x".toList) : Branch arg [] .languageMissing []
  | language (value : Str) (rest : List Str) (hdash : IsDashed arg) (h : arg = "-x".toList) :
      Branch arg (value :: rest) (.language value) rest
  | late {rest rest' : List Str} {item : CompilerItem} (hlate : IsLate arg)
      (h : LateBranch arg rest item rest') : Branch arg rest item rest'

section Turns

variable {arg : Str} {rest rest' : List Str} {item : CompilerItem} {out : CompilerItem × List Str}

theorem lateBranch (hout : CompilerItem.ofLateFlag arg rest = out)
    (hpending : out.1.pending? = none) : LateBranch arg rest out.1 out.2 := by
  subst hout
  revert hpending
  fun_cases CompilerItem.ofLateFlag arg rest <;> intro hpending
  next hnative => exact .native rest hnative
  next file hfile => exact .keyedFile rest file hfile
  next hconfig =>
    obtain ⟨value, rest', rfl⟩ := exists_cons_of_ne_nil hconfig.2
    exact .config value rest' hconfig.1
  next => cases hpending
  next hemit =>
    obtain ⟨rest', rfl⟩ := head?_eq_some_iff.mp hemit.2
    exact .emitPch rest' hemit.1
  next => cases hpending
  next =>
    unfold CompilerItem.withValue at hpending
    split at hpending <;> cases hpending
  next hlink _ _ _ =>
    cases htakes : linkOnlyFlagTakesValue arg with
    | false =>
      rw [CompilerItem.withValue]
      · exact .linkOnly rest hlink htakes
      · simp
    | true =>
      cases rest with
      | nil => exact .linkMissing hlink htakes
      | cons value rest' => exact .linkValue value rest' hlink htakes
  next hlink hseparate _ _ _ => exact .separateMissing (Bool.eq_false_iff.mpr hlink) hseparate
  next hlink hseparate value rest' _ hemit _ =>
    exact .separate value rest' (Bool.eq_false_iff.mpr hlink) hseparate
      (fun harg hvalue => hemit ⟨harg, congrArg some hvalue⟩)
  next hside hlink hseparate hjoined hconfig _ _ =>
    exact .joined rest (Bool.eq_false_iff.mpr hlink) (Bool.eq_false_iff.mpr hside) hseparate
      (fun harg => by_contra fun hrest => hconfig ⟨harg, hrest⟩) hjoined
  next hside hlink hseparate hjoined hconfig _ _ =>
    exact .plainFlag rest (Bool.eq_false_iff.mpr hlink) (Bool.eq_false_iff.mpr hside) hseparate
      (fun harg => by_contra fun hrest => hconfig ⟨harg, hrest⟩) (Bool.eq_false_iff.mpr hjoined)

theorem isDashed_of {arg : Str} (hsource : ¬ (arg = [] ∨ arg.head? ≠ some '-'))
    (hstdin : arg ≠ "-".toList) : IsDashed arg :=
  ⟨not_not.mp (not_or.mp hsource).2, hstdin⟩

theorem branch_nextCompilerItem (hout : nextCompilerItem arg rest = out)
    (hpending : out.1.pending? = none) : Branch arg rest out.1 out.2 := by
  subst hout
  revert hpending
  fun_cases nextCompilerItem arg rest <;> intro hpending
  next hsource => exact .source rest hsource
  next => cases hpending
  next hsource hstdin _ hremap =>
    obtain ⟨value, rest', rfl⟩ := exists_cons_of_ne_nil hremap.2
    exact .prefixMapValue value rest' (isDashed_of hsource hstdin) hremap.1
  next hsource hstdin hmap hremap =>
    exact .prefixMap rest (isDashed_of hsource hstdin) hmap
      fun harg => by_contra fun hrest => hremap ⟨harg, hrest⟩
  next hsource hstdin _ hdep => exact .dep rest (isDashed_of hsource hstdin) hdep hpending
  next hsource hstdin _ _ hc =>
    exact .phase rest _ (isDashed_of hsource hstdin) (by simp) (by rw [hc]; rfl)
  next hsource hstdin _ _ _ he =>
    exact .phase rest _ (isDashed_of hsource hstdin) (by simp) (by rw [he]; rfl)
  next hsource hstdin _ _ _ _ hs =>
    exact .phase rest _ (isDashed_of hsource hstdin) (by simp) (by rw [hs]; rfl)
  next ho => exact .outputMissing ho
  next hsource hstdin _ _ _ _ _ ho path rest' =>
    exact .output path rest' (isDashed_of hsource hstdin) ho
  next hsource hstdin _ hdep _ _ _ ho hoj =>
    exact .outputJoined rest (isDashed_of hsource hstdin) (Bool.eq_false_iff.mpr hdep) ho hoj
  next hx => exact .languageMissing hx
  next hsource hstdin _ _ _ _ _ _ _ hx value rest' =>
    exact .language value rest' (isDashed_of hsource hstdin) hx
  next hsource hstdin hmap hdep hc _ hs _ hoj hx =>
    refine .late ⟨isDashed_of hsource hstdin, Bool.eq_false_iff.mpr hmap,
      Bool.eq_false_iff.mpr hdep, ?_, by simpa using hoj, hx⟩ (lateBranch rfl hpending)
    simp only [map_cons, map_nil, mem_cons, not_mem_nil, or_false, not_or]
    exact ⟨hc, hs⟩

theorem not_depfile_of_not_isDepFlag (h : isDepFlag arg = false) :
    startsWith arg "-MF".toList = false := by
  simp only [isDepFlag, Bool.or_eq_false_iff] at h
  exact h.1.1.2

theorem not_isLinkOnlyFlag_of_native (h : isNativeTargetFlag arg = true) :
    isLinkOnlyFlag arg = false := by
  have hall : ∀ word ∈ ["-march=native", "-mtune=native", "-mcpu=native"].map String.toList,
      isLinkOnlyFlag word = false := by decide
  exact hall arg (of_decide_eq_true h)

theorem not_isLinkOnlyFlag_of_keyedFile {file : Str} (h : keyedFileFlagValue arg = some file) :
    isLinkOnlyFlag arg = false := by
  obtain ⟨pre, hfind, _⟩ := Option.map_eq_some_iff.mp h
  have hseconds : ∀ pre ∈ keyedFilePrefixes, 1 < pre.length ∧ pre[1]? ∉ linkOnlySeconds := by
    decide
  obtain ⟨hlen, hpre⟩ := hseconds pre (mem_of_find?_eq_some hfind)
  exact not_isLinkOnlyFlag_of_startsWith (find?_some hfind) hlen hpre

theorem turn_of_lateBranch (hlate : IsLate arg) (h : LateBranch arg rest item rest') :
    Turn arg rest item rest' := by
  have ho : arg ≠ "-o".toList := by
    rintro rfl
    exact absurd hlate.output (by decide)
  have hmf := not_depfile_of_not_isDepFlag hlate.dep
  have hkeep : isLinkOnlyFlag arg = false → depScanVerdict false arg = .keep :=
    fun hlink => depScanVerdict_eq_keep_iff.mpr ⟨ho, hmf, hlink⟩
  have hphase : arg ≠ "-c".toList ∧ arg ≠ "-S".toList := by
    simpa using hlate.phase
  have hverdict : depScanVerdict false arg = linkVerdict false arg := by
    have hne : arg ≠ "-MF".toList := by
      rintro rfl
      exact absurd hmf (by decide)
    rw [depScanVerdict, if_neg (not_or.mpr ⟨ho, hne⟩), if_neg (by rw [hmf]; simp)]
  cases h with
  | native rest hnative =>
    exact .flag rfl rfl (hkeep (not_isLinkOnlyFlag_of_native hnative)) rfl (.inr hphase)
  | keyedFile rest file hfile =>
    exact .flag rfl rfl (hkeep (not_isLinkOnlyFlag_of_keyedFile hfile)) rfl (.inr hphase)
  | config value rest' harg =>
    exact .flagValue value rest' rfl (by rw [harg]; rfl) rfl (hkeep (by rw [harg]; decide)) rfl
      hphase
  | emitPch rest' harg =>
    exact .flagValue _ rest' rfl (by rw [harg]; rfl) rfl (hkeep (by rw [harg]; decide)) rfl hphase
  | linkOnly rest hlink htakes =>
    exact .leftOut rfl rfl (.inl (by simp [hverdict, linkVerdict, hlink, htakes])) (.inr hverdict)
  | linkMissing hlink htakes =>
    exact .leftOut rfl rfl (.inr ⟨by simp [hverdict, linkVerdict, hlink, htakes], rfl⟩)
      (.inr hverdict)
  | linkValue value rest' hlink htakes =>
    exact .leftOutValue value rest' rfl rfl rfl (by simp [hverdict, linkVerdict, hlink, htakes])
      (.inr hverdict)
  | separateMissing hlink => exact .flag rfl rfl (hkeep hlink) rfl (.inr hphase)
  | separate value rest' hlink => exact .flagValue value rest' rfl rfl rfl (hkeep hlink) rfl hphase
  | joined _ hlink | plainFlag _ hlink => exact .flag rfl rfl (hkeep hlink) rfl (.inr hphase)

theorem eq_of_isDepFlag (h : isDepFlag arg = true) :
    arg ∈ depFlags ∨ startsWith arg "-MF".toList = true ∨
      startsWith arg "-MT".toList = true ∨ startsWith arg "-MQ".toList = true := by
  simp only [isDepFlag, Bool.or_eq_true, decide_eq_true_eq] at h
  rcases h with ((h | h) | h) | h
  · exact .inl h
  · exact .inr (.inl h)
  · exact .inr (.inr (.inl h))
  · exact .inr (.inr (.inr h))

theorem second_of_isDepFlag (h : isDepFlag arg = true) : arg[1]? = some 'M' := by
  have hall : ∀ word ∈ depFlags, word[1]? = some 'M' := by decide
  rcases eq_of_isDepFlag h with hmem | hstart | hstart | hstart
  · exact hall arg hmem
  all_goals exact startsWith_getElem? hstart (by decide)

theorem turn_ofDepFlag (hdep : isDepFlag arg = true)
    (hout : CompilerItem.ofDepFlag arg rest = out) (hpending : out.1.pending? = none) :
    Turn arg rest out.1 out.2 := by
  have hstarts (hmf : arg ≠ "-MF".toList)
      (hjoined : ¬ (startsWith arg "-MF".toList && 3 < arg.length) = true) :
      startsWith arg "-MF".toList = false := by
    by_contra hstart
    simp only [Bool.not_eq_false] at hstart
    obtain ⟨path, rfl⟩ := startsWith_iff.mp hstart
    cases path with
    | nil => exact hmf (append_nil _)
    | cons c path => simp [startsWith] at hjoined
  subst hout
  revert hpending
  fun_cases CompilerItem.ofDepFlag arg rest <;> intro hpending
  next hmd =>
    refine .flag rfl rfl ?_ rfl (.inl rfl)
    rcases hmd with rfl | rfl <;> decide
  next hm =>
    refine .flag rfl rfl ?_ rfl (.inl rfl)
    rcases hm with rfl | rfl <;> decide
  next hmf =>
    exact .leftOut (by rw [hmf]; rfl) rfl (.inr ⟨by rw [hmf]; decide, rfl⟩) (.inl rfl)
  next hmf path rest' =>
    exact .leftOutValue path rest' rfl (by rw [hmf]; rfl) rfl (by rw [hmf]; decide) (.inl rfl)
  next hmf hjoined =>
    have hverdict : depScanVerdict false arg = .drop := by
      have ho : arg ≠ "-o".toList := by
        rintro rfl
        exact absurd hjoined (by decide)
      rw [depScanVerdict, if_neg (not_or.mpr ⟨ho, hmf⟩), if_pos hjoined]
    obtain ⟨path, hpath⟩ := startsWith_iff.mp (Bool.and_eq_true_iff.mp hjoined).1
    exact .leftOut (by rw [hpath]; rfl) rfl (.inl hverdict) (.inl rfl)
  next hmt =>
    refine .flag rfl rfl ?_ rfl (.inl rfl)
    rcases hmt with rfl | rfl <;> decide
  next hmt value rest' =>
    refine .flagValue value rest' rfl rfl rfl ?_ rfl ?_
    · rcases hmt with rfl | rfl <;> decide
    · rcases hmt with rfl | rfl <;> decide
  next hmf hjoined _ hmtj =>
    refine .flag rfl rfl (depScanVerdict_eq_keep_iff.mpr ⟨?_, hstarts hmf hjoined, ?_⟩) rfl
      (.inl rfl)
    · rintro rfl
      exact absurd hmtj (by decide)
    · rcases Bool.or_eq_true_iff.mp hmtj with hstart | hstart
      · exact not_isLinkOnlyFlag_of_startsWith hstart (by decide) (by decide)
      · exact not_isLinkOnlyFlag_of_startsWith hstart (by decide) (by decide)
  next => cases hpending
  next hmd hm hmf hjoined hmt hmtj hmg =>
    simp only [Bool.or_eq_true, not_or] at hmtj
    have hmp : arg = "-MP".toList := by
      rcases eq_of_isDepFlag hdep with hmem | hstart | hstart | hstart
      · simp only [depFlags, map_cons, map_nil, mem_cons, not_mem_nil, or_false] at hmem
        tauto
      · rw [hstarts hmf hjoined] at hstart
        cases hstart
      · exact absurd hstart hmtj.1
      · exact absurd hstart hmtj.2
    exact .flag (by rw [hmp]; rfl) rfl (by rw [hmp]; decide) rfl (.inl rfl)

theorem startsWith_of_isPrefixMapFlag (h : isPrefixMapFlag arg = true) :
    ∃ pre ∈ remapPathPrefix :: prefixMapPrefixes, startsWith arg pre = true := by
  simp only [isPrefixMapFlag, Bool.or_eq_true, any_eq_true, beq_iff_eq] at h
  rcases h with ⟨pre, hpre, hstart⟩ | rfl
  · exact ⟨pre, mem_cons_of_mem _ hpre, hstart⟩
  · exact ⟨_, mem_cons_self, by decide⟩

theorem verdict_of_isPrefixMapFlag (h : isPrefixMapFlag arg = true) :
    depScanVerdict false arg = .keep ∧ arg ≠ "-c".toList ∧ arg ≠ "-S".toList := by
  obtain ⟨pre, hpre, hstart⟩ := startsWith_of_isPrefixMapFlag h
  have hseconds : ∀ pre ∈ remapPathPrefix :: prefixMapPrefixes, 1 < pre.length ∧
      pre[1]? ∉ linkOnlySeconds ∧ pre[1]? ∉ "oMcS".toList.map some := by decide
  obtain ⟨hlen, hlink, hother⟩ := hseconds pre hpre
  rw [← startsWith_getElem? hstart hlen] at hother
  refine ⟨depScanVerdict_eq_keep_iff.mpr ⟨?_, ?_, ?_⟩, ?_, ?_⟩
  · rintro rfl
    exact hother (by decide)
  · by_contra hmf
    rw [startsWith_getElem? (by simpa using hmf : startsWith arg "-MF".toList = true)
      (by decide : 1 < "-MF".toList.length)] at hother
    exact hother (by decide)
  · exact not_isLinkOnlyFlag_of_startsWith hstart hlen hlink
  · rintro rfl
    exact hother (by decide)
  · rintro rfl
    exact hother (by decide)

theorem turn_of_branch (h : Branch arg rest item rest') : Turn arg rest item rest' := by
  cases h with
  | source _ hsource =>
    have hdash : arg[0]? ≠ some '-' := by
      rcases hsource with rfl | hhead
      · simp
      · rwa [← head?_eq_getElem?]
    exact .flag rfl rfl (depScanVerdict_of_no_dash hdash) rfl (.inl rfl)
  | prefixMapValue value rest' _ harg =>
    obtain ⟨hkeep, hphase⟩ := verdict_of_isPrefixMapFlag (show isPrefixMapFlag arg = true by
      simp [isPrefixMapFlag, harg])
    exact .flagValue value rest' rfl rfl rfl hkeep rfl hphase
  | prefixMap _ _ hmap =>
    exact .flag rfl rfl (verdict_of_isPrefixMapFlag hmap).1 rfl (.inl rfl)
  | dep _ _ hdep hpending => exact turn_ofDepFlag hdep rfl hpending
  | phase _ _ _ hitem hwords =>
    simp only [mem_cons, not_mem_nil, or_false] at hitem
    rcases hitem with rfl | rfl | rfl <;> obtain rfl := singleton_inj.mp hwords
    · exact .flag rfl rfl (by decide) rfl (.inl rfl)
    · exact .flag rfl rfl (by decide) rfl (.inr (by decide))
    · exact .flag rfl rfl (by decide) rfl (.inl rfl)
  | outputMissing harg =>
    subst harg
    exact .leftOut rfl rfl (.inr ⟨by decide, rfl⟩) (.inl rfl)
  | output path rest' _ harg =>
    subst harg
    exact .leftOutValue path rest' rfl rfl rfl (by decide) (.inl rfl)
  | outputJoined _ _ hdep ho hoj =>
    obtain ⟨path, hpath⟩ := startsWith_iff.mp hoj
    exact .flag (by rw [hpath]; rfl) rfl (depScanVerdict_eq_keep_iff.mpr ⟨ho,
      not_depfile_of_not_isDepFlag hdep,
      not_isLinkOnlyFlag_of_startsWith hoj (by decide) (by decide)⟩) rfl (.inl rfl)
  | languageMissing harg =>
    subst harg
    exact .flag rfl rfl (by decide) rfl (.inl rfl)
  | language value rest' _ harg =>
    subst harg
    exact .flagValue value rest' rfl rfl rfl (by decide) rfl (by decide)
  | late hlate h => exact turn_of_lateBranch hlate h

end Turns

end Vcache

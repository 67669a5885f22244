import Vcache.Blob
import Vcache.DepRoundTrip
import Vcache.RootText
import Vcache.WorkingDirectory

/-!
# Replaying a dependency file

A compile that asks for a dependency file stores it with the paths canonicalised,
and a hit writes it again with local paths (`RunCompile`, `MaterializeHit`). The
flags that ask for it, `-MD` and `-MMD`, are in no key, so an entry may serve a
command that wants other prerequisites listed than the one that stored it.
-/

namespace Vcache

open List Option

variable {flag : String} {omitsSystem : Bool}

def DepFile.prerequisites (dep : DepFile) : List Str := dep.rules.flatMap DepRule.prerequisites

/-! ## Storing and serving -/

def CompilerArgs.asksForDepfile (parsed : CompilerArgs) : Bool :=
  parsed.generatesDeps && parsed.depfile != []

/-- The dependency file as it is stored; `none` when it does not parse. -/
def canonicalDepfile (roots : RootMap) (text : Str) : Option Str :=
  (parseDepFile text).map (fun dep =>
    renderDepFile (remapDepFile roots .canonicalize [] (fun _ => none) dep))

/-- The entry a successful compile stores, given what it wrote. -/
def storedBlob (roots : RootMap) (parsed : CompilerArgs) (object stderrData metaText : Str)
    (depfile : Option Str) : Option Blob :=
  let canonical :=
    if parsed.asksForDepfile then depfile.bind (canonicalDepfile roots) else none
  if parsed.asksForDepfile ∧ canonical = none then none
  else some
    { object, metaText
      depfile := canonical.getD []
      hasDepfile := canonical.isSome
      stderrText := roots.canonicalizeText stderrData }

/-- The rules of this build's object name this build's output. -/
def retarget (parsed : CompilerArgs) (dep : DepFile) : DepFile :=
  if parsed.depTargetExplicit then dep
  else { dep with rules := dep.rules.map (fun rule =>
    if rule.prerequisites = [] then rule else { rule with targets := [parsed.output] }) }

/-- The files a hit writes: the object, and the dependency file as `RenderDepFile` is given
it. -/
structure Restored where
  object : Str
  depfile : Option DepFile

def materializeHit (roots : RootMap) (blob : Blob) (parsed : CompilerArgs) : Option Restored :=
  if parsed.asksForDepfile && blob.hasDepfile then
    (parseDepFile blob.depfile).map (fun dep =>
      ⟨blob.object, some (retarget parsed
        (remapDepFile roots .localize [] (fun _ => none) dep))⟩)
  else some ⟨blob.object, none⟩

/-- `try_hit`: an entry without a dependency file does not serve a command that wants one. -/
def tryHit (roots : RootMap) (blob : Blob) (parsed : CompilerArgs) : Option Restored :=
  if parsed.asksForDepfile && !blob.hasDepfile then none else materializeHit roots blob parsed

/-! ## What a compiler writes -/

structure DepReads where
  source : Str
  headers : List Str
  isSystem : Str → Bool

def DepReads.listed (reads : DepReads) (omitsSystem : Bool) : List Str :=
  reads.source :: reads.headers.filter (fun header => !(omitsSystem && reads.isSystem header))

/-- A compiler with the documented dependency flags: `-MD` lists every header and `-MMD`
leaves out the system headers. -/
structure DepCompiler where
  omitsSystem : List Str → Bool
  depfile : CompilerArgs → DepReads → Str
  omitsSystem_md : ∀ args, "-MD".toList ∈ args → "-MMD".toList ∉ args → omitsSystem args = false
  omitsSystem_mmd : ∀ args, "-MMD".toList ∈ args → "-MD".toList ∉ args → omitsSystem args = true

/-- The file written for a command is a dependency file of what the command lists. -/
def DepCompiler.Writes (compiler : DepCompiler) (parsed : CompilerArgs) (reads : DepReads) :
    Prop :=
  ∃ dep, parseDepFile (compiler.depfile parsed reads) = some dep ∧ dep.envDeps = [] ∧
    ∀ path, path ∈ dep.prerequisites ↔ path ∈ reads.listed (compiler.omitsSystem parsed.depArgs)

def listedIn (text : Str) : List Str :=
  ((parseDepFile text).map DepFile.prerequisites).getD []

/-- Whatever a hit for `Q` writes from the entry `P` stored lists what `Q`'s own compile
lists. -/
def ReplaysDepfile (compiler : DepCompiler) (roots : RootMap) (P Q : CompilerArgs)
    (reads : DepReads) : Prop :=
  ∀ object stderrData metaText blob restored dep,
    storedBlob roots P object stderrData metaText (some (compiler.depfile P reads)) = some blob →
    tryHit roots blob Q = some restored → restored.depfile = some dep →
    ∀ path, path ∈ dep.prerequisites ↔ path ∈ listedIn (compiler.depfile Q reads)

/-! ## Paths through the entry -/

def LineRoots (roots : RootMap) : Prop := ∀ r ∈ roots.roots, LineToken r.canonical

theorem LineRoots.canonicalize {roots : RootMap} (hroots : LineRoots roots) {path : Str}
    (h : LineToken path) : LineToken (roots.canonicalize path) := by
  rw [RootMap.canonicalize]
  split
  · exact h
  · rename_i r hr
    obtain ⟨hne, hline⟩ := hroots r (RootMap.rootOf_eq_some hr).1
    refine ⟨append_ne_nil_of_left_ne_nil hne _, fun c hc => ?_⟩
    rcases mem_append.mp hc with hc | hc
    · exact hline c hc
    · exact h.2 c (mem_of_mem_drop hc)

theorem LineRoots.canonicalizeRule {roots : RootMap} (hroots : LineRoots roots) {rule : DepRule}
    (h : LineRule rule) : LineRule (remapDepRule roots.canonicalize rule) := by
  have htokens : ∀ tokens : List Str, (∀ t ∈ tokens, LineToken t) →
      ∀ t ∈ tokens.map roots.canonicalize, LineToken t := by
    intro tokens htokens t ht
    obtain ⟨u, hu, rfl⟩ := mem_map.mp ht
    exact hroots.canonicalize (htokens u hu)
  obtain ⟨hne, htargets, hprereqs⟩ := h
  exact ⟨by simpa [remapDepRule] using hne, htokens _ htargets, htokens _ hprereqs⟩

/-- The file a compile wrote has a colon in a path once the paths are canonical. -/
def ColonStored (roots : RootMap) (dep : DepFile) : Prop :=
  ∃ rule ∈ dep.rules, ∃ token ∈ rule.targets ++ rule.prerequisites,
    ':' ∈ roots.canonicalize token

section Replay

variable {roots : RootMap} {text : Str} {dep : DepFile}

/-- The stored file is read back unless a colon got in its way. -/
theorem parseDepFile_canonicalDepfile (hroots : LineRoots roots)
    (hparse : parseDepFile text = some dep) (henvs : dep.envDeps = []) :
    ∃ stored, canonicalDepfile roots text = some stored ∧
      (ColonStored roots dep → parseDepFile stored = none) ∧
      (¬ ColonStored roots dep →
        parseDepFile stored = some ⟨dep.rules.map (remapDepRule roots.canonicalize), []⟩) := by
  have hmapped : remapDepFile roots .canonicalize [] (fun _ => none) dep =
      ⟨dep.rules.map (remapDepRule roots.canonicalize), []⟩ := by
    rw [remapDepFile, henvs]
    rfl
  have hline : ∀ rule ∈ dep.rules.map (remapDepRule roots.canonicalize), LineRule rule := by
    intro rule hrule
    obtain ⟨original, horiginal, rfl⟩ := mem_map.mp hrule
    exact hroots.canonicalizeRule (lineRule_of_parseDepFile hparse original horiginal)
  have htokens : ∀ rule : DepRule, (remapDepRule roots.canonicalize rule).targets ++
      (remapDepRule roots.canonicalize rule).prerequisites =
        (rule.targets ++ rule.prerequisites).map roots.canonicalize := fun rule =>
    map_append.symm
  refine ⟨_, by rw [canonicalDepfile, hparse, map_some, hmapped], ?_, ?_⟩
  · rintro ⟨rule, hrule, token, htoken, hcolon⟩
    have hmapped := mem_map_of_mem (f := roots.canonicalize) htoken
    rw [← htokens] at hmapped
    exact parseDepFile_render_colon hline (fun env henv => absurd henv not_mem_nil)
      (mem_map_of_mem hrule) hmapped hcolon
  · intro hcolon
    refine parseDepFile_renderDepFile (fun rule hrule => ?_)
      (fun env henv => absurd henv not_mem_nil)
    obtain ⟨hne, htargets, hprereqs⟩ := hline rule hrule
    obtain ⟨original, horiginal, rfl⟩ := mem_map.mp hrule
    have hplain : ∀ token ∈ (remapDepRule roots.canonicalize original).targets ++
        (remapDepRule roots.canonicalize original).prerequisites, ':' ∉ token := by
      intro token htoken hmem
      rw [htokens] at htoken
      obtain ⟨u, hu, rfl⟩ := mem_map.mp htoken
      exact hcolon ⟨original, horiginal, u, hu, hmem⟩
    exact ⟨hne, fun t ht => ⟨htargets t ht, hplain t (mem_append_left _ ht)⟩,
      fun p hp => ⟨hprereqs p hp, hplain p (mem_append_right _ hp)⟩⟩

theorem prerequisites_retarget (parsed : CompilerArgs) (dep : DepFile) :
    (retarget parsed dep).prerequisites = dep.prerequisites := by
  rw [retarget]
  split
  · rfl
  · simp only [DepFile.prerequisites, flatMap_map]
    congr 1
    funext rule
    split <;> rfl

theorem prerequisites_remap (map : Str → Str) (rules : List DepRule) :
    (DepFile.mk (rules.map (remapDepRule map)) []).prerequisites =
      (DepFile.mk rules []).prerequisites.map map := by
  simp [DepFile.prerequisites, flatMap_map, map_flatMap, remapDepRule]

/-- What a hit writes from the entry the compile of `text` stored: nothing when a colon is in
the way, and otherwise the prerequisites there and back through the roots. -/
theorem tryHit_storedBlob (hroots : LineRoots roots) (hparse : parseDepFile text = some dep)
    (henvs : dep.envDeps = []) {P Q : CompilerArgs} (hP : P.asksForDepfile = true)
    (hQ : Q.asksForDepfile = true) (object stderrData metaText : Str) :
    ∃ blob, storedBlob roots P object stderrData metaText (some text) = some blob ∧
      (ColonStored roots dep → tryHit roots blob Q = none) ∧
      (¬ ColonStored roots dep → ∃ written, tryHit roots blob Q = some ⟨object, some written⟩ ∧
        written.prerequisites =
          dep.prerequisites.map (fun path => roots.localize (roots.canonicalize path))) := by
  obtain ⟨stored, hstored, hcolon, hread⟩ := parseDepFile_canonicalDepfile hroots hparse henvs
  have hblob : storedBlob roots P object stderrData metaText (some text) = some
      { object, metaText, depfile := stored, hasDepfile := true
        stderrText := roots.canonicalizeText stderrData } := by
    simp [storedBlob, hP, hstored]
  refine ⟨_, hblob, fun h => ?_, fun h => ⟨retarget Q (remapDepFile roots .localize []
    (fun _ => none) ⟨dep.rules.map (remapDepRule roots.canonicalize), []⟩), ?_, ?_⟩⟩
  · simp [tryHit, materializeHit, hQ, hcolon h]
  · simp [tryHit, materializeHit, hQ, hread h]
  · rw [prerequisites_retarget]
    change (DepFile.mk ((dep.rules.map (remapDepRule roots.canonicalize)).map
      (remapDepRule roots.localize)) []).prerequisites = _
    rw [prerequisites_remap, prerequisites_remap, List.map_map]
    rfl

end Replay

/-! ## Which commands can share an entry -/

theorem DepReads.listed_eq_iff (reads : DepReads) (omits omits' : Bool) :
    (∀ path, path ∈ reads.listed omits ↔ path ∈ reads.listed omits') ↔
      omits = omits' ∨
        ∀ header ∈ reads.headers, reads.isSystem header = true → header = reads.source := by
  have hmem : ∀ omits path, path ∈ reads.listed omits ↔ path = reads.source ∨
      (path ∈ reads.headers ∧ ¬ (omits = true ∧ reads.isSystem path = true)) := by
    intro omits path
    cases omits <;> simp [DepReads.listed]
  constructor
  · intro h
    by_cases hsame : omits = omits'
    · exact .inl hsame
    · refine .inr (fun header hheader hsystem => ?_)
      have hheader' := h header
      rw [hmem, hmem] at hheader'
      -- One of the two lists every header, the other leaves this one out.
      cases omits <;> cases omits' <;> simp_all
  · rintro (rfl | hsystem) path
    · exact Iff.rfl
    · rw [hmem, hmem]
      constructor
      · rintro (hsource | ⟨hheader, -⟩)
        · exact .inl hsource
        · by_cases h : reads.isSystem path = true
          · exact .inl (hsystem path hheader h)
          · exact .inr ⟨hheader, fun hboth => h hboth.2⟩
      · rintro (hsource | ⟨hheader, -⟩)
        · exact .inl hsource
        · by_cases h : reads.isSystem path = true
          · exact .inl (hsystem path hheader h)
          · exact .inr ⟨hheader, fun hboth => h hboth.2⟩

section Commands

variable {compiler : DepCompiler} {roots : RootMap} {P Q : CompilerArgs} {reads : DepReads}

/-- A colon keeps the entry `P` stored from being read back. -/
def LosesDepfile (compiler : DepCompiler) (roots : RootMap) (P : CompilerArgs)
    (reads : DepReads) : Prop :=
  ∃ dep, parseDepFile (compiler.depfile P reads) = some dep ∧ ColonStored roots dep

theorem mem_listedIn (hwrites : compiler.Writes Q reads) (path : Str) :
    path ∈ listedIn (compiler.depfile Q reads) ↔
      path ∈ reads.listed (compiler.omitsSystem Q.depArgs) := by
  obtain ⟨dep, hparse, -, hlisted⟩ := hwrites
  rw [listedIn, hparse, map_some, getD_some]
  exact hlisted path

theorem replaysDepfile_iff_listed (hroots : LineRoots roots) (hP : P.asksForDepfile = true)
    (hQ : Q.asksForDepfile = true) (hwritesP : compiler.Writes P reads)
    (hwritesQ : compiler.Writes Q reads) :
    ReplaysDepfile compiler roots P Q reads ↔ LosesDepfile compiler roots P reads ∨
      ∀ path, (∃ listed ∈ reads.listed (compiler.omitsSystem P.depArgs),
          roots.localize (roots.canonicalize listed) = path) ↔
        path ∈ reads.listed (compiler.omitsSystem Q.depArgs) := by
  obtain ⟨dep, hparse, henvs, hlisted⟩ := hwritesP
  have hloses : LosesDepfile compiler roots P reads ↔ ColonStored roots dep := by
    constructor
    · rintro ⟨other, hother, hcolon⟩
      cases hparse.symm.trans hother
      exact hcolon
    · exact fun hcolon => ⟨dep, hparse, hcolon⟩
  have hwritten : ∀ path, path ∈ dep.prerequisites.map
      (fun listed => roots.localize (roots.canonicalize listed)) ↔
        ∃ listed ∈ reads.listed (compiler.omitsSystem P.depArgs),
          roots.localize (roots.canonicalize listed) = path := by
    intro path
    rw [List.mem_map]
    exact exists_congr (fun listed => and_congr_left (fun _ => hlisted listed))
  rw [hloses]
  constructor
  · intro h
    by_cases hcolon : ColonStored roots dep
    · exact .inl hcolon
    · refine .inr (fun path => ?_)
      obtain ⟨blob, hblob, -, hserved⟩ := tryHit_storedBlob hroots hparse henvs hP hQ [] [] []
      obtain ⟨written, hhit, hprereqs⟩ := hserved hcolon
      rw [← hwritten, ← hprereqs, ← mem_listedIn hwritesQ]
      exact h [] [] [] blob _ written hblob hhit rfl path
  · intro h object stderrData metaText blob restored written hblob hhit hdepfile path
    obtain ⟨blob', hblob', hlost, hserved⟩ :=
      tryHit_storedBlob hroots hparse henvs hP hQ object stderrData metaText
    cases hblob.symm.trans hblob'
    by_cases hcolon : ColonStored roots dep
    · rw [hlost hcolon] at hhit
      cases hhit
    · obtain ⟨written', hhit', hprereqs⟩ := hserved hcolon
      cases hhit.symm.trans hhit'
      cases hdepfile
      rw [hprereqs, hwritten, mem_listedIn hwritesQ]
      exact h.resolve_left hcolon path

def CompilerArgs.OneDepFlag (parsed : CompilerArgs) : Prop :=
  "-MD".toList ∈ parsed.depArgs ↔ "-MMD".toList ∉ parsed.depArgs

theorem DepCompiler.omitsSystem_iff (compiler : DepCompiler) (h : P.OneDepFlag) :
    compiler.omitsSystem P.depArgs = true ↔ "-MMD".toList ∈ P.depArgs := by
  by_cases hmmd : "-MMD".toList ∈ P.depArgs
  · have hmd : "-MD".toList ∉ P.depArgs := fun hmd => h.mp hmd hmmd
    exact iff_of_true (compiler.omitsSystem_mmd _ hmmd hmd) hmmd
  · refine iff_of_false (fun homits => ?_) hmmd
    rw [compiler.omitsSystem_md _ (h.mpr hmmd) hmmd] at homits
    cases homits

/-- A command is owed the prerequisites of the one that stored the entry exactly when its flags
ask for the same ones, as long as the paths come back from the entry. -/
theorem replaysDepfile_iff (hroots : LineRoots roots) (hP : P.asksForDepfile = true)
    (hQ : Q.asksForDepfile = true) (hwritesP : compiler.Writes P reads)
    (hwritesQ : compiler.Writes Q reads) :
    (ReplaysDepfile compiler roots P Q reads ↔ LosesDepfile compiler roots P reads ∨
      ∀ path, (∃ listed ∈ reads.listed (compiler.omitsSystem P.depArgs),
          roots.localize (roots.canonicalize listed) = path) ↔
        path ∈ reads.listed (compiler.omitsSystem Q.depArgs)) ∧
    ((∀ path ∈ reads.listed (compiler.omitsSystem P.depArgs),
        roots.localize (roots.canonicalize path) = path) →
      ¬ LosesDepfile compiler roots P reads →
      (ReplaysDepfile compiler roots P Q reads ↔
        compiler.omitsSystem P.depArgs = compiler.omitsSystem Q.depArgs ∨
          ∀ header ∈ reads.headers, reads.isSystem header = true → header = reads.source)) ∧
    (P.OneDepFlag → Q.OneDepFlag →
      (compiler.omitsSystem P.depArgs = compiler.omitsSystem Q.depArgs ↔
        ("-MMD".toList ∈ P.depArgs ↔ "-MMD".toList ∈ Q.depArgs))) := by
  have hlisted := replaysDepfile_iff_listed hroots hP hQ hwritesP hwritesQ
  refine ⟨hlisted, fun hback hkept => ?_, fun hflagP hflagQ => ?_⟩
  · rw [hlisted, or_iff_right hkept, ← DepReads.listed_eq_iff]
    refine forall_congr' (fun path => iff_congr ?_ Iff.rfl)
    constructor
    · rintro ⟨listed, hmem, rfl⟩
      rwa [hback listed hmem]
    · exact fun hmem => ⟨path, hmem, hback path hmem⟩
  · rw [Bool.eq_iff_iff, compiler.omitsSystem_iff hflagP, compiler.omitsSystem_iff hflagQ]

end Commands

/-! ## One flag and the other -/

def depCompile (flag : String) : Compile where
  world := ⟨hostIn "/w", fun _ => none, fun _ => none, []⟩
  compilerId := ⟨"gcc".toList, false⟩
  nativeTarget := []
  preprocess _ := some plainText
  rawArgv := ["gcc", "-c", flag, "a.c"].map String.toList

def depParsed (flag : String) : CompilerArgs where
  argv := ["gcc", "-c", flag, "a.c"].map String.toList
  compiler := "gcc".toList
  source := "a.c".toList
  output := "a.o".toList
  language := .c
  compileOnly := true
  generatesDeps := true
  depfile := "a.d".toList
  keyArgs := ["--vcache-lang=c".toList]
  depArgs := [flag.toList]

theorem depCompile_md_parsed : (depCompile "-MD").parsed = depParsed "-MD" := by
  decide +kernel

theorem depCompile_mmd_parsed : (depCompile "-MMD").parsed = depParsed "-MMD" := by
  decide +kernel

/-- gcc as far as the two flags go; `-MMD` counts wherever it stands. -/
def gccDeps : DepCompiler where
  omitsSystem args := decide ("-MMD".toList ∈ args)
  depfile parsed reads := renderDepFile
    ⟨[⟨[parsed.output], reads.listed (decide ("-MMD".toList ∈ parsed.depArgs))⟩], []⟩
  omitsSystem_md _ _ h := decide_eq_false h
  omitsSystem_mmd _ h _ := decide_eq_true h

/-- `a.c` includes one header of its own and one of the system. -/
def stdioReads : DepReads where
  source := "a.c".toList
  headers := ["a.h".toList, "/usr/include/stdio.h".toList]
  isSystem header := startsWith header "/usr/".toList

def depKeyInput (flag : String) : KeyInput :=
  ⟨Digest.ofContents, {}, (depCompile flag).world, ⟨"gcc".toList, false⟩, [],
    buildRootMap {} (hostIn "/w"), depParsed flag⟩

theorem depCompile_key (hparsed : (depCompile flag).parsed = depParsed flag) :
    (depCompile flag).key Digest.ofContents {} = some
      ⟨delimitedStream [kCacheKeyVersion, "gcc".toList, [], "object".toList,
        (buildRootMap {} (hostIn "/w")).fingerprint, "--vcache-lang=c".toList] ++ plainText,
        false, none⟩ := by
  have hkey : (depCompile flag).key Digest.ofContents {} =
      (depKeyInput flag).computeKey plainText := by
    rw [Compile.key, Compile.keyInput, hparsed]
    exact bind_some ..
  have htext : normalizePreprocessed (depKeyInput flag).roots plainText =
      some ⟨plainText, false, []⟩ :=
    normalizePreprocessed_plainText (show (buildRootMap {} (hostIn "/w")).canonicalize
      "a.c".toList = "a.c".toList by decide)
  have hargs : (depKeyInput flag).argPieces = ["--vcache-lang=c".toList] := by
    change [(buildRootMap {} (hostIn "/w")).canonicalize "--vcache-lang=c".toList] = _
    decide
  have hfiles : (depKeyInput flag).parsed.keyFiles = [] := rfl
  have hpch : (depKeyInput flag).parsed.producesPch = false := rfl
  have htail : (depKeyInput flag).tailPieces [] = [] := rfl
  have hhead : (depKeyInput flag).headPieces = [kCacheKeyVersion, "gcc".toList, [],
      "object".toList, (buildRootMap {} (hostIn "/w")).fingerprint] := rfl
  rw [hkey]
  simp [KeyInput.computeKey, hfiles, htext, hpch, htail, KeyInput.placedPieces,
    KeyInput.pchPieces, hargs, hhead, KeyInput.consumedPieces, delimitedStream]

def stdioDepFile (omitsSystem : Bool) : DepFile :=
  ⟨[⟨["a.o".toList], stdioReads.listed omitsSystem⟩], []⟩

theorem parseDepFile_gccDeps
    (hflag : gccDeps.omitsSystem (depParsed flag).depArgs = omitsSystem) :
    parseDepFile (gccDeps.depfile (depParsed flag) stdioReads) =
      some (stdioDepFile omitsSystem) := by
  have htext : gccDeps.depfile (depParsed flag) stdioReads =
      renderDepFile (stdioDepFile (gccDeps.omitsSystem (depParsed flag).depArgs)) := rfl
  rw [htext, hflag]
  cases omitsSystem <;> decide

theorem gccDeps_writes
    (hflag : gccDeps.omitsSystem (depParsed flag).depArgs = omitsSystem) :
    gccDeps.Writes (depParsed flag) stdioReads := by
  refine ⟨_, parseDepFile_gccDeps hflag, rfl, fun path => ?_⟩
  rw [hflag, DepFile.prerequisites, stdioDepFile, flatMap_singleton]

theorem gccDeps_keeps
    (hflag : gccDeps.omitsSystem (depParsed flag).depArgs = omitsSystem) :
    ¬ LosesDepfile gccDeps (buildRootMap {} (hostIn "/w")) (depParsed flag) stdioReads := by
  rintro ⟨dep, hparse, hcolon⟩
  rw [parseDepFile_gccDeps hflag] at hparse
  cases hparse
  revert hcolon
  simp only [ColonStored]
  cases omitsSystem <;> decide

theorem lineRoots_hostIn : LineRoots (buildRootMap {} (hostIn "/w")) := by
  have hroots : (buildRootMap {} (hostIn "/w")).roots = [⟨['/', 'w'], "/vcache/cwd".toList⟩] := by
    decide +kernel
  intro r hr
  rw [hroots, mem_singleton] at hr
  rw [hr]
  simp [LineToken, lineBreaks]

/-- Both commands ask for every header. -/
theorem replaysDepfile_md_md :
    ReplaysDepfile gccDeps (buildRootMap {} (hostIn "/w")) (depParsed "-MD") (depParsed "-MD")
      stdioReads := by
  have hflag : gccDeps.omitsSystem (depParsed "-MD").depArgs = false := by decide
  have hback : ∀ path ∈ stdioReads.listed false, (buildRootMap {} (hostIn "/w")).localize
      ((buildRootMap {} (hostIn "/w")).canonicalize path) = path := by decide
  have hiff := replaysDepfile_iff lineRoots_hostIn (P := depParsed "-MD") (Q := depParsed "-MD")
    rfl rfl (gccDeps_writes hflag) (gccDeps_writes hflag)
  exact (hiff.2.1 (hflag ▸ hback) (gccDeps_keeps hflag)).mpr (.inl rfl)

/-- One key, and the second command is not told that it reads `stdio.h`. -/
theorem not_replaysDepfile_mmd_md :
    let P := depCompile "-MMD"
    let Q := depCompile "-MD"
    (∃ k, P.key Digest.ofContents {} = some k ∧ Q.key Digest.ofContents {} = some k) ∧
      P.roots {} = Q.roots {} ∧ P.parsed.Cacheable ∧ Q.parsed.Cacheable ∧
      P.parsed.asksForDepfile = true ∧ Q.parsed.asksForDepfile = true ∧
      gccDeps.Writes P.parsed stdioReads ∧ gccDeps.Writes Q.parsed stdioReads ∧
      ¬ ReplaysDepfile gccDeps (P.roots {}) P.parsed Q.parsed stdioReads := by
  intro P Q
  have hP : P.parsed = depParsed "-MMD" := depCompile_mmd_parsed
  have hQ : Q.parsed = depParsed "-MD" := depCompile_md_parsed
  have hflagP : gccDeps.omitsSystem (depParsed "-MMD").depArgs = true := by decide
  have hflagQ : gccDeps.omitsSystem (depParsed "-MD").depArgs = false := by decide
  refine ⟨⟨_, depCompile_key hP, depCompile_key hQ⟩, rfl, ?_⟩
  rw [hP, hQ]
  refine ⟨rfl, rfl, rfl, rfl, gccDeps_writes hflagP, gccDeps_writes hflagQ, fun hreplays => ?_⟩
  have hlisted := (replaysDepfile_iff_listed lineRoots_hostIn (P := depParsed "-MMD")
    (Q := depParsed "-MD") rfl rfl (gccDeps_writes hflagP) (gccDeps_writes hflagQ)).mp hreplays
  have hstdio := hlisted.resolve_left (gccDeps_keeps hflagP) "/usr/include/stdio.h".toList
  rw [hflagP, hflagQ] at hstdio
  revert hstdio
  decide

/-! ## Dependency scans -/

/-- What `-M` gives its caller; the rules go to the standard output if `place` is empty. -/
structure ScanAnswer where
  place : Str
  dep : DepFile
  stderrText : Str
  exitCode : ℕ
deriving DecidableEq

/-- `RunDepScan` behind a scan that succeeded: the answer, and the entry that is stored. -/
def scanMiss (roots : RootMap) (parsed : CompilerArgs) (text stderrData metaText : Str) :
    Option (ScanAnswer × Blob) :=
  (parseDepFile text).map (fun dep => (⟨parsed.depfile, dep, stderrData, 0⟩,
    { metaText, hasDepfile := true
      depfile := renderDepFile (remapDepFile roots .canonicalize [] (fun _ => none) dep)
      stderrText := roots.canonicalizeText stderrData }))

/-- `RunDepScan` on a hit; it does not replay the diagnostics. -/
def scanHit (roots : RootMap) (parsed : CompilerArgs) (blob : Blob) : Option ScanAnswer :=
  if blob.hasDepfile then (parseDepFile blob.depfile).map (fun dep =>
    ⟨parsed.depfile, remapDepFile roots .localize [] (fun _ => none) dep, [], 0⟩)
  else none

theorem map_remapDepRule_eq_iff {f g : Str → Str} {rules : List DepRule} :
    (rules.map (remapDepRule g)).map (remapDepRule f) = rules ↔
      ∀ rule ∈ rules, ∀ token ∈ rule.targets ++ rule.prerequisites, f (g token) = token := by
  have hfixed {α : Type} (h : α → α) (as : List α) : as.map h = as ↔ ∀ a ∈ as, h a = a := by
    simpa using map_inj_left (l := as) (f := h) (g := id)
  rw [List.map_map, hfixed]
  refine forall₂_congr (fun rule _ => ?_)
  cases rule
  simp only [Function.comp_apply, remapDepRule, List.map_map, DepRule.mk.injEq, hfixed,
    forall_mem_append]

/-- A hit gives what the scan gave exactly when the scan wrote nothing on standard error and its
paths come back from the entry. -/
theorem scanHit_eq_iff {roots : RootMap} {parsed : CompilerArgs} {text stderrData metaText : Str}
    {answer served : ScanAnswer} {blob : Blob} (hroots : LineRoots roots)
    (hmiss : scanMiss roots parsed text stderrData metaText = some (answer, blob))
    (henvs : answer.dep.envDeps = []) (hhit : scanHit roots parsed blob = some served) :
    served = answer ↔ answer.stderrText = [] ∧
      ∀ rule ∈ answer.dep.rules, ∀ token ∈ rule.targets ++ rule.prerequisites,
        roots.localize (roots.canonicalize token) = token := by
  obtain ⟨dep, hparse, ⟨⟩⟩ := Option.map_eq_some_iff.mp hmiss
  obtain ⟨stored, hstored, hcolon, hread⟩ := parseDepFile_canonicalDepfile hroots hparse henvs
  rw [canonicalDepfile, hparse] at hstored
  cases hstored
  have hkept : ¬ ColonStored roots dep := fun h => by simp [scanHit, hcolon h] at hhit
  simp only [scanHit, hread hkept] at hhit
  cases hhit
  rw [ScanAnswer.mk.injEq, ← map_remapDepRule_eq_iff]
  cases dep
  cases henvs
  simp [remapDepFile, mapPath, and_comm, eq_comm (a := [])]

theorem scanHit_eq_iff_quiet :
    let blob : Blob := { depfile := "a.o: a.c\n".toList, hasDepfile := true }
    ∃ answer, scanMiss (buildRootMap {} (hostIn "/w")) {} blob.depfile [] [] = some (answer, blob) ∧
      scanHit (buildRootMap {} (hostIn "/w")) {} blob = some answer := by
  intro blob
  let answer : ScanAnswer := ⟨[], ⟨[⟨["a.o".toList], ["a.c".toList]⟩], []⟩, [], 0⟩
  have hmiss : scanMiss (buildRootMap {} (hostIn "/w")) {} blob.depfile [] [] =
      some (answer, blob) := by decide +kernel
  have hhit : scanHit (buildRootMap {} (hostIn "/w")) {} blob = some answer := by decide +kernel
  exact ⟨_, hmiss, hhit.trans (congrArg some
    ((scanHit_eq_iff lineRoots_hostIn hmiss rfl hhit).mpr ⟨rfl, by decide⟩))⟩

/-- A warning about the command line itself is not replayed. -/
theorem scanHit_without_diagnostics :
    let parsed := parse (fun _ => none) (["gcc", "-M", "-std=c++11", "a.c"].map String.toList)
    let warning := "cc1: warning: command-line option '-std=c++11' is valid for ".toList ++
      "C++/ObjC++ but not for C\n".toList
    parsed.depOnly = true ∧ parsed.Cacheable ∧
      ∃ answer blob served, scanMiss (buildRootMap {} (hostIn "/w")) parsed "a.o: a.c\n".toList
          warning [] = some (answer, blob) ∧
        scanHit (buildRootMap {} (hostIn "/w")) parsed blob = some served ∧
        answer.stderrText ≠ served.stderrText :=
  ⟨by decide +kernel, by decide +kernel, _, _, _, rfl, rfl, by decide⟩

end Vcache

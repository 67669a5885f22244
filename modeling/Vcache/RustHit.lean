import Mathlib.Data.Fintype.EquivFin
import Vcache.RustKey

/-!
# rustc hits

What a native library, a sysroot or a target specification contributes is hashed
under no path of its own. A hit is sound, whatever stands in the files that are not
hashed, exactly when the options lead rustc to hashed files only, with the contents
the first run read under the same option, and no digest of a hashed file is taken
for another text of the first key.
-/

namespace Vcache

open List Option

open QueryProcess (Process)

variable {cfg : RustSetting} {digest : Digest} {rustc : Rustc} {p q : RustcArgs}
  {w w' w'' : RustWorld}

/-! ## What a run reads -/

/-- Under what a run reads a file: a source by canonical path, an extern by name, any
other file by the option that led to it. -/
inductive ReadTag where
  | source (canonical : Str)
  | externName (name : Str)
  | option (opt : Str)
deriving DecidableEq

def ReadTag.name : ReadTag → Str
  | .source canonical => canonical
  | .externName name => name
  | .option opt => opt

/-- A file as a run reads it; two runs correspond on it when they agree on the whole record. -/
structure FileRead where
  tag : ReadTag
  data : Str
deriving DecidableEq

def sourceRead? (roots : RootMap) (w : RustWorld) (path : Str) : Option FileRead :=
  (w.files path).map (fun data => ⟨.source (roots.canonicalize path), data⟩)

def externRead? (w : RustWorld) (ext : ExternCrate) : Option FileRead :=
  if ext.path = [] then none
  else (w.files ext.path).map (fun data => ⟨.externName ext.name, data⟩)

def optionRead? (w : RustWorld) (query : Str × Str) : Option FileRead :=
  (w.files query.2).map (fun data => ⟨.option query.1, data⟩)

def optionQueries (rustc : Rustc) (p : RustcArgs) (w : RustWorld) : List (Str × Str) :=
  (rustc.optionFiles p).asked w.answerOption

def hashedReads (cfg : RustSetting) (rustc : Rustc) (p : RustcArgs) (w : RustWorld) :
    List FileRead :=
  (collectCrateInputs rustc p w).sources.filterMap (sourceRead? cfg.roots w) ++
    p.externs.filterMap (externRead? w)

def rustReads (cfg : RustSetting) (rustc : Rustc) (p : RustcArgs) (w : RustWorld) :
    List FileRead :=
  hashedReads cfg rustc p w ++ (optionQueries rustc p w).filterMap (optionRead? w)

def SourceQuery.path? : SourceQuery → Option Str
  | .file path => some path
  | .env _ => none

/-- The paths a run's key depends on: those its dep-info run asks for, found or not, and
the files of its externs. -/
def hashedPaths (rustc : Rustc) (p : RustcArgs) (w : RustWorld) : List Str :=
  ((rustc.depInfo p).asked w.answer).filterMap SourceQuery.path? ++
    (p.externs.map ExternCrate.path).filter (· ≠ [])

def SameHashedFiles (rustc : Rustc) (p : RustcArgs) (w w' : RustWorld) : Prop :=
  w'.env = w.env ∧ ∀ path ∈ hashedPaths rustc p w, w'.files path = w.files path

/-- Whatever the files the second key does not hash are changed to, the hit stays one, and
every file the second run then reads has contents that the first run read under the same
option, extern name or canonical path. -/
def RustHitSound (cfg : RustSetting) (digest : Digest) (rustc : Rustc) (p : RustcArgs)
    (w : RustWorld) (q : RustcArgs) (w' : RustWorld) : Prop :=
  ∀ w'', SameHashedFiles rustc q w' w'' →
    cfg.SameRustKey digest rustc p w q w'' ∧
      ∀ r ∈ rustReads cfg rustc q w'', r ∈ rustReads cfg rustc p w

/-- What a run feeds its key besides digests of files. -/
def keyTexts (cfg : RustSetting) (rustc : Rustc) (p : RustcArgs) (w : RustWorld) : List Str :=
  kRustKeyVersion :: cfg.invocationPieces p ++
    ((collectCrateInputs rustc p w).sources.map cfg.roots.canonicalize ++
      ((collectCrateInputs rustc p w).envDeps.map cfg.keyedEnvDep).flatMap RustSetting.envPieces ++
      p.externs.map ExternCrate.name) ++
    (cfg.extraEnvPieces w ++ [cfg.modePiece])

/-- The parts of the key are not counted, so in the first key the digest of `r` may be
another text, or follow the name of a file of the other kind. -/
def Mistakable (cfg : RustSetting) (digest : Digest) (rustc : Rustc) (p : RustcArgs)
    (w : RustWorld) (r : FileRead) : Prop :=
  digest.hash r.data ∈ keyTexts cfg rustc p w ∨
    ∃ r₁ ∈ hashedReads cfg rustc p w, r₁.tag ≠ r.tag ∧ r₁.tag.name = r.tag.name ∧ r₁.data = r.data

/-! ## What equal keys say of the hashed files -/

theorem mem_hashedReads_source {path data : Str}
    (hpath : path ∈ (collectCrateInputs rustc p w).sources) (hdata : w.files path = some data) :
    ⟨.source (cfg.roots.canonicalize path), data⟩ ∈ hashedReads cfg rustc p w :=
  mem_append_left _ (mem_filterMap.mpr ⟨path, hpath, by simp [sourceRead?, hdata]⟩)

theorem mem_hashedReads_extern {ext : ExternCrate} {data : Str} (hext : ext ∈ p.externs)
    (hpath : ext.path ≠ []) (hdata : w.files ext.path = some data) :
    ⟨.externName ext.name, data⟩ ∈ hashedReads cfg rustc p w :=
  mem_append_right _ (mem_filterMap.mpr ⟨ext, hext, by simp [externRead?, hpath, hdata]⟩)

/-- A hashed file's name and digest are neighbours in the key. -/
theorem pair_infix_of_hashedRead {pieces : List Str} {r : FileRead}
    (hrun : cfg.runPieces digest rustc p w = some pieces) (hr : r ∈ hashedReads cfg rustc p w) :
    [r.tag.name, digest.hash r.data] <:+: pieces := by
  obtain ⟨_, externs, files, hexterns, hfiles, rfl⟩ := runPieces_eq_some.mp hrun
  rcases mem_append.mp hr with hr | hr
  · obtain ⟨path, hpath, hread⟩ := mem_filterMap.mp hr
    obtain ⟨data, hdata, rfl⟩ := map_eq_some_iff.mp hread
    obtain ⟨file, hfile, hhash⟩ := (mem_of_mapM hfiles).1 path hpath
    rw [hashSource, hdata] at hhash
    obtain rfl := some.inj hhash
    have hpair : RustSetting.filePieces (cfg.roots.canonicalize path, digest.hash data) <:+:
        files.flatMap RustSetting.filePieces :=
      infix_of_mem_flatten (mem_map_of_mem hfile)
    exact (((hpair.trans (prefix_append ..).isInfix).trans (prefix_append ..).isInfix).trans
      (suffix_append ..).isInfix).trans (prefix_append ..).isInfix
  · obtain ⟨ext, hext, hread⟩ := mem_filterMap.mp hr
    unfold externRead? at hread
    split_ifs at hread with hpath
    obtain ⟨data, hdata, rfl⟩ := map_eq_some_iff.mp hread
    obtain ⟨e, he, hhash⟩ := (mem_hashExterns hexterns).1 ext hext
    rw [hashExtern, if_neg hpath, hdata] at hhash
    obtain rfl := some.inj hhash
    have hpair : RustSetting.externPieces ⟨ext.name, digest.hash data⟩ <:+:
        externs.flatMap RustSetting.externPieces :=
      infix_of_mem_flatten (mem_map_of_mem he)
    rw [RustSetting.externPieces, if_neg (digest.ne_nil data)] at hpair
    exact ((hpair.trans (suffix_append ..).isInfix).trans
      (suffix_append ..).isInfix).trans (prefix_append ..).isInfix

theorem keyPieces_eq_flatten (files : List (Str × Str)) (envDeps : List DepEnv)
    (externs : List RustExtern) :
    cfg.keyPieces p w files envDeps externs =
      ((kRustKeyVersion :: cfg.invocationPieces p).map (fun piece => [piece]) ++
        (files.map RustSetting.filePieces ++ envDeps.map RustSetting.envPieces ++
          externs.map RustSetting.externPieces) ++
        (cfg.extraEnvPieces w ++ [cfg.modePiece]).map (fun piece => [piece])).flatten := by
  rw [flatten_append, flatten_append, flatten_append, flatten_append,
    Framing.flatten_map_singleton, Framing.flatten_map_singleton]
  rfl

/-- Neighbours in a key whose second is a digest name a hashed file and its contents, unless
the digest is one of the key's other texts. -/
theorem hashedRead_of_pair_infix {pieces : List Str} {name data : Str}
    (hrun : cfg.runPieces digest rustc p w = some pieces)
    (hpair : [name, digest.hash data] <:+: pieces) :
    digest.hash data ∈ keyTexts cfg rustc p w ∨
      ∃ r ∈ hashedReads cfg rustc p w, r.tag.name = name ∧ r.data = data := by
  obtain ⟨_, externs, files, hexterns, hfiles, rfl⟩ := runPieces_eq_some.mp hrun
  rw [keyPieces_eq_flatten] at hpair
  obtain ⟨block, hblock, hfound⟩ := Framing.pair_infix_flatten hpair
  have hpiece : ∀ pieces : List Str, block ∈ pieces.map (fun piece => [piece]) →
      digest.hash data ∈ pieces := by
    intro pieces hmem
    obtain ⟨piece, hpiece, rfl⟩ := mem_map.mp hmem
    exact Framing.eq_of_pair_in_one hfound ▸ hpiece
  simp only [mem_append] at hblock
  rcases hblock with (hmem | (hmem | hmem) | hmem) | hmem
  · exact .inl (mem_append_left _ (mem_append_left _ (hpiece _ hmem)))
  · obtain ⟨file, hfile, hblock⟩ := mem_map.mp hmem
    obtain ⟨path, hpath, hhash⟩ := (mem_of_mapM hfiles).2 file hfile
    obtain ⟨data', hdata, rfl⟩ := map_eq_some_iff.mp hhash
    rcases Framing.eq_of_pair_in_two (hblock ▸ hfound) with htext | ⟨hname, hdigest⟩
    · rw [htext]
      exact .inl (mem_append_left _ (mem_append_right _ (mem_append_left _ (mem_append_left _
        (mem_map_of_mem hpath)))))
    · exact .inr ⟨_, mem_hashedReads_source hpath hdata, hname.symm,
        (digest.injective hdigest).symm⟩
  · obtain ⟨env, henv, hblock⟩ := mem_map.mp hmem
    have hmem : digest.hash data ∈ RustSetting.envPieces env := by
      rcases Framing.eq_of_pair_in_two (hblock ▸ hfound) with htext | ⟨-, htext⟩ <;>
        simp [RustSetting.envPieces, htext]
    exact .inl (mem_append_left _ (mem_append_right _ (mem_append_left _ (mem_append_right _
      (mem_flatMap.mpr ⟨env, henv, hmem⟩)))))
  · obtain ⟨e, he, hblock⟩ := mem_map.mp hmem
    obtain ⟨ext, hext, hhash⟩ := (mem_hashExterns hexterns).2 e he
    have hnames : ext.name ∈ keyTexts cfg rustc p w :=
      mem_append_left _ (mem_append_right _ (mem_append_right _ (mem_map_of_mem hext)))
    unfold hashExtern at hhash
    split_ifs at hhash with hpath
    · obtain rfl := some.inj hhash
      exact .inl (mem_singleton.mp (hpiece [ext.name] (mem_singleton.mpr hblock.symm)) ▸ hnames)
    · obtain ⟨data', hdata, rfl⟩ := map_eq_some_iff.mp hhash
      rw [RustSetting.externPieces, if_neg (digest.ne_nil data')] at hblock
      rcases Framing.eq_of_pair_in_two (hblock ▸ hfound) with htext | ⟨hname, hdigest⟩
      · exact .inl (htext ▸ hnames)
      · exact .inr ⟨_, mem_hashedReads_extern hext hpath hdata, hname.symm,
          (digest.injective hdigest).symm⟩
  · exact .inl (mem_append_right _ (hpiece _ hmem))

theorem mem_or_mistakable (hkey : cfg.SameRustKey digest rustc p w q w') {r : FileRead}
    (hr : r ∈ hashedReads cfg rustc q w') :
    r ∈ rustReads cfg rustc p w ∨ Mistakable cfg digest rustc p w r := by
  obtain ⟨pieces, pieces', hp, hq, hfits, hfits', hstream⟩ := hkey
  have hpair := pair_infix_of_hashedRead hq hr
  rw [← delimitedStream_inj hfits hfits' hstream] at hpair
  rcases hashedRead_of_pair_infix hp hpair with htext | ⟨r₁, hr₁, hname, hdata⟩
  · exact .inr (.inl htext)
  · by_cases htag : r₁.tag = r.tag
    · obtain ⟨tag, data⟩ := r
      cases htag
      cases hdata
      exact .inl (mem_append_left _ hr₁)
    · exact .inr (.inr ⟨r₁, hr₁, htag, hname, hdata⟩)

/-! ## What the key does not depend on -/

theorem mem_hashedPaths_file {path : Str}
    (h : SourceQuery.file path ∈ (rustc.depInfo q).asked w'.answer) :
    path ∈ hashedPaths rustc q w' :=
  mem_append_left _ (mem_filterMap.mpr ⟨_, h, rfl⟩)

theorem externPath_mem_hashedPaths {ext : ExternCrate} (h : ext ∈ q.externs)
    (hpath : ext.path ≠ []) : ext.path ∈ hashedPaths rustc q w' :=
  mem_append_right _ (by simpa using ⟨⟨ext, h, rfl⟩, hpath⟩)

namespace SameHashedFiles

variable (h : SameHashedFiles rustc q w' w'')

include h

theorem collectCrateInputs_eq : collectCrateInputs rustc q w'' = collectCrateInputs rustc q w' := by
  have hagree : ∀ query ∈ (rustc.depInfo q).asked w'.answer,
      w''.answer query = w'.answer query := by
    intro query hquery
    cases query with
    | file path => exact h.2 path (mem_hashedPaths_file hquery)
    | env name => exact congrFun h.1 name
  have hasked : (rustc.depInfo q).asked w''.answer = (rustc.depInfo q).asked w'.answer :=
    congrArg (map Prod.fst) ((rustc.depInfo q).run_eq_of_agree _ _ hagree).1
  have hsources : ((rustc.depInfo q).asked w'.answer).filterMap (SourceQuery.source? w'') =
      ((rustc.depInfo q).asked w'.answer).filterMap (SourceQuery.source? w') := by
    apply filterMap_congr
    intro query hquery
    cases query with
    | file path => simp only [SourceQuery.source?, h.2 path (mem_hashedPaths_file hquery)]
    | env name => rfl
  have henv : SourceQuery.depEnv? w'' = SourceQuery.depEnv? w' := by
    funext query
    cases query with
    | file path => rfl
    | env name => simp only [SourceQuery.depEnv?, h.1]
  simp only [collectCrateInputs, hasked, hsources, henv]

theorem files_source {path : Str} (hpath : path ∈ (collectCrateInputs rustc q w').sources) :
    w''.files path = w'.files path := by
  rw [collectCrateInputs, mem_sortUnique, mem_filterMap] at hpath
  obtain ⟨query, hquery, hsource⟩ := hpath
  cases query with
  | file path' =>
    simp only [SourceQuery.source?] at hsource
    split_ifs at hsource
    exact some.inj hsource ▸ h.2 path' (mem_hashedPaths_file hquery)
  | env name => cases hsource

theorem runPieces_eq : cfg.runPieces digest rustc q w'' = cfg.runPieces digest rustc q w' := by
  have hexterns : hashExterns digest w'' q = hashExterns digest w' q := by
    unfold hashExterns
    congr 1
    apply mapM_congr
    intro ext hext
    unfold hashExtern
    split_ifs with hpath
    · rfl
    · rw [h.2 ext.path (externPath_mem_hashedPaths hext hpath)]
  have hfiles : (collectCrateInputs rustc q w').sources.mapM (hashSource digest cfg.roots w'') =
      (collectCrateInputs rustc q w').sources.mapM (hashSource digest cfg.roots w') :=
    mapM_congr (fun path hpath => by rw [hashSource, hashSource, h.files_source hpath])
  simp only [RustSetting.runPieces, h.collectCrateInputs_eq, hexterns, hfiles,
    RustSetting.keyPieces, RustSetting.extraEnvPieces, h.1]

theorem hashedReads_eq : hashedReads cfg rustc q w'' = hashedReads cfg rustc q w' := by
  unfold hashedReads
  rw [h.collectCrateInputs_eq]
  congr 1
  · exact filterMap_congr (fun path hpath => by rw [sourceRead?, sourceRead?, h.files_source hpath])
  · refine filterMap_congr (fun ext hext => ?_)
    unfold externRead?
    split_ifs with hpath
    · rfl
    · rw [h.2 ext.path (externPath_mem_hashedPaths hext hpath)]

theorem sameRustKey (hkey : cfg.SameRustKey digest rustc p w q w') :
    cfg.SameRustKey digest rustc p w q w'' := by
  obtain ⟨pieces, pieces', hp, hq, hrest⟩ := hkey
  exact ⟨pieces, pieces', hp, h.runPieces_eq.trans hq, hrest⟩

/-- Options that lead to hashed files only lead to the same ones with the same contents. -/
theorem optionReads_eq (hoptions : ∀ query ∈ optionQueries rustc q w',
      query.2 ∈ hashedPaths rustc q w') :
    (optionQueries rustc q w'').filterMap (optionRead? w'') =
      (optionQueries rustc q w').filterMap (optionRead? w') := by
  have hagree : ∀ query ∈ optionQueries rustc q w', w''.files query.2 = w'.files query.2 :=
    fun query hquery => h.2 query.2 (hoptions query hquery)
  have hqueries : optionQueries rustc q w'' = optionQueries rustc q w' :=
    congrArg (map Prod.fst) ((rustc.optionFiles q).run_eq_of_agree _ _ hagree).1
  rw [hqueries]
  exact filterMap_congr (fun query hquery => by rw [optionRead?, optionRead?, hagree query hquery])

end SameHashedFiles

def RustWorld.update (w : RustWorld) (path : Str) (contents : Option Str) : RustWorld :=
  { w with files := Function.update w.files path contents }

theorem RustWorld.update_files_of_ne (w : RustWorld) {path path' : Str} (contents : Option Str)
    (h : path' ≠ path) : (w.update path contents).files path' = w.files path' :=
  Function.update_of_ne h ..

/-- A file that is not hashed may come to hold what the first run never read. -/
theorem mem_hashedPaths_of_sound (hsound : RustHitSound cfg digest rustc p w q w')
    {query : Str × Str} (hquery : query ∈ optionQueries rustc q w') :
    query.2 ∈ hashedPaths rustc q w' := by
  by_contra hpath
  obtain ⟨fresh, hfresh⟩ := Infinite.exists_notMem_finset
    ((rustReads cfg rustc p w).map FileRead.data).toFinset
  have hsame : SameHashedFiles rustc q w' (w'.update query.2 (some fresh)) := by
    refine ⟨rfl, fun path hmem => w'.update_files_of_ne _ ?_⟩
    rintro rfl
    exact hpath hmem
  obtain ⟨query', hquery', hchanged⟩ := (rustc.optionFiles q).asked_of_agree_off w'.answerOption
    (w'.update query.2 (some fresh)).answerOption (fun query' => query'.2 = query.2)
    (fun query' hne => w'.update_files_of_ne (some fresh) hne) ⟨query, hquery, rfl⟩
  have hread : (⟨.option query'.1, fresh⟩ : FileRead) ∈
      rustReads cfg rustc q (w'.update query.2 (some fresh)) := by
    apply mem_append_right
    refine mem_filterMap.mpr ⟨query', hquery', ?_⟩
    simp [optionRead?, RustWorld.update, hchanged]
  exact hfresh (mem_toFinset.mpr (mem_map.mpr ⟨_, (hsound _ hsame).2 _ hread, rfl⟩))

/-- A rustc that reads its crate root, and for `-l foo` the static library in every
`-L native=dir`. -/
def nativeRustc : Rustc where
  depInfo p := .ask (.file p.source) (fun _ => .done ())
  optionFiles p := askAll (nativeLibraries p.baseArgs)
where
  askAll : List (Str × Str) → Process (Str × Str) (Option Str) Unit
    | [] => .done ()
    | query :: queries => .ask query (fun _ => askAll queries)
  values (opt : Str) : List Str → List Str
    | word :: value :: words => if word = opt then value :: values opt words
      else values opt (value :: words)
    | _ => []
  nativeLibraries (args : List Str) : List (Str × Str) :=
    (values "-l".toList args).flatMap (fun name =>
      (values "-L".toList args).map (fun dir =>
        ("-l".toList ++ name, dir.drop 7 ++ "/lib".toList ++ name ++ ".a".toList)))

def rustOf (line : String) : RustcArgs := parseRustc (splitSkipEmpty ' ' line.toList)

def plainRustSetting : RustSetting := ⟨⟨[], List.Pairwise.nil⟩, "rustc 1".toList, [], [], false⟩

def nativeCrate : RustcArgs :=
  rustOf "rustc --crate-name x --emit=link --out-dir o -L native=/opt/lib -l foo src.rs"

/-- The library `-l foo` finds is an extern too. -/
def externCrate : RustcArgs :=
  rustOf "rustc --emit=link --out-dir o --extern a=/l/libfoo.a -L native=/l -l foo src.rs"

def worldOf (files : List (String × String)) : RustWorld where
  files path := (files.find? (fun f => f.1.toList == path)).map (fun f => f.2.toList)
  env _ := none

end Vcache

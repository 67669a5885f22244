import Vcache.RustHit

/-!
# One crate in two trees

The key of a crate names its sources by canonical path, but in the order of their
local paths: `CollectCrateInputs` sorts before anything is canonicalised. Two trees
whose roots are mapped alike share a key exactly when moving the sources from one
to the other keeps their order.
-/

namespace Vcache

open List Option

/-- The crate of the second run is that of the first, each source moved by `move`. -/
structure MovedCrate (digest : Digest) (rustc : Rustc) (cfg cfg' : RustSetting) (p p' : RustcArgs)
    (w w' : RustWorld) (move : Str → Str) : Prop where
  targets : ∀ target, target ∈ cfg.roots.roots.map Root.canonical ↔
    target ∈ cfg'.roots.roots.map Root.canonical
  rustcFingerprint : cfg.rustcFingerprint = cfg'.rustcFingerprint
  extraEnv : cfg.extraEnvPieces w = cfg'.extraEnvPieces w'
  sidecarsApply : cfg.sidecarsApply = cfg'.sidecarsApply
  keyArgs : p.keyArgs.map cfg.roots.canonicalize = p'.keyArgs.map cfg'.roots.canonicalize
  emitKinds : p.emitKinds = p'.emitKinds
  sources : ∀ path, path ∈ (collectCrateInputs rustc p' w').sources ↔
    ∃ source ∈ (collectCrateInputs rustc p w).sources, move source = path
  canonical : ∀ source ∈ (collectCrateInputs rustc p w).sources,
    cfg'.roots.canonicalize (move source) = cfg.roots.canonicalize source
  contents : ∀ source ∈ (collectCrateInputs rustc p w).sources,
    w'.files (move source) = w.files source
  envDeps : (collectCrateInputs rustc p w).envDeps.map cfg.keyedEnvDep =
    (collectCrateInputs rustc p' w').envDeps.map cfg'.keyedEnvDep
  externs : hashExterns digest w p = hashExterns digest w' p'

def SameKeyStream (digest : Digest) (rustc : Rustc) (cfg cfg' : RustSetting) (p p' : RustcArgs)
    (w w' : RustWorld) : Prop :=
  (cfg.runPieces digest rustc p w).map delimitedStream =
    (cfg'.runPieces digest rustc p' w').map delimitedStream

namespace MovedCrate

variable {digest : Digest} {rustc : Rustc} {cfg cfg' : RustSetting} {p p' : RustcArgs}
  {w w' : RustWorld} {move : Str → Str}

/-- A source as its tree sees it: under which canonical path, with which contents. -/
def seen (cfg : RustSetting) (w : RustWorld) (source : Str) : Str × Option Str :=
  (cfg.roots.canonicalize source, w.files source)

theorem seen_move (h : MovedCrate digest rustc cfg cfg' p p' w w' move) {source : Str}
    (hsource : source ∈ (collectCrateInputs rustc p w).sources) :
    seen cfg' w' (move source) = seen cfg w source :=
  Prod.ext (h.canonical source hsource) (h.contents source hsource)

theorem pairwise_sources (rustc : Rustc) (p : RustcArgs) (w : RustWorld) :
    (collectCrateInputs rustc p w).sources.Pairwise (· < ·) := pairwise_sortUnique _

theorem sources_eq_nil_iff (h : MovedCrate digest rustc cfg cfg' p p' w w' move) :
    (collectCrateInputs rustc p w).sources = [] ↔
      (collectCrateInputs rustc p' w').sources = [] := by
  rw [eq_nil_iff_forall_not_mem, eq_nil_iff_forall_not_mem]
  constructor
  · intro hnone path hpath
    obtain ⟨source, hsource, -⟩ := (h.sources path).mp hpath
    exact hnone source hsource
  · intro hnone source hsource
    exact hnone (move source) ((h.sources _).mpr ⟨source, hsource, rfl⟩)

def KeepsOrder (rustc : Rustc) (p : RustcArgs) (w : RustWorld) (move : Str → Str) : Prop :=
  ∀ s ∈ (collectCrateInputs rustc p w).sources, ∀ t ∈ (collectCrateInputs rustc p w).sources,
    s < t → move s < move t

theorem sources_eq_iff (h : MovedCrate digest rustc cfg cfg' p p' w w' move) :
    (collectCrateInputs rustc p' w').sources = (collectCrateInputs rustc p w).sources.map move ↔
      KeepsOrder rustc p w move := by
  have hsorted := pairwise_sources rustc p w
  have hsorted' := pairwise_sources rustc p' w'
  constructor
  · intro heq s hs t ht hlt
    rw [heq, pairwise_map] at hsorted'
    have hforward : (collectCrateInputs rustc p w).sources.Pairwise
        (fun s t => s < t → move s < move t) :=
      hsorted'.imp (fun {s t} hlt (_ : s < t) => hlt)
    have hback : (collectCrateInputs rustc p w).sources.Pairwise
        (flip (fun s t => s < t → move s < move t)) :=
      hsorted.imp (fun hlt hgt => absurd hgt (lt_asymm hlt))
    exact List.Pairwise.forall_of_forall_of_flip (fun s _ hlt => absurd hlt (lt_irrefl s))
      hforward hback hs ht hlt
  · intro hkeeps
    refine hsorted'.eq_of_mem_iff ?_ (fun path => ?_)
    · rw [pairwise_map]
      exact hsorted.imp_of_mem (fun hs ht hlt => hkeeps _ hs _ ht hlt)
    · rw [h.sources, List.mem_map]

/-! ## The keys -/

def hashSeen (digest : Digest) (seen : Str × Option Str) : Option (Str × Str) :=
  seen.2.map (fun data => (seen.1, digest.hash data))

theorem mapM_hashSource (digest : Digest) (cfg : RustSetting) (w : RustWorld) (sources : List Str) :
    sources.mapM (hashSource digest cfg.roots w) =
      (sources.map (seen cfg w)).mapM (hashSeen digest) := by
  rw [mapM_map]
  rfl

theorem mapM_hashSeen_inj {seen seen' : List (Str × Option Str)} {files : List (Str × Str)}
    (h : seen.mapM (hashSeen digest) = some files)
    (h' : seen'.mapM (hashSeen digest) = some files) : seen = seen' := by
  induction seen generalizing seen' files with
  | nil =>
    obtain rfl : [] = files := by simpa using h
    cases seen' with
    | nil => rfl
    | cons other rest =>
      rw [mapM_cons] at h'
      obtain ⟨file, -, h'⟩ := bind_eq_some_iff.mp h'
      obtain ⟨files, -, h'⟩ := bind_eq_some_iff.mp h'
      cases h'
  | cons one seen ih =>
    rw [mapM_cons] at h
    obtain ⟨file, hfile, h⟩ := bind_eq_some_iff.mp h
    obtain ⟨rest, hrest, h⟩ := bind_eq_some_iff.mp h
    cases h
    cases seen' with
    | nil => cases h'
    | cons other seen' =>
      rw [mapM_cons] at h'
      obtain ⟨file', hfile', h'⟩ := bind_eq_some_iff.mp h'
      obtain ⟨rest', hrest', h'⟩ := bind_eq_some_iff.mp h'
      obtain ⟨rfl, rfl⟩ := cons.inj (some.inj h')
      obtain ⟨data, hdata, rfl⟩ := map_eq_some_iff.mp hfile
      obtain ⟨data', hdata', heq⟩ := map_eq_some_iff.mp hfile'
      obtain ⟨hpath, hhash⟩ := Prod.mk.inj heq
      rw [ih hrest hrest', Prod.ext hpath.symm (hdata.trans
        (by rw [hdata', digest.injective hhash]) : one.2 = other.2)]

section

variable (h : MovedCrate digest rustc cfg cfg' p p' w w' move)

include h

theorem invocationPieces_eq :
    cfg.invocationPieces p = cfg'.invocationPieces p' := by
  have hroots : cfg.roots.fingerprint = cfg'.roots.fingerprint := by
    rw [RootMap.fingerprint, RootMap.fingerprint, sortUnique_congr h.targets]
  rw [RustSetting.invocationPieces, RustSetting.invocationPieces, h.rustcFingerprint, hroots,
    h.keyArgs, h.emitKinds]

theorem keyPieces_eq_iff
    (files files' : List (Str × Str)) (externs : List RustExtern) :
    cfg.keyPieces p w files ((collectCrateInputs rustc p w).envDeps.map cfg.keyedEnvDep) externs =
        cfg'.keyPieces p' w' files'
          ((collectCrateInputs rustc p' w').envDeps.map cfg'.keyedEnvDep) externs ↔
      files = files' := by
  have hmode : cfg.modePiece = cfg'.modePiece := by
    rw [RustSetting.modePiece, RustSetting.modePiece, h.sidecarsApply]
  rw [RustSetting.keyPieces, RustSetting.keyPieces, h.invocationPieces_eq, h.extraEnv, hmode,
    h.envDeps]
  constructor
  · intro heq
    have hfiles := append_cancel_right (append_cancel_right
      (append_cancel_left (append_cancel_right heq)))
    exact map_injective_iff.mpr filePieces_injective
      (Framing.map_eq_of_flatMap_eq Nat.two_pos (fun _ => rfl) (fun _ => rfl) hfiles)
  · rintro rfl
    rfl

theorem runPieces_isSome
    {pieces : List Str} (hrun : cfg.runPieces digest rustc p w = some pieces) :
    ∃ pieces', cfg'.runPieces digest rustc p' w' = some pieces' := by
  obtain ⟨hsources, externs, files, hexterns, hfiles, -⟩ := runPieces_eq_some.mp hrun
  have hfiles' : ∃ files', (collectCrateInputs rustc p' w').sources.mapM
      (hashSource digest cfg'.roots w') = some files' := by
    refine exists_mapM (fun path hpath => ?_)
    obtain ⟨source, hsource, rfl⟩ := (h.sources path).mp hpath
    obtain ⟨file, -, hfile⟩ := (mem_of_mapM hfiles).1 source hsource
    refine ⟨file, ?_⟩
    rw [← hfile, hashSource, hashSource, h.contents source hsource, h.canonical source hsource]
  obtain ⟨files', hfiles'⟩ := hfiles'
  refine ⟨cfg'.keyPieces p' w' files'
    ((collectCrateInputs rustc p' w').envDeps.map cfg'.keyedEnvDep) externs, ?_⟩
  rw [RustSetting.runPieces, if_neg (fun hnil => hsources (h.sources_eq_nil_iff.mpr hnil)),
    ← h.externs, hexterns, hfiles']
  rfl

end

end MovedCrate

open MovedCrate

section TwoTrees

variable {digest : Digest} {rustc : Rustc} {cfg cfg' : RustSetting} {p p' : RustcArgs}
  {w w' : RustWorld} {move : Str → Str}

section

variable (h : MovedCrate digest rustc cfg cfg' p p' w w' move)

include h

theorem sameKeyStream_iff_seen
    {pieces pieces' : List Str} (hrun : cfg.runPieces digest rustc p w = some pieces)
    (hrun' : cfg'.runPieces digest rustc p' w' = some pieces')
    (hfits : ∀ piece ∈ pieces, FitsSize piece) (hfits' : ∀ piece ∈ pieces', FitsSize piece) :
    SameKeyStream digest rustc cfg cfg' p p' w w' ↔
      (collectCrateInputs rustc p' w').sources.map (seen cfg' w') =
        (collectCrateInputs rustc p w).sources.map (seen cfg w) := by
  obtain ⟨-, externs, files, hexterns, hfiles, rfl⟩ := runPieces_eq_some.mp hrun
  obtain ⟨-, externs', files', hexterns', hfiles', rfl⟩ := runPieces_eq_some.mp hrun'
  rw [mapM_hashSource] at hfiles hfiles'
  rw [← h.externs, hexterns] at hexterns'
  obtain rfl := some.inj hexterns'
  have hstream : SameKeyStream digest rustc cfg cfg' p p' w w' ↔ files = files' := by
    rw [SameKeyStream, hrun, hrun', map_some, map_some, some.injEq,
      ← h.keyPieces_eq_iff files files' externs]
    exact ⟨fun heq => delimitedStream_inj hfits hfits' heq, fun heq => congrArg _ heq⟩
  rw [hstream]
  constructor
  · rintro rfl
    exact mapM_hashSeen_inj hfiles' hfiles
  · intro heq
    rw [heq, hfiles] at hfiles'
    exact some.inj hfiles'

theorem map_seen_of_keepsOrder
    (hkeeps : KeepsOrder rustc p w move) :
    (collectCrateInputs rustc p' w').sources.map (seen cfg' w') =
      (collectCrateInputs rustc p w).sources.map (seen cfg w) := by
  rw [h.sources_eq_iff.mpr hkeeps, List.map_map]
  exact List.map_congr_left (fun source hsource => h.seen_move hsource)

/-- Sources that no two look alike stand in the same order in both keys only if moving them
keeps their order. -/
theorem keepsOrder_of_map_seen
    (hinj : ∀ s ∈ (collectCrateInputs rustc p w).sources,
      ∀ t ∈ (collectCrateInputs rustc p w).sources, seen cfg w s = seen cfg w t → s = t)
    (heq : (collectCrateInputs rustc p' w').sources.map (seen cfg' w') =
      (collectCrateInputs rustc p w).sources.map (seen cfg w)) :
    KeepsOrder rustc p w move := by
  refine h.sources_eq_iff.mp (ext_getElem ?_ (fun i hi hi' => ?_))
  · simpa using congrArg length heq
  · rw [length_map] at hi'
    obtain ⟨source, hsource, hmove⟩ := (h.sources _).mp (getElem_mem hi)
    have hseen : seen cfg' w' ((collectCrateInputs rustc p' w').sources[i]) =
        seen cfg w ((collectCrateInputs rustc p w).sources[i]) := by
      have hi₂ : i < ((collectCrateInputs rustc p' w').sources.map (seen cfg' w')).length := by
        rwa [length_map]
      have hget := getElem_of_eq heq hi₂
      rwa [getElem_map, getElem_map] at hget
    rw [← hmove, h.seen_move hsource] at hseen
    rw [getElem_map, ← hmove, hinj _ hsource _ (getElem_mem hi') hseen]

end

theorem keepsOrder_of_one_dir {dir dir' : Str}
    (hdirs : ∀ source ∈ (collectCrateInputs rustc p w).sources,
      ∃ rest, source = dir ++ rest ∧ move source = dir' ++ rest) :
    KeepsOrder rustc p w move := by
  intro s hs t ht hlt
  obtain ⟨rest, rfl, hs'⟩ := hdirs s hs
  obtain ⟨rest', rfl, ht'⟩ := hdirs t ht
  rw [hs', ht']
  rcases lt_trichotomy rest rest' with hrest | rfl | hrest
  · exact append_left_lt hrest
  · exact absurd hlt (lt_irrefl _)
  · exact absurd hlt (lt_asymm (append_left_lt hrest))

/-- The two trees share a key exactly when the sources, as each tree sees them, stand in the
same order in both; for sources that no two look alike that is when moving keeps their order,
as it does when they lie in one directory. -/
theorem sameKeyStream_iff (h : MovedCrate digest rustc cfg cfg' p p' w w' move)
    {pieces : List Str} (hrun : cfg.runPieces digest rustc p w = some pieces)
    (hfits : ∀ piece ∈ pieces, FitsSize piece)
    (hfits' : ∀ pieces', cfg'.runPieces digest rustc p' w' = some pieces' →
      ∀ piece ∈ pieces', FitsSize piece) :
    (SameKeyStream digest rustc cfg cfg' p p' w w' ↔
      (collectCrateInputs rustc p' w').sources.map (seen cfg' w') =
        (collectCrateInputs rustc p w).sources.map (seen cfg w)) ∧
    (KeepsOrder rustc p w move → SameKeyStream digest rustc cfg cfg' p p' w w') ∧
    ((∀ s ∈ (collectCrateInputs rustc p w).sources,
        ∀ t ∈ (collectCrateInputs rustc p w).sources, seen cfg w s = seen cfg w t → s = t) →
      SameKeyStream digest rustc cfg cfg' p p' w w' → KeepsOrder rustc p w move) ∧
    ∀ dir dir', (∀ source ∈ (collectCrateInputs rustc p w).sources,
        ∃ rest, source = dir ++ rest ∧ move source = dir' ++ rest) →
      SameKeyStream digest rustc cfg cfg' p p' w w' := by
  obtain ⟨pieces', hrun'⟩ := h.runPieces_isSome hrun
  have hseen := sameKeyStream_iff_seen h hrun hrun' hfits (hfits' pieces' hrun')
  have hkeeps : KeepsOrder rustc p w move → SameKeyStream digest rustc cfg cfg' p p' w w' :=
    fun hkeeps => hseen.mpr (map_seen_of_keepsOrder h hkeeps)
  refine ⟨hseen, hkeeps, fun hinj hsame => ?_, fun dir dir' hdirs => ?_⟩
  · exact keepsOrder_of_map_seen h hinj (hseen.mp hsame)
  · exact hkeeps (keepsOrder_of_one_dir hdirs)

end TwoTrees

/-! ## A generated source beside the crate -/

/-- A rustc for a crate root that includes the file `gen.rs` of `OUT_DIR`. -/
def includeRustc : Rustc where
  depInfo p := .ask (.file p.source) (fun _ => .ask (.env "OUT_DIR".toList) (fun
    | some dir => .ask (.file (dir ++ "/gen.rs".toList)) (fun _ => .done ())
    | none => .done ()))
  optionFiles _ := .done ()

/-- The settings of a tree whose source and build directories are mapped alike everywhere. -/
def treeSetting (src out : String) : RustSetting where
  roots := fromSpecs ⟨none, "/w".toList, fun _ => none⟩
    [src.toList ++ "=/src".toList, out.toList ++ "=/out".toList]
  rustcFingerprint := "rustc 1".toList
  rustPathEnvVars := ["OUT_DIR".toList]
  extraEnvVars := []
  sidecarsApply := false

def treeCrate (src : String) : RustcArgs :=
  parseRustc (["rustc", "--crate-name", "x", "--emit=link", "--out-dir", "o"].map String.toList ++
    [src.toList ++ "/lib.rs".toList])

def treeWorld (src out : String) : RustWorld where
  files path :=
    if path = src.toList ++ "/lib.rs".toList then some "fn".toList
    else if path = out.toList ++ "/gen.rs".toList then some "const".toList
    else none
  env name := if name = "OUT_DIR".toList then some out.toList else none

def moveTree (src src' out out' : String) (path : Str) : Str :=
  if startsWith path src.toList then src'.toList ++ path.drop src.toList.length
  else out'.toList ++ path.drop out.toList.length

theorem movedCrate_tree {src out src' out' : String}
    (h : ((treeSetting src out).roots.roots.map Root.canonical).Perm
        ((treeSetting src' out').roots.roots.map Root.canonical) ∧
      (treeCrate src).keyArgs.map (treeSetting src out).roots.canonicalize =
        (treeCrate src').keyArgs.map (treeSetting src' out').roots.canonicalize ∧
      (treeCrate src).emitKinds = (treeCrate src').emitKinds ∧
      (treeCrate src).externs = [] ∧ (treeCrate src').externs = [] ∧
      ((collectCrateInputs includeRustc (treeCrate src) (treeWorld src out)).sources.map
          (moveTree src src' out out')).Perm
        (collectCrateInputs includeRustc (treeCrate src') (treeWorld src' out')).sources ∧
      (∀ source ∈ (collectCrateInputs includeRustc (treeCrate src) (treeWorld src out)).sources,
        (treeSetting src' out').roots.canonicalize (moveTree src src' out out' source) =
            (treeSetting src out).roots.canonicalize source ∧
          (treeWorld src' out').files (moveTree src src' out out' source) =
            (treeWorld src out).files source) ∧
      (collectCrateInputs includeRustc (treeCrate src) (treeWorld src out)).envDeps.map
          (treeSetting src out).keyedEnvDep =
        (collectCrateInputs includeRustc (treeCrate src') (treeWorld src' out')).envDeps.map
          (treeSetting src' out').keyedEnvDep) :
    MovedCrate Digest.ofContents includeRustc (treeSetting src out) (treeSetting src' out')
      (treeCrate src) (treeCrate src') (treeWorld src out) (treeWorld src' out')
      (moveTree src src' out out') := by
  obtain ⟨htargets, hargs, hemit, hexterns, hexterns', hsources, hseen, henv⟩ := h
  have hextra : ∀ src out w, (treeSetting src out).extraEnvPieces w = [] := fun _ _ _ => rfl
  exact
    { targets := fun _ => htargets.mem_iff
      rustcFingerprint := rfl
      extraEnv := by rw [hextra, hextra]
      sidecarsApply := rfl
      keyArgs := hargs
      emitKinds := hemit
      sources := fun path => by rw [← hsources.mem_iff, List.mem_map]
      canonical := fun source hsource => (hseen source hsource).1
      contents := fun source hsource => (hseen source hsource).2
      envDeps := henv
      externs := by rw [hashExterns, hashExterns, hexterns, hexterns']; rfl }

/-- Both directories renamed, with their order kept. -/
theorem sameKeyStream_renamed :
    SameKeyStream Digest.ofContents includeRustc (treeSetting "/a" "/b") (treeSetting "/y" "/z")
      (treeCrate "/a") (treeCrate "/y") (treeWorld "/a" "/b") (treeWorld "/y" "/z") := by
  have hmoved : MovedCrate Digest.ofContents includeRustc (treeSetting "/a" "/b")
      (treeSetting "/y" "/z") (treeCrate "/a") (treeCrate "/y") (treeWorld "/a" "/b")
      (treeWorld "/y" "/z") (moveTree "/a" "/y" "/b" "/z") := movedCrate_tree (by decide +kernel)
  have hfits : (∃ pieces, (treeSetting "/a" "/b").runPieces Digest.ofContents includeRustc
        (treeCrate "/a") (treeWorld "/a" "/b") = some pieces) ∧
      (∀ pieces, (treeSetting "/a" "/b").runPieces Digest.ofContents includeRustc
        (treeCrate "/a") (treeWorld "/a" "/b") = some pieces → ∀ piece ∈ pieces, FitsSize piece) ∧
      (∀ pieces, (treeSetting "/y" "/z").runPieces Digest.ofContents includeRustc
        (treeCrate "/y") (treeWorld "/y" "/z") = some pieces →
          ∀ piece ∈ pieces, FitsSize piece) := by
    rw [← isSome_iff_exists]
    decide +kernel
  have hkeeps : KeepsOrder includeRustc (treeCrate "/a") (treeWorld "/a" "/b")
      (moveTree "/a" "/y" "/b" "/z") := by
    unfold KeepsOrder
    decide +kernel
  obtain ⟨⟨pieces, hrun⟩, hfits, hfits'⟩ := hfits
  exact (sameKeyStream_iff hmoved hrun (hfits pieces hrun) hfits').2.1 hkeeps

/-- The same crate where the build directory comes first. -/
theorem not_sameKeyStream_swapped :
    MovedCrate Digest.ofContents includeRustc (treeSetting "/a" "/b") (treeSetting "/y" "/x")
        (treeCrate "/a") (treeCrate "/y") (treeWorld "/a" "/b") (treeWorld "/y" "/x")
        (moveTree "/a" "/y" "/b" "/x") ∧
      ¬ SameKeyStream Digest.ofContents includeRustc (treeSetting "/a" "/b")
        (treeSetting "/y" "/x") (treeCrate "/a") (treeCrate "/y") (treeWorld "/a" "/b")
        (treeWorld "/y" "/x") := by
  refine ⟨movedCrate_tree (by decide +kernel), ?_⟩
  unfold SameKeyStream
  decide +kernel

end Vcache

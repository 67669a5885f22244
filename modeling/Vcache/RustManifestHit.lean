import Vcache.RootRoundTrip
import Vcache.RustManifest

/-!
# What a manifest hit serves

A state that is accepted stands for the run that would ask rustc again. The externs are
compared one by one, the variables by the values they are keyed with. The files are
looked for where their canonical paths lead, and that is where rustc reads them only if
the canonical path leads back.
-/

namespace Vcache

open List Option

structure DepInfoNames where
  sources : List Str
  names : List Str

/-- rustc writes the values as they are now, escaped. -/
def DepInfoNames.inputs (info : DepInfoNames) (w : RustWorld) : CrateInputs :=
  ⟨info.sources, info.names.map fun name => ⟨name, (w.env name).map escapeEnvDepValue⟩⟩

def namedBy (rustc : Rustc) (p : RustcArgs) (w : RustWorld) : DepInfoNames :=
  ⟨(collectCrateInputs rustc p w).sources, (collectCrateInputs rustc p w).envDeps.map DepEnv.name⟩

theorem inputs_namedBy (rustc : Rustc) (p : RustcArgs) (w : RustWorld) :
    (namedBy rustc p w).inputs w = collectCrateInputs rustc p w := by
  have hdep : ∀ dep ∈ (collectCrateInputs rustc p w).envDeps,
      (⟨dep.name, (w.env dep.name).map escapeEnvDepValue⟩ : DepEnv) = dep := by
    intro dep hdep
    obtain ⟨query, -, hquery⟩ := List.mem_filterMap.mp hdep
    cases query with
    | file path => cases hquery
    | env name =>
      cases hquery
      rfl
  rw [DepInfoNames.inputs, namedBy, List.map_map]
  congr 1
  exact (List.map_congr_left hdep).trans (List.map_id _)

/-- The key of the slow path is the key of the state it records. -/
theorem runPieces_eq_freshState (cfg : RustSetting) (digest : Digest) (keyHash : Str → Str)
    (rustc : Rustc) (p : RustcArgs) (w : RustWorld) :
    cfg.runPieces digest rustc p w =
      (cfg.freshState digest keyHash p ((namedBy rustc p w).inputs w) w).map
        (cfg.statePieces p w) := by
  rw [inputs_namedBy, RustSetting.runPieces, RustSetting.freshState]
  split
  next => rfl
  next =>
    cases hashExterns digest w p with
    | none => rfl
    | some externs =>
      cases (collectCrateInputs rustc p w).sources.mapM (hashSource digest cfg.roots w) with
      | none => rfl
      | some files => rfl

section Hit

variable (cfg : RustSetting) (digest : Digest) (keyHash : Str → Str) (p : RustcArgs)
  (info : DepInfoNames)

/-- A run in `w` recorded `state`; a run of the same command in `w'` finds the manifest, reads
`found` from its place and accepts it. -/
structure RustManifestHit (w w' : RustWorld) (state found : RustManifestState) : Prop where
  recorded : cfg.freshState digest keyHash p (info.inputs w) w = some state
  read : ∃ before after parsed, (∀ other ∈ before ++ after, other.LineFormed) ∧
    parseRustManifest (renderRustManifest (before ++ state :: after)) = some parsed ∧
      parsed[before.length]? = some found
  sameManifest : ∃ pieces, cfg.manifestPieces digest p w = some pieces ∧
    cfg.manifestPieces digest p w' = some pieces
  accepted : ∃ externs, hashExterns digest w' p = some externs ∧
    cfg.findRustStateMismatch digest w' found externs = none

/-- The contents have digests of the hasher's length. -/
def RustWorld.HasDigests (w : RustWorld) : Prop :=
  ∀ path data, w.files path = some data → IsKeyText (digest.hash data)

/-- Every hit serves the entry of the run that would ask rustc, which names the same files
and variables: one stream is hashed for both keys. -/
def ServesSlowPathEntry : Prop :=
  ∀ w w' state found, w.HasDigests digest → w'.HasDigests digest →
    RustManifestHit cfg digest keyHash p info w w' state found →
      ∃ fresh, cfg.freshState digest keyHash p (info.inputs w') w' = some fresh ∧
        cfg.statePieces p w' fresh = cfg.statePieces p w state ∧ fresh.key = found.key

/-- Nothing that a state is made of ends a line of the manifest. -/
structure LineSafe : Prop where
  roots : ∀ r ∈ cfg.roots.roots, '\n' ∉ r.canonical
  sources : ∀ path ∈ info.sources, '\n' ∉ path
  names : ∀ name ∈ info.names, name ≠ [] ∧ '=' ∉ name ∧ '\n' ∉ name
  externs : ∀ ext ∈ p.externs, ext.name ≠ [] ∧ '\n' ∉ ext.name

/-- The contents of the file are compared by other means than its canonical path. -/
def PinnedPath (path : Str) : Prop :=
  path = p.source ∨ ∃ ext ∈ p.externs, ext.path ≠ [] ∧ ext.path = path

def LocalizesBack (path : Str) : Prop := cfg.roots.localize (cfg.roots.canonicalize path) = path

variable {cfg digest keyHash p info} {w w' : RustWorld} {state found : RustManifestState}

/-! ## Recorded states read back -/

theorem notMem_escapeEnvDepValue (value : Str) : '\n' ∉ escapeEnvDepValue value := by
  intro hmem
  obtain ⟨c, -, hc⟩ := mem_flatMap.mp hmem
  split at hc
  next => exact absurd hc (by decide)
  next hne =>
    split at hc
    next => exact absurd hc (by decide)
    next =>
      split at hc
      next => exact absurd hc (by decide)
      next => exact hne (mem_singleton.mp hc).symm

theorem notMem_canonicalize {m : RootMap} {c : Char} (hm : ∀ r ∈ m.roots, c ∉ r.canonical)
    {path : Str} (hpath : c ∉ path) : c ∉ m.canonicalize path := by
  rw [RootMap.canonicalize]
  split
  next => exact hpath
  next r hr =>
    have hroot := (RootMap.find?_reverse_roots hr).1
    intro hmem
    rcases mem_append.mp hmem with hmem | hmem
    · exact hm r hroot hmem
    · exact hpath (mem_of_mem_drop hmem)

theorem freshState_eq_some {inputs : CrateInputs} :
    cfg.freshState digest keyHash p inputs w = some state ↔
      inputs.sources ≠ [] ∧ hashExterns digest w p = some state.externs ∧
        inputs.sources.mapM (hashSource digest cfg.roots w) = some state.files ∧
        state.envDeps = inputs.envDeps.map cfg.keyedEnvDep ∧
        state.key = cfg.computeKey keyHash p w state := by
  unfold RustSetting.freshState
  split
  next hnil => simp [hnil]
  next hne =>
    simp only [bind_eq_bind, bind_eq_some_iff, ne_eq, hne, not_false_eq_true, true_and, some.injEq]
    constructor
    · rintro ⟨externs, hexterns, files, hfiles, rfl⟩
      exact ⟨hexterns, hfiles, rfl, rfl⟩
    · rintro ⟨hexterns, hfiles, henv, hkey⟩
      obtain ⟨key, files, envDeps, externs⟩ := state
      refine ⟨externs, hexterns, files, hfiles, ?_⟩
      obtain rfl := henv
      exact congrArg (RustManifestState.mk · files _ externs) hkey.symm

theorem keyedEnvDep_name (env : DepEnv) : (cfg.keyedEnvDep env).name = env.name := by
  rw [RustSetting.keyedEnvDep]
  split <;> rfl

theorem lineFormed_of_freshState (hlines : LineSafe cfg p info)
    (hkey : ∀ text, IsKeyText (keyHash text)) (hdigests : w.HasDigests digest)
    (h : cfg.freshState digest keyHash p (info.inputs w) w = some state) : state.LineFormed := by
  obtain ⟨-, hexterns, hfiles, henv, hkeyed⟩ := freshState_eq_some.mp h
  refine ⟨hkeyed ▸ hkey _, ?_⟩
  intro r hr
  rw [RustManifestState.records, mem_append, mem_append] at hr
  rcases hr with (hr | hr) | hr
  · obtain ⟨file, hfile, rfl⟩ := mem_map.mp hr
    obtain ⟨path, hpath, hhash⟩ := (mem_of_mapM hfiles).2 file hfile
    obtain ⟨data, hdata, rfl⟩ := map_eq_some_iff.mp hhash
    exact ⟨hdigests path data hdata, notMem_canonicalize hlines.roots (hlines.sources path hpath)⟩
  · obtain ⟨ext, hext, rfl⟩ := mem_map.mp hr
    obtain ⟨crate, hcrate, hhash⟩ := (mem_hashExterns hexterns).2 ext hext
    have hname := hlines.externs crate hcrate
    rw [← hashExtern_name hhash] at hname
    refine ⟨?_, hname⟩
    unfold hashExtern at hhash
    split at hhash
    next =>
      rw [← some.inj hhash]
      exact .inl rfl
    next =>
      obtain ⟨data, hdata, rfl⟩ := map_eq_some_iff.mp hhash
      exact .inr (hdigests crate.path data hdata)
  · obtain ⟨dep, hdep, rfl⟩ := mem_map.mp hr
    rw [henv, DepInfoNames.inputs] at hdep
    obtain ⟨raw, hraw, rfl⟩ := mem_map.mp hdep
    obtain ⟨name, hname, rfl⟩ := mem_map.mp hraw
    obtain ⟨hne, heq, hbreak⟩ := hlines.names name hname
    have hvalue : ∀ value ∈ (w.env name).map escapeEnvDepValue, '\n' ∉ value := by
      intro value hvalue
      obtain ⟨raw, -, rfl⟩ := map_eq_some_iff.mp hvalue
      exact notMem_escapeEnvDepValue raw
    rw [RustSetting.keyedEnvDep]
    split
    next =>
      refine ⟨hne, heq, hbreak, ?_⟩
      intro value hmem
      obtain ⟨raw, hraw, rfl⟩ := map_eq_some_iff.mp hmem
      exact notMem_canonicalize hlines.roots (hvalue raw hraw)
    next => exact ⟨hne, heq, hbreak, hvalue⟩

theorem RustManifestHit.found_eq (h : RustManifestHit cfg digest keyHash p info w w' state found)
    (hstate : state.LineFormed) : found = state := by
  obtain ⟨before, after, parsed, hothers, hparsed, hfound⟩ := h.read
  have hall : ∀ st ∈ before ++ state :: after, st.LineFormed := by
    intro st hst
    rcases mem_append.mp hst with hmem | hmem
    · exact hothers st (mem_append_left _ hmem)
    · rcases mem_cons.mp hmem with rfl | hmem
      · exact hstate
      · exact hothers st (mem_append_right _ hmem)
  rw [parseRustManifest_render hall] at hparsed
  rw [← some.inj hparsed] at hfound
  simpa using hfound.symm

/-! ## What the comparison forces -/

theorem externs_eq_of_zip {xs ys : List RustExtern} (hlength : xs.length = ys.length)
    (h : (xs.zip ys).findSome? crateMismatch = none) : xs = ys := by
  induction xs generalizing ys with
  | nil => exact (length_eq_zero_iff.mp hlength.symm).symm
  | cons x xs ih =>
    cases ys with
    | nil => cases hlength
    | cons y ys =>
      rw [zip_cons_cons, findSome?_cons] at h
      cases hxy : crateMismatch (x, y) with
      | some why => simp [hxy] at h
      | none =>
        simp only [hxy] at h
        have hrest := ih (Nat.succ.inj hlength) h
        obtain ⟨name, value⟩ := x
        obtain ⟨name', value'⟩ := y
        have hsame : name = name' ∧ value = value' := by
          by_contra hne
          rw [crateMismatch] at hxy
          split at hxy
          next => cases hxy
          next hname =>
            split at hxy
            next => cases hxy
            next hvalue => exact hne ⟨not_not.mp hname, not_not.mp hvalue⟩
        rw [hsame.1, hsame.2, hrest]

theorem findRustStateMismatch_eq_none {externs : List RustExtern} :
    cfg.findRustStateMismatch digest w state externs = none ↔
      state.externs = externs ∧ (∀ env ∈ state.envDeps, cfg.envMismatch w env = none) ∧
        ∀ file ∈ state.files, w.staleFile digest cfg.roots file = none := by
  rw [RustSetting.findRustStateMismatch]
  constructor
  · intro h
    split at h
    next => cases h
    next hlength =>
      obtain ⟨hcrates, hrest⟩ := or_eq_none_iff.mp h
      obtain ⟨henv, hfiles⟩ := or_eq_none_iff.mp hrest
      exact ⟨externs_eq_of_zip (not_not.mp hlength) hcrates,
        findSome?_eq_none_iff.mp henv, findSome?_eq_none_iff.mp hfiles⟩
  · rintro ⟨rfl, henv, hfiles⟩
    have hcrates : (state.externs.zip state.externs).findSome? crateMismatch = none := by
      rw [findSome?_eq_none_iff]
      rintro ⟨a, b⟩ hab
      obtain ⟨i, hi, heq⟩ := getElem_of_mem hab
      rw [getElem_zip] at heq
      cases heq
      simp [crateMismatch]
    rw [if_neg (by simp), hcrates, findSome?_eq_none_iff.mpr henv,
      findSome?_eq_none_iff.mpr hfiles]
    rfl

theorem staleFile_eq_none {file : Str × Str} :
    w.staleFile digest cfg.roots file = none ↔
      (w.files (cfg.roots.localize file.1)).map digest.hash = some file.2 := by
  simp only [RustWorld.staleFile]
  cases (w.files (cfg.roots.localize file.1)).map digest.hash with
  | none => exact ⟨fun h => (by cases h), fun h => (by cases h)⟩
  | some actual =>
    simp only [some.injEq]
    by_cases heq : actual = file.2
    · rw [if_neg (not_not.mpr heq)]
      exact ⟨fun _ => heq, fun _ => rfl⟩
    · rw [if_pos heq]
      exact ⟨fun h => (by cases h), fun h => absurd h heq⟩

theorem extraEnvPieces_eq {pieces : List Str} (h : cfg.manifestPieces digest p w = some pieces)
    (h' : cfg.manifestPieces digest p w' = some pieces) :
    cfg.extraEnvPieces w = cfg.extraEnvPieces w' := by
  have hlength : (cfg.extraEnvPieces w).length = (cfg.extraEnvPieces w').length := by
    simp [RustSetting.extraEnvPieces]
  obtain ⟨externs, -, h⟩ := bind_eq_some_iff.mp h
  obtain ⟨source, -, h⟩ := bind_eq_some_iff.mp h
  obtain ⟨externs', -, h'⟩ := bind_eq_some_iff.mp h'
  obtain ⟨source', -, h'⟩ := bind_eq_some_iff.mp h'
  have hpieces := (some.inj h).trans (some.inj h').symm
  exact (append_inj' hpieces hlength).2

theorem servesSlowPathEntry_of_localizesBack (hlines : LineSafe cfg p info)
    (hkey : ∀ text, IsKeyText (keyHash text))
    (hback : ∀ path ∈ info.sources, LocalizesBack cfg path) :
    ServesSlowPathEntry cfg digest keyHash p info := by
  intro w w' state found hdigests hdigests' h
  obtain rfl := h.found_eq (lineFormed_of_freshState hlines hkey hdigests h.recorded)
  obtain ⟨hne, hexterns, hfiles, henv, hkeyed⟩ := freshState_eq_some.mp h.recorded
  obtain ⟨externs, hexterns', haccepted⟩ := h.accepted
  obtain ⟨rfl, henvSame, hfilesSame⟩ := findRustStateMismatch_eq_none.mp haccepted
  obtain ⟨pieces, hpieces, hpieces'⟩ := h.sameManifest
  have hfiles' : info.sources.mapM (hashSource digest cfg.roots w') = some found.files := by
    rw [← hfiles]
    apply mapM_congr
    intro path hpath
    obtain ⟨file, hfile, hhash⟩ := (mem_of_mapM hfiles).1 path hpath
    obtain ⟨data, -, rfl⟩ := map_eq_some_iff.mp hhash
    have hsame := staleFile_eq_none.mp (hfilesSame _ hfile)
    rw [hback path hpath] at hsame
    obtain ⟨data', hdata', hdigest⟩ := map_eq_some_iff.mp hsame
    rw [hhash, hashSource, hdata', map_some, hdigest]
  have henv' : (info.inputs w').envDeps.map cfg.keyedEnvDep = found.envDeps := by
    rw [henv]
    simp only [DepInfoNames.inputs, List.map_map]
    apply List.map_congr_left
    intro name hname
    have hdep : cfg.keyedEnvDep ⟨name, (w.env name).map escapeEnvDepValue⟩ ∈ found.envDeps := by
      rw [henv]
      exact List.mem_map_of_mem (List.mem_map_of_mem hname)
    have hvalue := henvSame _ hdep
    rw [RustSetting.envMismatch, keyedEnvDep_name] at hvalue
    simp only at hvalue
    split at hvalue
    next => cases hvalue
    next hsame =>
      have hdeps : ∀ a b : DepEnv, a.name = b.name → a.value = b.value → a = b := by
        rintro ⟨_, _⟩ ⟨_, _⟩ rfl rfl
        rfl
      refine hdeps _ _ ?_ (not_not.mp hsame)
      simp only [Function.comp_apply, keyedEnvDep_name]
  have hstate : cfg.statePieces p w' found = cfg.statePieces p w found := by
    simp only [RustSetting.statePieces, RustSetting.keyPieces, extraEnvPieces_eq hpieces hpieces']
  refine ⟨found, freshState_eq_some.mpr ⟨hne, hexterns', hfiles', henv'.symm, ?_⟩, hstate, rfl⟩
  rw [hkeyed, RustSetting.computeKey, RustSetting.computeKey, hstate]

/-! ## A file that is looked for elsewhere -/

/-- Contents that are compared at `f` of each place only: some change goes unnoticed. -/
theorem exists_unnoticed_change {α β : Type*} [DecidableEq α] (places : Finset α) (f : α → α)
    (pinned : α → Prop) (hpinned : ∀ a ∈ places, pinned a → f a = a) {a₁ : α}
    (h₁ : a₁ ∈ places) (hne : f a₁ ≠ a₁) {x y : β} (hxy : x ≠ y) :
    ∃ c c' : α → β, (∀ a, c a = x ∨ c a = y) ∧ (∀ a, c' a = x ∨ c' a = y) ∧
      (∀ a, pinned a → c a = c' a) ∧ (∀ a ∈ places, c' (f a) = c a) ∧
      ∃ a ∈ places, c a ≠ c' a := by
  by_cases hsurj : ∀ a ∈ places, a ∈ places.image f
  · -- `f` permutes the places: move the odd contents along
    have hcard : (places.image f).card = places.card :=
      le_antisymm Finset.card_image_le (Finset.card_le_card hsurj)
    have hinj : Set.InjOn f places := Finset.card_image_iff.mp hcard
    have himage : places.image f = places := (Finset.eq_of_subset_of_card_le hsurj hcard.le).symm
    have h₂ : f a₁ ∈ places := himage ▸ Finset.mem_image_of_mem f h₁
    have hfree₁ : ¬ pinned a₁ := fun hpin => hne (hpinned a₁ h₁ hpin)
    have hfree₂ : ¬ pinned (f a₁) := fun hpin => hne (hinj h₂ h₁ (hpinned _ h₂ hpin))
    refine ⟨fun a => if a = a₁ then y else x, fun a => if a = f a₁ then y else x, ?_, ?_, ?_, ?_,
      a₁, h₁, ?_⟩
    · intro a
      by_cases ha : a = a₁ <;> simp [ha]
    · intro a
      by_cases ha : a = f a₁ <;> simp [ha]
    · intro a hpin
      have ha₁ : a ≠ a₁ := fun heq => hfree₁ (heq ▸ hpin)
      have ha₂ : a ≠ f a₁ := fun heq => hfree₂ (heq ▸ hpin)
      simp [ha₁, ha₂]
    · intro a ha
      by_cases heq : a = a₁
      · simp [heq]
      · have hfne : f a ≠ f a₁ := fun hf => heq (hinj ha h₁ hf)
        simp [heq, hfne]
    · simp [hne.symm, hxy.symm]
  · -- a place that is looked at from nowhere
    push Not at hsurj
    obtain ⟨a₀, h₀, hunseen⟩ := hsurj
    have hseen : ∀ a ∈ places, f a ≠ a₀ := fun a ha heq =>
      hunseen (heq ▸ Finset.mem_image_of_mem f ha)
    have hfree : ¬ pinned a₀ := fun hpin => hseen a₀ h₀ (hpinned a₀ h₀ hpin)
    refine ⟨fun _ => x, fun a => if a = a₀ then y else x, fun _ => .inl rfl, ?_, ?_, ?_,
      a₀, h₀, ?_⟩
    · intro a
      by_cases ha : a = a₀ <;> simp [ha]
    · intro a hpin
      have ha : a ≠ a₀ := fun heq => hfree (heq ▸ hpin)
      simp [ha]
    · intro a ha
      simp [hseen a ha]
    · simp [hxy]

def worldWith (c : Str → Str) : RustWorld := ⟨fun path => some (c path), fun _ => none⟩

theorem hashSource_worldWith (c : Str → Str) (sources : List Str) :
    sources.mapM (hashSource digest cfg.roots (worldWith c)) =
      some (sources.map fun path => (cfg.roots.canonicalize path, digest.hash (c path))) :=
  mapM_pure

theorem hashExterns_worldWith {c c' : Str → Str}
    (h : ∀ path, PinnedPath p path → c path = c' path) :
    hashExterns digest (worldWith c) p = hashExterns digest (worldWith c') p := by
  unfold hashExterns
  congr 1
  apply mapM_congr
  intro ext hext
  unfold hashExtern
  split
  next => rfl
  next hpath =>
    simp only [worldWith, map_some]
    rw [h ext.path (.inr ⟨ext, hext, hpath, rfl⟩)]

theorem exists_hashExterns (digest : Digest) (p : RustcArgs) (c : Str → Str) :
    ∃ externs, hashExterns digest (worldWith c) p = some externs := by
  have hall : ∀ ext ∈ p.externs, ∃ e, hashExtern digest (worldWith c) ext = some e := by
    intro ext _
    unfold hashExtern
    split
    next => exact ⟨_, rfl⟩
    next => exact ⟨_, rfl⟩
  obtain ⟨hashed, hhashed⟩ := exists_mapM hall
  exact ⟨_, by rw [hashExterns, hhashed]; rfl⟩

theorem keyPieces_files_inj {files files' : List (Str × Str)} {envDeps : List DepEnv}
    {externs : List RustExtern} (hextra : cfg.extraEnvPieces w' = cfg.extraEnvPieces w)
    (hfiles : ∀ f ∈ files, f.2.all isHexDigit = true)
    (hfiles' : ∀ f ∈ files', f.2.all isHexDigit = true)
    (h : cfg.keyPieces p w' files' envDeps externs = cfg.keyPieces p w files envDeps externs) :
    files' = files := by
  unfold RustSetting.keyPieces at h
  rw [hextra] at h
  have hlists := append_cancel_left (append_cancel_right h)
  exact files_eq_of_flatMap hfiles' hfiles (append_cancel_right hlists)

theorem extraEnvPieces_worldWith (c c' : Str → Str) :
    cfg.extraEnvPieces (worldWith c) = cfg.extraEnvPieces (worldWith c') := rfl

theorem manifestPieces_worldWith {c : Str → Str} {externs : List RustExtern}
    (h : hashExterns digest (worldWith c) p = some externs) :
    cfg.manifestPieces digest p (worldWith c) =
      some (kRustManifestKeyVersion :: cfg.invocationPieces p ++
        [cfg.roots.canonicalize p.source, digest.hash (c p.source)] ++
        externs.map RustExtern.name ++ cfg.extraEnvPieces (worldWith c)) := by
  rw [RustSetting.manifestPieces, h]
  rfl

theorem hit_worldWith (hlines : LineSafe cfg p info) (hkey : ∀ text, IsKeyText (keyHash text))
    (hne : info.sources ≠ []) {c c' : Str → Str} (hdigests : (worldWith c).HasDigests digest)
    (hpinned : ∀ path, PinnedPath p path → c path = c' path) (hseen : ∀ path ∈ info.sources,
      c' (cfg.roots.localize (cfg.roots.canonicalize path)) = c path) :
    ∃ state, cfg.freshState digest keyHash p (info.inputs (worldWith c)) (worldWith c) =
        some state ∧
      RustManifestHit cfg digest keyHash p info (worldWith c) (worldWith c') state state := by
  obtain ⟨externs, hexterns⟩ := exists_hashExterns digest p c
  have hexterns' : hashExterns digest (worldWith c') p = some externs := by
    rw [← hashExterns_worldWith hpinned, hexterns]
  let inputs : RustManifestState :=
    ⟨[], info.sources.map fun path => (cfg.roots.canonicalize path, digest.hash (c path)),
      (info.inputs (worldWith c)).envDeps.map cfg.keyedEnvDep, externs⟩
  let state : RustManifestState :=
    { inputs with key := cfg.computeKey keyHash p (worldWith c) inputs }
  have hstate : cfg.freshState digest keyHash p (info.inputs (worldWith c)) (worldWith c) =
      some state :=
    freshState_eq_some.mpr ⟨hne, hexterns, hashSource_worldWith c info.sources, rfl, rfl⟩
  have hformed := lineFormed_of_freshState hlines hkey hdigests hstate
  refine ⟨state, hstate, hstate, ⟨[], [], [state], by simp, ?_, rfl⟩, ?_, externs, hexterns', ?_⟩
  · exact parseRustManifest_render (by simpa using hformed)
  · have hsource : c p.source = c' p.source := hpinned p.source (.inl rfl)
    refine ⟨_, manifestPieces_worldWith hexterns, ?_⟩
    rw [manifestPieces_worldWith hexterns', hsource, extraEnvPieces_worldWith c c']
  · refine findRustStateMismatch_eq_none.mpr ⟨rfl, ?_, ?_⟩
    · intro env henv
      obtain ⟨raw, hraw, rfl⟩ := mem_map.mp henv
      obtain ⟨name, -, rfl⟩ := mem_map.mp hraw
      simp only [RustSetting.envMismatch, keyedEnvDep_name]
      exact if_neg (not_not.mpr rfl)
    · intro file hfile
      obtain ⟨path, hpath, rfl⟩ := mem_map.mp hfile
      rw [staleFile_eq_none]
      simp only [worldWith, map_some, hseen path hpath]

theorem localizesBack_of_servesSlowPathEntry (hlines : LineSafe cfg p info)
    (hkey : ∀ text, IsKeyText (keyHash text))
    (hdigests : ∃ x y, x ≠ y ∧ IsKeyText (digest.hash x) ∧ IsKeyText (digest.hash y))
    (hpinned : ∀ path ∈ info.sources, PinnedPath p path → LocalizesBack cfg path)
    (h : ServesSlowPathEntry cfg digest keyHash p info) :
    ∀ path ∈ info.sources, LocalizesBack cfg path := by
  intro path hpath
  by_contra hstray
  obtain ⟨x, y, hxy, hx, hy⟩ := hdigests
  obtain ⟨c, c', hc, hc', hpin, hseen, changed, hchanged, hdiffers⟩ :=
    exists_unnoticed_change info.sources.toFinset
      (fun path => cfg.roots.localize (cfg.roots.canonicalize path)) (PinnedPath p)
      (fun path hmem => hpinned path (mem_toFinset.mp hmem)) (mem_toFinset.mpr hpath)
      hstray hxy
  have hworld : ∀ {c : Str → Str}, (∀ path, c path = x ∨ c path = y) →
      (worldWith c).HasDigests digest := by
    intro c hc path data hdata
    rw [← some.inj hdata]
    rcases hc path with heq | heq
    · rwa [heq]
    · rwa [heq]
  obtain ⟨state, hstate, hhit⟩ := hit_worldWith hlines hkey (ne_nil_of_mem hpath)
    (hworld hc) hpin (fun path hmem => hseen path (mem_toFinset.mpr hmem))
  obtain ⟨fresh, hfresh, hpieces, -⟩ := h _ _ state state (hworld hc) (hworld hc') hhit
  obtain ⟨-, hexterns, hfiles, henv, -⟩ := freshState_eq_some.mp hstate
  obtain ⟨-, hexterns', hfiles', henv', -⟩ := freshState_eq_some.mp hfresh
  have hsameExterns : fresh.externs = state.externs := by
    rw [← hashExterns_worldWith hpin, hexterns] at hexterns'
    exact (some.inj hexterns').symm
  have hsameEnv : fresh.envDeps = state.envDeps := henv'.trans henv.symm
  have hhex : ∀ {w : RustWorld} {files : List (Str × Str)},
      info.sources.mapM (hashSource digest cfg.roots w) = some files →
        ∀ f ∈ files, f.2.all isHexDigit = true := by
    intro w files hmap f hf
    obtain ⟨path, -, hhash⟩ := (mem_of_mapM hmap).2 f hf
    exact hashSource_hex hhash
  have hsameFiles : fresh.files = state.files := by
    rw [RustSetting.statePieces, RustSetting.statePieces, hsameExterns, hsameEnv] at hpieces
    exact keyPieces_files_inj (extraEnvPieces_worldWith c' c) (hhex hfiles) (hhex hfiles') hpieces
  have hfilesOf : ∀ {w : RustWorld}, (info.inputs w).sources = info.sources := rfl
  rw [hfilesOf, hashSource_worldWith] at hfiles hfiles'
  rw [← some.inj hfiles, ← some.inj hfiles', map_inj_left] at hsameFiles
  have hsame := (Prod.mk.inj (hsameFiles changed (mem_toFinset.mp hchanged))).2
  exact hdiffers (digest.injective hsame).symm

end Hit

/-- A manifest hit serves the entry of the slow path exactly when every source is found again
from its canonical path, for crates whose root file and extern files are. -/
theorem servesSlowPathEntry_iff (cfg : RustSetting) (digest : Digest) (keyHash : Str → Str)
    (p : RustcArgs) (info : DepInfoNames) (hlines : LineSafe cfg p info)
    (hkey : ∀ text, IsKeyText (keyHash text))
    (hdigests : ∃ x y, x ≠ y ∧ IsKeyText (digest.hash x) ∧ IsKeyText (digest.hash y))
    (hpinned : ∀ path ∈ info.sources, PinnedPath p path → LocalizesBack cfg path) :
    ServesSlowPathEntry cfg digest keyHash p info ↔
      ∀ path ∈ info.sources, LocalizesBack cfg path :=
  ⟨localizesBack_of_servesSlowPathEntry hlines hkey hdigests hpinned,
    servesSlowPathEntry_of_localizesBack hlines hkey⟩

/-! ## Concrete crates -/

/-- Short contents have digests of the hasher's length. -/
def paddedText (data : Str) : Str :=
  List.replicate (63 - (Digest.spelledOut data).length) '0' ++ '1' :: Digest.spelledOut data

theorem dropWhile_paddedText (data : Str) :
    (paddedText data).dropWhile (· == '0') = '1' :: Digest.spelledOut data := by
  rw [paddedText, dropWhile_append_of_pos]
  · rfl
  · intro c hc
    rw [eq_of_mem_replicate hc]
    rfl

theorem paddedText_injective : Function.Injective paddedText := by
  intro s t h
  have hdrop := congrArg (dropWhile (· == '0')) h
  rw [dropWhile_paddedText, dropWhile_paddedText] at hdrop
  exact Digest.spelledOut_injective (cons.inj hdrop).2

theorem all_isHexDigit_paddedText (data : Str) : (paddedText data).all isHexDigit = true := by
  have hspelled : (Digest.spelledOut data).all isHexDigit = true := Digest.ofContents.hex data
  rw [paddedText, all_append, all_cons, hspelled]
  simp [isHexDigit, isDigit]

def paddedDigest : Digest where
  hash := paddedText
  injective := paddedText_injective
  hex := all_isHexDigit_paddedText
  ne_nil data := by simp [paddedText]

def firstDigits (text : Str) : Str := (paddedText text).take kDigestHexLen

theorem isKeyText_of_hex {text : Str} (hlength : text.length = kDigestHexLen)
    (hhex : text.all isHexDigit = true) : IsKeyText text := by
  refine ⟨hlength, fun hmem => ?_, fun hmem => ?_⟩
  · exact absurd (all_eq_true.mp hhex _ hmem) (by decide)
  · exact absurd (all_eq_true.mp hhex _ hmem) (by decide)

theorem isKeyText_firstDigits (text : Str) : IsKeyText (firstDigits text) := by
  refine isKeyText_of_hex ?_ ?_
  · have hlength : kDigestHexLen ≤ (paddedText text).length := by
      simp only [paddedText, length_append, length_replicate, length_cons, kDigestHexLen]
      omega
    rw [firstDigits, length_take, Nat.min_eq_left hlength]
  · have hall := all_eq_true.mp (all_isHexDigit_paddedText text)
    exact all_eq_true.mpr fun c hc => hall c (mem_of_mem_take hc)

def rustSettingOf (specs : List String) : RustSetting :=
  ⟨fromSpecs bareHost (specs.map String.toList), "rustc 1".toList, [], [], false⟩

def crateOf (source : String) : RustcArgs :=
  rustOf ("rustc --crate-name x --emit=link --out-dir o " ++ source)

def sourcesOf (sources : List String) : DepInfoNames := ⟨sources.map String.toList, []⟩

/-- Sources below two roots with targets apart. -/
theorem servesSlowPathEntry_apart :
    ServesSlowPathEntry (rustSettingOf ["/w=/src", "/t=/out"]) paddedDigest firstDigits
      (crateOf "/w/lib.rs") (sourcesOf ["/t/gen.rs", "/w/lib.rs"]) := by
  have hback : ∀ path ∈ (sourcesOf ["/t/gen.rs", "/w/lib.rs"]).sources,
      LocalizesBack (rustSettingOf ["/w=/src", "/t=/out"]) path := by
    unfold LocalizesBack
    decide +kernel
  refine (servesSlowPathEntry_iff _ _ _ _ _ ⟨?_, ?_, ?_, ?_⟩ isKeyText_firstDigits ?_
    (fun path hpath _ => hback path hpath)).mpr hback
  · decide +kernel
  · decide +kernel
  · decide +kernel
  · decide +kernel
  · exact ⟨"1".toList, "2".toList, by decide, by decide, by decide⟩

def nestedSetting : RustSetting := rustSettingOf ["/a=/c", "/b=/c/d"]

def nestedSources : DepInfoNames := sourcesOf ["/a/d/f.rs", "/a/lib.rs"]

def beforeEdit : RustWorld :=
  worldOf [("/a/lib.rs", "mod"), ("/a/d/f.rs", "1"), ("/b/f.rs", "1")]

def afterEdit : RustWorld :=
  worldOf [("/a/lib.rs", "mod"), ("/a/d/f.rs", "2"), ("/b/f.rs", "1")]

def nestedFiles : RustManifestState :=
  ⟨[], [("/c/d/f.rs".toList, paddedText "1".toList), ("/c/lib.rs".toList, paddedText "mod".toList)],
    [], []⟩

def nestedState : RustManifestState :=
  { nestedFiles with
    key := nestedSetting.computeKey firstDigits (crateOf "/a/lib.rs") beforeEdit nestedFiles }

theorem nested_recorded :
    nestedSetting.freshState paddedDigest firstDigits (crateOf "/a/lib.rs")
      (nestedSources.inputs beforeEdit) beforeEdit = some nestedState := by
  decide +kernel

theorem hasDigests_worldOf {files : List (String × String)}
    (h : ∀ f ∈ files, (paddedText f.2.toList).length = kDigestHexLen) :
    (worldOf files).HasDigests paddedDigest := by
  intro path data hdata
  obtain ⟨f, hf, rfl⟩ := map_eq_some_iff.mp hdata
  exact isKeyText_of_hex (h f (mem_of_find?_eq_some hf)) (all_isHexDigit_paddedText _)

theorem nested_lineFormed : nestedState.LineFormed := by
  have hdigests : beforeEdit.HasDigests paddedDigest := hasDigests_worldOf (by decide)
  refine lineFormed_of_freshState ⟨?_, ?_, ?_, ?_⟩ isKeyText_firstDigits hdigests nested_recorded
  · decide +kernel
  · decide +kernel
  · decide +kernel
  · decide +kernel

theorem nested_hit :
    RustManifestHit nestedSetting paddedDigest firstDigits (crateOf "/a/lib.rs") nestedSources
      beforeEdit afterEdit nestedState nestedState where
  recorded := nested_recorded
  read := ⟨[], [], [nestedState], by simp,
    parseRustManifest_render (by simpa using nested_lineFormed), rfl⟩
  sameManifest := by
    obtain ⟨pieces, hpieces⟩ : ∃ pieces, nestedSetting.manifestPieces paddedDigest
        (crateOf "/a/lib.rs") beforeEdit = some pieces :=
      isSome_iff_exists.mp (by decide +kernel)
    refine ⟨pieces, hpieces, hpieces ▸ ?_⟩
    decide +kernel
  accepted := ⟨[], by decide +kernel, by decide +kernel⟩

/-- The canonical path of `/a/d/f.rs` leads to `/b/f.rs`: an edit of the first goes unnoticed
and the entry of the old contents is served. -/
theorem not_servesSlowPathEntry_nested :
    ¬ ServesSlowPathEntry nestedSetting paddedDigest firstDigits (crateOf "/a/lib.rs")
      nestedSources := by
  intro hserves
  have hbefore : beforeEdit.HasDigests paddedDigest := hasDigests_worldOf (by decide)
  have hafter : afterEdit.HasDigests paddedDigest := hasDigests_worldOf (by decide)
  obtain ⟨fresh, hfresh, hpieces, -⟩ := hserves _ _ _ _ hbefore hafter nested_hit
  have hsame : (nestedSetting.freshState paddedDigest firstDigits (crateOf "/a/lib.rs")
      (nestedSources.inputs afterEdit) afterEdit).map
        (nestedSetting.statePieces (crateOf "/a/lib.rs") afterEdit) =
      some (nestedSetting.statePieces (crateOf "/a/lib.rs") beforeEdit nestedState) := by
    rw [hfresh, map_some, hpieces]
  exact absurd hsame (by decide +kernel)

end Vcache

import Vcache.LinkHit
import Vcache.ManifestMerge
import Vcache.ManifestText
import Vcache.StepMachine

/-!
# Two links and one manifest

A link that misses puts its own state in front of the states it loaded when it
looked the manifest up, and stores the result. Nothing is read again before the
store, so what another link stored in between is overwritten. The manifest is a
text; what is written is read back as it was written.
-/

namespace Vcache

open Function List Option RecordLines

open StepMachine (Run)

variable {e : LinkManifestEntry} {before : LinkManifest}

def kLinkManifestHeader : Str := "vcache-linkmanifest-1".toList

def kMaxLinkManifestEntries : ℕ := 8

/-! ## The text of a manifest -/

def renderLinkManifest (entries : List LinkManifestEntry) : Str :=
  kLinkManifestHeader ++ ['\n'] ++ entries.flatMap (fun e =>
    "entry ".toList ++ e.resultKey ++ ['\n'] ++
      e.inputs.flatMap (fun f => "I ".toList ++ f.2 ++ " ".toList ++ f.1 ++ ['\n']) ++
      e.absent.flatMap (fun path => "A ".toList ++ path ++ ['\n']))

def LinkManifestEntry.withInput (e : LinkManifestEntry) (path digest : Str) : LinkManifestEntry :=
  { e with inputs := e.inputs ++ [(path, digest)] }

def LinkManifestEntry.withAbsent (e : LinkManifestEntry) (path : Str) : LinkManifestEntry :=
  { e with absent := e.absent ++ [path] }

/-- One line after the header; it belongs to the last entry. -/
def parseManifestLine (entries : List LinkManifestEntry) (line : Str) :
    Option (List LinkManifestEntry) :=
  if startsWith line "entry ".toList then
    if (line.drop 6).length = kDigestHexLen then
      some (entries ++ [{ resultKey := line.drop 6, inputs := [], absent := [] }])
    else none
  else match entries.getLast? with
    | none => none
    | some last =>
      if startsWith line "I ".toList then
        if line.length < 2 + kDigestHexLen + 2 then none
        else if (line.drop (2 + kDigestHexLen)).head? = some ' ' then
          some (entries.dropLast ++
            [last.withInput (line.drop (3 + kDigestHexLen)) ((line.drop 2).take kDigestHexLen)])
        else none
      else if startsWith line "A ".toList then
        some (entries.dropLast ++ [last.withAbsent (line.drop 2)])
      else none

def parseLinkManifest (text : Str) : Option (List LinkManifestEntry) :=
  readManifest kLinkManifestHeader parseManifestLine text

/-- `entries_of`: a manifest that does not parse is one without states. -/
def entriesOf (manifest : Option Str) : List LinkManifestEntry :=
  (manifest.bind parseLinkManifest).getD []

/-- The entry is written as the lines the parser expects. The recorded paths are from lines
of the trace log, and digests and keys are `kDigestHexLen` digits. -/
structure LinkManifestEntry.WellFormed (e : LinkManifestEntry) : Prop where
  key : e.resultKey.length = kDigestHexLen ∧ '\n' ∉ e.resultKey
  inputs : ∀ f ∈ e.inputs, (f.2.length = kDigestHexLen ∧ '\n' ∉ f.2) ∧ f.1 ≠ [] ∧ '\n' ∉ f.1
  absent : ∀ path ∈ e.absent, '\n' ∉ path

section RoundTrip

def inputLine (f : Str × Str) : Str := "I ".toList ++ f.2 ++ " ".toList ++ f.1

def absentLine (path : Str) : Str := "A ".toList ++ path

inductive LinkRecord where
  | input (f : Str × Str)
  | absent (path : Str)

def LinkRecord.line : LinkRecord → Str
  | input f => inputLine f
  | absent path => absentLine path

def LinkManifestEntry.push (e : LinkManifestEntry) : LinkRecord → LinkManifestEntry
  | .input f => e.withInput f.1 f.2
  | .absent path => e.withAbsent path

def linkManifestFormat : Format LinkManifestEntry LinkRecord Str where
  firstLine e := "entry ".toList ++ e.resultKey
  records e := e.inputs.map .input ++ e.absent.map .absent
  recordLine := LinkRecord.line

theorem linkManifestFormat_lines (e : LinkManifestEntry) :
    linkManifestFormat.lines e = ("entry ".toList ++ e.resultKey) ::
      (e.inputs.map inputLine ++ e.absent.map absentLine) := by
  change _ :: (e.inputs.map LinkRecord.input ++ e.absent.map LinkRecord.absent).map _ = _
  rw [List.map_append, List.map_map, List.map_map]
  rfl

theorem renderLinkManifest_eq (entries : List LinkManifestEntry) :
    renderLinkManifest entries =
      writeManifest linkManifestFormat kLinkManifestHeader entries := by
  rw [writeManifest, flatMap_cons, flatMap_assoc, renderLinkManifest]
  congr 1
  refine flatMap_congr fun e _ => ?_
  rw [linkManifestFormat_lines, flatMap_cons, flatMap_append, flatMap_map,
    flatMap_map, ← append_assoc]
  rfl

theorem line_of_wellFormed (h : e.WellFormed) {line : Str}
    (hline : line ∈ linkManifestFormat.lines e) : line ≠ [] ∧ '\n' ∉ line := by
  rcases mem_cons.mp hline with rfl | hline
  · exact line_of_keyword "entry ".toList (by decide) h.key.2
  · obtain ⟨r, hr, rfl⟩ := mem_map.mp hline
    rcases mem_append.mp hr with hr | hr
    · obtain ⟨f, hf, rfl⟩ := mem_map.mp hr
      obtain ⟨⟨-, hdigest⟩, -, hpath⟩ := h.inputs f hf
      change inputLine f ≠ [] ∧ '\n' ∉ inputLine f
      exact ⟨by simp [inputLine], by simp [inputLine, hdigest, hpath]⟩
    · obtain ⟨path, hpath, rfl⟩ := mem_map.mp hr
      exact line_of_keyword "A ".toList (by decide) (h.absent path hpath)

theorem parse_inputLine (entries : List LinkManifestEntry) (e : LinkManifestEntry)
    {f : Str × Str} (hf : f.2.length = kDigestHexLen ∧ f.1 ≠ []) :
    parseManifestLine (entries ++ [e]) (inputLine f) =
      some (entries ++ [e.withInput f.1 f.2]) := by
  obtain ⟨path, digest⟩ := f
  obtain ⟨hdigest, hpath⟩ := hf
  have hpos : 0 < path.length := length_pos_iff.mpr hpath
  have hshape : inputLine (path, digest) = 'I' :: ' ' :: (digest ++ ' ' :: path) := by
    simp [inputLine]
  have hlong : ¬ (inputLine (path, digest)).length < 2 + kDigestHexLen + 2 := by
    simp [hshape, ← hdigest]
    omega
  have hspace : ((inputLine (path, digest)).drop (2 + kDigestHexLen)).head? = some ' ' := by
    rw [hshape, ← hdigest, Nat.add_comm]
    simp
  have hrest : (inputLine (path, digest)).drop (3 + kDigestHexLen) = path := by
    rw [hshape, ← hdigest, Nat.add_comm]
    simp
  have htake : ((inputLine (path, digest)).drop 2).take kDigestHexLen = digest := by
    rw [hshape, ← hdigest]
    simp
  have hkind : startsWith (inputLine (path, digest)) "entry ".toList = false ∧
      startsWith (inputLine (path, digest)) "I ".toList = true := by
    rw [hshape]
    exact ⟨rfl, rfl⟩
  rw [parseManifestLine, hkind.1, hkind.2]
  simp [hlong, hspace, hrest, htake]

theorem parse_absentLine (entries : List LinkManifestEntry) (e : LinkManifestEntry) (path : Str) :
    parseManifestLine (entries ++ [e]) (absentLine path) =
      some (entries ++ [e.withAbsent path]) := by
  simp [parseManifestLine, absentLine, startsWith]

theorem parse_keyLine (entries : List LinkManifestEntry) {key : Str}
    (h : key.length = kDigestHexLen) :
    parseManifestLine entries ("entry ".toList ++ key) =
      some (entries ++ [{ resultKey := key, inputs := [], absent := [] }]) := by
  have hdrop : ("entry ".toList ++ key).drop 6 = key := rfl
  rw [parseManifestLine, if_pos (startsWith_append _ key), hdrop, if_pos h]

theorem readBy_parseManifestLine (h : e.WellFormed) :
    linkManifestFormat.ReadBy parseManifestLine
      (fun e => { resultKey := e.resultKey, inputs := [], absent := [] })
      LinkManifestEntry.push e where
  first before := parse_keyLine before h.key.1
  record before last r hr := by
    rcases mem_append.mp hr with hr | hr
    · obtain ⟨f, hf, rfl⟩ := mem_map.mp hr
      exact parse_inputLine before last ⟨(h.inputs f hf).1.1, (h.inputs f hf).2.1⟩
    · obtain ⟨path, -, rfl⟩ := mem_map.mp hr
      exact parse_absentLine before last path
  whole := by
    change (e.inputs.map LinkRecord.input ++ e.absent.map LinkRecord.absent).foldl _ _ = _
    rw [foldl_append, foldl_map, foldl_map,
      Format.foldl_push (fun (e : LinkManifestEntry) inputs =>
        { e with inputs := e.inputs ++ inputs }) (by simp)
          (by simp [LinkManifestEntry.push, LinkManifestEntry.withInput]),
      Format.foldl_push (fun (e : LinkManifestEntry) absent =>
        { e with absent := e.absent ++ absent }) (by simp)
          (by simp [LinkManifestEntry.push, LinkManifestEntry.withAbsent])]
    rfl

variable {entries : List LinkManifestEntry}

theorem parseLinkManifest_render (h : ∀ e ∈ entries, e.WellFormed) :
    parseLinkManifest (renderLinkManifest entries) = some entries := by
  rw [renderLinkManifest_eq]
  exact readManifest_writeManifest (by decide)
    (fun e he => readBy_parseManifestLine (h e he)) (fun e he line => line_of_wellFormed (h e he))

theorem entriesOf_renderLinkManifest (h : ∀ e ∈ entries, e.WellFormed) :
    entriesOf (some (renderLinkManifest entries)) = entries := by
  rw [entriesOf, bind_some, parseLinkManifest_render h, getD_some]

end RoundTrip

/-! ## What is read is well formed -/

theorem parseManifestLine_wellFormed {entries' : List LinkManifestEntry} {line : Str}
    (hline : '\n' ∉ line) (h : parseManifestLine entries line = some entries')
    (hentries : ∀ e ∈ entries, e.WellFormed) : ∀ e ∈ entries', e.WellFormed := by
  have hdrop (n : ℕ) : '\n' ∉ line.drop n := fun hmem => hline (mem_of_mem_drop hmem)
  have hothers (e : LinkManifestEntry) (he : e ∈ entries.dropLast) : e.WellFormed :=
    hentries e (dropLast_subset _ he)
  revert h
  fun_cases parseManifestLine entries line <;> rintro ⟨⟩
  next hkey => exact forall_mem_concat.mpr ⟨hentries, ⟨hkey, hdrop 6⟩, by simp, by simp⟩
  next last hlast _ hlong _ =>
    obtain ⟨key, inputs, absent⟩ := hentries last (mem_of_getLast? hlast)
    refine forall_mem_concat.mpr ⟨hothers, key, forall_mem_concat.mpr ⟨inputs, ?_⟩, absent⟩
    refine ⟨⟨?_, fun hmem => hdrop 2 (mem_of_mem_take hmem)⟩, ?_, hdrop _⟩
    · rw [length_take, length_drop]
      omega
    · intro hnil
      rw [drop_eq_nil_iff] at hnil
      omega
  next last hlast _ _ =>
    obtain ⟨key, inputs, absent⟩ := hentries last (mem_of_getLast? hlast)
    exact forall_mem_concat.mpr ⟨hothers, key, inputs, forall_mem_concat.mpr ⟨absent, hdrop 2⟩⟩

theorem wellFormed_of_lines {lines : List Str} (hlines : ∀ line ∈ lines, '\n' ∉ line)
    {entries' : List LinkManifestEntry} (h : lines.foldlM parseManifestLine entries = some entries')
    (hentries : ∀ e ∈ entries, e.WellFormed) : ∀ e ∈ entries', e.WellFormed := by
  induction lines generalizing entries with
  | nil =>
    obtain rfl : entries = entries' := by simpa using h
    exact hentries
  | cons line lines ih =>
    rw [foldlM_cons] at h
    obtain ⟨next, hnext, h⟩ := bind_eq_some_iff.mp h
    exact ih (fun l hl => hlines l (mem_cons_of_mem _ hl)) h
      (parseManifestLine_wellFormed (hlines line mem_cons_self) hnext hentries)

theorem wellFormed_of_mem_entriesOf {manifest : Option Str}
    (he : e ∈ entriesOf manifest) : e.WellFormed := by
  rw [entriesOf] at he
  cases hparsed : manifest.bind parseLinkManifest with
  | none =>
    rw [hparsed] at he
    simp at he
  | some entries =>
    rw [hparsed, getD_some] at he
    obtain ⟨text, -, hparse⟩ := bind_eq_some_iff.mp hparsed
    rw [parseLinkManifest, readManifest] at hparse
    split at hparse
    next => cases hparse
    next header lines hsplit =>
      split at hparse
      next =>
        refine wellFormed_of_lines (fun line hline => ?_) hparse (by simp) e he
        have hmem : line ∈ splitSkipEmpty '\n' text := hsplit ▸ mem_cons_of_mem _ hline
        exact notMem_of_mem_split (mem_filter.mp hmem).1
      next => cases hparse

/-! ## Two links that miss -/

/-- The states a store writes: the fresh one, and what was loaded without its key. -/
def updatedEntries (fresh : LinkManifestEntry) (entries : List LinkManifestEntry) :
    List LinkManifestEntry :=
  fresh :: (entries.filter (fun e => e.resultKey ≠ fresh.resultKey)).take
    (kMaxLinkManifestEntries - 1)

/-- It is the merge of `core/manifest.h`, by result key. -/
theorem updatedEntries_eq (fresh : LinkManifestEntry) (entries : List LinkManifestEntry) :
    updatedEntries fresh entries =
      prependManifestState LinkManifestEntry.resultKey fresh entries :=
  (prependManifestState_eq fresh entries).symm

theorem wellFormed_updatedEntries {fresh : LinkManifestEntry} (hfresh : fresh.WellFormed)
    (hentries : ∀ e ∈ entries, e.WellFormed) :
    ∀ e ∈ updatedEntries fresh entries, e.WellFormed := by
  intro e he
  rcases mem_cons.mp he with rfl | he
  · exact hfresh
  · exact hentries e (mem_filter.mp (mem_of_mem_take he)).1

/-- A manifest as stored: no text, or one whose entries have distinct keys. -/
structure LinkManifest where
  text : Option Str
  distinct : ((entriesOf text).map LinkManifestEntry.resultKey).Nodup

abbrev LinkState := { e : LinkManifestEntry // e.WellFormed }

def LinkState.key (state : LinkState) : Str := state.1.resultKey

namespace LinkManifest

def entries (m : LinkManifest) : List LinkManifestEntry := entriesOf m.text

def keys (m : LinkManifest) : Finset Str := identities LinkManifestEntry.resultKey m.entries

def missing : LinkManifest where
  text := none
  distinct := List.nodup_nil

theorem entriesOf_update (fresh : LinkState) (m : LinkManifest) :
    entriesOf (some (renderLinkManifest (updatedEntries fresh.1 m.entries))) =
      updatedEntries fresh.1 m.entries :=
  entriesOf_renderLinkManifest
    (wellFormed_updatedEntries fresh.2 (fun _ he => wellFormed_of_mem_entriesOf he))

/-- The manifest a link stores that has loaded `m`. -/
def update (m : LinkManifest) (fresh : LinkState) : LinkManifest where
  text := some (renderLinkManifest (updatedEntries fresh.1 m.entries))
  distinct := by
    rw [entriesOf_update, updatedEntries_eq]
    exact nodup_prependManifestState fresh.1 m.distinct

theorem entries_update (m : LinkManifest) (fresh : LinkState) :
    (m.update fresh).entries = updatedEntries fresh.1 m.entries := entriesOf_update fresh m

theorem keys_update {m : LinkManifest} {fresh : LinkState}
    (h : (insert fresh.key m.keys).card ≤ kMaxLinkManifestEntries) :
    (m.update fresh).keys = insert fresh.key m.keys := by
  rw [keys, entries_update, updatedEntries_eq]
  exact identities_prependManifestState m.distinct h

end LinkManifest

inductive Linker where
  | first | second
  deriving DecidableEq

/-- Where a link is. From its first lookup on it has the manifest of its last one in hand. -/
inductive LinkPhase where
  | start
  | looking (loaded : LinkManifest)
  | linked (loaded : LinkManifest)
  | stored (loaded : LinkManifest)
  | done

def LinkPhase.loaded : LinkPhase → Option LinkManifest
  | start => none
  | looking loaded => some loaded
  | linked loaded => some loaded
  | stored loaded => some loaded
  | done => none

/-- The disk layer, as far as one pre-key goes, and the two links. -/
structure LinkCache where
  manifest : LinkManifest
  results : List Str
  phase : Linker → LinkPhase

inductive LinkEvent where
  /-- `load_entries`, and no entry is a hit. -/
  | load (run : Linker)
  /-- The linker runs under the tracer. -/
  | link (run : Linker)
  | putResult (run : Linker)
  | putManifest (run : Linker)
  deriving DecidableEq

namespace LinkCache

def goto (s : LinkCache) (run : Linker) (phase : LinkPhase) : LinkCache :=
  { s with phase := Function.update s.phase run phase }

/-- One move of a link; `fresh` are the states the links record. -/
def step (fresh : Linker → LinkState) (s : LinkCache) : LinkEvent → Option LinkCache
  | .load run => match s.phase run with
    | .start => some (s.goto run (.looking s.manifest))
    -- the lookup that follows the wait for another link's lease
    | .looking _ => some (s.goto run (.looking s.manifest))
    | _ => none
  | .link run => match s.phase run with
    | .looking loaded => some (s.goto run (.linked loaded))
    | _ => none
  | .putResult run => match s.phase run with
    | .linked loaded =>
      some { s.goto run (.stored loaded) with results := (fresh run).key :: s.results }
    | _ => none
  | .putManifest run => match s.phase run with
    | .stored loaded => some { s.goto run .done with manifest := loaded.update (fresh run) }
    | _ => none

def start (before : LinkManifest) : LinkCache where
  manifest := before
  results := []
  phase := fun _ => .start

/-- Any order of moves is a run. -/
abbrev Runs (fresh : Linker → LinkState) (s : LinkCache) (events : List LinkEvent)
    (t : LinkCache) : Prop :=
  Run (step fresh) (fun _ _ => True) s events t

variable {fresh : Linker → LinkState} {s s' t : LinkCache} {events : List LinkEvent}

/-- A move loads the manifest, goes on with what is loaded, or stores. -/
inductive Move (fresh : Linker → LinkState) (s : LinkCache) : LinkEvent → LinkCache → Prop where
  | load {run : Linker} {s' : LinkCache} (hphase : s.phase run ≠ .done)
      (hmanifest : s'.manifest = s.manifest)
      (hnext : s'.phase = Function.update s.phase run (.looking s.manifest)) :
      Move fresh s (.load run) s'
  | advance {e : LinkEvent} {run : Linker} {phase : LinkPhase} {s' : LinkCache}
      (hevent : e = .link run ∨ e = .putResult run) (hphase : s.phase run ≠ .done)
      (hsame : phase.loaded = (s.phase run).loaded) (hdone : phase ≠ .done)
      (hmanifest : s'.manifest = s.manifest)
      (hnext : s'.phase = Function.update s.phase run phase) : Move fresh s e s'
  | store {run : Linker} {loaded : LinkManifest} {s' : LinkCache}
      (hphase : s.phase run = .stored loaded)
      (hmanifest : s'.manifest = loaded.update (fresh run))
      (hnext : s'.phase = Function.update s.phase run .done) : Move fresh s (.putManifest run) s'

theorem move_of_step {e : LinkEvent} (h : step fresh s e = some s') : Move fresh s e s' := by
  revert h
  fun_cases step fresh s e <;> rintro ⟨⟩
  next hphase => exact .load (by simp [hphase]) rfl rfl
  next hphase => exact .load (by simp [hphase]) rfl rfl
  next loaded hphase =>
    exact .advance (.inl rfl) (by simp [hphase]) (by rw [hphase]; rfl)
      (by simp : LinkPhase.linked loaded ≠ .done) rfl rfl
  next loaded hphase =>
    exact .advance (.inr rfl) (by simp [hphase]) (by rw [hphase]; rfl)
      (by simp : LinkPhase.stored loaded ≠ .done) rfl rfl
  next hphase => exact .store hphase rfl rfl

variable {run : Linker}

theorem store_of_step (h : step fresh s (.putManifest run) = some s') :
    ∃ loaded, s.phase run = .stored loaded ∧ s'.manifest = loaded.update (fresh run) ∧
      s'.phase = Function.update s.phase run .done := by
  cases move_of_step h with
  | advance hevent => rcases hevent with hevent | hevent <;> cases hevent
  | store hphase hmanifest hnext => exact ⟨_, hphase, hmanifest, hnext⟩

theorem update_done {phase : Linker → LinkPhase} {other : Linker} {next : LinkPhase}
    (hrun : phase run ≠ .done) (h : phase other = .done) :
    Function.update phase run next other = .done := by
  rwa [update_of_ne]
  rintro rfl
  exact hrun h

theorem Move.done {e : LinkEvent} (h : Move fresh s e s')
    (hdone : s.phase run = .done) : s'.phase run = .done := by
  cases h with
  | load hphase _ hnext | advance _ hphase _ _ _ hnext => rw [hnext, update_done hphase hdone]
  | store hphase _ hnext => rw [hnext, update_done (by simp [hphase]) hdone]

theorem done_of_runs (h : Runs fresh s events t)
    (hdone : s.phase run = .done) : t.phase run = .done :=
  h.invariant (fun _ _ _ hstep _ hs => (move_of_step hstep).done hs) hdone

/-- Until the first store the manifest is what it was, and so is what the links loaded. -/
def Before (before : LinkManifest) (s : LinkCache) : Prop :=
  (∃ run, s.phase run = .done) ∨
    s.manifest = before ∧ ∀ run loaded, (s.phase run).loaded = some loaded → loaded = before

theorem before_move {e : LinkEvent} (h : Move fresh s e s')
    (hs : Before before s) : Before before s' := by
  rcases hs with ⟨run, hdone⟩ | ⟨hmanifest, hloaded⟩
  · exact .inl ⟨run, h.done hdone⟩
  cases h with
  | @load run _ _ hsame hnext =>
    refine .inr ⟨hsame.trans hmanifest, fun other loaded h => ?_⟩
    rw [hnext] at h
    by_cases heq : other = run
    · subst heq
      rw [update_self] at h
      exact (some.inj h).symm.trans hmanifest
    · rw [update_of_ne heq] at h
      exact hloaded other loaded h
  | @advance _ run phase _ _ _ hphase _ hsame hnext =>
    refine .inr ⟨hsame.trans hmanifest, fun other loaded h => ?_⟩
    rw [hnext] at h
    by_cases heq : other = run
    · subst heq
      rw [update_self, hphase] at h
      exact hloaded other loaded h
    · rw [update_of_ne heq] at h
      exact hloaded other loaded h
  | @store run _ _ _ _ hnext => exact .inl ⟨run, by rw [hnext, update_self]⟩

theorem before_of_runs (h : Runs fresh (start before) events t) :
    Before before t :=
  h.invariant (fun _ _ _ hstep _ hs => before_move (move_of_step hstep) hs)
    (.inr ⟨rfl, fun _ _ h => by cases h⟩)

/-- Between the stores the second link either loads what the first stored or keeps what it had
in hand. -/
theorem loaded_between (h : Runs fresh s events t) (hfirst : s.phase .first = .done)
    (hsecond : t.phase .second ≠ .done) :
    (t.phase .second).loaded =
      if .load .second ∈ events then some s.manifest else (s.phase .second).loaded := by
  -- no store lies in the run: the first link's is over and the second's would be its last move
  suffices hboth : t.manifest = s.manifest ∧ (t.phase .second).loaded =
      if .load .second ∈ events then some s.manifest else (s.phase .second).loaded from hboth.2
  induction h with
  | nil s => simp
  | @cons s s' t e events hstep _ hrest ih =>
    have hmove := move_of_step hstep
    obtain ⟨hkeep, hloaded⟩ := ih (hmove.done hfirst) hsecond
    have hnot : s'.phase .second ≠ .done := fun hdone => hsecond (done_of_runs hrest hdone)
    cases hmove with
    | @load run _ hphase hmanifest hnext =>
      cases run with
      | first => exact absurd hfirst hphase
      | second =>
        refine ⟨hkeep.trans hmanifest, ?_⟩
        rw [hloaded, hmanifest, hnext, update_self, if_pos mem_cons_self]
        exact ite_self _
    | @advance _ run phase _ hevent hphase hsame hdone hmanifest hnext =>
      cases run with
      | first => exact absurd hfirst hphase
      | second =>
        refine ⟨hkeep.trans hmanifest, ?_⟩
        have hmem : .load .second ∈ e :: events ↔ .load .second ∈ events := by
          rcases hevent with rfl | rfl <;> simp
        rw [hloaded, hmanifest, hnext, update_self, hsame]
        simp only [hmem]
    | @store run _ _ hphase hmanifest hnext =>
      cases run with
      | first => exact absurd (hphase.symm.trans hfirst) (by simp)
      | second => exact absurd (by rw [hnext, update_self]) hnot

/-- What the two stores leave: the second is based on what the second link loaded last. -/
theorem manifest_of_stores {pre mid : List LinkEvent} {final : LinkCache}
    (hrun : Runs fresh (start before)
      (pre ++ .putManifest .first :: (mid ++ [.putManifest .second])) final) :
    final.manifest = (if .load .second ∈ mid then before.update (fresh .first)
      else before).update (fresh .second) := by
  obtain ⟨s, hpre, hrun⟩ := hrun.append
  cases hrun with
  | @cons _ s₁ _ _ _ hput₁ _ hrun =>
    obtain ⟨s₂, hmid, hrun⟩ := hrun.append
    cases hrun with
    | @cons _ _ _ _ _ hput₂ _ hrun =>
      cases hrun
      obtain ⟨loaded₁, hphase₁, hmanifest₁, hnext₁⟩ := store_of_step hput₁
      obtain ⟨loaded₂, hphase₂, hmanifest₂, -⟩ := store_of_step hput₂
      have hfirst : s₁.phase .first = .done := by rw [hnext₁, update_self]
      have hsecond : s₂.phase .second ≠ .done := by simp [hphase₂]
      have hbetween := loaded_between hmid hfirst hsecond
      have hnone : ¬ ∃ run, s.phase run = .done := by
        rintro ⟨run, hdone⟩
        cases run with
        | first => exact absurd (hphase₁.symm.trans hdone) (by simp)
        | second => exact hsecond (done_of_runs hmid ((move_of_step hput₁).done hdone))
      obtain ⟨-, hloaded⟩ := (before_of_runs hpre).resolve_left hnone
      have hloaded₁ : loaded₁ = before := hloaded .first loaded₁ (by rw [hphase₁]; rfl)
      have hsame : s₁.phase .second = s.phase .second := by
        rw [hnext₁, update_of_ne (by simp)]
      rw [hmanifest₂]
      congr 1
      rw [hphase₂, hmanifest₁, hloaded₁, hsame] at hbetween
      split at hbetween
      next hreread =>
        rw [if_pos hreread]
        exact some.inj hbetween
      next hreread =>
        rw [if_neg hreread]
        exact hloaded .second loaded₂ hbetween.symm

/-- The manifest after both stores holds the states of both links and all it held before,
unless they are too many, exactly when the second link loaded it after the first had stored
it or the first link's state was in it before. -/
theorem holdsStates_iff_loadedAfter (fresh : Linker → LinkState)
    (hkeys : (fresh .first).key ≠ (fresh .second).key) (before : LinkManifest)
    (hfits : (insert (fresh .second).key (insert (fresh .first).key before.keys)).card ≤
      kMaxLinkManifestEntries)
    {pre mid : List LinkEvent} {final : LinkCache} (hrun : Runs fresh (start before)
      (pre ++ .putManifest .first :: (mid ++ [.putManifest .second])) final) :
    ((fresh .first).key ∈ final.manifest.keys ∧ (fresh .second).key ∈ final.manifest.keys ∧
        before.keys ⊆ final.manifest.keys) ↔
      .load .second ∈ mid ∨ (fresh .first).key ∈ before.keys := by
  have hfits₁ : (insert (fresh .first).key before.keys).card ≤ kMaxLinkManifestEntries :=
    (Finset.card_le_card (Finset.subset_insert _ _)).trans hfits
  have hfits₂ : (insert (fresh .second).key before.keys).card ≤ kMaxLinkManifestEntries :=
    (Finset.card_le_card (Finset.insert_subset_insert _ (Finset.subset_insert _ _))).trans hfits
  rw [manifest_of_stores hrun]
  by_cases hreread : .load .second ∈ mid
  · rw [if_pos hreread, LinkManifest.keys_update (by rwa [LinkManifest.keys_update hfits₁]),
      LinkManifest.keys_update hfits₁]
    refine iff_of_true ⟨?_, ?_, ?_⟩ (.inl hreread)
    · exact Finset.mem_insert_of_mem (Finset.mem_insert_self _ _)
    · exact Finset.mem_insert_self _ _
    · exact (Finset.subset_insert _ _).trans (Finset.subset_insert _ _)
  · rw [if_neg hreread, LinkManifest.keys_update hfits₂]
    constructor
    · rintro ⟨hfirst, -, -⟩
      exact .inr (Finset.mem_of_mem_insert_of_ne hfirst hkeys)
    · intro h
      have hfirst := h.resolve_left hreread
      exact ⟨Finset.mem_insert_of_mem hfirst, Finset.mem_insert_self _ _,
        Finset.subset_insert _ _⟩

/-! ## A run without a second lookup -/

def plainState (digit : Char) (h : digit ≠ '\n') : LinkState where
  val := { resultKey := List.replicate kDigestHexLen digit, inputs := [], absent := [] }
  property :=
    { key := ⟨List.length_replicate, by simp [h.symm]⟩
      inputs := by simp
      absent := by simp }

def plainStates : Linker → LinkState
  | .first => plainState 'a' (by decide)
  | .second => plainState 'b' (by decide)

theorem plainStates_ne : (plainStates .first).key ≠ (plainStates .second).key := by decide

theorem card_plainStates :
    (insert (plainStates .second).key
      (insert (plainStates .first).key LinkManifest.missing.keys)).card ≤
        kMaxLinkManifestEntries :=
  (Finset.card_insert_le _ _).trans
    (Nat.succ_le_succ ((Finset.card_insert_le _ _).trans (by decide)))

/-- The second link looks up, waits for the first and looks up again. -/
theorem holdsStates_iff_loadedAfter_lease :
    ∃ final, Runs plainStates (start .missing)
      ([.load .first, .load .second, .link .first, .putResult .first] ++ .putManifest .first ::
        ([.load .second, .link .second, .putResult .second] ++ [.putManifest .second])) final ∧
      (plainStates .first).key ∈ final.manifest.keys ∧
        (plainStates .second).key ∈ final.manifest.keys ∧
          LinkManifest.missing.keys ⊆ final.manifest.keys := by
  refine Exists.imp (fun final hrun => ⟨hrun, ?_⟩) ⟨_, StepMachine.run_of_exec rfl⟩
  exact (holdsStates_iff_loadedAfter plainStates plainStates_ne .missing card_plainStates
    hrun).mpr (.inl mem_cons_self)

/-- Two links that look up before either stores: the first one's state is lost. -/
theorem state_lost_of_both_loaded :
    ∃ final, Runs plainStates (start .missing)
      ([.load .first, .load .second, .link .first, .link .second, .putResult .first] ++
        .putManifest .first :: ([.putResult .second] ++ [.putManifest .second])) final ∧
      (insert (plainStates .second).key
        (insert (plainStates .first).key LinkManifest.missing.keys)).card ≤
          kMaxLinkManifestEntries ∧
      (plainStates .first).key ∉ final.manifest.keys := by
  refine Exists.imp (fun final hrun => ⟨hrun, card_plainStates, ?_⟩)
    ⟨_, StepMachine.run_of_exec rfl⟩
  rw [manifest_of_stores hrun, if_neg (by decide), LinkManifest.keys_update (by decide)]
  decide

end LinkCache

end Vcache

import Mathlib.Data.Fintype.EquivFin
import Vcache.LinkKey
import Vcache.QueryProcess
import Vcache.RootRoundTrip
import Vcache.Trace

/-!
# Link hits across directories

A link opens files it finds through its arguments; the driver resolves relative
ones against its working directory. The entry a link leaves behind names what it
read and what it found absent by absolute canonical path, and the pre-key names
the rest as spelled. A hit in another directory is sound, whatever stands at the
paths that are not pinned, exactly when the link there looks only at paths the trace
or the pre-key pins and no digest of a named input is taken for another text of the
first pre-key.
-/

namespace Vcache

open List

open QueryProcess (Process)

variable {path : Str} {fs₂ : FileSystem}

/-- What opening a path, relative or not, finds from a working directory. -/
def openFrom (host : Host) (fs : FileSystem) (path : Str) : Option Str :=
  fs (absoluteLexical host path)

def hashFileFrom (digest : Digest) (host : Host) (fs : FileSystem) (path : Str) : Option Str :=
  (openFrom host fs path).map digest.hash

/-! ## The link as a process -/

def openAll : List Str → Process Str (Option Str) Unit
  | [] => .done ()
  | path :: paths => .ask path (fun _ => openAll paths)

/-- A link opens the inputs its command line names, and then whatever `lookups`
makes it look for. -/
def linkProcess (lookups : List Str → Process Str (Option Str) Unit) (p : LinkArgs) :
    Process Str (Option Str) Unit :=
  (openAll p.inputs).andThen (fun _ => lookups p.argv)

theorem asked_openAll (world : Str → Option Str) (paths : List Str) :
    (openAll paths).asked world = paths := by
  induction paths with
  | nil => rfl
  | cons path paths ih => rw [openAll, Process.asked_ask, ih]

theorem mem_asked_linkProcess {lookups : List Str → Process Str (Option Str) Unit} {p : LinkArgs}
    {world : Str → Option Str} (h : path ∈ p.inputs) :
    path ∈ (linkProcess lookups p).asked world := by
  rw [linkProcess, Process.asked_andThen, asked_openAll]
  exact mem_append_left _ h

def linkLooksAt (lookups : List Str → Process Str (Option Str) Unit) (host : Host)
    (fs : FileSystem) (p : LinkArgs) : List Str :=
  ((linkProcess lookups p).asked (openFrom host fs)).map (absoluteLexical host)

/-! ## What a miss records -/

structure LinkManifestEntry where
  resultKey : Str
  inputs : List (Str × Str)
  absent : List Str

def allOutputs (p : LinkArgs) : List Str := p.output :: p.extraOutputs

/-- The tracer's records of a link: the paths it asked for, found or not, beside
`others`, the records of the toolchain's own files. -/
def linkRecords (lookups : List Str → Process Str (Option Str) Unit) (others : TraceRecords)
    (host : Host) (fs : FileSystem) (p : LinkArgs) : TraceRecords :=
  let asked := (linkProcess lookups p).asked (openFrom host fs)
  { others with
    reads := asked.filter (fun path => (openFrom host fs path).isSome) ++ others.reads
    absent := asked.filter (fun path => (openFrom host fs path).isNone) ++ others.absent }

/-- Canonical spellings of the named inputs, whose contents the pre-key has already. -/
def namedInputs (roots : RootMap) (host : Host) (p : LinkArgs) : List Str :=
  p.inputs.map (fun path => roots.canonicalize ((host.realPath path).getD path))

/-- A file as an entry records it; a file that is gone is not recorded. -/
def recordFile (digest : Digest) (roots : RootMap) (fs : FileSystem) (path : Str) :
    Option (Str × Str) :=
  (fs path).map (fun data => (roots.canonicalize path, digest.hash data))

/-- The entry for a traced link under its pre-key, with the files as they are hashed
after the link. -/
def linkEntry (digest : Digest) (cfg : LinkSetting) (host : Host) (fs : FileSystem)
    (preKey : Str) (p : LinkArgs) (records : TraceRecords) : LinkManifestEntry :=
  let trace := parseTraceLog host (allOutputs p) records
  let tools := trace.tools.filterMap (recordFile digest cfg.roots fs)
  let inputs := (trace.inputs.filter (fun path =>
    cfg.roots.canonicalize path ∉ namedInputs cfg.roots host p)).filterMap
      (recordFile digest cfg.roots fs)
  let absent := trace.absent.map cfg.roots.canonicalize
  { resultKey := digest.hash (delimitedStream
      ([preKey, "tools".toList] ++ tools.flatMap (fun f => [f.1, f.2]) ++
        "inputs".toList :: inputs.flatMap (fun f => [f.1, f.2]) ++ "absent".toList :: absent))
    inputs := tools ++ inputs
    absent }

/-- The entry `RunLink` stores after a miss. -/
def recordEntry (digest : Digest) (cfg : LinkSetting) (host : Host) (fs : FileSystem)
    (p : LinkArgs) (records : TraceRecords) : LinkManifestEntry :=
  linkEntry digest cfg host fs (digest.hash (cfg.preKeyStream (hashFileFrom digest host fs) p)) p
    records

/-! ## When an entry is accepted -/

def findAppearedPath (fs : FileSystem) (roots : RootMap) (absent : List Str) : Option Str :=
  (absent.map roots.localize).find? (fun path => (fs path).isSome)

def linkManifestStillHolds (digest : Digest) (fs : FileSystem) (roots : RootMap)
    (e : LinkManifestEntry) : Bool :=
  e.inputs.all (fun f => (fs (roots.localize f.1)).map digest.hash == some f.2) &&
    (findAppearedPath fs roots e.absent).isNone

theorem linkManifestStillHolds_iff {digest : Digest} {fs : FileSystem} {roots : RootMap}
    {e : LinkManifestEntry} :
    linkManifestStillHolds digest fs roots e = true ↔
      (∀ f ∈ e.inputs, (fs (roots.localize f.1)).map digest.hash = some f.2) ∧
        ∀ c ∈ e.absent, fs (roots.localize c) = none := by
  simp [linkManifestStillHolds, findAppearedPath]

/-! ## What a recorded link depends on -/

/-- The tools and the files a link opened, but for those its command names. -/
def tracedFiles (roots : RootMap) (host : Host) (p : LinkArgs) (records : TraceRecords) :
    List Str :=
  keepTraced host (allOutputs p) records.tools ++
    (keepTraced host (allOutputs p) records.opened).filter (fun path =>
      roots.canonicalize path ∉ namedInputs roots host p)

/-- What a link looked for and never found. -/
def tracedAbsent (host : Host) (p : LinkArgs) (records : TraceRecords) : List Str :=
  (keepTraced host (allOutputs p) records.absent).filter (fun path =>
    path ∉ keepTraced host (allOutputs p) records.opened)

/-- Where the second run finds a path of the first. -/
def RootMap.relocate (roots : RootMap) (path : Str) : Str :=
  roots.localize (roots.canonicalize path)

section Record

variable {digest : Digest} {cfg : LinkSetting} {host : Host} {fs : FileSystem} {p : LinkArgs}
  {records : TraceRecords}

theorem mem_files_of_traced {roots : RootMap} (h : path ∈ tracedFiles roots host p records) :
    path ∈ records.files.map (absoluteLexical host) := by
  rw [TraceRecords.files, map_append]
  rcases mem_append.mp h with h | h
  · exact mem_append_right _ (mem_of_mem_keepTraced h)
  · exact mem_append_left _ (mem_of_mem_keepTraced (mem_filter.mp h).1)

theorem mem_recordEntry_inputs {f : Str × Str} :
    f ∈ (recordEntry digest cfg host fs p records).inputs ↔
      ∃ path ∈ tracedFiles cfg.roots host p records,
        recordFile digest cfg.roots fs path = some f := by
  simp only [recordEntry, linkEntry, parseTraceLog, tracedFiles, mem_append, mem_filterMap,
    mem_filter, mem_sortUnique]
  grind

theorem mem_recordEntry_absent {canonical : Str} :
    canonical ∈ (recordEntry digest cfg host fs p records).absent ↔
      ∃ path ∈ tracedAbsent host p records, cfg.roots.canonicalize path = canonical := by
  simp only [recordEntry, linkEntry, parseTraceLog, tracedAbsent, List.mem_map, mem_filter,
    mem_sortUnique]

/-- The entry of a link is accepted where its files hold what they held and what it missed is
still missing. -/
theorem recordEntry_holds_iff {fs₂ : FileSystem} :
    linkManifestStillHolds digest fs₂ cfg.roots (recordEntry digest cfg host fs p records) = true ↔
      (∀ path ∈ tracedFiles cfg.roots host p records, ∀ data, fs path = some data →
        fs₂ (cfg.roots.relocate path) = some data) ∧
      ∀ path ∈ tracedAbsent host p records, fs₂ (cfg.roots.relocate path) = none := by
  simp only [linkManifestStillHolds_iff, mem_recordEntry_inputs, mem_recordEntry_absent]
  constructor
  · rintro ⟨hfiles, habsent⟩
    refine ⟨fun path hpath data hdata => ?_, fun path hpath => habsent _ ⟨path, hpath, rfl⟩⟩
    have hsame := hfiles (cfg.roots.canonicalize path, digest.hash data)
      ⟨path, hpath, by simp [recordFile, hdata]⟩
    obtain ⟨data₂, hdata₂, hhash⟩ := Option.map_eq_some_iff.mp hsame
    rw [RootMap.relocate, hdata₂, digest.injective hhash]
  · rintro ⟨hfiles, habsent⟩
    refine ⟨?_, ?_⟩
    · rintro f ⟨path, hpath, hf⟩
      obtain ⟨data, hdata, rfl⟩ := Option.map_eq_some_iff.mp hf
      exact Option.map_eq_some_iff.mpr ⟨data, hfiles path hpath data hdata, rfl⟩
    · rintro _ ⟨path, hpath, rfl⟩
      exact habsent path hpath

end Record

/-! ## Soundness -/

/-- What a command feeds its pre-key besides the digests of its inputs. -/
def LinkSetting.preKeyTexts (cfg : LinkSetting) (p : LinkArgs) : List Str :=
  [kLinkKeyVersion, cfg.driverFingerprint, cfg.roots.fingerprint] ++
    p.keyArgs.map cfg.roots.canonicalizeText ++ p.inputs.map cfg.roots.canonicalizeText ++
    cfg.envPieces

section Hit

variable (digest : Digest) (cfg : LinkSetting)
  (lookups : List Str → Process Str (Option Str) Unit) (others : TraceRecords)
  (host₁ host₂ : Host) (fs₁ : FileSystem) (p q : LinkArgs)

/-- The first command has left an entry (a link of which no tool was traced leaves none),
and the second, on the file system `fs₂`, finds it and accepts it. -/
def LinkHit (fs₂ : FileSystem) : Prop :=
  let records := linkRecords lookups others host₁ fs₁ p
  (parseTraceLog host₁ (allOutputs p) records).tools ≠ [] ∧
    cfg.SamePreKey (hashFileFrom digest host₁ fs₁) p (hashFileFrom digest host₂ fs₂) q ∧
    linkManifestStillHolds digest fs₂ cfg.roots (recordEntry digest cfg host₁ fs₁ p records) = true

/-- The first link read these contents in the file that the path is for the second: the
file at that path, or the input that both commands name by one canonical text. -/
def FirstRead (path data : Str) : Prop :=
  (∃ path₁ ∈ (linkRecords lookups others host₁ fs₁ p).files.map (absoluteLexical host₁),
    fs₁ path₁ = some data ∧ cfg.roots.relocate path₁ = path) ∨
  ∃ input ∈ q.inputs, absoluteLexical host₂ input = path ∧ ∃ input₁ ∈ p.inputs,
    cfg.roots.canonicalizeText input₁ = cfg.roots.canonicalizeText input ∧
      openFrom host₁ fs₁ input₁ = some data

/-- The paths the hit depends on: those the first link left a record of, and the inputs the
second command names. -/
def PinnedForSecond (path : Str) : Prop :=
  let records := linkRecords lookups others host₁ fs₁ p
  (∃ path₁ ∈ tracedFiles cfg.roots host₁ p records, (fs₁ path₁).isSome ∧
    cfg.roots.relocate path₁ = path) ∨
  (∃ path₁ ∈ tracedAbsent host₁ p records, cfg.roots.relocate path₁ = path) ∨
  path ∈ q.inputs.map (absoluteLexical host₂)

/-- Whatever the paths the hit does not depend on are changed to, it stays a hit, and every
file the second link would then read has the contents the first link read in that file. -/
def LinkHitSound (fs₂ : FileSystem) : Prop :=
  ∀ fs : FileSystem,
    (∀ path, PinnedForSecond cfg lookups others host₁ host₂ fs₁ p q path → fs path = fs₂ path) →
    LinkHit digest cfg lookups others host₁ host₂ fs₁ p q fs ∧
      ∀ path ∈ linkLooksAt lookups host₂ fs q, ∀ data, fs path = some data →
        FirstRead cfg lookups others host₁ host₂ fs₁ p q path data

variable {digest cfg lookups others host₁ host₂ fs₁ p q} {fs : FileSystem}

/-- An input the second command names has the contents of the one the first names alike,
unless its digest is another text of the first pre-key. -/
theorem named_firstRead
    (hpre : cfg.SamePreKey (hashFileFrom digest host₁ fs₁) p (hashFileFrom digest host₂ fs₂) q)
    {input data : Str} (hinput : input ∈ q.inputs) (hdata : openFrom host₂ fs₂ input = some data) :
    digest.hash data ∈ cfg.preKeyTexts p ∨
      FirstRead cfg lookups others host₁ host₂ fs₁ p q (absoluteLexical host₂ input) data := by
  obtain ⟨hpfits, hqfits, hstream⟩ := hpre
  have hpair : [cfg.roots.canonicalizeText input, digest.hash data] <:+:
      cfg.preKeyPieces (hashFileFrom digest host₂ fs₂) q := by
    have hpieces : cfg.inputPieces (hashFileFrom digest host₂ fs₂) input =
        [cfg.roots.canonicalizeText input, digest.hash data] := by
      rw [LinkSetting.inputPieces, hashFileFrom, hdata]
      rfl
    rw [← hpieces]
    exact ((infix_of_mem_flatten (mem_map_of_mem hinput)).trans (suffix_append ..).isInfix).trans
      (prefix_append ..).isInfix
  rw [← delimitedStream_inj hpfits hqfits hstream, LinkSetting.preKeyPieces_eq_flatten] at hpair
  obtain ⟨block, hblock, hfound⟩ := Framing.pair_infix_flatten hpair
  have hpiece : ∀ pieces : List Str, block ∈ pieces.map (fun piece => [piece]) →
      digest.hash data ∈ pieces := by
    intro pieces hmem
    obtain ⟨piece, hpiece, rfl⟩ := mem_map.mp hmem
    exact Framing.eq_of_pair_in_one hfound ▸ hpiece
  simp only [mem_append] at hblock
  rcases hblock with (hmem | hmem) | hmem
  · exact .inl (mem_append_left _ (mem_append_left _ (hpiece _ hmem)))
  · obtain ⟨input₁, hinput₁, rfl⟩ := mem_map.mp hmem
    rcases Framing.eq_of_pair_in_two hfound with htext | ⟨hname, hdigest⟩
    · rw [htext]
      exact .inl (mem_append_left _ (mem_append_right _ (mem_map_of_mem hinput₁)))
    · refine .inr (.inr ⟨input, hinput, rfl, input₁, hinput₁, hname.symm, ?_⟩)
      rw [hashFileFrom] at hdigest
      cases hopen : openFrom host₁ fs₁ input₁ with
      | none =>
        rw [hopen] at hdigest
        exact absurd hdigest (digest.ne_missing data)
      | some data₁ =>
        rw [hopen] at hdigest
        rw [digest.injective hdigest]
  · exact .inl (mem_append_right _ (hpiece _ hmem))

theorem FirstRead.mem_contents {data : Str}
    (h : FirstRead cfg lookups others host₁ host₂ fs₁ p q path data) :
    data ∈ ((linkRecords lookups others host₁ fs₁ p).files.map (absoluteLexical host₁)).filterMap
      fs₁ ++ p.inputs.filterMap (openFrom host₁ fs₁) := by
  rcases h with ⟨path₁, hpath₁, hdata, -⟩ | ⟨-, -, -, input₁, hinput₁, -, hdata⟩
  · exact mem_append_left _ (mem_filterMap.mpr ⟨path₁, hpath₁, hdata⟩)
  · exact mem_append_right _ (mem_filterMap.mpr ⟨input₁, hinput₁, hdata⟩)

/-- What stands at a path the hit does not depend on is irrelevant to it. -/
theorem LinkHit.congr (hhit : LinkHit digest cfg lookups others host₁ host₂ fs₁ p q fs₂)
    (hsame : ∀ path, PinnedForSecond cfg lookups others host₁ host₂ fs₁ p q path →
      fs path = fs₂ path) :
    LinkHit digest cfg lookups others host₁ host₂ fs₁ p q fs := by
  obtain ⟨htools, ⟨hpfits, hqfits, hstream⟩, hholds⟩ := hhit
  have hhash : ∀ input ∈ q.inputs,
      hashFileFrom digest host₂ fs input = hashFileFrom digest host₂ fs₂ input := by
    intro input hinput
    rw [hashFileFrom, openFrom, hsame _ (.inr (.inr (mem_map_of_mem hinput)))]
    rfl
  have hpieces := cfg.preKeyPieces_congr hhash
  refine ⟨htools, ⟨hpfits, by rwa [hpieces], ?_⟩, ?_⟩
  · rw [LinkSetting.preKeyStream, LinkSetting.preKeyStream, hpieces]
    exact hstream
  · obtain ⟨hfiles, habsent⟩ := recordEntry_holds_iff.mp hholds
    refine recordEntry_holds_iff.mpr ⟨fun path hpath data hdata => ?_, fun path hpath => ?_⟩
    · rw [hsame _ (.inl ⟨path, hpath, by rw [hdata]; rfl, rfl⟩)]
      exact hfiles path hpath data hdata
    · rw [hsame _ (.inr (.inl ⟨path, hpath, rfl⟩))]
      exact habsent path hpath

theorem linkLooksAt_update (contents : Option Str)
    (h : path ∈ linkLooksAt lookups host₂ fs₂ q) :
    path ∈ linkLooksAt lookups host₂ (Function.update fs₂ path contents) q := by
  obtain ⟨spelled, hasked, hspelled⟩ := mem_map.mp h
  obtain ⟨spelled', hasked', hspelled'⟩ := (linkProcess lookups q).asked_of_agree_off
    (openFrom host₂ fs₂) (openFrom host₂ (Function.update fs₂ path contents))
    (fun spelled => absoluteLexical host₂ spelled = path)
    (fun spelled hne => by rw [openFrom, Function.update_of_ne hne]; rfl)
    ⟨spelled, hasked, hspelled⟩
  exact mem_map.mpr ⟨spelled', hasked', hspelled'⟩

/-- A path that is not pinned may come to hold what the first link never read. -/
theorem pinned_of_sound (hsound : LinkHitSound digest cfg lookups others host₁ host₂ fs₁ p q fs₂)
    (hlooked : path ∈ linkLooksAt lookups host₂ fs₂ q) :
    PinnedForSecond cfg lookups others host₁ host₂ fs₁ p q path := by
  by_contra hpath
  obtain ⟨fresh, hfresh⟩ := Infinite.exists_notMem_finset
    (((linkRecords lookups others host₁ fs₁ p).files.map (absoluteLexical host₁)).filterMap
      fs₁ ++ p.inputs.filterMap (openFrom host₁ fs₁)).toFinset
  have hagree : ∀ pinned, PinnedForSecond cfg lookups others host₁ host₂ fs₁ p q pinned →
      Function.update fs₂ path (some fresh) pinned = fs₂ pinned := by
    intro pinned hpinned
    refine Function.update_of_ne ?_ ..
    rintro rfl
    exact hpath hpinned
  have hread := (hsound _ hagree).2 path (linkLooksAt_update _ hlooked) fresh
    (Function.update_self ..)
  exact hfresh (mem_toFinset.mpr hread.mem_contents)

theorem linkLooksAt_congr (hsame : ∀ path ∈ linkLooksAt lookups host₂ fs₂ q, fs path = fs₂ path) :
    linkLooksAt lookups host₂ fs q = linkLooksAt lookups host₂ fs₂ q := by
  have hrun := (linkProcess lookups q).run_eq_of_agree (openFrom host₂ fs₂) (openFrom host₂ fs)
    (fun spelled hasked => hsame _ (mem_map_of_mem hasked))
  rw [linkLooksAt, linkLooksAt, Process.asked, Process.asked, hrun.1]

theorem firstRead_of_pinned (hhit : LinkHit digest cfg lookups others host₁ host₂ fs₁ p q fs₂)
    (hpinned : PinnedForSecond cfg lookups others host₁ host₂ fs₁ p q path) {data : Str}
    (hdata : fs₂ path = some data) :
    FirstRead cfg lookups others host₁ host₂ fs₁ p q path data ∨
      ∃ input ∈ q.inputs, absoluteLexical host₂ input = path ∧
        digest.hash data ∈ cfg.preKeyTexts p := by
  obtain ⟨hfiles, habsent⟩ := recordEntry_holds_iff.mp hhit.2.2
  rcases hpinned with ⟨path₁, hpath₁, hsome, rfl⟩ | ⟨path₁, hpath₁, rfl⟩ | hnamed
  · obtain ⟨data₁, hdata₁⟩ := Option.isSome_iff_exists.mp hsome
    rw [hfiles path₁ hpath₁ data₁ hdata₁] at hdata
    cases hdata
    exact .inl (.inl ⟨path₁, mem_files_of_traced hpath₁, hdata₁, rfl⟩)
  · rw [habsent path₁ hpath₁] at hdata
    cases hdata
  · obtain ⟨input, hinput, rfl⟩ := mem_map.mp hnamed
    rcases named_firstRead hhit.2.1 hinput hdata with htext | hread
    · exact .inr ⟨input, hinput, rfl, htext⟩
    · exact .inl hread

end Hit

/-- A hit is sound exactly when the second link looks only at pinned paths, and the first
link has read the named inputs of the second whose digests its pre-key holds as other texts. -/
theorem linkHit_sound_iff (digest : Digest) (cfg : LinkSetting)
    (lookups : List Str → Process Str (Option Str) Unit) (others : TraceRecords)
    (host₁ host₂ : Host) (fs₁ fs₂ : FileSystem) (p q : LinkArgs)
    (hhit : LinkHit digest cfg lookups others host₁ host₂ fs₁ p q fs₂) :
    LinkHitSound digest cfg lookups others host₁ host₂ fs₁ p q fs₂ ↔
      (∀ path ∈ linkLooksAt lookups host₂ fs₂ q,
        PinnedForSecond cfg lookups others host₁ host₂ fs₁ p q path) ∧
      ∀ input ∈ q.inputs, ∀ data ∈ openFrom host₂ fs₂ input,
        digest.hash data ∈ cfg.preKeyTexts p →
          FirstRead cfg lookups others host₁ host₂ fs₁ p q (absoluteLexical host₂ input) data := by
  constructor
  · intro hsound
    refine ⟨fun path hlooked => pinned_of_sound hsound hlooked, fun input hinput data hdata _ => ?_⟩
    exact (hsound fs₂ (fun _ _ => rfl)).2 _ (mem_map_of_mem (mem_asked_linkProcess hinput)) data
      hdata
  · rintro ⟨hpinned, hnamed⟩ fs hsame
    have hlooks := linkLooksAt_congr (fun path hpath => hsame path (hpinned path hpath))
    refine ⟨hhit.congr hsame, fun path hlooked data hdata => ?_⟩
    rw [hlooks] at hlooked
    rw [hsame path (hpinned path hlooked)] at hdata
    rcases firstRead_of_pinned hhit (hpinned path hlooked) hdata with
      hread | ⟨input, hinput, rfl, htext⟩
    · exact hread
    · exact hnamed input hinput data hdata htext

/-! ## A relative library path in two directories -/

/-- Open candidates in order until one exists. -/
def openFirst : List Str → Process Str (Option Str) Unit
  | [] => .done ()
  | path :: paths => .ask path (fun found => if found.isSome then .done () else openFirst paths)

def openFirstOfEach : List (List Str) → Process Str (Option Str) Unit
  | [] => .done ()
  | group :: groups => (openFirst group).andThen (fun _ => openFirstOfEach groups)

def flagValues (flag : Str) (argv : List Str) : List Str :=
  (argv.filter (fun word => startsWith word flag)).map (List.drop flag.length)

/-- The files ld tries for each `-l`, along the `-L` directories. -/
def libraryCandidates (argv : List Str) : List (List Str) :=
  (flagValues "-l".toList argv).map (fun name =>
    (flagValues "-L".toList argv).flatMap (fun dir =>
      [dir ++ "/lib".toList ++ name ++ ".so".toList, dir ++ "/lib".toList ++ name ++ ".a".toList]))

def searchLibraries (argv : List Str) : Process Str (Option Str) Unit :=
  openFirstOfEach (libraryCandidates argv)

instance (cfg : LinkSetting) (lookups : List Str → Process Str (Option Str) Unit)
    (others : TraceRecords) (host₁ host₂ : Host) (fs₁ : FileSystem) (p q : LinkArgs) (path : Str) :
    Decidable (PinnedForSecond cfg lookups others host₁ host₂ fs₁ p q path) :=
  inferInstanceAs (Decidable (_ ∨ _ ∨ _))

instance (cfg : LinkSetting) (lookups : List Str → Process Str (Option Str) Unit)
    (others : TraceRecords) (host₁ host₂ : Host) (fs₁ : FileSystem) (p q : LinkArgs)
    (path data : Str) :
    Decidable (FirstRead cfg lookups others host₁ host₂ fs₁ p q path data) :=
  inferInstanceAs (Decidable (_ ∨ _))

def hostAt (dir : String) : Host :=
  ⟨none, dir.toList, fun path => some (absoluteLexical ⟨none, dir.toList, fun _ => none⟩ path)⟩

def filesOf (files : List (String × String)) : FileSystem := fun path =>
  (files.find? (fun f => f.1.toList == path)).map (fun f => f.2.toList)

def linkOf (line : String) : LinkArgs := parseLink (fun _ => none) (wordsOf line)

/-- The setting of two checkouts of one project, `/w/one` and `/w/two`. -/
def checkoutSetting : LinkSetting :=
  ⟨fromSpecs bareHost ["/w".toList], "driver".toList, fun _ => []⟩

def linkerOnly : TraceRecords := { tools := ["/usr/bin/ld".toList] }

/-- An absolute search path is the same in every directory. -/
theorem linkHit_sound_absolute :
    let p := linkOf "cc a.o -L/usr/lib -lfoo -o x"
    let fs := filesOf [("/w/one/a.o", "A"), ("/w/two/a.o", "A"), ("/usr/lib/libfoo.a", "F"),
      ("/usr/bin/ld", "ld")]
    LinkHit Digest.ofContents checkoutSetting searchLibraries linkerOnly (hostAt "/w/one")
        (hostAt "/w/two") fs p p fs ∧
      LinkHitSound Digest.ofContents checkoutSetting searchLibraries linkerOnly (hostAt "/w/one")
        (hostAt "/w/two") fs p p fs := by
  have hhit : LinkHit Digest.ofContents checkoutSetting searchLibraries linkerOnly
      (hostAt "/w/one") (hostAt "/w/two") (filesOf [("/w/one/a.o", "A"), ("/w/two/a.o", "A"),
        ("/usr/lib/libfoo.a", "F"), ("/usr/bin/ld", "ld")])
      (linkOf "cc a.o -L/usr/lib -lfoo -o x") (linkOf "cc a.o -L/usr/lib -lfoo -o x")
      (filesOf [("/w/one/a.o", "A"), ("/w/two/a.o", "A"), ("/usr/lib/libfoo.a", "F"),
        ("/usr/bin/ld", "ld")]) :=
    ⟨by decide, ⟨by decide, by decide, congrArg delimitedStream (by decide)⟩, by decide⟩
  exact ⟨hhit, (linkHit_sound_iff _ _ _ _ _ _ _ _ _ _ hhit).mpr ⟨by decide, by decide⟩⟩

/-- `-Llib -lfoo` names another library in another directory; the entry of the first
link is accepted there although the library differs. -/
theorem linkHit_unsound_relative :
    let p := linkOf "cc a.o -Llib -lfoo -o x"
    let fs := filesOf [("/w/one/a.o", "A"), ("/w/one/lib/libfoo.a", "F1"),
      ("/w/two/a.o", "A"), ("/w/two/lib/libfoo.a", "F2"), ("/usr/bin/ld", "ld")]
    p.Accepted ∧
      LinkHit Digest.ofContents checkoutSetting searchLibraries linkerOnly (hostAt "/w/one")
        (hostAt "/w/two") fs p p fs ∧
      "/w/two/lib/libfoo.a".toList ∈ linkLooksAt searchLibraries (hostAt "/w/two") fs p ∧
      fs "/w/two/lib/libfoo.a".toList = some "F2".toList ∧
      ¬ FirstRead checkoutSetting searchLibraries linkerOnly (hostAt "/w/one") (hostAt "/w/two")
        fs p p "/w/two/lib/libfoo.a".toList "F2".toList := by
  refine ⟨by decide, ⟨by decide, ⟨by decide, by decide, ?_⟩, by decide⟩, by decide, by decide,
    by decide⟩
  exact congrArg delimitedStream (by decide)

end Vcache

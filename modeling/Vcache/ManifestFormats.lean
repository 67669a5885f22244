import Vcache.LinkManifest
import Vcache.ManifestLayers
import Vcache.RustManifest

/-!
# Four manifests as texts

The manifests of C/C++ compiles, of links, of dependency scans and of rustc commands are
written and read by code of their own. A line is told from the lines of other kinds only
by how it starts; in the C/C++ and the dependency-scan manifest a file's line starts with
its digest, without a keyword.
-/

namespace Vcache

open List RecordLines

/-! ## C/C++ -/

def kCxxManifestHeader : Str := "vcache-cxxmanifest-2".toList

def kAbsentLinePrefix : Str := "absent ".toList

def renderCxxManifest (states : List CxxManifestState) : Str :=
  kCxxManifestHeader ++ ['\n'] ++ states.flatMap (fun state =>
    "state ".toList ++ state.resultKey ++ ['\n'] ++
      state.files.flatMap (fun f => renderManifestFile f.1 f.2 ++ ['\n']) ++
      state.absent.flatMap (fun path => kAbsentLinePrefix ++ path ++ ['\n']))

inductive CxxRecord where
  | file (f : Str × Str)
  | absent (path : Str)

def CxxManifestState.push (state : CxxManifestState) : CxxRecord → CxxManifestState
  | .file f => { state with files := state.files ++ [f] }
  | .absent path => { state with absent := state.absent ++ [path] }

def parseCxxLine (states : List CxxManifestState) (line : Str) : Option (List CxxManifestState) :=
  if startsWith line "state ".toList then
    if (line.drop 6).length = kDigestHexLen then some (states ++ [⟨line.drop 6, [], []⟩])
    else none
  else match states.getLast? with
    | none => none
    | some last =>
      if startsWith line kAbsentLinePrefix then
        if (line.drop kAbsentLinePrefix.length).head? = some '/' then
          some (states.dropLast ++ [last.push (.absent (line.drop kAbsentLinePrefix.length))])
        else none
      else (parseManifestFile line).map (fun f => states.dropLast ++ [last.push (.file f)])

def parseCxxManifest (text : Str) : Option (List CxxManifestState) :=
  readManifest kCxxManifestHeader parseCxxLine text

structure CxxManifestState.LineFormed (state : CxxManifestState) : Prop where
  key : IsKeyText state.resultKey
  files : ∀ f ∈ state.files, IsKeyText f.2 ∧ '\n' ∉ f.1
  absent : ∀ path ∈ state.absent, isAbsolute path = true ∧ '\n' ∉ path

def CxxRecord.line : CxxRecord → Str
  | file f => renderManifestFile f.1 f.2
  | absent path => kAbsentLinePrefix ++ path

def cxxManifestFormat : Format CxxManifestState CxxRecord Str where
  firstLine state := "state ".toList ++ state.resultKey
  records state := state.files.map .file ++ state.absent.map .absent
  recordLine := CxxRecord.line

theorem cxxManifestFormat_lines (state : CxxManifestState) :
    cxxManifestFormat.lines state = ("state ".toList ++ state.resultKey) ::
      (state.files.map (fun f => renderManifestFile f.1 f.2) ++
        state.absent.map (kAbsentLinePrefix ++ ·)) := by
  change _ :: (state.files.map CxxRecord.file ++ state.absent.map CxxRecord.absent).map _ = _
  rw [map_append, map_map, map_map]
  rfl

theorem renderCxxManifest_eq (states : List CxxManifestState) :
    renderCxxManifest states = writeManifest cxxManifestFormat kCxxManifestHeader states := by
  rw [writeManifest, flatMap_cons, flatMap_assoc, renderCxxManifest]
  congr 1
  refine flatMap_congr fun state _ => ?_
  rw [cxxManifestFormat_lines, flatMap_cons, flatMap_append, flatMap_map,
    flatMap_map, ← append_assoc]

theorem notMem_renderManifestFile {path digest : Str} (hdigest : IsKeyText digest)
    (hpath : '\n' ∉ path) :
    renderManifestFile path digest ≠ [] ∧ '\n' ∉ renderManifestFile path digest := by
  rw [renderManifestFile_eq]
  exact ⟨by simp, by simp [hdigest.2.2, hpath]⟩

theorem CxxManifestState.LineFormed.line {state : CxxManifestState} (h : state.LineFormed)
    {line : Str} (hline : line ∈ cxxManifestFormat.lines state) : line ≠ [] ∧ '\n' ∉ line := by
  rcases mem_cons.mp hline with rfl | hline
  · exact line_of_keyword "state ".toList (by decide) h.key.2.2
  · obtain ⟨r, hr, rfl⟩ := mem_map.mp hline
    rcases mem_append.mp hr with hr | hr
    · obtain ⟨f, hf, rfl⟩ := mem_map.mp hr
      exact notMem_renderManifestFile (h.files f hf).1 (h.files f hf).2
    · obtain ⟨path, hpath, rfl⟩ := mem_map.mp hr
      exact line_of_keyword kAbsentLinePrefix (by decide) (h.absent path hpath).2

theorem parseCxxLine_file (states : List CxxManifestState) (state : CxxManifestState)
    {f : Str × Str} (h : IsKeyText f.2) :
    parseCxxLine (states ++ [state]) (renderManifestFile f.1 f.2) =
      some (states ++ [state.push (.file f)]) := by
  have hstate : startsWith (renderManifestFile f.1 f.2) "state ".toList = false :=
    startsWith_renderManifestFile "state".toList h f.1 (by decide)
  have habsent : startsWith (renderManifestFile f.1 f.2) kAbsentLinePrefix = false :=
    startsWith_renderManifestFile "absent".toList h f.1 (by decide)
  rw [parseCxxLine, hstate, habsent, parseManifestFile_render h]
  simp

theorem parseCxxLine_absent (states : List CxxManifestState) (state : CxxManifestState)
    {path : Str} (h : isAbsolute path = true) :
    parseCxxLine (states ++ [state]) (kAbsentLinePrefix ++ path) =
      some (states ++ [state.push (.absent path)]) := by
  have hstate : startsWith (kAbsentLinePrefix ++ path) "state ".toList = false := rfl
  have hhead : path.head? = some '/' := by simpa [isAbsolute] using h
  rw [parseCxxLine, hstate, startsWith_append, drop_left]
  simp [hhead]

theorem parseCxxLine_key (states : List CxxManifestState) {key : Str} (h : IsKeyText key) :
    parseCxxLine states ("state ".toList ++ key) = some (states ++ [⟨key, [], []⟩]) := by
  have hdrop : ("state ".toList ++ key).drop 6 = key := rfl
  rw [parseCxxLine, if_pos (startsWith_append _ key), hdrop, if_pos h.1]

theorem readBy_parseCxxLine {state : CxxManifestState} (h : state.LineFormed) :
    cxxManifestFormat.ReadBy parseCxxLine (fun state => ⟨state.resultKey, [], []⟩)
      CxxManifestState.push state where
  first before := parseCxxLine_key before h.key
  record before last r hr := by
    rcases mem_append.mp hr with hr | hr
    · obtain ⟨f, hf, rfl⟩ := mem_map.mp hr
      exact parseCxxLine_file before last (h.files f hf).1
    · obtain ⟨path, hpath, rfl⟩ := mem_map.mp hr
      exact parseCxxLine_absent before last (h.absent path hpath).1
  whole := by
    change (state.files.map CxxRecord.file ++ state.absent.map CxxRecord.absent).foldl _ _ = _
    rw [foldl_append, foldl_map, foldl_map,
      Format.foldl_push (fun (state : CxxManifestState) files =>
        { state with files := state.files ++ files }) (by simp) (by simp [CxxManifestState.push]),
      Format.foldl_push (fun (state : CxxManifestState) absent =>
        { state with absent := state.absent ++ absent }) (by simp)
          (by simp [CxxManifestState.push])]
    rfl

theorem parseCxxManifest_render {states : List CxxManifestState}
    (h : ∀ state ∈ states, state.LineFormed) :
    parseCxxManifest (renderCxxManifest states) = some states := by
  rw [renderCxxManifest_eq]
  exact readManifest_writeManifest (by decide)
    (fun state hstate => readBy_parseCxxLine (h state hstate))
    (fun state hstate line => (h state hstate).line)

/-! ## Dependency scans -/

def kManifestHeader : Str := "vcache-depmanifest-2".toList

structure DepManifestEntry where
  resultKey : Str
  files : List (Str × Str)
deriving DecidableEq

def renderManifest (entries : List DepManifestEntry) : Str :=
  kManifestHeader ++ ['\n'] ++ entries.flatMap (fun entry =>
    "entry ".toList ++ entry.resultKey ++ ['\n'] ++
      entry.files.flatMap (fun f => renderManifestFile f.1 f.2 ++ ['\n']))

def DepManifestEntry.push (entry : DepManifestEntry) (f : Str × Str) : DepManifestEntry :=
  { entry with files := entry.files ++ [f] }

def parseDepLine (entries : List DepManifestEntry) (line : Str) : Option (List DepManifestEntry) :=
  if startsWith line "entry ".toList then
    if (line.drop 6).length = kDigestHexLen then some (entries ++ [⟨line.drop 6, []⟩])
    else none
  else match entries.getLast? with
    | none => none
    | some last => (parseManifestFile line).map (fun f => entries.dropLast ++ [last.push f])

def parseManifest (text : Str) : Option (List DepManifestEntry) :=
  readManifest kManifestHeader parseDepLine text

structure DepManifestEntry.LineFormed (entry : DepManifestEntry) : Prop where
  key : IsKeyText entry.resultKey
  files : ∀ f ∈ entry.files, IsKeyText f.2 ∧ '\n' ∉ f.1

def depManifestFormat : Format DepManifestEntry (Str × Str) Str where
  firstLine entry := "entry ".toList ++ entry.resultKey
  records := DepManifestEntry.files
  recordLine f := renderManifestFile f.1 f.2

theorem renderManifest_eq (entries : List DepManifestEntry) :
    renderManifest entries = writeManifest depManifestFormat kManifestHeader entries := by
  rw [writeManifest, flatMap_cons, flatMap_assoc, renderManifest]
  congr 1
  refine flatMap_congr fun entry _ => ?_
  rw [Format.lines, flatMap_cons, flatMap_map]
  rfl

theorem DepManifestEntry.LineFormed.line {entry : DepManifestEntry} (h : entry.LineFormed)
    {line : Str} (hline : line ∈ depManifestFormat.lines entry) : line ≠ [] ∧ '\n' ∉ line := by
  rcases mem_cons.mp hline with rfl | hline
  · exact line_of_keyword "entry ".toList (by decide) h.key.2.2
  · obtain ⟨f, hf, rfl⟩ := mem_map.mp hline
    exact notMem_renderManifestFile (h.files f hf).1 (h.files f hf).2

theorem parseDepLine_file (entries : List DepManifestEntry) (entry : DepManifestEntry)
    {f : Str × Str} (h : IsKeyText f.2) :
    parseDepLine (entries ++ [entry]) (renderManifestFile f.1 f.2) =
      some (entries ++ [entry.push f]) := by
  have hentry : startsWith (renderManifestFile f.1 f.2) "entry ".toList = false :=
    startsWith_renderManifestFile "entry".toList h f.1 (by decide)
  rw [parseDepLine, hentry, parseManifestFile_render h]
  simp

theorem parseDepLine_key (entries : List DepManifestEntry) {key : Str} (h : IsKeyText key) :
    parseDepLine entries ("entry ".toList ++ key) = some (entries ++ [⟨key, []⟩]) := by
  have hdrop : ("entry ".toList ++ key).drop 6 = key := rfl
  rw [parseDepLine, if_pos (startsWith_append _ key), hdrop, if_pos h.1]

theorem readBy_parseDepLine {entry : DepManifestEntry} (h : entry.LineFormed) :
    depManifestFormat.ReadBy parseDepLine (fun entry => ⟨entry.resultKey, []⟩)
      DepManifestEntry.push entry where
  first before := parseDepLine_key before h.key
  record before last f hf := parseDepLine_file before last (h.files f hf).1
  whole := Format.foldl_push (fun (entry : DepManifestEntry) files =>
    { entry with files := entry.files ++ files }) (by simp) (by simp [DepManifestEntry.push]) _ _

theorem parseManifest_render {entries : List DepManifestEntry}
    (h : ∀ entry ∈ entries, entry.LineFormed) :
    parseManifest (renderManifest entries) = some entries := by
  rw [renderManifest_eq]
  exact readManifest_writeManifest (by decide)
    (fun entry hentry => readBy_parseDepLine (h entry hentry))
    (fun entry hentry line => (h entry hentry).line)

/-! ## All four -/

/-- Every manifest is read back as it was written. -/
theorem manifests_round_trip :
    (∀ states : List CxxManifestState, (∀ state ∈ states, state.LineFormed) →
      parseCxxManifest (renderCxxManifest states) = some states) ∧
    (∀ entries : List LinkManifestEntry, (∀ entry ∈ entries, entry.WellFormed) →
      parseLinkManifest (renderLinkManifest entries) = some entries) ∧
    (∀ entries : List DepManifestEntry, (∀ entry ∈ entries, entry.LineFormed) →
      parseManifest (renderManifest entries) = some entries) ∧
    ∀ states : List RustManifestState, (∀ state ∈ states, state.LineFormed) →
      parseRustManifest (renderRustManifest states) = some states :=
  ⟨fun _ => parseCxxManifest_render, fun _ => parseLinkManifest_render,
    fun _ => parseManifest_render, fun _ => parseRustManifest_render⟩

def sameKey (c : Char) : Str := List.replicate kDigestHexLen c

theorem isKeyText_sameKey {c : Char} (hblank : c ≠ ' ') (hline : c ≠ '\n') :
    IsKeyText (sameKey c) := by
  refine ⟨length_replicate, ?_, ?_⟩
  · exact fun h => hblank (eq_of_mem_replicate h).symm
  · exact fun h => hline (eq_of_mem_replicate h).symm

/-- Paths with blanks and a path that starts like a keyword; a set and an unset variable. -/
theorem manifests_round_trip_awkward :
    let files := [("state a.h".toList, sameKey 'b'), ("/a b".toList, sameKey 'c')]
    let states : List CxxManifestState := [⟨sameKey 'a', files, ["/no such".toList]⟩]
    let links : List LinkManifestEntry := [⟨sameKey 'a', files, ["/no such".toList]⟩]
    let scans : List DepManifestEntry := [⟨sameKey 'a', files⟩]
    let crates : List RustManifestState := [⟨sameKey 'a', files,
      [⟨"A".toList, some "x=y".toList⟩, ⟨"B".toList, none⟩],
      [⟨"std".toList, []⟩, ⟨"dep".toList, sameKey 'd'⟩]⟩]
    parseCxxManifest (renderCxxManifest states) = some states ∧
      parseLinkManifest (renderLinkManifest links) = some links ∧
      parseManifest (renderManifest scans) = some scans ∧
      parseRustManifest (renderRustManifest crates) = some crates := by
  intro files states links scans crates
  have hkey : ∀ c ∈ ['a', 'b', 'c', 'd'], IsKeyText (sameKey c) := by
    intro c hc
    refine isKeyText_sameKey ?_ ?_
    · rintro rfl
      exact absurd hc (by decide)
    · rintro rfl
      exact absurd hc (by decide)
  have hfiles : ∀ f ∈ files, IsKeyText f.2 ∧ f.1 ≠ [] ∧ '\n' ∉ f.1 := by
    intro f hf
    simp only [files, mem_cons, not_mem_nil, or_false] at hf
    rcases hf with rfl | rfl
    · exact ⟨hkey 'b' (by decide), by decide, by decide⟩
    · exact ⟨hkey 'c' (by decide), by decide, by decide⟩
  have ha := hkey 'a' (by decide)
  refine ⟨manifests_round_trip.1 states ?_, manifests_round_trip.2.1 links ?_,
    manifests_round_trip.2.2.1 scans ?_, manifests_round_trip.2.2.2 crates ?_⟩
  · intro state hstate
    rw [mem_singleton.mp hstate]
    refine ⟨ha, fun f hf => ⟨(hfiles f hf).1, (hfiles f hf).2.2⟩, ?_⟩
    decide
  · intro entry hentry
    rw [mem_singleton.mp hentry]
    refine ⟨⟨ha.1, ha.2.2⟩, fun f hf => ⟨⟨(hfiles f hf).1.1, (hfiles f hf).1.2.2⟩,
      (hfiles f hf).2⟩, ?_⟩
    decide
  · intro entry hentry
    rw [mem_singleton.mp hentry]
    exact ⟨ha, fun f hf => ⟨(hfiles f hf).1, (hfiles f hf).2.2⟩⟩
  · intro state hstate
    rw [mem_singleton.mp hstate]
    refine ⟨ha, fun r hr => ?_⟩
    simp only [RustManifestState.records, mem_append, mem_map] at hr
    rcases hr with (⟨f, hf, rfl⟩ | ⟨ext, hext, rfl⟩) | ⟨dep, hdep, rfl⟩
    · exact ⟨(hfiles f hf).1, (hfiles f hf).2.2⟩
    · simp only [mem_cons, not_mem_nil, or_false] at hext
      rcases hext with rfl | rfl
      · exact ⟨.inl rfl, by decide, by decide⟩
      · exact ⟨.inr (hkey 'd' (by decide)), by decide, by decide⟩
    · simp only [mem_cons, not_mem_nil, or_false] at hdep
      rcases hdep with rfl | rfl
      · exact ⟨by decide, by decide, by decide, by decide⟩
      · exact ⟨by decide, by decide, by decide, by decide⟩

end Vcache

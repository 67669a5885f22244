import Mathlib.Algebra.BigOperators.Group.List.Basic
import Vcache.AbsoluteRoots

/-!
# Debug info and the working directory

The compiler records the canonical working directory in the object. The key
holds it only for a precompiled header. For any other compile it separates two
directories through the root targets alone: exactly when one of them was added
as a root of its own, or both have one spelling under the configured roots.
-/

namespace Vcache

open List Option

/-! ## The directory as a root of its own -/

def CwdAdded (config : Config) (host : Host) : Prop :=
  config.mapCwd = true ∧ host.currentDir ≠ [] ∧
    ((fromSpecs host config.rootSpecs).addIfUncovered host host.currentDir
      config.cwdCanonicalName).isSome = true

instance (config : Config) (host : Host) : Decidable (CwdAdded config host) :=
  inferInstanceAs (Decidable (_ ∧ _ ∧ _))

namespace RootMap

variable {m added : RootMap} {host : Host} {dir name : Str}

section

variable (h : m.addIfUncovered host dir name = some added)

include h

theorem addIfUncovered_eq_some :
    m.covers (resolveRoot host dir) = false ∧
      (∀ r ∈ m.roots, r.canonical ≠ kDefaultCanonicalBase ++ name) ∧
      added = sortRoots (m.roots ++ [⟨resolveRoot host dir, kDefaultCanonicalBase ++ name⟩]) := by
  unfold addIfUncovered at h
  simp only at h
  split_ifs at h with hroot hcovers hname
  refine ⟨by simpa using hcovers, ?_, (some.inj h).symm⟩
  simpa using hname

theorem mem_added {r : Root} :
    r ∈ added.roots ↔
      r ∈ m.roots ∨ r = ⟨resolveRoot host dir, kDefaultCanonicalBase ++ name⟩ := by
  rw [(addIfUncovered_eq_some h).2.2, mem_sortRoots, mem_append, mem_singleton]

theorem canonicalize_added :
    added.canonicalize (resolveRoot host dir) = kDefaultCanonicalBase ++ name := by
  have hself : isUnder (resolveRoot host dir) (resolveRoot host dir) = true :=
    isUnder_iff.mpr ⟨[], by simp, .inr (.inl rfl)⟩
  cases hroot : added.rootOf (resolveRoot host dir) with
  | none =>
    have hmiss := rootOf_eq_none.mp hroot _ ((mem_added h).mpr (.inr rfl))
    simp [hself] at hmiss
  | some r =>
    obtain ⟨hmem, hunder, _⟩ := find?_reverse_roots hroot
    rcases (mem_added h).mp hmem with hold | rfl
    · have hcovered : m.covers (resolveRoot host dir) = true :=
        any_eq_true.mpr ⟨r, hold, hunder⟩
      rw [(addIfUncovered_eq_some h).1] at hcovered
      cases hcovered
    · simp [canonicalize, hroot]

end

theorem length_fingerprint (m : RootMap) :
    m.fingerprint.length =
      ((sortUnique (m.roots.map Root.canonical)).map (fun c => c.length + 1)).sum := by
  simp [fingerprint, length_flatMap]

theorem fingerprint_added_ne (h : m.addIfUncovered host dir name = some added) :
    added.fingerprint ≠ m.fingerprint := by
  have hperm : (sortUnique (added.roots.map Root.canonical)).Perm
      ((kDefaultCanonicalBase ++ name) :: sortUnique (m.roots.map Root.canonical)) := by
    have hfresh : kDefaultCanonicalBase ++ name ∉ sortUnique (m.roots.map Root.canonical) := by
      rw [mem_sortUnique, List.mem_map]
      rintro ⟨r, hr, hname⟩
      exact (addIfUncovered_eq_some h).2.1 r hr hname
    rw [List.perm_ext_iff_of_nodup (nodup_sortUnique _)
      (List.nodup_cons.mpr ⟨hfresh, nodup_sortUnique _⟩)]
    intro c
    simp only [mem_sortUnique, List.mem_map, List.mem_cons, mem_added h]
    constructor
    · rintro ⟨r, hold | rfl, rfl⟩
      · exact .inr ⟨r, hold, rfl⟩
      · exact .inl rfl
    · rintro (rfl | ⟨r, hold, rfl⟩)
      · exact ⟨_, .inr rfl, rfl⟩
      · exact ⟨r, .inl hold, rfl⟩
  intro heq
  have hlen := congrArg List.length heq
  rw [length_fingerprint, length_fingerprint, (hperm.map _).sum_nat, List.map_cons,
    List.sum_cons] at hlen
  omega

end RootMap

theorem buildRootMap_of_cwdAdded {config : Config} {host : Host} (h : CwdAdded config host) :
    (fromSpecs host config.rootSpecs).addIfUncovered host host.currentDir
      config.cwdCanonicalName = some (buildRootMap config host) := by
  obtain ⟨hmap, hdir, hsome⟩ := h
  obtain ⟨added, hadded⟩ := isSome_iff_exists.mp hsome
  rw [buildRootMap, if_pos ⟨hmap, hdir⟩, hadded, getD_some]

theorem buildRootMap_of_not_cwdAdded {config : Config} {host : Host} (h : ¬ CwdAdded config host) :
    buildRootMap config host = fromSpecs host config.rootSpecs := by
  unfold buildRootMap
  simp only
  split_ifs with hmap
  · have hnone : (fromSpecs host config.rootSpecs).addIfUncovered host host.currentDir
        config.cwdCanonicalName = none := by
      rw [← not_isSome_iff_eq_none]
      exact fun hsome => h ⟨hmap.1, hmap.2, hsome⟩
    rw [hnone, getD_none]
  · rfl

/-- The root targets keep two directories apart unless both or neither have been added. -/
theorem fingerprint_separates_iff {config : Config} {host host' : Host} (hhost : host.Resolved)
    (hhost' : host'.Resolved)
    (hspecs : fromSpecs host config.rootSpecs = fromSpecs host' config.rootSpecs) :
    ((buildRootMap config host).fingerprint = (buildRootMap config host').fingerprint →
        (buildRootMap config host).canonicalize host.currentDir =
          (buildRootMap config host').canonicalize host'.currentDir) ↔
      CwdAdded config host ∨ CwdAdded config host' ∨
        (fromSpecs host config.rootSpecs).canonicalize host.currentDir =
          (fromSpecs host config.rootSpecs).canonicalize host'.currentDir := by
  by_cases hadd : CwdAdded config host <;> by_cases hadd' : CwdAdded config host'
  · have hmap := RootMap.canonicalize_added (buildRootMap_of_cwdAdded hadd)
    have hmap' := RootMap.canonicalize_added (buildRootMap_of_cwdAdded hadd')
    rw [hhost.resolved] at hmap
    rw [hhost'.resolved] at hmap'
    simp [hadd, hmap, hmap']
  · have hne := RootMap.fingerprint_added_ne (buildRootMap_of_cwdAdded hadd)
    rw [hspecs, ← buildRootMap_of_not_cwdAdded hadd'] at hne
    simp [hadd, hne]
  · have hne := RootMap.fingerprint_added_ne (buildRootMap_of_cwdAdded hadd')
    rw [← hspecs, ← buildRootMap_of_not_cwdAdded hadd] at hne
    simp [hadd', hne.symm]
  · rw [buildRootMap_of_not_cwdAdded hadd, buildRootMap_of_not_cwdAdded hadd', ← hspecs]
    simp [hadd, hadd']

/-! ## Keys of compiles with debug info -/

/-- A cacheable compile that records its directory. -/
structure Compile.RecordsDir (c : Compile) : Prop where
  cacheable : c.parsed.Cacheable
  compiles : c.parsed.depOnly = false
  debugInfo : c.parsed.generatesDebugInfo = true

/-- `ComputeKey` hashes one stream for both, in pieces of a size a string can have. -/
def Compile.SameStream (digest : Digest) (config : Config) (c c' : Compile) : Prop :=
  ∃ k k', c.key digest config = some k ∧ c'.key digest config = some k' ∧
    (∀ piece ∈ (c.keyInput digest config).placedPieces, FitsSize piece) ∧
    (∀ piece ∈ (c'.keyInput digest config).placedPieces, FitsSize piece) ∧
    k.stream = k'.stream

/-- No key is shared between different canonical directories. -/
def KeysSeparateDirs (digest : Digest) (config : Config) (host host' : Host) : Prop :=
  ∀ c c' : Compile, c.world.host = host → c'.world.host = host' → c.RecordsDir → c'.RecordsDir →
    c.SameStream digest config c' → c.canonicalDir config = c'.canonicalDir config

section Keys

variable {digest : Digest} {config : Config} {c c' : Compile}

theorem Compile.key_stream {k : KeyStreams} (h : c.key digest config = some k) :
    ∃ tail after, k.stream =
      delimitedStream ((c.keyInput digest config).placedPieces ++ tail) ++ after := by
  obtain ⟨text, _, hkey⟩ := bind_eq_some_iff.mp h
  obtain ⟨fileDigests, _, hkey⟩ := bind_eq_some_iff.mp hkey
  obtain ⟨normalized, _, hkey⟩ := bind_eq_some_iff.mp hkey
  obtain ⟨pchs, _, hkey⟩ := bind_eq_some_iff.mp hkey
  rw [← some.inj hkey]
  exact ⟨_, _, rfl⟩

theorem Compile.SameStream.front_eq (h : c.SameStream digest config c')
    {front front' rest rest' : List Str}
    (hfront : (c.keyInput digest config).placedPieces = front ++ rest)
    (hfront' : (c'.keyInput digest config).placedPieces = front' ++ rest')
    (hlen : front.length = front'.length) : front = front' := by
  obtain ⟨k, k', hk, hk', hfits, hfits', hstream⟩ := h
  obtain ⟨tail, after, htail⟩ := key_stream hk
  obtain ⟨tail', after', htail'⟩ := key_stream hk'
  rw [hfront] at htail hfits
  rw [hfront'] at htail' hfits'
  have hcut : ∀ front rest tail after, delimitedStream (front ++ rest ++ tail) ++ after =
      delimitedStream front ++ (delimitedStream (rest ++ tail) ++ after) := by
    intro front rest tail after
    simp only [delimitedStream, flatMap_append, append_assoc]
  rw [htail, htail', hcut, hcut] at hstream
  refine delimitedStream_append_inj ?_ ?_ hlen hstream
  · exact fun piece hpiece => hfits piece (mem_append_left _ hpiece)
  · exact fun piece hpiece => hfits' piece (mem_append_left _ hpiece)

theorem Compile.SameStream.fingerprint_eq (h : c.SameStream digest config c') :
    (c.roots config).fingerprint = (c'.roots config).fingerprint := by
  have hhead := h.front_eq (append_assoc ..) (append_assoc ..) rfl
  exact congrArg (fun pieces => pieces.getD 4 []) hhead

theorem Compile.SameStream.currentDir_eq (h : c.SameStream digest config c')
    (hpch : c.parsed.producesPch = true) (hpch' : c'.parsed.producesPch = true)
    (hargs : c.parsed.keyArgs.length = c'.parsed.keyArgs.length) :
    c.world.host.currentDir = c'.world.host.currentDir := by
  have hplaced : ∀ c : Compile, c.parsed.producesPch = true →
      (c.keyInput digest config).placedPieces =
        ((c.keyInput digest config).headPieces ++ (c.keyInput digest config).argPieces ++
          ["pch-built-at".toList, c.world.host.currentDir]) ++ c.parsed.argv := by
    intro c hc
    rw [KeyInput.placedPieces, KeyInput.pchPieces, if_pos (show (c.keyInput digest
      config).parsed.producesPch = true from hc), append_assoc _ [_, _]]
    rfl
  have heq := h.front_eq (hplaced c hpch) (hplaced c' hpch') (by
    rw [length_append, length_append, length_append, length_append,
      KeyInput.argPieces, KeyInput.argPieces, length_map, length_map]
    exact congrArg (fun n => 5 + n + 2) hargs)
  exact (cons.inj (cons.inj (append_inj' heq rfl).2).2).1

def plainText : Str := "# 1 \"a.c\"\nint x;\n".toList

def plainCompile (host : Host) : Compile where
  world := ⟨host, fun _ => none, fun _ => none, []⟩
  compilerId := ⟨"gcc".toList, false⟩
  nativeTarget := []
  preprocess _ := some plainText
  rawArgv := ["gcc", "-g", "-c", "a.c"].map String.toList

def plainParsed : CompilerArgs where
  argv := ["gcc", "-g", "-c", "a.c"].map String.toList
  compiler := "gcc".toList
  source := "a.c".toList
  output := "a.o".toList
  language := .c
  compileOnly := true
  generatesDebugInfo := true
  keyArgs := ["-g".toList, "--vcache-lang=c".toList]
  baseArgs := ["-g".toList]

theorem plainCompile_parsed (host : Host) : (plainCompile host).parsed = plainParsed := by
  change parse (fun _ => none) (["gcc", "-g", "-c", "a.c"].map String.toList) = plainParsed
  decide +kernel

theorem plainCompile_recordsDir (host : Host) : (plainCompile host).RecordsDir := by
  constructor <;> rw [plainCompile_parsed] <;> rfl

theorem plainCompile_keyInput (digest : Digest) (config : Config) (host : Host) :
    (plainCompile host).keyInput digest config =
      ⟨digest, config, (plainCompile host).world, ⟨"gcc".toList, false⟩, [],
        buildRootMap config host, plainParsed⟩ := by
  rw [Compile.keyInput, plainCompile_parsed]
  rfl

theorem plainCompile_placedPieces {host : Host} (hhost : host.Resolved) :
    ((plainCompile host).keyInput digest config).placedPieces =
      [kCacheKeyVersion, "gcc".toList, [], "object".toList, (buildRootMap config host).fingerprint,
        "-g".toList, "--vcache-lang=c".toList] := by
  have hargs : plainParsed.keyArgs.map (buildRootMap config host).canonicalize =
      ["-g".toList, "--vcache-lang=c".toList] := by
    rw [plainParsed, map_cons, map_cons, map_nil,
      (absolute_buildRootMap hhost config).canonicalize_of_relative rfl,
      (absolute_buildRootMap hhost config).canonicalize_of_relative rfl]
  rw [plainCompile_keyInput, KeyInput.placedPieces, KeyInput.argPieces, hargs]
  rfl

theorem normalizePreprocessed_plainText {roots : RootMap}
    (h : roots.canonicalize "a.c".toList = "a.c".toList) :
    normalizePreprocessed roots plainText = some ⟨plainText, false, []⟩ := by
  have hmarker : feedLine roots "# 1 \"a.c\"".toList =
      some ⟨"# 1 \"".toList ++ escape (roots.canonicalize "a.c".toList) ++ "\"".toList, false,
        []⟩ :=
    rfl
  have hlines : split '\n' plainText = ["# 1 \"a.c\"".toList, "int x;".toList, []] := by decide
  rw [normalizePreprocessed, hlines, mapM_cons, hmarker, h]
  rfl

theorem plainCompile_key (digest : Digest) (config : Config) {host : Host} (hhost : host.Resolved) :
    ∃ k, (plainCompile host).key digest config = some k ∧
      k.stream = delimitedStream (((plainCompile host).keyInput digest config).placedPieces ++
        ((plainCompile host).keyInput digest config).tailPieces []) ++ plainText := by
  have hfiles : ((plainCompile host).keyInput digest config).parsed.keyFiles = [] := by
    rw [plainCompile_keyInput]
    rfl
  have htext : normalizePreprocessed ((plainCompile host).keyInput digest config).roots plainText =
      some ⟨plainText, false, []⟩ :=
    normalizePreprocessed_plainText
      ((absolute_buildRootMap hhost config).canonicalize_of_relative rfl)
  have hkey : (plainCompile host).key digest config =
      ((plainCompile host).keyInput digest config).computeKey plainText := by
    rw [Compile.key, plainCompile]
    exact bind_some ..
  rw [hkey]
  simp [KeyInput.computeKey, hfiles, htext, KeyInput.consumedPieces, delimitedStream]

theorem plainCompile_sameStream {host host' : Host} (hhost : host.Resolved)
    (hhost' : host'.Resolved) (hsize : FitsSize (buildRootMap config host).fingerprint)
    (h : (buildRootMap config host).fingerprint = (buildRootMap config host').fingerprint) :
    (plainCompile host).SameStream digest config (plainCompile host') := by
  obtain ⟨k, hk, hstream⟩ := plainCompile_key digest config hhost
  obtain ⟨k', hk', hstream'⟩ := plainCompile_key digest config hhost'
  have hplaced : ((plainCompile host').keyInput digest config).placedPieces =
      ((plainCompile host).keyInput digest config).placedPieces := by
    rw [plainCompile_placedPieces hhost, plainCompile_placedPieces hhost', h]
  have hfits : ∀ piece ∈ ((plainCompile host).keyInput digest config).placedPieces,
      FitsSize piece := by
    rw [plainCompile_placedPieces hhost]
    intro piece hpiece
    simp only [mem_cons, not_mem_nil, or_false] at hpiece
    rcases hpiece with rfl | rfl | rfl | rfl | rfl | rfl | rfl
    all_goals first
      | exact hsize
      | decide
  have htail : ((plainCompile host').keyInput digest config).tailPieces [] =
      ((plainCompile host).keyInput digest config).tailPieces [] := by
    rw [plainCompile_keyInput, plainCompile_keyInput]
    rfl
  have hfits' : ∀ piece ∈ ((plainCompile host').keyInput digest config).placedPieces,
      FitsSize piece := by
    rw [hplaced]
    exact hfits
  exact ⟨k, k', hk, hk', hfits, hfits', by rw [hstream, hstream', hplaced, htail]⟩

end Keys

/-- Keys keep the canonical directories of compiles with debug info apart exactly when
the root targets do. For roots that both directories read alike that is: one of the two
was added as a root, or the configured roots give both one spelling. Precompiled headers
are always keyed by their directory. -/
theorem keysSeparateDirs_iff (digest : Digest) (config : Config) {host host' : Host}
    (hhost : host.Resolved) (hhost' : host'.Resolved)
    (hsize : FitsSize (buildRootMap config host).fingerprint) :
    (KeysSeparateDirs digest config host host' ↔
      ((buildRootMap config host).fingerprint = (buildRootMap config host').fingerprint →
        (buildRootMap config host).canonicalize host.currentDir =
          (buildRootMap config host').canonicalize host'.currentDir)) ∧
    (fromSpecs host config.rootSpecs = fromSpecs host' config.rootSpecs →
      (KeysSeparateDirs digest config host host' ↔
        CwdAdded config host ∨ CwdAdded config host' ∨
          (fromSpecs host config.rootSpecs).canonicalize host.currentDir =
            (fromSpecs host config.rootSpecs).canonicalize host'.currentDir)) ∧
    ∀ c c' : Compile, c.parsed.producesPch = true → c'.parsed.producesPch = true →
      c.parsed.keyArgs.length = c'.parsed.keyArgs.length → c.SameStream digest config c' →
      c.world.host.currentDir = c'.world.host.currentDir := by
  have hgeneral : KeysSeparateDirs digest config host host' ↔
      ((buildRootMap config host).fingerprint = (buildRootMap config host').fingerprint →
        (buildRootMap config host).canonicalize host.currentDir =
          (buildRootMap config host').canonicalize host'.currentDir) := by
    constructor
    · intro hkeys heq
      exact hkeys (plainCompile host) (plainCompile host') rfl rfl (plainCompile_recordsDir host)
        (plainCompile_recordsDir host') (plainCompile_sameStream hhost hhost' hsize heq)
    · rintro hdirs c c' rfl rfl _ _ hsame
      exact hdirs hsame.fingerprint_eq
  refine ⟨hgeneral, ?_, ?_⟩
  · intro hspecs
    exact hgeneral.trans (fingerprint_separates_iff hhost hhost' hspecs)
  · intro c c' hpch hpch' hargs hsame
    exact hsame.currentDir_eq hpch hpch' hargs

/-! ## Two directories of one tree -/

def hostIn (dir : String) : Host := ⟨none, dir.toList, fun _ => none⟩

/-- Without configured roots every directory is added under one name. -/
theorem keysSeparateDirs_unrooted :
    CwdAdded {} (hostIn "/w1") ∧ KeysSeparateDirs Digest.ofContents {} (hostIn "/w1")
      (hostIn "/w2") := by
  have hresolved : ∀ dir : String, isAbsolute dir.toList = true →
      resolveRoot (hostIn dir) dir.toList = dir.toList → (hostIn dir).Resolved := by
    intro dir habs hres
    exact ⟨habs, hres, fun path real h => by cases h⟩
  have hadded : CwdAdded {} (hostIn "/w1") := by decide
  have hspecs : fromSpecs (hostIn "/w1") [] = fromSpecs (hostIn "/w2") [] := by decide
  have hiff := keysSeparateDirs_iff Digest.ofContents {}
    (hresolved "/w1" (by decide) (by decide)) (hresolved "/w2" (by decide) (by decide)) (by decide)
  exact ⟨hadded, (hiff.2.1 hspecs).mpr (.inl hadded)⟩

/-- Under one root, `gcc -g -c a.c` has one key in every directory. -/
theorem keysSeparateDirs_fails_below_root :
    let config : Config := ⟨["/proj".toList], true, "cwd".toList, []⟩
    let c := plainCompile (hostIn "/proj/d1")
    let c' := plainCompile (hostIn "/proj/d2")
    c.RecordsDir ∧ c'.RecordsDir ∧ c.SameStream Digest.ofContents config c' ∧
      c.canonicalDir config = "/vcache/proj/d1".toList ∧
      c'.canonicalDir config = "/vcache/proj/d2".toList := by
  refine ⟨plainCompile_recordsDir _, plainCompile_recordsDir _, ?_, by decide, by decide⟩
  apply plainCompile_sameStream
  · exact ⟨by decide, by decide, fun path real h => by cases h⟩
  · exact ⟨by decide, by decide, fun path real h => by cases h⟩
  · decide
  · decide

end Vcache

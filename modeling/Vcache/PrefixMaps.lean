import Vcache.RootRoundTrip

/-!
# The prefix-map flags against Canonicalize

The compiler replaces a path by the last flag whose old prefix it literally
starts with. `canonicalize` also asks that the prefix end at a component. The
two agree on a path unless the flag that wins belongs to a root that only
shares its spelling.
-/

namespace Vcache

open List

inductive PrefixMapStyle where
  | c
  | rust
deriving DecidableEq

def prefixMapFlag : PrefixMapStyle → Str
  | .c => "-ffile-prefix-map=".toList
  | .rust => "--remap-path-prefix=".toList

def prefixMapArg (style : PrefixMapStyle) (r : Root) : Str :=
  prefixMapFlag style ++ r.path ++ "=".toList ++ r.canonical

def RootMap.prefixMapArgs (m : RootMap) (style : PrefixMapStyle) : List Str :=
  m.roots.map (prefixMapArg style)

/-- What a compiler does with its prefix-map flags: `readFlag` gives the old and
new prefix of an argument, and the last old prefix the path starts with wins. -/
def applyPrefixMaps (readFlag : Str → Option (Str × Str)) (args : List Str) (path : Str) : Str :=
  match (args.filterMap readFlag).reverse.find? (fun pair => startsWith path pair.1) with
  | none => path
  | some (old, new) => new ++ path.drop old.length

/-- The compiler reads every flag of the map as the pair it was written from. -/
def ReadsFlags (readFlag : Str → Option (Str × Str)) (m : RootMap) (style : PrefixMapStyle) :
    Prop :=
  ∀ r ∈ m.roots, readFlag (prefixMapArg style r) = some (r.path, r.canonical)

/-- `old=new` cut at its first `=`, as older versions of gcc read it. -/
def readFirstEq (style : PrefixMapStyle) (arg : Str) : Option (Str × Str) :=
  if startsWith arg (prefixMapFlag style) then
    let value := arg.drop (prefixMapFlag style).length
    (findChar '=' value).map (fun eq => (value.take eq, value.drop (eq + 1)))
  else none

theorem readFirstEq_readsFlags {m : RootMap} (style : PrefixMapStyle)
    (h : ∀ r ∈ m.roots, '=' ∉ r.path) : ReadsFlags (readFirstEq style) m style := by
  intro r hr
  have hfind := findChar_append (h r hr) r.canonical
  simp [readFirstEq, prefixMapArg, append_assoc, hfind]

namespace RootMap

variable {m : RootMap} {path : Str}

def literalRoot (m : RootMap) (path : Str) : Option Root :=
  m.roots.reverse.find? (fun r => startsWith path r.path)

theorem applyPrefixMaps_prefixMapArgs {readFlag : Str → Option (Str × Str)}
    {style : PrefixMapStyle} (hread : ReadsFlags readFlag m style) (path : Str) :
    applyPrefixMaps readFlag (m.prefixMapArgs style) path =
      match m.literalRoot path with
      | none => path
      | some r => r.canonical ++ path.drop r.path.length := by
  have hpairs : (m.prefixMapArgs style).filterMap readFlag =
      m.roots.map (fun r => (r.path, r.canonical)) := by
    rw [prefixMapArgs, filterMap_map, ← List.filterMap_eq_map]
    exact filterMap_congr hread
  rw [applyPrefixMaps, hpairs, ← map_reverse, find?_map, literalRoot]
  cases hfind : m.roots.reverse.find? (fun r => startsWith path r.path) with
  | none | some r => simp [Function.comp_def, hfind]

theorem startsWith_of_isUnder {root : Str} (h : isUnder path root = true) :
    startsWith path root = true := by
  obtain ⟨rest, hrest, _⟩ := isUnder_iff.mp h
  exact startsWith_iff.mpr ⟨rest, hrest⟩

theorem rootOf_of_literalRoot {l : Root} (hl : m.literalRoot path = some l)
    (hunder : isUnder path l.path = true) : m.rootOf path = some l := by
  obtain ⟨_, before, after, hsplit, hnone⟩ := find?_eq_some_iff_append.mp hl
  refine find?_eq_some_iff_append.mpr ⟨hunder, before, after, hsplit, ?_⟩
  intro r hr
  by_contra hr'
  have := hnone r hr
  simp [startsWith_of_isUnder (by simpa using hr' : isUnder path r.path = true)] at this

theorem rootOf_eq_none_of_literalRoot (hl : m.literalRoot path = none) : m.rootOf path = none := by
  rw [rootOf_eq_none]
  intro r hr
  by_contra hr'
  have hnone := find?_eq_none.mp hl r (mem_reverse.mpr hr)
  exact hnone (startsWith_of_isUnder (by simpa using hr'))

/-- Where the covering root sends a path spelled below it; `none` covers nothing. -/
def sentBy (c : Option Root) (path : Str) : Str :=
  match c with
  | none => path
  | some r => r.canonical ++ path.drop r.path.length

/-- The last root whose path is a literal prefix covers the path by whole
components, or its canonical prefix is where the covering root already sends it. -/
def FlagAgrees (m : RootMap) (path : Str) : Prop :=
  ∀ l, m.literalRoot path = some l →
    isUnder path l.path = true ∨ l.canonical = sentBy (m.rootOf path) l.path

instance (m : RootMap) (path : Str) : Decidable (m.FlagAgrees path) :=
  match h : m.literalRoot path with
  | none => .isTrue (by simp [FlagAgrees, h])
  | some l => decidable_of_iff
      (isUnder path l.path = true ∨ l.canonical = sentBy (m.rootOf path) l.path)
      (by simp [FlagAgrees, h])

theorem canonicalize_eq_sentBy_append {l : Root} {rest : Str}
    (hl : m.literalRoot (l.path ++ rest) = some l) :
    m.canonicalize (l.path ++ rest) = sentBy (m.rootOf (l.path ++ rest)) l.path ++ rest := by
  unfold canonicalize
  cases hc : m.rootOf (l.path ++ rest) with
  | none => rfl
  | some c =>
    obtain ⟨hmem, hunder, _⟩ := rootOf_eq_some hc
    have hlen := (find?_reverse_roots hl).2.2 c hmem (startsWith_of_isUnder hunder)
    simp only [sentBy]
    rw [drop_append_of_le_length hlen, append_assoc]

end RootMap

/-- The compiler's rewriting of a path is its canonical spelling exactly when the
flag that wins agrees with the root that covers the path. -/
theorem applyPrefixMaps_eq_canonicalize_iff {readFlag : Str → Option (Str × Str)} {m : RootMap}
    {style : PrefixMapStyle} (hread : ReadsFlags readFlag m style) (path : Str) :
    applyPrefixMaps readFlag (m.prefixMapArgs style) path = m.canonicalize path ↔
      m.FlagAgrees path := by
  rw [RootMap.applyPrefixMaps_prefixMapArgs hread]
  unfold RootMap.FlagAgrees
  cases hl : m.literalRoot path with
  | none =>
    have hnone := RootMap.rootOf_eq_none_of_literalRoot hl
    simp [RootMap.canonicalize, hnone]
  | some l =>
    obtain ⟨rest, rfl⟩ := startsWith_iff.mp (RootMap.find?_reverse_roots hl).2.1
    simp only [drop_left, Option.some.injEq, forall_eq']
    rw [RootMap.canonicalize_eq_sentBy_append hl]
    constructor
    · intro heq
      exact .inr (append_cancel_right heq)
    · rintro (hunder | heq)
      · rw [RootMap.rootOf_of_literalRoot hl hunder]
        simp [RootMap.sentBy]
      · rw [heq]

/-- Under nested roots the flag of the inner one wins, and it covers the path. -/
theorem applyPrefixMaps_eq_canonicalize_inner :
    let m := fromSpecs bareHost ["/a=/x".toList, "/a/b=/y".toList]
    m.FlagAgrees "/a/b/f".toList ∧
      applyPrefixMaps (readFirstEq .c) (m.prefixMapArgs .c) "/a/b/f".toList =
        m.canonicalize "/a/b/f".toList := by
  have hagrees : (fromSpecs bareHost ["/a=/x".toList, "/a/b=/y".toList]).FlagAgrees
      "/a/b/f".toList := by decide
  exact ⟨hagrees, (applyPrefixMaps_eq_canonicalize_iff
    (readFirstEq_readsFlags .c (by decide)) _).mpr hagrees⟩

/-- The root `/a/b` is a literal prefix of its sibling `/a/bc`. -/
theorem applyPrefixMaps_sibling :
    let m := fromSpecs bareHost ["/a/b=/x".toList]
    ReadsFlags (readFirstEq .c) m .c ∧ isAbsolute "/a/bc/f".toList = true ∧
      applyPrefixMaps (readFirstEq .c) (m.prefixMapArgs .c) "/a/bc/f".toList = "/xc/f".toList ∧
      m.canonicalize "/a/bc/f".toList = "/a/bc/f".toList ∧
      applyPrefixMaps (readFirstEq .c) (m.prefixMapArgs .c) "/a/bc/f".toList ≠
        m.canonicalize "/a/bc/f".toList := by
  refine ⟨readFirstEq_readsFlags .c (by decide), ?_⟩
  decide

end Vcache

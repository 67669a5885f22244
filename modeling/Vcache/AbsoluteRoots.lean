import Mathlib.Data.List.DropRight
import Vcache.CompileKey

/-!
# Roots are absolute

On a host where `getcwd` and `realpath` keep their promises, every root of the
maps the program builds lies at an absolute path and points at an absolute
target. So canonicalisation leaves flags and relative paths alone.
-/

namespace Vcache

open List

/-- What `getcwd` and `realpath` promise. -/
structure Host.Resolved (host : Host) : Prop where
  currentDir : isAbsolute host.currentDir = true
  resolved : resolveRoot host host.currentDir = host.currentDir
  realPath : ∀ path real, host.realPath path = some real → isAbsolute real = true

theorem isAbsolute_lexicallyNormal {path : Str} (h : isAbsolute path = true) :
    isAbsolute (lexicallyNormal path) = true := by
  simp [lexicallyNormal, h, isAbsolute_iff]

theorem isAbsolute_stripTrailingSlashes {path : Str} (h : isAbsolute path = true) :
    isAbsolute (stripTrailingSlashes path) = true := by
  obtain ⟨rest, rfl⟩ := isAbsolute_iff.mp h
  have hkept : ∃ cut,
      '/' :: rest = (('/' :: rest).reverse.dropWhile (· == '/')).reverse ++ cut := by
    obtain ⟨cut, hcut⟩ := rdropWhile_prefix (fun c => c == '/') (l := '/' :: rest)
    exact ⟨cut, hcut.symm⟩
  obtain ⟨cut, hcut⟩ := hkept
  unfold stripTrailingSlashes
  split
  · rfl
  · rename_i hne
    cases hkept : (('/' :: rest).reverse.dropWhile (· == '/')).reverse with
    | nil => exact absurd hkept hne
    | cons c kept =>
      rw [hkept] at hcut
      rw [← (cons.inj hcut).1]
      rfl

section Absolute

variable {host : Host}

theorem isAbsolute_absoluteLexical (hhost : host.Resolved) (path : Str) :
    isAbsolute (absoluteLexical host path) = true := by
  unfold absoluteLexical
  obtain ⟨rest, hrest⟩ := isAbsolute_iff.mp hhost.currentDir
  split_ifs with habs hnil
  · exact isAbsolute_lexicallyNormal habs
  · rw [hrest] at hnil
    cases hnil
  · apply isAbsolute_lexicallyNormal
    rw [hrest]
    rfl

theorem isAbsolute_resolveRoot (hhost : host.Resolved) (path : Str) :
    isAbsolute (resolveRoot host path) = true := by
  apply isAbsolute_stripTrailingSlashes
  cases hreal : host.realPath path with
  | none => exact isAbsolute_absoluteLexical hhost path
  | some real => exact hhost.realPath path real hreal

theorem isAbsolute_canonicalTarget (abs target : Str) :
    isAbsolute (canonicalTarget abs target) = true := by
  have hbase : isAbsolute kDefaultCanonicalBase = true := by decide
  unfold canonicalTarget
  split_ifs with hnil habs
  · exact isAbsolute_append hbase _
  · exact isAbsolute_stripTrailingSlashes habs
  · exact isAbsolute_append hbase _

theorem isAbsolute_uniqueCanonical (used : List Str) {canonical : Str}
    (h : isAbsolute canonical = true) : isAbsolute (uniqueCanonical used canonical) = true := by
  unfold uniqueCanonical
  split_ifs
  · obtain ⟨j, hj⟩ := firstUnused_eq_numbered used canonical used.length 2
    rw [hj, numbered, append_assoc]
    exact isAbsolute_append h _
  · exact h

/-- Roots as the program builds them lie and point at absolute paths. -/
def Root.Absolute (r : Root) : Prop := isAbsolute r.path = true ∧ isAbsolute r.canonical = true

def RootMap.Absolute (m : RootMap) : Prop := ∀ r ∈ m.roots, r.Absolute

theorem SpecState.forall_addRoot {P : Root → Prop} {st : SpecState} {abs lexical canonical : Str}
    (hst : ∀ r ∈ st.roots, P r) (habs : P ⟨abs, uniqueCanonical st.usedCanonicals canonical⟩)
    (hlexical : P ⟨lexical, uniqueCanonical st.usedCanonicals canonical⟩) :
    ∀ r ∈ (st.addRoot abs lexical canonical).roots, P r := by
  have hbase : ∀ r ∈ st.roots ++ [⟨abs, uniqueCanonical st.usedCanonicals canonical⟩], P r :=
    forall_mem_concat.mpr ⟨hst, habs⟩
  unfold SpecState.addRoot
  simp only
  split
  · exact forall_mem_concat.mpr ⟨hbase, hlexical⟩
  · exact hbase

theorem forall_fromSpecs {P : Root → Prop} {host : Host}
    (hadd : ∀ st raw, (∀ r ∈ SpecState.roots st, P r) → ∀ r ∈ (addSpec host st raw).roots, P r)
    (specs : List Str) : ∀ r ∈ (fromSpecs host specs).roots, P r := by
  have hread : ∀ st : SpecState, (∀ r ∈ st.roots, P r) →
      ∀ r ∈ (specs.foldl (addSpec host) st).roots, P r := by
    induction specs with
    | nil => exact fun st hst => hst
    | cons raw specs ih =>
      intro st hst
      rw [foldl_cons]
      exact ih _ (hadd st raw hst)
  intro r hr
  exact hread {} (by simp) r (RootMap.mem_sortRoots.mp hr)

theorem absolute_addSpec (hhost : host.Resolved) {st : SpecState} (raw : Str)
    (hst : ∀ r ∈ st.roots, r.Absolute) : ∀ r ∈ (addSpec host st raw).roots, r.Absolute := by
  unfold addSpec
  simp only
  split_ifs
  · exact hst
  · exact hst
  · exact hst
  · have hcanonical := isAbsolute_uniqueCanonical st.usedCanonicals (isAbsolute_canonicalTarget
      (resolveRoot host (expandTilde host (trimWhitespace (splitSpec (trimWhitespace raw)).1)))
      (trimWhitespace (splitSpec (trimWhitespace raw)).2))
    exact SpecState.forall_addRoot hst ⟨isAbsolute_resolveRoot hhost _, hcanonical⟩
      ⟨isAbsolute_stripTrailingSlashes (isAbsolute_absoluteLexical hhost _), hcanonical⟩

theorem absolute_fromSpecs (hhost : host.Resolved) (specs : List Str) :
    (fromSpecs host specs).Absolute :=
  forall_fromSpecs (fun _ raw hst => absolute_addSpec hhost raw hst) specs

theorem absolute_buildRootMap (hhost : host.Resolved) (config : Config) :
    (buildRootMap config host).Absolute := by
  have hspecs := absolute_fromSpecs hhost config.rootSpecs
  unfold buildRootMap RootMap.addIfUncovered
  simp only
  split_ifs
  all_goals try exact hspecs
  intro r hr
  rw [Option.getD_some, RootMap.mem_sortRoots] at hr
  exact forall_mem_concat.mpr
    ⟨hspecs, isAbsolute_resolveRoot hhost _, isAbsolute_append (by decide) _⟩ r hr

end Absolute

/-- Only absolute paths are mapped, and onto absolute paths. -/
theorem RootMap.Absolute.canonicalize_cases {m : RootMap} (hm : m.Absolute) (path : Str) :
    m.canonicalize path = path ∨
      isAbsolute path = true ∧ isAbsolute (m.canonicalize path) = true := by
  cases hroot : m.rootOf path with
  | none => exact .inl (by rw [RootMap.canonicalize, hroot])
  | some r =>
    obtain ⟨hr, hunder, _⟩ := RootMap.find?_reverse_roots hroot
    obtain ⟨below, rfl, _⟩ := isUnder_iff.mp hunder
    refine .inr ⟨isAbsolute_append (hm r hr).1 _, ?_⟩
    simp only [RootMap.canonicalize, hroot]
    exact isAbsolute_append (hm r hr).2 _

theorem RootMap.Absolute.canonicalize_of_relative {m : RootMap} (hm : m.Absolute) {path : Str}
    (hpath : isAbsolute path = false) : m.canonicalize path = path := by
  rcases hm.canonicalize_cases path with h | ⟨habs, _⟩
  · exact h
  · rw [hpath] at habs
    cases habs

end Vcache

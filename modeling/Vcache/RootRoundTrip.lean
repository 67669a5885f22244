import Mathlib.Data.List.MinMax
import Vcache.Roots

/-!
# Localize against Canonicalize

`canonicalize` chooses a root by its local path and `localize` chooses one by
its canonical prefix. For the maps `fromSpecs` builds without symlinks the two
choices agree on a path exactly when no other canonical prefix lies between the
chosen root's and the relocated path, and the root is not `/` glued to a name.
-/

namespace Vcache

open List

namespace RootMap

variable {m : RootMap} {path : Str} {r s : Root}

theorem rootOf_eq_some (h : m.rootOf path = some r) :
    r ∈ m.roots ∧ isUnder path r.path = true ∧
      ∀ s ∈ m.roots, isUnder path s.path = true → s.path.length ≤ r.path.length :=
  find?_reverse_roots h

theorem rootOf_eq_none : m.rootOf path = none ↔ ∀ r ∈ m.roots, isUnder path r.path = false := by
  simp [rootOf]

theorem canonicalRootOf_eq_argmax (m : RootMap) (path : Str) :
    m.canonicalRootOf path =
      (m.roots.filter (fun r => isUnder path r.canonical)).argmax
        (fun r => r.canonical.length) := by
  rw [argmax, foldl_filter, canonicalRootOf]
  congr 1
  funext best r
  cases best with
  | none => rfl
  | some b => rfl

theorem canonicalRootOf_eq_some (h : m.canonicalRootOf path = some r) :
    r ∈ m.roots ∧ isUnder path r.canonical = true ∧
      ∀ s ∈ m.roots, isUnder path s.canonical = true →
        s.canonical.length ≤ r.canonical.length := by
  rw [canonicalRootOf_eq_argmax] at h
  have hmem := mem_filter.mp (argmax_mem h)
  refine ⟨hmem.1, hmem.2, ?_⟩
  intro s hs hunder
  have hfilter : s ∈ m.roots.filter (fun r => isUnder path r.canonical) :=
    mem_filter.mpr ⟨hs, hunder⟩
  exact le_of_mem_argmax (f := fun r : Root => r.canonical.length) hfilter h

theorem canonicalRootOf_eq_none (h : m.canonicalRootOf path = none) :
    ∀ r ∈ m.roots, isUnder path r.canonical = false := by
  rw [canonicalRootOf_eq_argmax, argmax_eq_none] at h
  simpa using filter_eq_nil_iff.mp h

end RootMap

/-! ## What `fromSpecs` guarantees without symlinks -/

theorem firstUnused_not_mem (used : List Str) (canonical : Str) (fuel i : Nat)
    (h : ∃ j, i ≤ j ∧ j ≤ i + fuel ∧ numbered canonical j ∉ used) :
    firstUnused used canonical fuel i ∉ used := by
  induction fuel generalizing i with
  | zero =>
    obtain ⟨j, hij, hji, hj⟩ := h
    obtain rfl : j = i := by omega
    exact hj
  | succ fuel ih =>
    rw [firstUnused]
    split_ifs with hmem
    · apply ih
      obtain ⟨j, hij, hji, hj⟩ := h
      have hne : j ≠ i := by
        rintro rfl
        exact hj hmem
      exact ⟨j, by omega, by omega, hj⟩
    · exact hmem

theorem numbered_injective (canonical : Str) : Function.Injective (numbered canonical) := by
  intro i j h
  exact toDecimal_injective (append_cancel_left h)

theorem uniqueCanonical_not_mem (used : List Str) (canonical : Str) :
    uniqueCanonical used canonical ∉ used := by
  unfold uniqueCanonical
  split_ifs with hmem
  · apply firstUnused_not_mem
    by_contra hall
    push Not at hall
    let tried := (range' 2 (used.length + 1)).map (numbered canonical)
    have hrange : (range' 2 (used.length + 1)).Nodup := nodup_range'
    have hnodup : tried.Nodup := hrange.map (numbered_injective canonical)
    have hsub : tried ⊆ used := by
      intro name hname
      obtain ⟨j, hj, rfl⟩ := mem_map.mp hname
      obtain ⟨hlo, hhi⟩ := mem_range'_1.mp hj
      exact hall j hlo (by omega)
    have hlen := (subperm_of_subset hnodup hsub).length_le
    simp only [tried, length_map, length_range'] at hlen
    omega
  · exact hmem

theorem firstUnused_eq_numbered (used : List Str) (canonical : Str) (fuel i : Nat) :
    ∃ j, firstUnused used canonical fuel i = numbered canonical j := by
  induction fuel generalizing i with
  | zero => exact ⟨i, rfl⟩
  | succ fuel ih =>
    rw [firstUnused]
    split_ifs
    · exact ih (i + 1)
    · exact ⟨i, rfl⟩

theorem uniqueCanonical_ne_slash (used : List Str) {canonical : Str} (h : canonical ≠ ['/']) :
    uniqueCanonical used canonical ≠ ['/'] := by
  unfold uniqueCanonical
  split_ifs
  · obtain ⟨j, hj⟩ := firstUnused_eq_numbered used canonical used.length 2
    rw [hj]
    intro heq
    have hdash : '-' ∈ numbered canonical j := by simp [numbered]
    rw [heq] at hdash
    simp at hdash
  · exact h

theorem stripTrailingSlashes_ne_nil {s : Str} (h : s ≠ []) : stripTrailingSlashes s ≠ [] := by
  unfold stripTrailingSlashes
  split
  · cases s with
    | nil => exact absurd rfl h
    | cons c s => simp
  · assumption

theorem lexicallyNormal_ne_nil (path : Str) : lexicallyNormal path ≠ [] := by
  unfold lexicallyNormal
  simp only
  generalize join ['/'] _ ++ _ = body
  split_ifs with _ hbody
  · simp
  · simp
  · exact hbody

theorem absoluteLexical_ne_nil (host : Host) (path : Str) : absoluteLexical host path ≠ [] := by
  unfold absoluteLexical
  split_ifs <;> exact lexicallyNormal_ne_nil _

/-- What the loop over the specs keeps true when no alias is ever added. -/
structure SpecState.Distinct (st : SpecState) : Prop where
  nodup : (st.roots.map Root.canonical).Nodup
  used : ∀ r ∈ st.roots, r.canonical ∈ st.usedCanonicals
  canonical_ne : ∀ r ∈ st.roots, r.canonical ≠ ['/']
  path_ne : ∀ r ∈ st.roots, r.path ≠ []

theorem SpecState.Distinct.addRoot {st : SpecState} (hst : st.Distinct) {abs canonical : Str}
    (habs : abs ≠ []) (hcanonical : canonical ≠ ['/']) :
    (st.addRoot abs abs canonical).Distinct := by
  have hfresh := uniqueCanonical_not_mem st.usedCanonicals canonical
  have hslash := uniqueCanonical_ne_slash st.usedCanonicals hcanonical
  simp only [SpecState.addRoot, ne_eq, not_true_eq_false, false_and, if_false]
  constructor
  · rw [map_append, nodup_append]
    refine ⟨hst.nodup, by simp, ?_⟩
    intro c hc d hd hcd
    obtain ⟨r, hr, rfl⟩ := mem_map.mp hc
    have hd' : d = uniqueCanonical st.usedCanonicals canonical := by simpa using hd
    exact hfresh (hd' ▸ hcd ▸ hst.used r hr)
  · exact forall_mem_concat.mpr ⟨fun r hr => mem_cons_of_mem _ (hst.used r hr), mem_cons_self⟩
  · exact forall_mem_concat.mpr ⟨hst.canonical_ne, hslash⟩
  · exact forall_mem_concat.mpr ⟨hst.path_ne, habs⟩

theorem resolveRoot_eq_of_noSymlinks {host : Host} (hhost : host.NoSymlinks) (path : Str) :
    resolveRoot host path = stripTrailingSlashes (absoluteLexical host path) := by
  unfold resolveRoot
  cases hreal : host.realPath path with
  | none => rfl
  | some real => exact hhost path real hreal

theorem SpecState.Distinct.addSpec {host : Host} (hhost : host.NoSymlinks) {st : SpecState}
    (hst : st.Distinct) (raw : Str) : (addSpec host st raw).Distinct := by
  unfold Vcache.addSpec
  simp only [resolveRoot_eq_of_noSymlinks hhost]
  split_ifs with hspec hpath hcanonical
  · exact hst
  · exact ⟨hst.nodup, hst.used, hst.canonical_ne, hst.path_ne⟩
  · exact ⟨hst.nodup, hst.used, hst.canonical_ne, hst.path_ne⟩
  · exact hst.addRoot (stripTrailingSlashes_ne_nil (absoluteLexical_ne_nil host _))
      (fun h => hcanonical (.inr h))

theorem readSpecs_distinct {host : Host} (hhost : host.NoSymlinks) (specs : List Str) :
    (readSpecs host specs).Distinct := by
  unfold readSpecs
  have hinit : SpecState.Distinct {} := ⟨by simp, by simp, by simp, by simp⟩
  generalize ({} : SpecState) = st at hinit
  induction specs generalizing st with
  | nil => exact hinit
  | cons raw specs ih => exact ih _ (hinit.addSpec hhost raw)

/-- The maps in which a canonical prefix names one root. -/
structure RootMap.Unambiguous (m : RootMap) : Prop where
  eq_of_canonical_eq : ∀ r ∈ m.roots, ∀ s ∈ m.roots, r.canonical = s.canonical → r = s
  canonical_ne : ∀ r ∈ m.roots, r.canonical ≠ ['/']
  path_ne : ∀ r ∈ m.roots, r.path ≠ []

theorem fromSpecs_unambiguous {host : Host} (hhost : host.NoSymlinks) (specs : List Str) :
    (fromSpecs host specs).Unambiguous := by
  have hst := readSpecs_distinct hhost specs
  constructor
  · intro r hr s hs heq
    exact inj_on_of_nodup_map hst.nodup (RootMap.mem_sortRoots.mp hr)
      (RootMap.mem_sortRoots.mp hs) heq
  · exact fun r hr => hst.canonical_ne r (RootMap.mem_sortRoots.mp hr)
  · exact fun r hr => hst.path_ne r (RootMap.mem_sortRoots.mp hr)

/-! ## When the round trip holds -/

namespace RootMap

variable {m : RootMap} {path : Str}

/-- The root that covers the path is not `/` glued to a name, and no root has
the canonical prefix obtained by following the path some whole components below
the covering root's. -/
def Unshadowed (m : RootMap) (path : Str) : Prop :=
  ∀ r, m.rootOf path = some r → Separated (path.drop r.path.length) ∧
    ∀ s ∈ m.roots, ∀ middle below, middle ≠ [] → path = r.path ++ middle ++ below →
      Separated below → s.canonical ≠ r.canonical ++ middle

theorem isUnder_canonical_iff (hm : m.Unambiguous) {r : Root} (hr : r ∈ m.roots) {q : Str} :
    isUnder q r.canonical = true ↔ ∃ rest, q = r.canonical ++ rest ∧ Separated rest := by
  simp [isUnder_iff, hm.canonical_ne r hr]

theorem localize_of_unshadowed (hm : m.Unambiguous) {r : Root} {rest : Str}
    (hr : m.rootOf (r.path ++ rest) = some r) (hshadow : m.Unshadowed (r.path ++ rest)) :
    m.localize (r.canonical ++ rest) = r.path ++ rest := by
  obtain ⟨hsep, hnone⟩ := hshadow r hr
  rw [drop_left] at hsep
  have hmem := (rootOf_eq_some hr).1
  have hunder : isUnder (r.canonical ++ rest) r.canonical = true :=
    (isUnder_canonical_iff hm hmem).mpr ⟨rest, rfl, hsep⟩
  unfold localize
  cases hb : m.canonicalRootOf (r.canonical ++ rest) with
  | none => simp [canonicalRootOf_eq_none hb r hmem] at hunder
  | some b =>
    obtain ⟨hbmem, hbunder, hbest⟩ := canonicalRootOf_eq_some hb
    obtain ⟨below, hsplit, hbelow⟩ := (isUnder_canonical_iff hm hbmem).mp hbunder
    have hpre : r.canonical <+: b.canonical :=
      prefix_of_prefix_length_le (prefix_append _ rest) ⟨below, hsplit.symm⟩
        (hbest r hmem hunder)
    obtain ⟨middle, hmiddle⟩ := hpre
    have hrest : rest = middle ++ below := by
      rw [← hmiddle, append_assoc] at hsplit
      exact append_cancel_left hsplit
    by_cases hnil : middle = []
    · have hbr : b = r := hm.eq_of_canonical_eq b hbmem r hmem (by rw [← hmiddle, hnil]; simp)
      simp [hbr]
    · refine absurd hmiddle.symm (hnone b hbmem middle below hnil ?_ hbelow)
      rw [hrest, append_assoc]

theorem canonicalRootOf_of_localize (hm : m.Unambiguous) {r : Root} {rest : Str}
    (hr : m.rootOf (r.path ++ rest) = some r)
    (hout : ∀ s ∈ m.roots, isUnder (r.path ++ rest) s.canonical = false)
    (hback : m.localize (r.canonical ++ rest) = r.path ++ rest) :
    m.canonicalRootOf (r.canonical ++ rest) = some r := by
  obtain ⟨hmem, hunder, hlongest⟩ := rootOf_eq_some hr
  unfold localize at hback
  cases hb : m.canonicalRootOf (r.canonical ++ rest) with
  | none =>
    rw [hb] at hback
    have heq : r.canonical = r.path := append_cancel_right hback
    have hunder' := hout r hmem
    rw [heq, hunder] at hunder'
    cases hunder'
  | some b =>
    rw [hb] at hback
    obtain ⟨hbmem, hbunder, hbest⟩ := canonicalRootOf_eq_some hb
    obtain ⟨below, hsplit, hbelow⟩ := (isUnder_canonical_iff hm hbmem).mp hbunder
    simp only [hsplit, drop_left] at hback
    have hcover : isUnder (r.path ++ rest) b.path = true :=
      isUnder_iff.mpr ⟨below, hback.symm, .inr hbelow⟩
    obtain ⟨between, hbetween⟩ : b.path <+: r.path :=
      prefix_of_prefix_length_le ⟨below, hback⟩ (prefix_append _ rest)
        (hlongest b hbmem hcover)
    have hbelow_eq : below = between ++ rest := by
      rw [← hbetween, append_assoc] at hback
      exact append_cancel_left hback
    have hcanonical : r.canonical = b.canonical ++ between := by
      rw [hbelow_eq, ← append_assoc] at hsplit
      exact append_cancel_right hsplit
    -- a non-empty `between` starts with the separator, so `r` is not `/` and matches too
    have hnil : between = [] := by
      by_contra hne
      have hroot : r.path ≠ ['/'] := by
        intro hslash
        rw [hslash] at hbetween
        have hlen := congrArg length hbetween
        have := length_pos_of_ne_nil (hm.path_ne b hbmem)
        have := length_pos_of_ne_nil hne
        simp at hlen
        omega
      obtain ⟨rest', hrest', hsep⟩ := isUnder_iff.mp hunder
      obtain rfl := append_cancel_left hrest'
      have hlen := hbest r hmem ((isUnder_canonical_iff hm hmem).mpr
        ⟨rest, rfl, hsep.resolve_left hroot⟩)
      rw [hcanonical, length_append] at hlen
      exact hne (eq_nil_of_length_eq_zero (by omega))
    rw [hm.eq_of_canonical_eq b hbmem r hmem (by rw [hcanonical, hnil, append_nil])]

theorem unshadowed_of_canonicalRootOf (hm : m.Unambiguous) {r : Root} {rest : Str}
    (hr : m.rootOf (r.path ++ rest) = some r)
    (hback : m.canonicalRootOf (r.canonical ++ rest) = some r) :
    m.Unshadowed (r.path ++ rest) := by
  intro r' hr'
  obtain rfl : r = r' := Option.some.inj (hr.symm.trans hr')
  obtain ⟨hmem, hunder, hbest⟩ := canonicalRootOf_eq_some hback
  obtain ⟨rest', hrest', hsep⟩ := (isUnder_canonical_iff hm hmem).mp hunder
  obtain rfl := append_cancel_left hrest'
  rw [drop_left]
  refine ⟨hsep, ?_⟩
  intro s hs middle below hne hpath hbelow hcanonical
  rw [append_assoc] at hpath
  have hrest : rest = middle ++ below := append_cancel_left hpath
  have hlen := hbest s hs ((isUnder_canonical_iff hm hs).mpr
    ⟨below, by rw [hcanonical, hrest, append_assoc], hbelow⟩)
  rw [hcanonical, length_append] at hlen
  exact hne (eq_nil_of_length_eq_zero (by omega))

theorem localize_eq_self (hout : ∀ s ∈ m.roots, isUnder path s.canonical = false) :
    m.localize path = path := by
  unfold localize
  cases hb : m.canonicalRootOf path with
  | none => rfl
  | some b =>
    obtain ⟨hbmem, hbunder, _⟩ := canonicalRootOf_eq_some hb
    simp [hout b hbmem] at hbunder

theorem localize_canonicalize_iff (hm : m.Unambiguous)
    (hout : ∀ s ∈ m.roots, isUnder path s.canonical = false) :
    m.localize (m.canonicalize path) = path ↔ m.Unshadowed path := by
  cases hr : m.rootOf path with
  | none =>
    have hself : m.canonicalize path = path := by rw [canonicalize, hr]
    rw [hself, localize_eq_self hout]
    simp [Unshadowed, hr]
  | some r =>
    obtain ⟨rest, rfl, _⟩ := isUnder_iff.mp (rootOf_eq_some hr).2.1
    have hcanonical : m.canonicalize (r.path ++ rest) = r.canonical ++ rest := by
      rw [canonicalize, hr]
      simp
    rw [hcanonical]
    constructor
    · intro hback
      exact unshadowed_of_canonicalRootOf hm hr (canonicalRootOf_of_localize hm hr hout hback)
    · exact localize_of_unshadowed hm hr

end RootMap

/-- The round trip through a map built from specs gives a path back exactly when
the path is unshadowed, and unshadowed paths have different canonical spellings. -/
theorem fromSpecs_localize_canonicalize {host : Host} (hhost : host.NoSymlinks)
    (specs : List Str) {path : Str}
    (hout : ∀ s ∈ (fromSpecs host specs).roots, isUnder path s.canonical = false) :
    ((fromSpecs host specs).localize ((fromSpecs host specs).canonicalize path) = path ↔
      (fromSpecs host specs).Unshadowed path) ∧
    ∀ other, (∀ s ∈ (fromSpecs host specs).roots, isUnder other s.canonical = false) →
      (fromSpecs host specs).Unshadowed path → (fromSpecs host specs).Unshadowed other →
      (fromSpecs host specs).canonicalize path = (fromSpecs host specs).canonicalize other →
      path = other := by
  have hm := fromSpecs_unambiguous hhost specs
  refine ⟨RootMap.localize_canonicalize_iff hm hout, ?_⟩
  intro other hout' hpath hother heq
  rw [← (RootMap.localize_canonicalize_iff hm hout).mpr hpath, heq]
  exact (RootMap.localize_canonicalize_iff hm hout').mpr hother

def bareHost : Host := ⟨none, "/".toList, fun _ => none⟩

theorem bareHost_noSymlinks : bareHost.NoSymlinks := by
  intro path real h
  cases h

/-- Roots with disjoint targets bring `/a/d/f` back. -/
theorem fromSpecs_localize_canonicalize_disjoint :
    let m := fromSpecs bareHost ["/a=/c".toList, "/b=/e".toList]
    m.localize (m.canonicalize "/a/d/f".toList) = "/a/d/f".toList ∧
      m.Unshadowed "/a/d/f".toList := by
  have hback : (fromSpecs bareHost ["/a=/c".toList, "/b=/e".toList]).localize
      ((fromSpecs bareHost ["/a=/c".toList, "/b=/e".toList]).canonicalize "/a/d/f".toList) =
      "/a/d/f".toList := by decide
  exact ⟨hback, (fromSpecs_localize_canonicalize bareHost_noSymlinks _ (by decide)).1.mp hback⟩

/-- With `/c/d` nested in `/c`, the canonical spelling of `/a/d/f` is also that of
`/b/f`, and `Localize` answers with the latter. -/
theorem localize_canonicalize_nested_targets :
    bareHost.NoSymlinks ∧
    (∀ path ∈ ["/a/d/f".toList, "/b/f".toList], isAbsolute path = true ∧
      ∀ s ∈ (fromSpecs bareHost ["/a=/c".toList, "/b=/c/d".toList]).roots,
        isUnder path s.canonical = false) ∧
    let m := fromSpecs bareHost ["/a=/c".toList, "/b=/c/d".toList]
    m.localize (m.canonicalize "/a/d/f".toList) = "/b/f".toList ∧
      m.localize (m.canonicalize "/a/d/f".toList) ≠ "/a/d/f".toList ∧
      m.canonicalize "/a/d/f".toList = m.canonicalize "/b/f".toList := by
  refine ⟨bareHost_noSymlinks, ?_, ?_⟩ <;> decide

end Vcache

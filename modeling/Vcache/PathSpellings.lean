import Vcache.CxxTrace

/-!
# Spellings of a path

A trace names thousands of files, and classifying them goes through two scanners of the
manifest's own instead of `std::filesystem`. One gives the lexically normal spelling of an
absolute path, the other leaves out what does not move a walk from the root. Both are
functions of the same segments.
-/

namespace Vcache

open List

open FileTree (Tree)

variable {path : Str} {segments : List Str}

theorem getLast?_split (path : Str) : (split '/' path).getLast? = some (baseName path) := by
  rw [baseName]
  cases hlast : splitLastSlash path with
  | none => rw [split_of_notMem (splitLastSlash_eq_none.mp hlast), getLast?_singleton]
  | some found =>
    obtain ⟨hpath, hbase⟩ := splitLastSlash_eq_some.mp hlast
    rw [hpath, split_append, split_of_notMem hbase, getLast?_concat]

/-! ## Lexically normal paths -/

/-- A segment that stays where it is stays out of the normal path. -/
theorem lexicalSegment_of_not_kept {segment : Str} (h : keptSegment segment = false) :
    lexicalSegment segments segment = segments := by
  have hstays : segment = [] ∨ segment = ".".toList := by
    simpa [keptSegment, or_iff_not_imp_left] using h
  rcases hstays with rfl | rfl
  · rfl
  · rfl

theorem foldl_lexicalSegment (fields segments : List Str) :
    fields.foldl lexicalSegment segments =
      (fields.filter keptSegment).foldl lexicalSegment segments := by
  induction fields generalizing segments with
  | nil => rfl
  | cons field fields ih =>
    rw [foldl_cons, ih]
    cases hkept : keptSegment field with
    | false => rw [filter_cons_of_neg (by simp [hkept]), lexicalSegment_of_not_kept hkept]
    | true => rw [filter_cons_of_pos hkept, foldl_cons]

def NormalNames (segments : List Str) : Prop :=
  ∀ s ∈ segments, (s ≠ [] ∧ '/' ∉ s) ∧ s ≠ "..".toList

/-- One segment of `lexically_normal` below the root: no name it keeps is `..`, and so a `..`
takes back the last of them. -/
theorem normalStep_eq (h : NormalNames segments) (slash : Bool) {segment : Str}
    (hsegment : '/' ∉ segment) : NormalNames (lexicalSegment segments segment) ∧
      (normalStep true (segments.reverse, slash) segment).1 =
        (lexicalSegment segments segment).reverse := by
  by_cases hstays : segment = [] ∨ segment = ".".toList
  · have hkept : keptSegment segment = false := by rcases hstays with rfl | rfl <;> rfl
    rw [lexicalSegment_of_not_kept hkept, normalStep, if_pos hstays]
    exact ⟨h, rfl⟩
  rw [normalStep, if_neg hstays, lexicalSegment]
  by_cases hup : segment = "..".toList
  · rw [if_pos hup, if_pos hup]
    induction segments using reverseRecOn with
    | nil => exact ⟨h, rfl⟩
    | append_singleton segments last =>
      have hlast := (h last (mem_append_right _ mem_cons_self)).2
      rw [dropLast_concat, reverse_concat]
      exact ⟨fun s hs => h s (mem_append_left _ hs), congrArg Prod.fst (if_neg hlast)⟩
  · rw [not_or] at hstays
    rw [if_neg hup, if_neg hup, if_pos hstays, reverse_concat]
    refine ⟨fun s hs => ?_, rfl⟩
    rcases mem_append.mp hs with hs | hs
    · exact h s hs
    · rw [mem_singleton.mp hs]
      exact ⟨⟨hstays.1, hsegment⟩, hup⟩

theorem foldl_normalStep (fields : List Str) (hfields : ∀ field ∈ fields, '/' ∉ field)
    (h : NormalNames segments) (slash : Bool) :
    NormalNames (fields.foldl lexicalSegment segments) ∧
      (fields.foldl (normalStep true) (segments.reverse, slash)).1 =
        (fields.foldl lexicalSegment segments).reverse := by
  induction fields generalizing segments slash with
  | nil => exact ⟨h, rfl⟩
  | cons field fields ih =>
    obtain ⟨hnames, hstep⟩ := normalStep_eq h slash (hfields field mem_cons_self)
    have hrest := ih (fun f hf => hfields f (mem_cons_of_mem _ hf)) hnames
      (normalStep true (segments.reverse, slash) field).2
    rw [← hstep] at hrest
    exact hrest

theorem cons_join (h : segments ≠ []) : '/' :: join ['/'] segments = pathOf segments := by
  induction segments with
  | nil => exact absurd rfl h
  | cons segment segments ih =>
    cases segments with
    | nil => rw [pathOf_cons, join, pathOf, flatMap_nil, append_nil]
    | cons next rest =>
      have hjoin : join ['/'] (segment :: next :: rest) =
          segment ++ ['/'] ++ join ['/'] (next :: rest) := rfl
      rw [pathOf_cons, ← ih (cons_ne_nil _ _), hjoin, append_assoc]
      rfl

theorem lexicalNormal_eq (habs : isAbsolute path = true) :
    lexicalNormal path = dropTrailingSlash (lexicallyNormal path) := by
  obtain ⟨hnames, hfold⟩ := @foldl_normalStep [] (split '/' path)
    (fun _ => notMem_of_mem_split) (by simp [NormalNames]) false
  rw [lexicalNormal, if_pos habs, lexicallyNormal, habs]
  simp only [reverse_nil] at hfold
  generalize (split '/' path).foldl (normalStep true) ([], false) = acc at hfold
  generalize (split '/' path).foldl lexicalSegment [] = segments at hnames hfold
  simp only [hfold, reverse_reverse]
  by_cases hnone : segments = []
  · simp [hnone, dropTrailingSlash, join]
  · have hpath : pathOf segments ≠ [] := by
      rw [← cons_join hnone]
      exact cons_ne_nil _ _
    rw [if_neg hnone, if_pos trivial, ← cons_append, cons_join hnone]
    split
    · exact (dropTrailingSlash_slash hpath).symm
    · rw [append_nil]
      exact (dropTrailingSlash_pathOf (fun s hs => (hnames s hs).1)).symm

/-! ## Paths without dot segments -/

theorem isAbsolute_withoutDotSegments (habs : isAbsolute path = true) :
    isAbsolute (withoutDotSegments path) = true := by
  rw [withoutDotSegments_eq habs]
  cases keptSegments path with
  | nil => rfl
  | cons segment segments => rfl

/-- A walk along the path that is left is one along the segments that move. -/
theorem walk_withoutDotSegments (habs : isAbsolute path = true) (F : DiskTree) (links : ℕ) :
    Tree.walk F links [] (stepsOf (withoutDotSegments path)) =
      Tree.walk F links [] ((keptSegments path).map stepOf) := by
  rw [Tree.walk_eq_moving, moving_stepsOf, keptSegments_withoutDotSegments habs]
  by_cases hnone : keptSegments path = []
  · have hroot : Tree.walk F links [] [] = .found [] := by
      cases links <;> rfl
    rw [hnone, map_nil, hroot, Tree.requireDirectory_found F.root, ite_self]
  · rw [endsStaying_withoutDotSegments habs hnone]
    rfl

/-- The two scanners agree with `std::filesystem` and with each other, and what is left out
does not change where a walk from the root comes to; only a last segment that stays asks for a
directory there. -/
theorem normalisers_agree (habs : isAbsolute path = true) :
    lexicalNormal path = dropTrailingSlash (lexicallyNormal path) ∧
    lexicalNormal (withoutDotSegments path) = lexicalNormal path ∧
    withoutDotSegments (withoutDotSegments path) = withoutDotSegments path ∧
    (withoutDotSegments path =
      if keptSegments path = [] then "/".toList else pathOf (keptSegments path)) ∧
    (split '/' (withoutDotSegments path)).count "..".toList =
      (split '/' path).count "..".toList ∧
    ∀ (F : DiskTree) (links : ℕ), Tree.walk F links [] (stepsOf path) =
      if baseName path = [] ∨ baseName path = ".".toList then
        Tree.requireDirectory F (Tree.walk F links [] (stepsOf (withoutDotSegments path)))
      else Tree.walk F links [] (stepsOf (withoutDotSegments path)) := by
  have habs' := isAbsolute_withoutDotSegments habs
  have hkept : (split '/' (withoutDotSegments path)).filter keptSegment =
      (split '/' path).filter keptSegment := keptSegments_withoutDotSegments habs
  refine ⟨lexicalNormal_eq habs, ?_, ?_, withoutDotSegments_eq habs, ?_, fun F links => ?_⟩
  · rw [lexicalNormal, lexicalNormal, if_pos habs, if_pos habs', foldl_lexicalSegment, hkept,
      ← foldl_lexicalSegment]
  · rw [withoutDotSegments_eq habs', keptSegments_withoutDotSegments habs,
      ← withoutDotSegments_eq habs]
  · have hup : keptSegment "..".toList = true := rfl
    rw [← count_filter hup, hkept, count_filter hup]
  · have hends : Tree.endsStaying (stepsOf path) = true ↔
        baseName path = [] ∨ baseName path = ".".toList := by
      rw [endsStaying_stepsOf, getLast?_split]
      simp [keptSegment, or_iff_not_imp_left]
    rw [walk_withoutDotSegments habs, Tree.walk_eq_moving, moving_stepsOf]
    simp only [hends]

theorem normalisers_agree_include :
    withoutDotSegments "/usr//./lib/../include/.".toList = "/usr/lib/../include".toList ∧
    lexicalNormal "/usr/lib/../include".toList = "/usr/include".toList ∧
    ∀ (F : DiskTree) (links : ℕ),
      Tree.walk F links [] (stepsOf "/usr//./lib/../include/.".toList) = Tree.requireDirectory F
        (Tree.walk F links [] (stepsOf "/usr/lib/../include".toList)) := by
  have hleft : withoutDotSegments "/usr//./lib/../include/.".toList =
      "/usr/lib/../include".toList := by decide
  obtain ⟨-, hnormal, -, -, -, hwalk⟩ :=
    @normalisers_agree "/usr//./lib/../include/.".toList rfl
  rw [hleft] at hnormal hwalk
  refine ⟨hleft, hnormal.trans (by decide), fun F links => (hwalk F links).trans (if_pos ?_)⟩
  exact .inr rfl

end Vcache

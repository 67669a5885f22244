import Vcache.SourceLanguage

/-!
# What parsing a command line keeps

Cut an argument list into options with their values and single words. `Parse`
takes one such group in each turn. Some groups it keeps aside: the source, the
output, the phase, dependency flags, prefix maps and `-Xclang -emit-pch`. The
others make up `base_args` in their order, and of these the ones that are neither
for the linker nor for the preprocessor alone are in `key_args` too.
-/

namespace Vcache

open CompilerItem List

variable {out : CompilerItem × List Str} {items : List CompilerItem}

/-! ## Groups -/

/-- The options with their values, and the words that stand alone. -/
def argGroups : List Str → List (List Str)
  | [] => []
  | [word] => [[word]]
  | word :: value :: rest =>
    if takesValue word then [word, value] :: argGroups rest
    else [word] :: argGroups (value :: rest)

def HasValues (words : List Str) : Prop :=
  ∀ word, [word] ∈ argGroups words → takesValue word = false

def isSourceWord (word : Str) : Bool := word.head? != some '-'

def isTakenGroup : List Str → Bool
  | [] => false
  | arg :: values =>
    isSourceWord arg || arg ∈ ["-c", "-S"].map String.toList || startsWith arg "-o".toList ||
      isDepFlag arg || isPrefixMapFlag arg ||
      (arg == "-Xclang".toList && values == ["-emit-pch".toList])

def isLinkGroup (group : List Str) : Bool := isLinkOnlyFlag (group.headD [])

def isPreprocessorOnlyGroup : List Str → Bool
  | [] => false
  | [arg] => isPreprocessorOnlyJoined arg
  | arg :: _ => arg ∈ preprocessorOnlyOptions

section Groups

variable {arg value : Str} {rest : List Str}

theorem argGroups_flag (h : takesValue arg = false) :
    argGroups (arg :: rest) = [arg] :: argGroups rest := by
  cases rest with
  | nil => rfl
  | cons value rest => rw [argGroups, if_neg (by rw [h]; simp)]

theorem argGroups_value (h : takesValue arg = true) :
    argGroups (arg :: value :: rest) = [arg, value] :: argGroups rest := by
  rw [argGroups, if_pos h]

theorem flatten_argGroups (words : List Str) : (argGroups words).flatten = words := by
  induction words using argGroups.induct with
  | case1 => rfl
  | case2 word => rfl
  | case3 word value rest h ih => rw [argGroups_value h, flatten_cons, ih]; rfl
  | case4 word value rest h ih =>
    rw [argGroups_flag (by simpa using h), flatten_cons, ih]
    rfl

theorem not_isLinkOnlyFlag_of_taken {values : List Str} (h : isTakenGroup (arg :: values) = true) :
    isLinkOnlyFlag arg = false := by
  simp only [isTakenGroup, Bool.or_eq_true, Bool.and_eq_true, beq_iff_eq, decide_eq_true_eq] at h
  rcases h with ((((h | h) | h) | h) | h) | ⟨h, -⟩
  · by_contra hlink
    have hdash := (isLinkOnlyFlag_start (by simpa using hlink)).1
    rw [isSourceWord, head?_eq_getElem?, hdash] at h
    cases h
  · have hall : ∀ word ∈ ["-c", "-S"].map String.toList, isLinkOnlyFlag word = false := by decide
    exact hall arg h
  · exact not_isLinkOnlyFlag_of_startsWith h (by decide) (by decide)
  · rcases eq_of_isDepFlag h with hmem | hstart | hstart | hstart
    · have hall : ∀ word ∈ depFlags, isLinkOnlyFlag word = false := by decide
      exact hall arg hmem
    · exact not_isLinkOnlyFlag_of_startsWith hstart (by decide) (by decide)
    · exact not_isLinkOnlyFlag_of_startsWith hstart (by decide) (by decide)
    · exact not_isLinkOnlyFlag_of_startsWith hstart (by decide) (by decide)
  · exact (depScanVerdict_eq_keep_iff.mp (verdict_of_isPrefixMapFlag h).1).2.2
  · rw [h]
    decide

end Groups

/-! ## One turn -/

/-- What a turn records of the group it takes. -/
structure CompilerItem.Recorded (item : CompilerItem) : Prop where
  base : item.baseArgs = if isTakenGroup item.words then [] else item.words
  link : item.linkArgs = if isLinkGroup item.words then item.words else []
  key : isTakenGroup item.words = false → isLinkGroup item.words = false →
    isPreprocessorOnlyGroup item.words = false → item ≠ .preprocessOnly →
    item.keyArgs = item.words
  source : item.source?.isSome = isSourceWord (item.words.headD [])

section Turns

variable {arg : Str} {values rest rest' : List Str} {item : CompilerItem}

/-- Where no value is missing, a turn takes the first group. -/
theorem Shape.group (h : Shape arg rest item rest') (hvalues : takesValue arg = true → rest ≠ []) :
    argGroups (arg :: rest) = item.words :: argGroups rest' ∧
      ∃ values, item.words = arg :: values := by
  cases h with
  | word htakes hwords => exact ⟨by rw [argGroups_flag htakes, hwords], [], hwords⟩
  | pair value rest' htakes hrest hwords =>
    exact ⟨by rw [hrest, argGroups_value htakes, hwords], [value], hwords⟩
  | missing _ htakes hrest => exact absurd hrest (hvalues htakes)

theorem recorded_taken (hwords : item.words = arg :: values)
    (htaken : isTakenGroup item.words = true) (hbase : item.baseArgs = [])
    (hlink : item.linkArgs = [])
    (hsource : item.source?.isSome = isSourceWord arg) : item.Recorded := by
  have hnot : isLinkGroup item.words = false := by
    rw [hwords] at htaken
    rw [hwords, isLinkGroup, headD_cons, not_isLinkOnlyFlag_of_taken htaken]
  refine ⟨?_, ?_, ?_, ?_⟩
  · rw [htaken, hbase, if_pos rfl]
  · rw [hnot, hlink, if_neg (by simp)]
  · rw [htaken]
    simp
  · rw [hsource, hwords, headD_cons]

theorem isSourceWord_of_isDashed (h : IsDashed arg) : isSourceWord arg = false := by
  simp [isSourceWord, h.1]

theorem IsLate.not_taken (h : IsLate arg)
    (hpch : arg = "-Xclang".toList → values ≠ ["-emit-pch".toList]) :
    isTakenGroup (arg :: values) = false := by
  simp only [isTakenGroup, isSourceWord_of_isDashed h.dashed, h.output, h.dep, h.map,
    decide_eq_false h.phase, Bool.false_or, Bool.and_eq_false_iff, beq_eq_false_iff_ne]
  by_cases harg : arg = "-Xclang".toList
  · exact .inr (hpch harg)
  · exact .inl harg

/-- A late turn that is kept; it goes to `link_args` or to `key_args` or is for the
preprocessor only. -/
theorem recorded_kept (hlate : IsLate arg) (hwords : item.words = arg :: values)
    (hpch : arg = "-Xclang".toList → values ≠ ["-emit-pch".toList])
    (hbase : item.baseArgs = item.words) (hsource : item.source? = none)
    (hlink : item.linkArgs = if isLinkOnlyFlag arg then item.words else [])
    (hkey : isLinkOnlyFlag arg = false → isPreprocessorOnlyGroup item.words = false →
      item.keyArgs = item.words) : item.Recorded := by
  have hnot : isTakenGroup item.words = false := by rw [hwords, hlate.not_taken hpch]
  have hhead : isLinkGroup item.words = isLinkOnlyFlag arg := by rw [hwords]; rfl
  refine ⟨?_, ?_, ?_, ?_⟩
  · rw [hnot, hbase, if_neg (by simp)]
  · rw [hhead, hlink]
  · rw [hhead]
    intro _ hnolink hpre _
    exact hkey hnolink hpre
  · rw [hsource, hwords, headD_cons, isSourceWord_of_isDashed hlate.dashed]
    rfl

theorem recorded_keyed (hlate : IsLate arg) (hlink : isLinkOnlyFlag arg = false)
    (hwords : item.words = [arg]) (hbase : item.baseArgs = [arg]) (hkey : item.keyArgs = [arg])
    (hnone : item.linkArgs = []) (hsource : item.source? = none) : item.Recorded := by
  refine recorded_kept hlate hwords (by simp) (by rw [hbase, hwords]) hsource ?_ ?_
  · rw [hnone, hlink, if_neg (by simp)]
  · intro _ _
    rw [hkey, hwords]

theorem recorded_linkOnly (hlate : IsLate arg) (hlink : isLinkOnlyFlag arg = true)
    (value : Option Str) : (linkOnly arg value).Recorded := by
  have hxclang : arg ≠ "-Xclang".toList := by
    rintro rfl
    exact absurd hlink (by decide)
  refine recorded_kept hlate rfl (fun h => absurd h hxclang) rfl rfl ?_ ?_
  · rw [if_pos hlink]
    rfl
  · rw [hlink]
    simp

theorem recorded_of_lateBranch (hlate : IsLate arg) (hvalues : takesValue arg = true → rest ≠ [])
    (h : LateBranch arg rest item rest') : item.Recorded := by
  cases h with
  | native _ hnative =>
    exact recorded_keyed hlate (not_isLinkOnlyFlag_of_native hnative) rfl rfl rfl rfl rfl
  | keyedFile _ file hfile =>
    exact recorded_keyed hlate (not_isLinkOnlyFlag_of_keyedFile hfile) rfl rfl rfl rfl rfl
  | config value rest' hconfig =>
    subst hconfig
    exact recorded_kept hlate rfl (fun h => absurd h (by decide)) rfl rfl rfl (fun _ _ => rfl)
  | emitPch rest' harg => exact recorded_taken rfl (by decide) rfl rfl rfl
  | linkOnly _ hlink | linkMissing hlink | linkValue _ _ hlink =>
    exact recorded_linkOnly hlate hlink _
  | separateMissing _ hmem =>
    exact absurd rfl (hvalues (takesValue_of_mem (mem_valueFlags_of_separate hmem hlate.language)))
  | separate value rest' hlink hmem hpch =>
    refine recorded_kept hlate rfl ?_ rfl rfl ?_ ?_
    · intro harg hvalue
      exact hpch harg (singleton_inj.mp hvalue)
    · rw [hlink, if_neg (by simp)]
      rfl
    · intro _ hpre
      have hnot : arg ∉ preprocessorOnlyOptions := of_decide_eq_false hpre
      rw [keyArgs, if_neg hnot]
      rfl
  | joined _ hlink _ _ _ hjoined =>
    refine recorded_kept hlate rfl (by simp) rfl rfl ?_ ?_
    · rw [hlink, if_neg (by simp)]
      rfl
    · intro _ hpre
      exact absurd (hjoined.symm.trans hpre) (by simp)
  | plainFlag _ hlink => exact recorded_keyed hlate hlink rfl rfl rfl rfl rfl

theorem lists_ofDepFlag (arg : Str) (rest : List Str) :
    (CompilerItem.ofDepFlag arg rest).1.baseArgs = [] ∧
      (CompilerItem.ofDepFlag arg rest).1.linkArgs = [] ∧
      (CompilerItem.ofDepFlag arg rest).1.source? = none := by
  unfold ofDepFlag
  cases rest with
  | nil | cons value rest => split_ifs <;> exact ⟨rfl, rfl, rfl⟩

theorem recorded_of_branch (hvalues : takesValue arg = true → rest ≠ [])
    (h : Branch arg rest item rest') : item.Recorded := by
  have hnone (hdash : IsDashed arg) {item : CompilerItem} (h : item.source? = none) :
      item.source?.isSome = isSourceWord arg := by
    rw [h, isSourceWord_of_isDashed hdash]
    rfl
  have htaken (hmap : isPrefixMapFlag arg = true) (values : List Str) :
      isTakenGroup (arg :: values) = true := by
    simp [isTakenGroup, hmap]
  obtain ⟨-, values, hgroup⟩ := (shape_of_branch h).group hvalues
  cases h with
  | source _ hsource =>
    have hword : isSourceWord arg = true := by
      rcases hsource with rfl | hhead
      · rfl
      · simpa [isSourceWord] using hhead
    exact recorded_taken rfl (by simp [words, isTakenGroup, hword]) rfl rfl hword.symm
  | prefixMapValue value rest' hdash harg =>
    exact recorded_taken rfl (htaken (by simp [isPrefixMapFlag, harg]) _) rfl rfl (hnone hdash rfl)
  | prefixMap _ hdash hmap => exact recorded_taken rfl (htaken hmap _) rfl rfl (hnone hdash rfl)
  | dep _ hdash hdep =>
    obtain ⟨hbase, hlink, hsource⟩ := lists_ofDepFlag arg rest
    refine recorded_taken hgroup ?_ hbase hlink (hnone hdash hsource)
    simp [hgroup, isTakenGroup, hdep]
  | phase _ _ hdash hitem hwords =>
    have hall : ∀ item ∈ [compileOnly, .preprocessOnly, .assembleOnly],
        item.source? = none ∧ item.linkArgs = [] ∧ isLinkGroup item.words = false ∧
          (isTakenGroup item.words = true ∧ item.baseArgs = [] ∨ item = .preprocessOnly) := by
      decide
    obtain ⟨hsource, hlink, hnolink, htaken⟩ := hall item hitem
    rcases htaken with ⟨htaken, hbase⟩ | rfl
    · exact recorded_taken hwords htaken hbase hlink (hnone hdash hsource)
    · refine ⟨?_, ?_, fun _ _ _ h => absurd rfl h, ?_⟩
      · rw [if_neg (show ¬ isTakenGroup preprocessOnly.words = true by decide)]
        rfl
      · rw [hnolink]
        rfl
      · rw [hwords]
        exact hnone hdash hsource
  | outputMissing harg | output _ _ _ harg => exact recorded_taken rfl rfl rfl rfl rfl
  | outputJoined _ hdash _ _ hoj =>
    refine recorded_taken hgroup ?_ rfl rfl (hnone hdash rfl)
    rw [hgroup, isTakenGroup, hoj]
    simp
  | languageMissing harg => exact absurd rfl (hvalues (takesValue_iff.mpr (.inr harg)))
  | language value rest' hdash harg => exact ⟨rfl, rfl, fun _ _ _ _ => rfl, rfl⟩
  | late hlate h => exact recorded_of_lateBranch hlate hvalues h

end Turns

/-! ## Whole command lines -/

theorem hasValues_head {arg : Str} {rest : List Str} (h : HasValues (arg :: rest)) :
    takesValue arg = true → rest ≠ [] := by
  rintro htakes rfl
  exact absurd (h arg mem_cons_self) (by rw [htakes]; simp)

theorem groups_compilerItems (words : List Str)
    (h : ∀ item ∈ compilerItems words, item.pending? = none) (hvalues : HasValues words) :
    argGroups words = (compilerItems words).map CompilerItem.words ∧
      ∀ item ∈ compilerItems words, item.Recorded := by
  refine compilerItems_induction (motive := fun words items => HasValues words →
    argGroups words = items.map CompilerItem.words ∧ ∀ item ∈ items, item.Recorded)
    (fun _ => ⟨rfl, by simp⟩) ?_ words h hvalues
  intro arg rest items hpending ih hvalues
  have hbranch := branch_nextCompilerItem rfl hpending
  have hgroup := ((shape_of_branch hbranch).group (hasValues_head hvalues)).1
  obtain ⟨hgroups, hrecorded⟩ := ih (fun word hmem => hvalues word (by
    rw [hgroup]
    exact mem_cons_of_mem _ hmem))
  refine ⟨by rw [hgroup, hgroups, map_cons], forall_mem_cons.mpr ⟨?_, hrecorded⟩⟩
  exact recorded_of_branch (hasValues_head hvalues) hbranch

theorem preprocessOnly_of_finishParse {r : CompilerArgs}
    (h : (finishParse items r).Cacheable) : r.preprocessOnly = false := by
  by_contra hpre
  rw [Bool.not_eq_false] at hpre
  unfold finishParse CompilerArgs.Cacheable CompilerArgs.declined at h
  split at h
  · cases h
  · cases h
  · simp only [hpre, if_true] at h
    cases h

/-- A list built from each turn's group where the group is in the list, is the groups in it. -/
theorem flatMap_eq_flatten_filter {f : CompilerItem → List Str}
    {p : List Str → Bool} (h : ∀ item ∈ items, f item = if p item.words then item.words else []) :
    items.flatMap f = ((items.map CompilerItem.words).filter p).flatten := by
  induction items with
  | nil => rfl
  | cons item items ih =>
    rw [flatMap_cons, h item mem_cons_self,
      ih (fun i hi => h i (mem_cons_of_mem _ hi)), map_cons, filter_cons]
    split <;> rfl

theorem sublist_flatMap {f : CompilerItem → List Str}
    {p : List Str → Bool} (h : ∀ item ∈ items, p item.words = true → f item = item.words) :
    ((items.map CompilerItem.words).filter p).flatten.Sublist (items.flatMap f) := by
  induction items with
  | nil => exact List.Sublist.refl _
  | cons item items ih =>
    have hrest := ih (fun i hi => h i (mem_cons_of_mem _ hi))
    rw [flatMap_cons, map_cons, filter_cons]
    split
    next hp =>
      rw [h item mem_cons_self hp, flatten_cons]
      exact (List.Sublist.refl _).append hrest
    next => exact hrest.trans (sublist_append_right _ _)

theorem filter_source
    (h : ∀ item ∈ items, item.source?.isSome = isSourceWord (item.words.headD [])) :
    (items.map CompilerItem.words).filter (fun group => isSourceWord (group.headD [])) =
      (items.filterMap CompilerItem.source?).map (fun word => [word]) := by
  induction items with
  | nil => rfl
  | cons item items ih =>
    rw [map_cons, filter_cons, ← h item mem_cons_self, ih (fun i hi => h i (mem_cons_of_mem _ hi))]
    cases hsource : item.source? with
    | none => rw [filterMap_cons_none hsource]; rfl
    | some word =>
      rw [filterMap_cons_some hsource, map_cons, words_of_source? hsource]
      rfl

/-- The groups that are in the key: kept, not for the linker, and not for the preprocessor
alone. -/
def isKeyedGroup (group : List Str) : Bool :=
  !isTakenGroup group && !isLinkGroup group && !isPreprocessorOnlyGroup group

/-- Nothing of an accepted command line is lost: `base_args` are its groups, in order, but for
those kept aside, of which one is the source; and the keyed ones are in `key_args`, in the same
order. -/
theorem parse_loses_nothing {readFile : ReadFile} {rawArgv : List Str}
    (h : (parse readFile rawArgv).Cacheable)
    (hvalues : HasValues (parse readFile rawArgv).argv.tail) :
    let parsed := parse readFile rawArgv
    let groups := argGroups parsed.argv.tail
    parsed.argv = parsed.compiler :: groups.flatten ∧
      groups.filter (fun group => isSourceWord (group.headD [])) = [[parsed.source]] ∧
      parsed.baseArgs = (groups.filter (fun group => !isTakenGroup group)).flatten ∧
      parsed.linkArgs = (groups.filter isLinkGroup).flatten ∧
      (groups.filter isKeyedGroup).flatten.Sublist parsed.keyArgs := by
  intro parsed groups
  obtain ⟨expanded, -, hitems, hpending, hparse⟩ := parse_of_cacheable h
  have hsource := source_of_finishParse (hparse ▸ h)
  have hphase := preprocessOnly_of_finishParse (hparse ▸ h)
  obtain ⟨⟨hargv, hcompiler, hbase, -, hlink, hkey⟩, -⟩ := finishParse_keeps
    (parsedItems readFile rawArgv)
    (recordCompilerItems (rewritePreprocessorDepOptions expanded) (parsedItems readFile rawArgv))
  rw [← hparse] at hsource hargv hbase hkey hlink hcompiler
  change parsed.argv = rewritePreprocessorDepOptions expanded at hargv
  rw [← hargv] at hitems
  rw [hitems] at hsource hphase hpending hbase hkey hlink
  obtain ⟨hgroups, hrecorded⟩ := groups_compilerItems parsed.argv.tail hpending hvalues
  generalize compilerItems parsed.argv.tail = items at *
  have hgroups' : groups = items.map words := hgroups
  refine ⟨?_, ?_, ?_, ?_, ?_⟩
  · have hne : parsed.argv ≠ [] := by
      intro hnil
      rw [hnil] at hgroups
      rw [map_eq_nil_iff.mp hgroups.symm] at hsource
      cases hsource
    obtain ⟨compiler, rest, hcons⟩ := exists_cons_of_ne_nil hne
    have hhead : parsed.compiler = parsed.argv.headD [] := by
      rw [hargv]
      exact hcompiler
    have hflat : groups.flatten = parsed.argv.tail := flatten_argGroups _
    rw [hflat, hhead, hcons]
    rfl
  · rw [hgroups', filter_source (fun item hitem => (hrecorded item hitem).source), hsource]
    rfl
  · rw [hgroups']
    refine hbase.trans (flatMap_eq_flatten_filter fun item hitem => ?_)
    rw [(hrecorded item hitem).base]
    cases isTakenGroup item.words <;> rfl
  · rw [hgroups']
    exact hlink.trans (flatMap_eq_flatten_filter fun item hitem => (hrecorded item hitem).link)
  · rw [hgroups']
    refine List.Sublist.trans (sublist_flatMap fun item hitem hkeyed => ?_) hkey
    simp only [isKeyedGroup, Bool.and_eq_true, Bool.not_eq_true'] at hkeyed
    refine (hrecorded item hitem).key hkeyed.1.1 hkeyed.1.2 hkeyed.2 ?_
    rintro rfl
    exact of_decide_eq_false hphase hitem

theorem hasValues_iff {words : List Str} :
    HasValues words ↔ ∀ group ∈ argGroups words, ∀ word ∈ group.head?,
      group = [word] → takesValue word = false := by
  constructor
  · rintro h group hgroup word - rfl
    exact h word hgroup
  · intro h word hmem
    exact h [word] hmem word rfl rfl

def flaggedCompile : List Str := ["gcc", "-c", "-I", "inc", "-lm", "-include-pch", "a.pch",
  "a.c"].map String.toList

theorem parse_loses_nothing_flaggedCompile :
    (parse (fun _ => none) flaggedCompile).baseArgs =
        ["-I", "inc", "-lm", "-include-pch", "a.pch"].map String.toList ∧
      (["-include-pch", "a.pch"].map String.toList).Sublist
        (parse (fun _ => none) flaggedCompile).keyArgs := by
  have hparsed : (parse (fun _ => none) flaggedCompile).uncacheable = none ∧
      (parse (fun _ => none) flaggedCompile).argv = flaggedCompile := by decide +kernel
  have hvalues : HasValues flaggedCompile.tail := by
    rw [hasValues_iff]
    decide +kernel
  obtain ⟨-, -, hbase, -, hkey⟩ := parse_loses_nothing hparsed.1 (hparsed.2.symm ▸ hvalues)
  rw [hparsed.2] at hbase hkey
  constructor
  · rw [hbase]
    decide +kernel
  · have hgroups : ((argGroups flaggedCompile.tail).filter isKeyedGroup).flatten =
        ["-include-pch", "a.pch"].map String.toList := by decide +kernel
    rwa [hgroups] at hkey

end Vcache

import Vcache.AbsoluteRoots
import Vcache.ManifestKeyArgs

/-!
# What the manifest keys cover

Cut into the turns of `Parse`, an argument list is scanned in step until a value
comes that is spelled like a flag to be left out. From there on the scan may
take flags for values. The dependency-scan key covers a command exactly when
there is no such value; the manifest key also when `key_args` repeats what the
scan of `base_args` lost.
-/

namespace Vcache

open CompilerItem List

open TokenScan (Verdict scan)

variable {arg : Str} {rest rest' words : List Str} {item : CompilerItem}

inductive Turns : List Str → List CompilerItem → Prop where
  | nil : Turns [] []
  | cons {arg : Str} {rest rest' : List Str} {item : CompilerItem} {items : List CompilerItem}
      (hturn : Turn arg rest item rest') (hturns : Turns rest' items) :
      Turns (arg :: rest) (item :: items)

theorem Turn.words_append (h : Turn arg rest item rest') : item.words ++ rest' = arg :: rest := by
  cases h with
  | flag hwords => rw [hwords]; rfl
  | flagValue value rest' hrest hwords => rw [hwords, hrest]; rfl
  | leftOut hwords => rw [hwords]; rfl
  | leftOutValue value rest' hrest hwords => rw [hwords, hrest]; rfl

theorem Turn.length_le (h : Turn arg rest item rest') : rest'.length ≤ rest.length := by
  cases h with
  | flag => exact le_rfl
  | flagValue value rest' hrest => rw [hrest]; simp
  | leftOut => exact le_rfl
  | leftOutValue value rest' hrest => rw [hrest]; simp

theorem compilerItems_induction {motive : List Str → List CompilerItem → Prop} (nil : motive [] [])
    (cons : ∀ arg rest items, (nextCompilerItem arg rest).1.pending? = none →
      motive (nextCompilerItem arg rest).2 items →
      motive (arg :: rest) ((nextCompilerItem arg rest).1 :: items))
    (words : List Str) (h : ∀ item ∈ compilerItems words, item.pending? = none) :
    motive words (compilerItems words) := by
  have hfuel : ∀ turns words, words.length ≤ turns →
      (∀ item ∈ compilerItemsFuel turns words, item.pending? = none) →
      motive words (compilerItemsFuel turns words) := by
    intro turns
    induction turns with
    | zero =>
      intro words hlen _
      rw [eq_nil_of_length_eq_zero (by omega : words.length = 0)]
      exact nil
    | succ turns ih =>
      intro words hlen hpending
      cases words with
      | nil => exact nil
      | cons arg rest =>
        have hturn : Turn arg rest (nextCompilerItem arg rest).1 (nextCompilerItem arg rest).2 :=
          turn_of_branch (branch_nextCompilerItem rfl (hpending _ mem_cons_self))
        have hshort := hturn.length_le
        rw [length_cons] at hlen
        exact cons arg rest _ (hpending _ mem_cons_self) (ih _ (by omega)
          (fun item hitem => hpending item (mem_cons_of_mem _ hitem)))
  exact hfuel _ words le_rfl h

theorem turns_compilerItems (words : List Str)
    (h : ∀ item ∈ compilerItems words, item.pending? = none) :
    Turns words (compilerItems words) := by
  refine compilerItems_induction .nil (fun arg rest items hpending hturns => ?_) words h
  exact .cons (turn_of_branch (branch_nextCompilerItem rfl hpending)) hturns

/-! ## The dependency-scan key -/

/-- The words of a turn that a scan keeps when it is in step with the parser. -/
def CompilerItem.scanned (item : CompilerItem) : List Str :=
  if item.isLeftOut then [] else item.words

theorem Turn.scan_depScan (h : Turn arg rest item rest')
    (hclean : ∀ value ∈ item.value?, depScanVerdict false value = .keep) :
    scan (depScanVerdict false) (arg :: rest) =
      item.scanned ++ scan (depScanVerdict false) rest' := by
  unfold scanned
  cases h with
  | flag hwords hvalue hkeep hleft =>
    simp [hleft, hwords, TokenScan.scan_keep hkeep]
  | flagValue value rest' hrest hwords hvalue hkeep hleft =>
    simp [hleft, hwords, hrest, TokenScan.scan_keep hkeep,
      TokenScan.scan_keep (hclean value (by simp [hvalue]))]
  | leftOut hwords hleft hverdict =>
    rcases hverdict with hdrop | ⟨hdrop, rfl⟩
    · simp [hleft, TokenScan.scan_drop hdrop]
    · rw [TokenScan.scan_last hdrop]
      simp [hleft, scan]
  | leftOutValue value rest' hrest hwords hleft hverdict =>
    simp [hleft, hrest, TokenScan.scan_dropValue hverdict]

theorem Turns.scan_depScan {items : List CompilerItem} (h : Turns words items)
    (hclean : ∀ item ∈ items, ∀ value ∈ item.value?, depScanVerdict false value = .keep) :
    scan (depScanVerdict false) words = items.flatMap CompilerItem.scanned := by
  induction h with
  | nil => rfl
  | cons hturn _ ih =>
    rw [hturn.scan_depScan (hclean _ mem_cons_self), flatMap_cons,
      ih (fun item hitem => hclean item (mem_cons_of_mem _ hitem))]

/-! ## The manifest key -/

/-- The tokens of `base_args` that are not in `link_args`. -/
def CompilerItem.covered (item : CompilerItem) : List Str :=
  if item.isLeftOut then [] else item.baseArgs

/-- A value in `base_args` that is spelled like a linker flag. -/
def CompilerItem.lostValue? (item : CompilerItem) : Option Str :=
  if item.baseArgs = [] then none else item.value?.filter isLinkOnlyFlag

/-- The covered tokens from the first value on that is spelled like a linker flag. -/
def uncovered : List CompilerItem → List Str
  | [] => []
  | item :: items => match item.lostValue? with
    | some value => value :: items.flatMap CompilerItem.covered
    | none => uncovered items

theorem linkVerdict_eq_keep_iff :
    linkVerdict false arg = .keep ↔ isLinkOnlyFlag arg = false := by
  unfold linkVerdict
  cases isLinkOnlyFlag arg <;> cases linkOnlyFlagTakesValue arg <;> simp

theorem linkVerdict_of_depScanVerdict (h : depScanVerdict false arg = .keep) :
    linkVerdict false arg = .keep :=
  linkVerdict_eq_keep_iff.mpr (depScanVerdict_eq_keep_iff.mp h).2.2

theorem Turn.scan_baseArgs
    (h : Turn arg rest item rest') (hlost : item.lostValue? = none) {more : List Str}
    (hmore : rest' = [] → more = []) :
    scan (linkVerdict false) (item.baseArgs ++ more) =
      item.covered ++ scan (linkVerdict false) more := by
  unfold lostValue? at hlost
  unfold covered
  rcases item.baseArgs_eq with hbase | hbase
  · simp [hbase]
  have hclean : ∀ value, item.value? = some value → linkVerdict false value = .keep := by
    intro value hvalue
    have hne : item.baseArgs ≠ [] := by
      intro hnil
      have hwords := h.words_append
      rw [← hbase, hnil, nil_append] at hwords
      have hlen := h.length_le
      rw [hwords, length_cons] at hlen
      omega
    rw [if_neg hne, hvalue] at hlost
    exact linkVerdict_eq_keep_iff.mpr (by simpa using hlost)
  rw [hbase]
  cases h with
  | flag hwords hvalue hkeep hleft =>
    simp [hleft, hwords, TokenScan.scan_keep (linkVerdict_of_depScanVerdict hkeep)]
  | flagValue value rest' hrest hwords hvalue hkeep hleft =>
    simp [hleft, hwords, TokenScan.scan_keep (linkVerdict_of_depScanVerdict hkeep),
      TokenScan.scan_keep (hclean value hvalue)]
  | leftOut hwords hleft hverdict hlink =>
    rw [hbase, hwords] at hlink
    rcases hlink with hnil | hlink
    · cases hnil
    rw [hlink] at hverdict
    rcases hverdict with hdrop | ⟨hdrop, rfl⟩
    · simp [hleft, hwords, TokenScan.scan_drop hdrop]
    · rw [hwords, hmore rfl, append_nil, TokenScan.scan_last hdrop]
      simp [hleft, scan]
  | leftOutValue value rest' hrest hwords hleft hverdict hlink =>
    rw [hbase, hwords] at hlink
    rcases hlink with hnil | hlink
    · cases hnil
    rw [hlink] at hverdict
    simp [hleft, hwords, TokenScan.scan_dropValue hverdict]

theorem Turn.covered_head (h : Turn arg rest item rest') {head : Str} {others : List Str}
    (hcovered : item.covered = head :: others) : head ≠ "-c".toList ∧ head ≠ "-S".toList := by
  unfold covered at hcovered
  split_ifs at hcovered with hleft
  have hbase : item.baseArgs = item.words :=
    item.baseArgs_eq.resolve_left (by rw [hcovered]; exact cons_ne_nil _ _)
  cases h with
  | flag hwords _ _ _ hphase =>
    rw [hbase, hwords] at hcovered hphase
    exact (cons.inj hcovered).1 ▸ hphase.resolve_left (cons_ne_nil _ _)
  | flagValue value rest' _ hwords _ _ _ hphase =>
    rw [hbase, hwords] at hcovered
    exact (cons.inj hcovered).1 ▸ hphase
  | leftOut _ hleft' | leftOutValue _ _ _ _ hleft' => exact absurd hleft' hleft

/-- At the first lost value the scan has kept the flag before it. -/
theorem Turn.scan_lostValue
    (h : Turn arg rest item rest') {value : Str} (hlost : item.lostValue? = some value) :
    item.baseArgs = [arg, value] ∧ item.covered = [arg, value] ∧ isLinkOnlyFlag value = true ∧
      linkVerdict false arg = .keep ∧ arg ≠ "-c".toList ∧ arg ≠ "-S".toList := by
  unfold lostValue? at hlost
  split_ifs at hlost with hne
  obtain ⟨hvalue, hlink⟩ := Option.filter_eq_some_iff.mp hlost
  have hbase : item.baseArgs = item.words := item.baseArgs_eq.resolve_left hne
  cases h with
  | flag hwords hnone => rw [hnone] at hvalue; cases hvalue
  | flagValue value' rest' hrest hwords hvalue' hkeep hleft hphase =>
    obtain rfl : value' = value := Option.some.inj (hvalue'.symm.trans hvalue)
    refine ⟨by rw [hbase, hwords], ?_, hlink, linkVerdict_of_depScanVerdict hkeep, hphase⟩
    simp [covered, hleft, hbase, hwords]
  | leftOut hwords hleft => cases item <;> simp_all [isLeftOut, value?]
  | leftOutValue value' rest' hrest hwords hleft =>
    cases item <;> simp_all [isLeftOut, value?]

/-- What the scan of `base_args` keeps: everything covered up to the first lost value,
and after it only tokens that are not spelled like linker flags. -/
theorem Turns.scan_baseArgs {items : List CompilerItem} (h : Turns words items) :
    ∃ before after, items.flatMap CompilerItem.covered = before ++ uncovered items ∧
      scan (linkVerdict false) (items.flatMap CompilerItem.baseArgs) = before ++ after ∧
      (uncovered items = [] → after = []) ∧
      (∀ head ∈ before.head?, head ≠ "-c".toList ∧ head ≠ "-S".toList) ∧
      (∀ head ∈ (uncovered items).head?, before ≠ [] ∧ isLinkOnlyFlag head = true) := by
  induction h with
  | nil => exact ⟨[], [], rfl, rfl, fun _ => rfl, by simp, by simp [uncovered]⟩
  | @cons arg rest rest' item items hturn hturns ih =>
    cases hlost : item.lostValue? with
    | some value =>
      obtain ⟨hbase, hcovered, hlink, hkeep, hphase⟩ := hturn.scan_lostValue hlost
      have huncovered : uncovered (item :: items) =
          value :: items.flatMap covered := by rw [uncovered, hlost]
      refine ⟨[arg], scan (linkVerdict false) (value :: items.flatMap baseArgs),
        ?_, ?_, ?_, ?_, ?_⟩
      · rw [flatMap_cons, hcovered, huncovered]
        rfl
      · rw [flatMap_cons, hbase, cons_append, TokenScan.scan_keep hkeep]
        rfl
      · rw [huncovered]
        simp
      · simpa using hphase
      · rw [huncovered]
        simpa using hlink
    | none =>
      obtain ⟨before, after, hcovered, hscan, hnil, hhead, hfirst⟩ := ih
      have huncovered : uncovered (item :: items) = uncovered items := by rw [uncovered, hlost]
      have hmore : rest' = [] → items.flatMap baseArgs = [] := by
        rintro rfl
        cases hturns
        rfl
      refine ⟨item.covered ++ before, after, ?_, ?_, ?_, ?_, ?_⟩
      · rw [flatMap_cons, hcovered, huncovered, append_assoc]
      · rw [flatMap_cons, hturn.scan_baseArgs hlost hmore, hscan, append_assoc]
      · rwa [huncovered]
      · intro head hhead'
        cases hcov : item.covered with
        | nil =>
          rw [hcov] at hhead'
          exact hhead head hhead'
        | cons first others =>
          rw [hcov] at hhead'
          obtain rfl : first = head := by simpa using hhead'
          exact hturn.covered_head hcov
      · rw [huncovered]
        intro head hhead'
        obtain ⟨hne, hlink⟩ := hfirst head hhead'
        exact ⟨by simp [hne], hlink⟩

/-! ## Canonicalised spellings -/

section Canonical

variable {roots : RootMap} {prefixes : List Str}

theorem canonicalizeJoined_cases (hroots : roots.Absolute) (arg : Str) :
    canonicalizeJoined prefixes roots arg = arg ∨
      (isAbsolute arg = true ∧ isAbsolute (canonicalizeJoined prefixes roots arg) = true) ∨
      ∃ pre ∈ prefixes, ∃ path path', path ≠ [] ∧ path' ≠ [] ∧ arg = pre ++ path ∧
        canonicalizeJoined prefixes roots arg = pre ++ path' := by
  unfold canonicalizeJoined
  cases hfind : prefixes.find? (fun pre => decide (pre.length < arg.length) && startsWith arg pre)
    with
  | none =>
    rcases hroots.canonicalize_cases arg with h | h
    · exact .inl h
    · exact .inr (.inl h)
  | some pre =>
    have hpre := find?_some hfind
    simp only [Bool.and_eq_true, decide_eq_true_eq] at hpre
    obtain ⟨path, rfl⟩ := startsWith_iff.mp hpre.2
    have hpath : path ≠ [] := by
      rintro rfl
      simp at hpre
    refine .inr (.inr ⟨pre, mem_of_find?_eq_some hfind, path, roots.canonicalize path, hpath,
      ?_, rfl, by simp⟩)
    rcases hroots.canonicalize_cases path with h | ⟨_, h⟩
    · rwa [h]
    · intro hnil
      rw [hnil] at h
      cases h

theorem isLinkOnlyFlag_prefixed {pre path : Str} (hpre : pre ∈ depScanPathPrefixes)
    (hpath : path ≠ []) : isLinkOnlyFlag (pre ++ path) = decide (pre = "-L".toList) := by
  by_cases hlib : pre = "-L".toList
  · subst hlib
    cases path with
    | nil => exact absurd rfl hpath
    | cons c path => simp [isLinkOnlyFlag, startsWith]
  · have hseconds : ∀ pre ∈ depScanPathPrefixes, pre = "-L".toList ∨
        (1 < pre.length ∧ pre[1]? ∉ linkOnlySeconds) := by decide +kernel
    obtain ⟨hlen, hsecond⟩ := (hseconds pre hpre).resolve_left hlib
    rw [decide_eq_false hlib]
    exact not_isLinkOnlyFlag_of_startsWith (startsWith_append pre path) hlen hsecond

theorem verdict_prefixed {pre path : Str} (hpre : pre ∈ depScanPathPrefixes) (hpath : path ≠ []) :
    depScanVerdict false (pre ++ path) = .keep ↔ pre ≠ "-L".toList := by
  have hseconds : ∀ pre ∈ depScanPathPrefixes, 1 < pre.length ∧
      pre[1]? ≠ some 'o' ∧ pre[1]? ≠ some 'M' := by decide +kernel
  obtain ⟨hlen, ho, hm⟩ := hseconds pre hpre
  have hsecond := startsWith_getElem? (startsWith_append pre path) hlen
  rw [depScanVerdict_eq_keep_iff, isLinkOnlyFlag_prefixed hpre hpath, decide_eq_false_iff_not]
  refine ⟨fun h => h.2.2, fun h => ⟨?_, ?_, h⟩⟩
  · intro heq
    rw [heq] at hsecond
    exact ho hsecond.symm
  · by_contra hstart
    rw [startsWith_getElem? (by simpa using hstart : startsWith (pre ++ path) "-MF".toList = true)
      (by decide : 1 < "-MF".toList.length)] at hsecond
    exact hm hsecond.symm

theorem depScanVerdict_canonicalizeJoined (hroots : roots.Absolute)
    (hprefixes : ∀ pre ∈ prefixes, pre ∈ depScanPathPrefixes) (arg : Str) :
    depScanVerdict false (canonicalizeJoined prefixes roots arg) = .keep ↔
      depScanVerdict false arg = .keep := by
  have habs : ∀ {word : Str}, isAbsolute word = true → depScanVerdict false word = .keep := by
    intro word hword
    obtain ⟨rest, rfl⟩ := isAbsolute_iff.mp hword
    exact depScanVerdict_of_no_dash (by simp)
  rcases canonicalizeJoined_cases hroots arg with
    h | ⟨h, h'⟩ | ⟨pre, hpre, path, path', hp, hp', h, h'⟩
  · rw [h]
  · simp [habs h, habs h']
  · rw [h', h, verdict_prefixed (hprefixes pre hpre) hp, verdict_prefixed (hprefixes pre hpre) hp']

theorem cxxPathPrefixes_subset : ∀ pre ∈ cxxPathPrefixes, pre ∈ depScanPathPrefixes := by
  decide +kernel

theorem isLinkOnlyFlag_canonicalizeArg (hroots : roots.Absolute) (arg : Str) :
    isLinkOnlyFlag (canonicalizeArg roots arg) = isLinkOnlyFlag arg := by
  have habs : ∀ {word : Str}, isAbsolute word = true → isLinkOnlyFlag word = false := by
    intro word hword
    obtain ⟨rest, rfl⟩ := isAbsolute_iff.mp hword
    by_contra hlink
    exact absurd (isLinkOnlyFlag_start (by simpa using hlink)).1 (by simp)
  unfold canonicalizeArg
  rcases canonicalizeJoined_cases hroots arg with
    h | ⟨h, h'⟩ | ⟨pre, hpre, path, path', hp, hp', h, h'⟩
  · rw [h]
  · rw [habs h, habs h']
  · rw [h', h, isLinkOnlyFlag_prefixed (cxxPathPrefixes_subset pre hpre) hp,
      isLinkOnlyFlag_prefixed (cxxPathPrefixes_subset pre hpre) hp']

theorem canonicalizeArg_ne_phase (hroots : roots.Absolute)
    (hc : arg ≠ "-c".toList) (hs : arg ≠ "-S".toList) :
    canonicalizeArg roots arg ≠ "-c".toList ∧ canonicalizeArg roots arg ≠ "-S".toList := by
  unfold canonicalizeArg
  rcases canonicalizeJoined_cases hroots arg with h | ⟨_, h⟩ | ⟨pre, hpre, path, path', _, _, _, h⟩
  · rw [h]
    exact ⟨hc, hs⟩
  · constructor
    all_goals
      intro heq
      rw [heq] at h
      cases h
  · have hseconds : ∀ pre ∈ cxxPathPrefixes, 1 < pre.length ∧
        pre[1]? ≠ some 'c' ∧ pre[1]? ≠ some 'S' := by decide +kernel
    obtain ⟨hlen, hc', hs'⟩ := hseconds pre hpre
    have hsecond := startsWith_getElem? (startsWith_append pre path') hlen
    rw [h]
    constructor
    · intro heq
      rw [heq] at hsecond
      exact hc' hsecond.symm
    · intro heq
      rw [heq] at hsecond
      exact hs' hsecond.symm

end Canonical

/-! ## Accepted command lines -/

def parsedItems (readFile : ReadFile) (rawArgv : List Str) : List CompilerItem :=
  match expandResponseFiles readFile rawArgv with
  | none => []
  | some expanded => compilerItems (rewritePreprocessorDepOptions expanded).tail

/-- The end of a parse keeps the lists the turns push to; it may add to `key_args`. -/
structure CompilerArgs.Keeps (r r' : CompilerArgs) : Prop where
  argv : r'.argv = r.argv
  compiler : r'.compiler = r.compiler
  baseArgs : r'.baseArgs = r.baseArgs
  depArgs : r'.depArgs = r.depArgs
  linkArgs : r'.linkArgs = r.linkArgs
  keyArgs : r.keyArgs.Sublist r'.keyArgs

theorem finishCompile_keeps {r s : CompilerArgs} (h : r.Keeps s) (sawDepOutput : Bool) :
    r.Keeps (finishCompile sawDepOutput s) ∧
      (finishCompile sawDepOutput s).source = s.source := by
  obtain ⟨hargv, hcompiler, hbase, hdep, hlink, hkey⟩ := h
  unfold finishCompile CompilerArgs.declined
  simp only
  split_ifs
  all_goals first
    | exact ⟨⟨hargv, hcompiler, hbase, hdep, hlink, hkey⟩, rfl⟩
    | exact ⟨⟨hargv, hcompiler, hbase, hdep, hlink, hkey.trans (sublist_append_left _ _)⟩, rfl⟩

theorem finishDepOnly_keeps {r s : CompilerArgs} (h : r.Keeps s) :
    r.Keeps (finishDepOnly s) ∧ (finishDepOnly s).source = s.source := by
  obtain ⟨hargv, hcompiler, hbase, hdep, hlink, hkey⟩ := h
  unfold finishDepOnly CompilerArgs.declined
  simp only
  split_ifs <;> exact ⟨⟨hargv, hcompiler, hbase, hdep, hlink, hkey⟩, rfl⟩

theorem finishParse_keeps (items : List CompilerItem) (r : CompilerArgs) :
    r.Keeps (finishParse items r) ∧ ∀ source, items.filterMap CompilerItem.source? = [source] →
      (finishParse items r).source = source := by
  unfold finishParse CompilerArgs.declined
  split
  · rename_i hsources
    exact ⟨⟨rfl, rfl, rfl, rfl, rfl, List.Sublist.refl _⟩, by simp [hsources]⟩
  · rename_i hsources
    exact ⟨⟨rfl, rfl, rfl, rfl, rfl, List.Sublist.refl _⟩, by simp [hsources]⟩
  · rename_i source hsources
    simp only [hsources, cons.injEq, and_true, forall_eq']
    cases items.findSome? pending? with
    | some decision =>
      split_ifs <;> exact ⟨⟨rfl, rfl, rfl, rfl, rfl, List.Sublist.refl _⟩, rfl⟩
    | none =>
      split_ifs
      all_goals first
        | exact ⟨⟨rfl, rfl, rfl, rfl, rfl, List.Sublist.refl _⟩, rfl⟩
        | refine finishDepOnly_keeps ?_
          exact ⟨rfl, rfl, rfl, rfl, rfl, List.Sublist.refl _⟩
        | refine finishCompile_keeps ?_ _
          exact ⟨rfl, rfl, rfl, rfl, rfl, List.Sublist.refl _⟩

theorem source_of_finishParse {items : List CompilerItem} {r : CompilerArgs}
    (h : (finishParse items r).Cacheable) :
    items.filterMap CompilerItem.source? = [(finishParse items r).source] := by
  have hone : ∃ source, items.filterMap source? = [source] := by
    unfold finishParse CompilerArgs.Cacheable CompilerArgs.declined at h
    split at h
    · cases h
    · cases h
    · rename_i source hsources
      exact ⟨source, hsources⟩
  obtain ⟨source, hsources⟩ := hone
  rw [(finishParse_keeps items r).2 source hsources]
  exact hsources

theorem pending_of_finishParse {items : List CompilerItem} {r : CompilerArgs}
    (h : (finishParse items r).Cacheable) : ∀ item ∈ items, item.pending? = none := by
  have hnone : items.findSome? pending? = none := by
    by_contra hsome
    obtain ⟨decision, hdecision⟩ := Option.ne_none_iff_exists'.mp hsome
    unfold finishParse CompilerArgs.Cacheable CompilerArgs.declined at h
    split at h
    · cases h
    · cases h
    · simp only [hdecision] at h
      split_ifs at h
  exact findSome?_eq_none_iff.mp hnone

theorem parse_of_cacheable {readFile : ReadFile} {rawArgv : List Str}
    (h : (parse readFile rawArgv).Cacheable) :
    ∃ expanded, expandResponseFiles readFile rawArgv = some expanded ∧
      parsedItems readFile rawArgv = compilerItems (rewritePreprocessorDepOptions expanded).tail ∧
      (∀ item ∈ parsedItems readFile rawArgv, item.pending? = none) ∧
      parse readFile rawArgv = finishParse (parsedItems readFile rawArgv)
        (recordCompilerItems (rewritePreprocessorDepOptions expanded)
          (parsedItems readFile rawArgv)) := by
  unfold parse at h ⊢
  split_ifs at h ⊢ with hnil
  · cases h
  unfold parsedItems
  cases hexpand : expandResponseFiles readFile rawArgv with
  | none => rw [hexpand] at h; cases h
  | some expanded =>
    rw [hexpand] at h
    exact ⟨expanded, rfl, rfl, pending_of_finishParse h, rfl⟩

theorem turns_of_cacheable {readFile : ReadFile} {rawArgv : List Str}
    (h : (parse readFile rawArgv).Cacheable) :
    Turns (parse readFile rawArgv).argv.tail (parsedItems readFile rawArgv) ∧
      (parse readFile rawArgv).baseArgs =
        (parsedItems readFile rawArgv).flatMap CompilerItem.baseArgs := by
  obtain ⟨expanded, -, hitems, hpending, hparse⟩ := parse_of_cacheable h
  have hkeeps := (finishParse_keeps (parsedItems readFile rawArgv) (recordCompilerItems
    (rewritePreprocessorDepOptions expanded) (parsedItems readFile rawArgv))).1
  rw [hparse, hkeeps.argv, hkeeps.baseArgs]
  refine ⟨?_, rfl⟩
  rw [hitems] at hpending ⊢
  exact turns_compilerItems _ hpending

/-! ## Coverage -/

section Coverage

variable {parsed : CompilerArgs} {items : List CompilerItem} {roots : RootMap}

/-- The tokens of `base_args` outside `link_args`, canonicalised. -/
def coveredTokens (roots : RootMap) (items : List CompilerItem) : List Str :=
  (items.flatMap CompilerItem.covered).map (canonicalizeArg roots)

def phaseTokens (parsed : CompilerArgs) : List Str :=
  (if parsed.compileOnly then ["-c".toList] else []) ++
    (if parsed.assembleOnly then ["-S".toList] else [])

theorem mem_phaseTokens {token : Str} (h : token ∈ phaseTokens parsed) :
    token = "-c".toList ∨ token = "-S".toList := by
  rcases mem_append.mp h with h | h
  · split_ifs at h
    · exact .inl (mem_singleton.mp h)
    · cases h
  · split_ifs at h
    · exact .inr (mem_singleton.mp h)
    · cases h

theorem cxxManifestKeyArgs_eq (parsed : CompilerArgs) (roots : RootMap) :
    cxxManifestKeyArgs parsed roots false = phaseTokens parsed ++
      ((scan (linkVerdict false) parsed.baseArgs).map (canonicalizeArg roots) ++
        keyArgsSeparator :: parsed.keyArgs.map roots.canonicalize) := by
  simp only [cxxManifestKeyArgs, phaseTokens, append_assoc]

theorem cover_cxxManifestKeyArgs_iff (hroots : roots.Absolute)
    (hturns : Turns words items) (hbase : parsed.baseArgs = items.flatMap CompilerItem.baseArgs) :
    (coveredTokens roots items).Sublist (cxxManifestKeyArgs parsed roots false) ↔
      ((uncovered items).map (canonicalizeArg roots)).Sublist
        (parsed.keyArgs.map roots.canonicalize) := by
  obtain ⟨before, after, hcovered, hscan, hnil, hhead, hfirst⟩ := hturns.scan_baseArgs
  have hafter : ∀ token ∈ after, isLinkOnlyFlag token = false := by
    intro token htoken
    apply linkVerdict_eq_keep_iff.mp
    apply TokenScan.keep_of_mem_scan (items.flatMap baseArgs)
    rw [hscan]
    exact mem_append_right _ htoken
  rw [cxxManifestKeyArgs_eq, coveredTokens, hbase, hscan, hcovered]
  cases huncovered : uncovered items with
  | nil =>
    rw [hnil huncovered]
    simp only [append_nil, map_nil, nil_sublist, iff_true]
    exact (sublist_append_left _ _).trans (sublist_append_right _ _)
  | cons value tail =>
    obtain ⟨hne, hlink⟩ := hfirst value (by rw [huncovered]; rfl)
    rw [map_append, map_append, append_assoc]
    constructor
    · intro hsub
      -- The first token is a flag of `base_args`, so it is not matched by `-c` or `-S`.
      have hrest : List.Sublist
          (before.map (canonicalizeArg roots) ++ (value :: tail).map (canonicalizeArg roots))
          (before.map (canonicalizeArg roots) ++ (after.map (canonicalizeArg roots) ++
            keyArgsSeparator :: parsed.keyArgs.map roots.canonicalize)) := by
        obtain ⟨first, others, rfl⟩ := exists_cons_of_ne_nil hne
        obtain ⟨hc, hs⟩ := hhead first rfl
        obtain ⟨hc', hs'⟩ := canonicalizeArg_ne_phase hroots hc hs
        refine TokenScan.sublist_of_not_mem ?_ hsub
        intro hmem
        rcases mem_phaseTokens hmem with h | h
        · exact hc' h
        · exact hs' h
      rw [append_sublist_append_left] at hrest
      refine TokenScan.sublist_of_not_mem ?_ (append_cons _ _ _ ▸ hrest)
      intro hmem
      rw [mem_append, mem_map, mem_singleton] at hmem
      have hvalue : isLinkOnlyFlag (canonicalizeArg roots value) = true := by
        rw [isLinkOnlyFlag_canonicalizeArg hroots, hlink]
      rcases hmem with ⟨token, htoken, heq⟩ | heq
      · rw [← heq, isLinkOnlyFlag_canonicalizeArg hroots, hafter token htoken] at hvalue
        cases hvalue
      · rw [heq] at hvalue
        exact absurd hvalue (by decide)
    · intro hsub
      refine List.Sublist.trans ?_ (sublist_append_right _ _)
      apply List.Sublist.append_left
      exact (hsub.cons _).trans (sublist_append_right _ _)

/-- The words of a dependency scan but those of `-o` and `-MF` and the linker flags. -/
def scanTokens (items : List CompilerItem) : List Str :=
  (items.filter (fun item => match item with
    | .outputJoined _ => false
    | _ => !item.isLeftOut)).flatMap CompilerItem.words

def PlainValues (items : List CompilerItem) : Prop :=
  ∀ item ∈ items, ∀ value ∈ item.value?, depScanVerdict false value = .keep

instance (items : List CompilerItem) : Decidable (PlainValues items) :=
  inferInstanceAs (Decidable (∀ _ ∈ items, ∀ _ ∈ _, _))

theorem depScanKeyArgs_of_plainValues (hturns : Turns parsed.argv.tail items)
    (hplain : PlainValues items) :
    depScanKeyArgs parsed roots false =
      (items.flatMap CompilerItem.scanned).map (depScanCanonicalArg roots) := by
  rw [depScanKeyArgs, hturns.scan_depScan hplain]

theorem Turn.value_mem_words
    (h : Turn arg rest item rest') {value : Str} (hvalue : item.value? = some value) :
    value ∈ item.words ∧ item.isLeftOut = false := by
  cases h with
  | flag hwords hnone => rw [hnone] at hvalue; cases hvalue
  | flagValue value' rest' _ hwords hvalue' _ hleft =>
    obtain rfl : value' = value := Option.some.inj (hvalue'.symm.trans hvalue)
    exact ⟨by rw [hwords]; simp, hleft⟩
  | leftOut hwords hleft => cases item <;> simp_all [isLeftOut, value?]
  | leftOutValue value' rest' hrest hwords hleft =>
    cases item <;> simp_all [isLeftOut, value?]

theorem Turns.value_mem_scanTokens (h : Turns words items)
    (hitem : item ∈ items) {value : Str} (hvalue : item.value? = some value) :
    value ∈ scanTokens items := by
  have hmem : value ∈ item.words ∧ item.isLeftOut = false := by
    induction h with
    | nil => cases hitem
    | cons hturn _ ih =>
      rcases mem_cons.mp hitem with rfl | hrest
      · exact hturn.value_mem_words hvalue
      · exact ih hrest
  refine mem_flatMap.mpr ⟨item, mem_filter.mpr ⟨hitem, ?_⟩, hmem.1⟩
  cases item <;> simp_all [value?]

theorem scanTokens_sublist (items : List CompilerItem) :
    (scanTokens items).Sublist (items.flatMap CompilerItem.scanned) := by
  unfold scanTokens
  induction items with
  | nil => exact List.Sublist.slnil
  | cons item items ih =>
    rw [filter_cons, flatMap_cons]
    split_ifs with hkept
    · rw [flatMap_cons]
      have hwords : item.scanned = item.words := by
        unfold scanned
        cases item <;> simp_all [isLeftOut]
      rw [hwords]
      exact List.Sublist.append_left ih _
    · exact ih.trans (sublist_append_right _ _)

theorem cover_depScanKeyArgs_iff (hroots : roots.Absolute) (hturns : Turns parsed.argv.tail items) :
    ((scanTokens items).map (depScanCanonicalArg roots)).Sublist
        (depScanKeyArgs parsed roots false) ↔ PlainValues items := by
  constructor
  · intro hsub item hitem value hvalue
    have hmem := hsub.subset (mem_map_of_mem (hturns.value_mem_scanTokens hitem hvalue))
    obtain ⟨token, htoken, heq⟩ := mem_map.mp hmem
    have hkeep := TokenScan.keep_of_mem_scan _ token htoken
    rw [← depScanVerdict_canonicalizeJoined hroots (fun pre hpre => hpre)] at hkeep ⊢
    unfold depScanCanonicalArg at heq
    rwa [← heq]
  · intro hplain
    rw [depScanKeyArgs_of_plainValues hturns hplain]
    exact (scanTokens_sublist items).map _

/-- Manifest key arguments with nothing lost are read back, as long as no token is
spelled like the separator. -/
theorem cxxManifestKeyArgs_inj {parsed' : CompilerArgs} {items' : List CompilerItem}
    {roots' : RootMap} {words' : List Str} (hturns : Turns words items)
    (hbase : parsed.baseArgs = items.flatMap CompilerItem.baseArgs) (hturns' : Turns words' items')
    (hbase' : parsed'.baseArgs = items'.flatMap CompilerItem.baseArgs)
    (hnil : uncovered items = []) (hnil' : uncovered items' = [])
    (hsep : keyArgsSeparator ∉ coveredTokens roots items)
    (hsep' : keyArgsSeparator ∉ coveredTokens roots' items')
    (h : cxxManifestKeyArgs parsed roots false = cxxManifestKeyArgs parsed' roots' false) :
    phaseTokens parsed ++ coveredTokens roots items =
      phaseTokens parsed' ++ coveredTokens roots' items' := by
  have hkey : ∀ {parsed : CompilerArgs} {items : List CompilerItem} {roots : RootMap}
      {words : List Str}, Turns words items →
      parsed.baseArgs = items.flatMap baseArgs → uncovered items = [] →
      keyArgsSeparator ∉ coveredTokens roots items →
      (cxxManifestKeyArgs parsed roots false).takeWhile (· != keyArgsSeparator) =
        phaseTokens parsed ++ coveredTokens roots items := by
    intro parsed items roots words hturns hbase hnil hsep
    obtain ⟨before, after, hcovered, hscan, hafter, _, _⟩ := hturns.scan_baseArgs
    rw [hnil, append_nil] at hcovered
    rw [hafter hnil, append_nil, ← hcovered] at hscan
    rw [cxxManifestKeyArgs_eq, hbase, hscan, ← append_assoc,
      takeWhile_append_of_pos, takeWhile_cons_of_neg (by simp), append_nil]
    · rfl
    · intro token htoken
      rw [bne_iff_ne]
      rintro rfl
      rcases mem_append.mp htoken with hphase | hbase
      · rcases mem_phaseTokens hphase with heq | heq <;> exact absurd heq (by decide)
      · exact hsep hbase
  rw [← hkey hturns hbase hnil hsep, ← hkey hturns' hbase' hnil' hsep', h]

end Coverage

/-- For an accepted gcc command the manifest key holds every token of `base_args` outside
`link_args`, in order, exactly when `key_args` repeats what follows the first value that
is spelled like a linker flag; the key of a dependency scan holds its tokens exactly when
no value is spelled like a flag the scan leaves out. Keys that lose nothing determine the
canonical tokens. -/
theorem keyArgs_cover_iff (readFile : ReadFile) (rawArgv : List Str) {roots : RootMap}
    (hroots : roots.Absolute) (hcacheable : (parse readFile rawArgv).Cacheable) :
    ((coveredTokens roots (parsedItems readFile rawArgv)).Sublist
        (cxxManifestKeyArgs (parse readFile rawArgv) roots false) ↔
      ((uncovered (parsedItems readFile rawArgv)).map (canonicalizeArg roots)).Sublist
        ((parse readFile rawArgv).keyArgs.map roots.canonicalize)) ∧
    ((parse readFile rawArgv).depOnly = true →
      (((scanTokens (parsedItems readFile rawArgv)).map (depScanCanonicalArg roots)).Sublist
        (depScanKeyArgs (parse readFile rawArgv) roots false) ↔
          PlainValues (parsedItems readFile rawArgv))) ∧
    ∀ (rawArgv' : List Str) (roots' : RootMap), (parse readFile rawArgv').Cacheable →
      (uncovered (parsedItems readFile rawArgv) = [] →
        uncovered (parsedItems readFile rawArgv') = [] →
        keyArgsSeparator ∉ coveredTokens roots (parsedItems readFile rawArgv) →
        keyArgsSeparator ∉ coveredTokens roots' (parsedItems readFile rawArgv') →
        cxxManifestKeyArgs (parse readFile rawArgv) roots false =
          cxxManifestKeyArgs (parse readFile rawArgv') roots' false →
        phaseTokens (parse readFile rawArgv) ++
            coveredTokens roots (parsedItems readFile rawArgv) =
          phaseTokens (parse readFile rawArgv') ++
            coveredTokens roots' (parsedItems readFile rawArgv')) ∧
      (PlainValues (parsedItems readFile rawArgv) → PlainValues (parsedItems readFile rawArgv') →
        depScanKeyArgs (parse readFile rawArgv) roots false =
          depScanKeyArgs (parse readFile rawArgv') roots' false →
        ((parsedItems readFile rawArgv).flatMap CompilerItem.scanned).map
            (depScanCanonicalArg roots) =
          ((parsedItems readFile rawArgv').flatMap CompilerItem.scanned).map
            (depScanCanonicalArg roots')) := by
  obtain ⟨hturns, hbase⟩ := turns_of_cacheable hcacheable
  refine ⟨cover_cxxManifestKeyArgs_iff hroots hturns hbase,
    fun _ => cover_depScanKeyArgs_iff hroots hturns, ?_⟩
  intro rawArgv' roots' hcacheable'
  obtain ⟨hturns', hbase'⟩ := turns_of_cacheable hcacheable'
  refine ⟨fun hnil hnil' hsep hsep' heq =>
    cxxManifestKeyArgs_inj hturns hbase hturns' hbase' hnil hnil' hsep hsep' heq, ?_⟩
  intro hplain hplain' heq
  rwa [depScanKeyArgs_of_plainValues hturns hplain,
    depScanKeyArgs_of_plainValues hturns' hplain'] at heq

def noRoots : RootMap := ⟨[], List.Pairwise.nil⟩

def wordsOfLine (line : String) : List Str := splitSkipEmpty ' ' line.toList

/-- A link flag with a value between include flags. -/
theorem keyArgs_cover_linkFlag :
    let argv := wordsOfLine "gcc -c -I inc -L lib -Ilib a.c"
    (parse (fun _ => none) argv).Cacheable ∧
      coveredTokens noRoots (parsedItems (fun _ => none) argv) =
        ["-I".toList, "inc".toList, "-Ilib".toList] ∧
      (coveredTokens noRoots (parsedItems (fun _ => none) argv)).Sublist
        (cxxManifestKeyArgs (parse (fun _ => none) argv) noRoots false) := by
  have heval : (parse (fun _ => none) (wordsOfLine "gcc -c -I inc -L lib -Ilib a.c")).Cacheable ∧
      uncovered (parsedItems (fun _ => none) (wordsOfLine "gcc -c -I inc -L lib -Ilib a.c")) = [] ∧
      coveredTokens noRoots
          (parsedItems (fun _ => none) (wordsOfLine "gcc -c -I inc -L lib -Ilib a.c")) =
        ["-I".toList, "inc".toList, "-Ilib".toList] := by
    decide +kernel
  obtain ⟨hcacheable, huncovered, hcovered⟩ := heval
  refine ⟨hcacheable, hcovered,
    (keyArgs_cover_iff (fun _ => none) _ (fun r hr => by cases hr) hcacheable).1.mpr ?_⟩
  rw [huncovered]
  exact nil_sublist _

/-- A forced include named `-lfoo.h`, and a target named `-T` before the source. -/
theorem keyArgs_lose_values :
    let argv := wordsOfLine "gcc -c -include -lfoo.h a.c"
    let scanArgv := wordsOfLine "gcc -M -MT -T a.c"
    (parse (fun _ => none) argv).Cacheable ∧
      (parse (fun _ => none) argv).linkArgs = [] ∧
      (parse (fun _ => none) argv).baseArgs = ["-include".toList, "-lfoo.h".toList] ∧
      cxxManifestKeyArgs (parse (fun _ => none) argv) noRoots false =
        ["-c", "-include", "--vcache-key-args", "--vcache-lang=c"].map String.toList ∧
      (parse (fun _ => none) scanArgv).Cacheable ∧
      (parse (fun _ => none) scanArgv).depOnly = true ∧
      (parse (fun _ => none) scanArgv).linkArgs = [] ∧
      depScanKeyArgs (parse (fun _ => none) scanArgv) noRoots false =
        ["-M", "-MT"].map String.toList := by
  decide +kernel

end Vcache

import Mathlib.Data.List.TakeWhile
import Vcache.PrefixMaps
import Vcache.RustcArgs

/-!
# What the rustc command of a miss asks for

rustc reads its words as options, some with a value, joined to the option or as
the next word, and adds up the kinds of repeated `--emit` options. The command
that a miss runs is put together from the lists of the parse. It reads as the
caller's command did, except that of the `--emit` options only the last is left.
-/

namespace Vcache

open List Option

/-- The command `RunRustCompile` runs on a miss. -/
def rustCompileCommand (parsed : RustcArgs) (roots : RootMap) (stageDir : Str) : List Str :=
  parsed.compiler :: parsed.baseArgs ++ roots.prefixMapArgs .rust ++
    ["--emit=".toList ++ join ",".toList parsed.emitKinds, "--out-dir".toList, stageDir,
      parsed.source]

/-! ## rustc's reading -/

inductive RustWord where
  | free (word : Str)
  | flag (word : Str)
  | option (name value : Str)
deriving DecidableEq

def rustValueOptions : List Str := remapPathPrefix :: separateValueOptions

def isFreeWord (arg : Str) : Bool := arg.head? != some '-' || arg == "-".toList

def joinedOption (arg : Str) : Option (Str × Str) :=
  if startsWith arg "--remap-path-prefix=".toList then
    some (remapPathPrefix, arg.drop "--remap-path-prefix=".toList.length)
  else splitJoined arg

/-- There is no reading when an option lacks its value. `--codegen` is `-C`. A word `@path` is a
free word, so the source, and not what the file says. -/
def readRustc : List Str → Option (List RustWord)
  | [] => some []
  | arg :: rest =>
    if isFreeWord arg then (readRustc rest).map (.free arg :: ·)
    else match joinedOption arg with
      | some (name, value) =>
        (readRustc rest).map (.option (RustcItem.oneSpelling name) value :: ·)
      | none =>
        if arg ∈ rustValueOptions then
          match rest with
          | [] => none
          | value :: rest' =>
            (readRustc rest').map (.option (RustcItem.oneSpelling arg) value :: ·)
        else (readRustc rest).map (.flag arg :: ·)

namespace RustWord

/-- An option other than `--out-dir`, `--emit` and the flags that remap paths. -/
def isCarried : RustWord → Bool
  | free _ => false
  | flag word => !isPrefixMapFlag word
  | option name _ => name ∉ ["--out-dir".toList, "--emit".toList, remapPathPrefix]

def free? : RustWord → Option Str
  | free word => some word
  | _ => none

def emitKinds? : RustWord → Option (List Str)
  | option name value => if name = "--emit".toList then some (splitSkipEmpty ',' value) else none
  | _ => none

end RustWord

def kindsOf (read : List RustWord) : List Str := (read.filterMap RustWord.emitKinds?).flatten

def lastKindsOf (read : List RustWord) : List Str :=
  (read.filterMap RustWord.emitKinds?).getLast?.getD []

/-- One reading asks for what another does. -/
structure SameRequest (caller run : List RustWord) : Prop where
  carried : run.filter RustWord.isCarried = caller.filter RustWord.isCarried
  source : run.filterMap RustWord.free? = caller.filterMap RustWord.free?
  kinds : ∀ kind, kind ∈ kindsOf run ↔ kind ∈ kindsOf caller

/-- The command of a miss is read as asking for what the caller's command asks for. -/
def RunsWhatWasAsked (argv : List Str) (roots : RootMap) (stageDir : Str) : Prop :=
  ∃ caller run, readRustc argv.tail = some caller ∧
    readRustc (rustCompileCommand (parseRustc argv) roots stageDir).tail = some run ∧
    SameRequest caller run

/-! ## Reading word by word -/

section Words

variable {arg value name : Str} {rest : List Str}

theorem rustValueOptions_spelling : ∀ name ∈ rustValueOptions,
    isFreeWord name = false ∧ joinedOption name = none := by
  decide +kernel

theorem readRustc_free (h : isFreeWord arg = true) :
    readRustc (arg :: rest) = (readRustc rest).map (.free arg :: ·) := by
  rw [readRustc.eq_def]
  simp only [if_pos h]

theorem readRustc_joined (hflag : isFreeWord arg = false)
    (h : joinedOption arg = some (name, value)) :
    readRustc (arg :: rest) =
      (readRustc rest).map (.option (RustcItem.oneSpelling name) value :: ·) := by
  rw [readRustc.eq_def]
  simp only [hflag, Bool.false_eq_true, if_false, h]

theorem readRustc_value (h : arg ∈ rustValueOptions) :
    readRustc (arg :: value :: rest) =
      (readRustc rest).map (.option (RustcItem.oneSpelling arg) value :: ·) := by
  obtain ⟨hflag, hjoined⟩ := rustValueOptions_spelling arg h
  rw [readRustc.eq_def]
  simp only [hflag, Bool.false_eq_true, if_false, hjoined, if_pos h]

theorem readRustc_missing (h : arg ∈ rustValueOptions) : readRustc [arg] = none := by
  obtain ⟨hflag, hjoined⟩ := rustValueOptions_spelling arg h
  rw [readRustc.eq_def]
  simp only [hflag, Bool.false_eq_true, if_false, hjoined, if_pos h]

theorem readRustc_flag (hflag : isFreeWord arg = false) (hjoined : joinedOption arg = none)
    (h : arg ∉ rustValueOptions) :
    readRustc (arg :: rest) = (readRustc rest).map (.flag arg :: ·) := by
  rw [readRustc.eq_def]
  simp only [hflag, Bool.false_eq_true, if_false, hjoined, if_neg h]

theorem mem_of_splitJoined (h : splitJoined arg = some (name, value)) :
    name ∈ separateValueOptions := by
  rw [splitJoined] at h
  split at h
  · split at h
    next => cases h
    next eq heq =>
      split at h
      next hmem =>
        cases h
        exact hmem
      next => cases h
  · split at h
    next hmem =>
      cases h
      exact hmem.2.2
    next => cases h

theorem oneSpelling_mem (h : name ∈ separateValueOptions) :
    RustcItem.oneSpelling name ∈ separateValueOptions := by
  rw [RustcItem.oneSpelling]
  split
  next => decide
  next => exact h

theorem oneSpelling_oneSpelling (name : Str) :
    RustcItem.oneSpelling (RustcItem.oneSpelling name) = RustcItem.oneSpelling name := by
  by_cases h : name = "--codegen".toList
  · rw [h]
    decide
  · rw [RustcItem.oneSpelling, RustcItem.oneSpelling, if_neg h, if_neg h]

end Words

/-! ## One turn -/

/-- What a turn of `ParseRustc` makes of the word rustc reads there: it is read again from
`base_args` if it is to be carried. -/
structure RustTurn (arg : Str) (rest : List Str) (item : RustcItem) (rest' : List Str)
    (word : RustWord) : Prop where
  read : readRustc (arg :: rest) = (readRustc rest').map (word :: ·)
  reread : ∀ tail, readRustc (item.baseArgs ++ tail) =
    (readRustc tail).map ([word].filter RustWord.isCarried ++ ·)
  emit : word.emitKinds? = item.emit?
  free : word.free? = item.input?

section Turns

variable {arg : Str} {rest rest' : List Str} {item : RustcItem} {word : RustWord}

theorem rustTurn_aside (hread : readRustc (arg :: rest) = (readRustc rest').map (word :: ·))
    (hcarried : word.isCarried = false) (hbase : item.baseArgs = [])
    (hemit : word.emitKinds? = item.emit?) (hfree : word.free? = item.input?) :
    RustTurn arg rest item rest' word := by
  refine ⟨hread, fun tail => ?_, hemit, hfree⟩
  rw [hbase, filter_cons, hcarried, nil_append]
  simp

theorem not_isCarried {name value : Str}
    (h : name ∈ ["--out-dir".toList, "--emit".toList, remapPathPrefix]) :
    (RustWord.option name value).isCarried = false := decide_eq_false (not_not.mpr h)

theorem rustTurn_ofOption {name value : Str} (hname : name ∈ separateValueOptions)
    (hone : RustcItem.oneSpelling name = name)
    (hread : readRustc (arg :: rest) = (readRustc rest').map (.option name value :: ·)) :
    RustTurn arg rest (RustcItem.ofOption name value) rest' (.option name value) := by
  by_cases hdir : name = "--out-dir".toList
  · subst hdir
    exact rustTurn_aside hread (not_isCarried (by decide)) rfl rfl rfl
  by_cases hemit : name = "--emit".toList
  · subst hemit
    exact rustTurn_aside hread (not_isCarried (by decide)) rfl rfl rfl
  have hremap : name ≠ remapPathPrefix := by
    rintro rfl
    exact absurd hname (by decide)
  have hcarried : (RustWord.option name value).isCarried = true := by
    simp [RustWord.isCarried, hremap]
    exact ⟨hdir, hemit⟩
  have hitem : (RustcItem.ofOption name value).baseArgs = [name, value] ∧
      (RustcItem.ofOption name value).emit? = none ∧
      (RustcItem.ofOption name value).input? = none := by
    unfold RustcItem.ofOption
    rw [if_neg hdir, if_neg hemit]
    split_ifs with hout hcrate hincremental
    · exact ⟨by rw [hout]; rfl, rfl, rfl⟩
    · exact ⟨by rw [hcrate]; rfl, rfl, rfl⟩
    · rw [isIncrementalDir, Bool.and_eq_true, beq_iff_eq] at hincremental
      exact ⟨by rw [hincremental.1]; rfl, rfl, rfl⟩
    · exact ⟨rfl, rfl, rfl⟩
  refine ⟨hread, fun tail => ?_, ?_, hitem.2.2.symm⟩
  · rw [hitem.1, cons_append, cons_append, nil_append,
      readRustc_value (mem_cons_of_mem _ hname), hone, filter_cons, hcarried]
    rfl
  · rw [hitem.2.1, RustWord.emitKinds?, if_neg hemit]

theorem rustTurn_prefixMap (hflag : isFreeWord arg = false) (h : isPrefixMapFlag arg = true)
    (hne : arg ≠ remapPathPrefix) :
    ∃ word, RustTurn arg rest (.prefixMap [arg]) rest word := by
  by_cases hremap : startsWith arg "--remap-path-prefix=".toList = true
  · have hjoined : joinedOption arg =
        some (remapPathPrefix, arg.drop "--remap-path-prefix=".toList.length) := if_pos hremap
    exact ⟨_, rustTurn_aside (readRustc_joined hflag hjoined) (not_isCarried (by decide)) rfl rfl
      rfl⟩
  · simp only [isPrefixMapFlag, Bool.or_eq_true, List.any_eq_true, beq_iff_eq] at h
    obtain ⟨pre, hpre, hstart⟩ := h.resolve_right hne
    have hall : ∀ pre ∈ prefixMapPrefixes, pre = "--remap-path-prefix=".toList ∨
        pre.take 2 = "-f".toList := by decide
    have hf : pre.take 2 = "-f".toList := by
      rcases hall pre hpre with rfl | hf
      · exact absurd hstart hremap
      · exact hf
    obtain ⟨tail, rfl⟩ := startsWith_iff.mp hstart
    obtain ⟨more, rfl⟩ : ∃ more, pre = "-f".toList ++ more := ⟨pre.drop 2, by
      rw [← hf, List.take_append_drop]⟩
    have hjoined : joinedOption ("-f".toList ++ more ++ tail) = none := by
      rw [joinedOption, if_neg hremap, splitJoined, if_neg (by simp [startsWith]), if_neg]
      rintro ⟨-, -, hmem⟩
      change "-f".toList ∈ separateValueOptions at hmem
      exact absurd hmem (by decide)
    have hmem : "-f".toList ++ more ++ tail ∉ rustValueOptions := by
      intro hmem
      have hseconds : ∀ name ∈ rustValueOptions, name.take 2 ≠ "-f".toList := by decide
      exact hseconds _ hmem rfl
    refine ⟨_, rustTurn_aside (readRustc_flag hflag hjoined hmem) ?_ rfl rfl rfl⟩
    have hmap : isPrefixMapFlag ("-f".toList ++ more ++ tail) = true := by
      simp only [isPrefixMapFlag, Bool.or_eq_true, List.any_eq_true]
      exact .inl ⟨_, hpre, hstart⟩
    simp only [RustWord.isCarried, hmap, Bool.not_true]

/-- A turn of the parser: there is nothing to read, or one word is read. -/
theorem rustTurn_nextRustcItem (arg : Str) (rest : List Str)
    (hstdin : (nextRustcItem arg rest).1 ≠ .stdin) :
    readRustc (arg :: rest) = none ∨
      ∃ word, RustTurn arg rest (nextRustcItem arg rest).1 (nextRustcItem arg rest).2 word := by
  have hflag (hinput : ¬ (arg = [] ∨ arg.head? ≠ some '-')) (hdash : arg ≠ "-".toList) :
      isFreeWord arg = false := by
    simp only [not_or, not_not] at hinput
    simpa [isFreeWord, hinput.2] using hdash
  have hjoined (hmap : ¬ isPrefixMapFlag arg = true) : joinedOption arg = splitJoined arg := by
    refine if_neg (fun hstart => hmap ?_)
    simp only [isPrefixMapFlag, Bool.or_eq_true, List.any_eq_true]
    exact .inl ⟨_, by decide, hstart⟩
  revert hstdin
  fun_cases nextRustcItem arg rest <;> intro hstdin
  next hinput =>
    have hfree : isFreeWord arg = true := by
      rcases hinput with rfl | hhead
      · rfl
      · simp [isFreeWord, hhead]
    exact .inr ⟨_, rustTurn_aside (readRustc_free hfree) rfl rfl rfl rfl⟩
  next => exact absurd rfl hstdin
  next hremap =>
    obtain ⟨rfl, hne⟩ := hremap
    obtain ⟨value, rest, rfl⟩ := exists_cons_of_ne_nil hne
    exact .inr ⟨_, rustTurn_aside (readRustc_value mem_cons_self) (not_isCarried (by decide)) rfl
      rfl rfl⟩
  next hinput hdash hmap hremap =>
    by_cases heq : arg = remapPathPrefix
    · obtain rfl : rest = [] := by_contra (fun hne => hremap ⟨heq, hne⟩)
      exact .inl (readRustc_missing (heq ▸ mem_cons_self))
    · exact .inr (rustTurn_prefixMap (hflag hinput hdash) hmap heq)
  next hinput hdash hmap name value hsplit =>
    exact .inr ⟨_, rustTurn_ofOption (oneSpelling_mem (mem_of_splitJoined hsplit))
      (oneSpelling_oneSpelling name)
      (readRustc_joined (hflag hinput hdash) ((hjoined hmap).trans hsplit))⟩
  next hvalue => exact .inl (readRustc_missing (mem_cons_of_mem _ hvalue))
  next hvalue value rest =>
    exact .inr ⟨_, rustTurn_ofOption (oneSpelling_mem hvalue) (oneSpelling_oneSpelling arg)
      (readRustc_value (mem_cons_of_mem _ hvalue))⟩
  next hinput hdash hmap hsplit hvalue =>
    have hnot : arg ∉ rustValueOptions := by
      intro hmem
      rcases mem_cons.mp hmem with rfl | hmem
      · exact absurd hmap (by decide)
      · exact hvalue hmem
    have hread (tail : List Str) :
        readRustc (arg :: tail) = (readRustc tail).map (.flag arg :: ·) :=
      readRustc_flag (hflag hinput hdash) ((hjoined hmap).trans hsplit) hnot
    have hcarried : (RustWord.flag arg).isCarried = true := by
      simpa [RustWord.isCarried] using hmap
    refine .inr ⟨_, hread rest, fun tail => ?_, rfl, rfl⟩
    rw [filter_cons, hcarried]
    exact hread tail

end Turns

/-! ## Whole commands -/

theorem length_nextRustcItem (arg : Str) (rest : List Str) :
    (nextRustcItem arg rest).2.length ≤ rest.length := by
  fun_cases nextRustcItem arg rest <;> simp

/-- What a whole command line is read as, and what is read again of it. -/
structure RustTurns (words : List Str) (items : List RustcItem) (read : List RustWord) : Prop where
  reread : ∀ tail, readRustc (items.flatMap RustcItem.baseArgs ++ tail) =
    (readRustc tail).map (read.filter RustWord.isCarried ++ ·)
  emits : read.filterMap RustWord.emitKinds? = items.filterMap RustcItem.emit?
  frees : read.filterMap RustWord.free? = items.filterMap RustcItem.input?

theorem RustTurn.cons {arg : Str} {rest rest' : List Str} {item : RustcItem} {word : RustWord}
    {items : List RustcItem} {read : List RustWord} (h : RustTurn arg rest item rest' word)
    (hrest : RustTurns rest' items read) :
    RustTurns (arg :: rest) (item :: items) (word :: read) := by
  refine ⟨fun tail => ?_, ?_, ?_⟩
  · rw [List.flatMap_cons, List.append_assoc, h.reread, hrest.reread, Option.map_map]
    congr 1
    funext more
    simp only [Function.comp_apply, ← List.append_assoc, ← List.filter_append]
    rfl
  · rw [List.filterMap_cons, List.filterMap_cons, h.emit, hrest.emits]
  · rw [List.filterMap_cons, List.filterMap_cons, h.free, hrest.frees]

theorem rustTurns_of_read (turns : ℕ) (words : List Str) (hlength : words.length ≤ turns)
    (hstdin : .stdin ∉ rustcItemsFuel turns words) {read : List RustWord}
    (hread : readRustc words = some read) : RustTurns words (rustcItemsFuel turns words) read := by
  induction turns generalizing words read with
  | zero =>
    obtain rfl := eq_nil_of_length_eq_zero (Nat.le_zero.mp hlength)
    cases hread
    exact ⟨fun tail => by simp [rustcItemsFuel], rfl, rfl⟩
  | succ turns ih =>
    cases words with
    | nil =>
      cases hread
      exact ⟨fun tail => by simp [rustcItemsFuel], rfl, rfl⟩
    | cons arg rest =>
      rw [rustcItemsFuel] at hstdin ⊢
      rw [mem_cons, not_or] at hstdin
      rcases rustTurn_nextRustcItem arg rest (fun h => hstdin.1 h.symm) with hnone | ⟨word, hturn⟩
      · rw [hnone] at hread
        cases hread
      · rw [hturn.read] at hread
        obtain ⟨read', hread', rfl⟩ := map_eq_some_iff.mp hread
        have hshort := length_nextRustcItem arg rest
        rw [length_cons] at hlength
        exact hturn.cons (ih _ (by omega) hstdin.2 hread')

theorem rustc_of_cacheable {argv : List Str} (h : (parseRustc argv).Cacheable) :
    .stdin ∉ rustcItems argv.tail ∧
      (rustcItems argv.tail).filterMap RustcItem.input? = [(parseRustc argv).source] ∧
      (parseRustc argv).baseArgs = (rustcItems argv.tail).flatMap RustcItem.baseArgs ∧
      (parseRustc argv).emitKinds = lastOf RustcItem.emit? (rustcItems argv.tail) [] := by
  unfold parseRustc RustcArgs.Cacheable at *
  split_ifs at h ⊢
  simp only at h ⊢
  split_ifs at h ⊢ with hstdin
  have hall : (rustcItems argv.tail).takeWhile (fun item => item ≠ .stdin) =
      rustcItems argv.tail := by
    refine ( takeWhile_prefix _).eq_of_length ?_
    exact le_antisymm ( takeWhile_prefix _).length_le (not_lt.mp hstdin)
  have hnone : .stdin ∉ rustcItems argv.tail := by
    intro hmem
    have hp := mem_takeWhile_imp (hall.symm ▸ hmem)
    simp at hp
  simp only [hall] at h ⊢
  cases hinputs : (rustcItems argv.tail).filterMap RustcItem.input? with
  | nil =>
    simp only [hinputs, rustcUncacheable] at h
    cases h
  | cons source more =>
    cases more with
    | nil => exact ⟨hnone, rfl, rfl, rfl⟩
    | cons second more =>
      simp only [hinputs, rustcUncacheable] at h
      cases h

theorem splitSkipEmpty_join {delim : Char} {kinds : List Str}
    (h : ∀ kind ∈ kinds, kind ≠ [] ∧ delim ∉ kind) :
    splitSkipEmpty delim (join [delim] kinds) = kinds := by
  have hfield : ∀ kind ∈ kinds, splitSkipEmpty delim kind = [kind] := by
    intro kind hkind
    rw [splitSkipEmpty, split_of_notMem (h kind hkind).2]
    simp [(h kind hkind).1]
  induction kinds with
  | nil => rfl
  | cons kind kinds ih =>
    cases kinds with
    | nil => exact hfield kind mem_cons_self
    | cons second kinds =>
      have hrest := ih (fun k hk => h k (mem_cons_of_mem _ hk))
        (fun k hk => hfield k (mem_cons_of_mem _ hk))
      have hfirst := hfield kind mem_cons_self
      rw [splitSkipEmpty] at hrest hfirst ⊢
      rw [join, append_assoc, singleton_append, split_append, filter_append, hrest, hfirst]
      · rfl
      · simp

theorem lastOf_eq_getLast {α β : Type} (get? : α → Option β) (items : List α) (default : β) :
    lastOf get? items default = (items.filterMap get?).getLast?.getD default := by
  rw [lastOf, getLast?_eq_head?_reverse, ← filterMap_reverse, head?_filterMap]

section Command

variable {parsed : RustcArgs} {roots : RootMap} {stageDir : Str}

def addedWords (parsed : RustcArgs) (roots : RootMap) (stageDir : Str) : List RustWord :=
  roots.roots.map (fun r => .option remapPathPrefix (r.path ++ "=".toList ++ r.canonical)) ++
    [.option "--emit".toList (join ",".toList parsed.emitKinds),
      .option "--out-dir".toList stageDir, .free parsed.source]

theorem joinedOption_emit (value : Str) :
    joinedOption ("--emit=".toList ++ value) = some ("--emit".toList, value) := by
  have hword : "--emit=".toList ++ value = "--emit".toList ++ '=' :: value := rfl
  have hlong : startsWith ("--emit".toList ++ '=' :: value) "--".toList = true := rfl
  have hdrop : ("--emit".toList ++ '=' :: value).drop ("--emit".toList.length + 1) = value := rfl
  rw [hword, joinedOption, if_neg (by simp [startsWith]), splitJoined, if_pos hlong,
    findChar_append (by decide)]
  simp only [take_left', hdrop]
  rw [if_pos (by decide)]

theorem prefixMapArg_eq (style : PrefixMapStyle) (r : Root) :
    prefixMapArg style r = prefixMapFlag style ++ (r.path ++ "=".toList ++ r.canonical) := by
  simp only [prefixMapArg, append_assoc]

theorem joinedOption_remap (value : Str) :
    joinedOption ("--remap-path-prefix=".toList ++ value) = some (remapPathPrefix, value) := by
  rw [joinedOption, if_pos (startsWith_append _ _), drop_left]

theorem readRustc_added (hsource : isFreeWord parsed.source = true) :
    readRustc (roots.prefixMapArgs .rust ++
      ["--emit=".toList ++ join ",".toList parsed.emitKinds, "--out-dir".toList, stageDir,
        parsed.source]) = some (addedWords parsed roots stageDir) := by
  unfold RootMap.prefixMapArgs addedWords
  induction roots.roots with
  | nil =>
    have hemit : RustcItem.oneSpelling "--emit".toList = "--emit".toList := by decide
    have hdir : RustcItem.oneSpelling "--out-dir".toList = "--out-dir".toList := by decide
    rw [map_nil, map_nil, nil_append, nil_append,
      readRustc_joined rfl (joinedOption_emit _), readRustc_value (by decide),
      readRustc_free hsource, readRustc, hemit, hdir]
    simp only [map_some]
  | cons r rs ih =>
    have harg : prefixMapArg .rust r =
        "--remap-path-prefix=".toList ++ (r.path ++ "=".toList ++ r.canonical) :=
      prefixMapArg_eq .rust r
    have hremap : RustcItem.oneSpelling remapPathPrefix = remapPathPrefix := by decide
    rw [map_cons, cons_append, harg, readRustc_joined rfl (joinedOption_remap _), ih,
      hremap, map_some, map_cons, cons_append]

theorem isFreeWord_of_read {words : List Str} {read : List RustWord}
    (hread : readRustc words = some read) {word : Str} (h : .free word ∈ read) :
    isFreeWord word = true := by
  fun_induction readRustc words generalizing read with
  | case1 =>
    cases hread
    cases h
  | case2 arg rest hfree ih =>
    obtain ⟨_, htail, rfl⟩ := map_eq_some_iff.mp hread
    rcases mem_cons.mp h with heq | h
    · cases heq
      exact hfree
    · exact ih htail h
  | case4 => cases hread
  | _ =>
    rename_i ih
    obtain ⟨_, htail, rfl⟩ := map_eq_some_iff.mp hread
    rcases mem_cons.mp h with heq | h
    · cases heq
    · exact ih htail h

variable {caller run : List RustWord}

theorem filterMap_free_carried (read : List RustWord) :
    (read.filter RustWord.isCarried).filterMap RustWord.free? = [] := by
  rw [filterMap_eq_nil_iff]
  intro word hword
  cases word with
  | free word => cases (mem_filter.mp hword).2
  | flag word => rfl
  | option name value => rfl

theorem filterMap_emit_carried (read : List RustWord) :
    (read.filter RustWord.isCarried).filterMap RustWord.emitKinds? = [] := by
  rw [filterMap_eq_nil_iff]
  intro word hword
  cases word with
  | free word => rfl
  | flag word => rfl
  | option name value =>
    refine if_neg ?_
    rintro rfl
    have hcarried := (mem_filter.mp hword).2
    rw [not_isCarried (by decide)] at hcarried
    cases hcarried

theorem filter_added (parsed : RustcArgs) (roots : RootMap) (stageDir : Str) :
    (addedWords parsed roots stageDir).filter RustWord.isCarried = [] := by
  rw [filter_eq_nil_iff]
  intro word hword
  have hkind : word = .free parsed.source ∨ ∃ name value, word = .option name value ∧
      name ∈ ["--out-dir".toList, "--emit".toList, remapPathPrefix] := by
    rw [addedWords, List.mem_append, List.mem_map] at hword
    rcases hword with ⟨r, -, rfl⟩ | hword
    · exact .inr ⟨_, _, rfl, by decide⟩
    · rcases List.mem_cons.mp hword with rfl | hword
      · exact .inr ⟨_, _, rfl, by decide⟩
      · rcases List.mem_cons.mp hword with rfl | hword
        · exact .inr ⟨_, _, rfl, by decide⟩
        · exact .inl (List.mem_singleton.mp hword)
  rcases hkind with rfl | ⟨name, value, rfl, hname⟩
  · simp [RustWord.isCarried]
  · rw [not_isCarried hname]
    simp

theorem free_added (parsed : RustcArgs) (roots : RootMap) (stageDir : Str) :
    (addedWords parsed roots stageDir).filterMap RustWord.free? = [parsed.source] := by
  rw [addedWords, filterMap_append, filterMap_map]
  simp only [Function.comp_def, RustWord.free?, filterMap_none, nil_append]
  rfl

theorem kinds_added (parsed : RustcArgs) (roots : RootMap) (stageDir : Str) :
    kindsOf (addedWords parsed roots stageDir) =
      splitSkipEmpty ',' (join ",".toList parsed.emitKinds) := by
  have hremap : remapPathPrefix ≠ "--emit".toList := by decide
  have hdir : "--out-dir".toList ≠ "--emit".toList := by decide
  rw [kindsOf, addedWords, filterMap_append, filterMap_map]
  simp only [Function.comp_def, RustWord.emitKinds?, if_neg hremap, if_neg hdir,
    filterMap_cons, filterMap_nil, if_true, filterMap_none, nil_append]
  exact append_nil _

end Command

theorem emitKinds_eq {argv : List Str} (h : (parseRustc argv).Cacheable) {caller : List RustWord}
    (hemits : caller.filterMap RustWord.emitKinds? =
      (rustcItems argv.tail).filterMap RustcItem.emit?) :
    (parseRustc argv).emitKinds = lastKindsOf caller := by
  rw [(rustc_of_cacheable h).2.2.2, lastOf_eq_getLast, ← hemits, lastKindsOf]

theorem mem_lastKindsOf {read : List RustWord} {kind : Str} (h : kind ∈ lastKindsOf read) :
    kind ∈ kindsOf read ∧ kind ≠ [] ∧ ',' ∉ kind := by
  rw [lastKindsOf] at h
  cases hlast : (read.filterMap RustWord.emitKinds?).getLast? with
  | none =>
    rw [hlast] at h
    cases h
  | some kinds =>
    rw [hlast, getD_some] at h
    have hmem := mem_of_getLast? hlast
    refine ⟨mem_flatten.mpr ⟨kinds, hmem, h⟩, ?_⟩
    obtain ⟨word, -, hword⟩ := mem_filterMap.mp hmem
    cases word with
    | free word => cases hword
    | flag word => cases hword
    | option name value =>
      rw [RustWord.emitKinds?] at hword
      split at hword
      next =>
        cases hword
        obtain ⟨hfield, hne⟩ := mem_filter.mp h
        exact ⟨by simpa using hne, notMem_of_mem_split hfield⟩
      next => cases hword

/-- The command of a miss asks for what the caller's command asks for exactly when every option
of the caller's command has its value and its last `--emit` names all the kinds. -/
theorem runsWhatWasAsked_iff {argv : List Str} (h : (parseRustc argv).Cacheable) (roots : RootMap)
    (stageDir : Str) :
    RunsWhatWasAsked argv roots stageDir ↔
      ∃ caller, readRustc argv.tail = some caller ∧
        ∀ kind ∈ kindsOf caller, kind ∈ lastKindsOf caller := by
  obtain ⟨hstdin, hinputs, hbase, -⟩ := rustc_of_cacheable h
  unfold RunsWhatWasAsked
  refine exists_congr fun caller => ?_
  by_cases hread : readRustc argv.tail = some caller
  swap
  · simp [hread]
  obtain ⟨hreread, hemits, hfrees⟩ := rustTurns_of_read _ _ le_rfl hstdin hread
  have hsource : isFreeWord (parseRustc argv).source = true := by
    have hmem : (parseRustc argv).source ∈ caller.filterMap RustWord.free? := by
      rw [hfrees.trans hinputs]
      exact mem_singleton_self _
    obtain ⟨word, hword, hfree⟩ := mem_filterMap.mp hmem
    cases word with
    | free word =>
      cases hfree
      exact isFreeWord_of_read hread hword
    | _ => cases hfree
  have hrun : readRustc (rustCompileCommand (parseRustc argv) roots stageDir).tail =
      some (caller.filter RustWord.isCarried ++ addedWords (parseRustc argv) roots stageDir) := by
    rw [rustCompileCommand, cons_append, cons_append, tail_cons, hbase, append_assoc]
    refine (hreread _).trans ?_
    rw [readRustc_added hsource, map_some]
  have hkinds : kindsOf (caller.filter RustWord.isCarried ++
      addedWords (parseRustc argv) roots stageDir) = lastKindsOf caller := by
    have hadded := kinds_added (parseRustc argv) roots stageDir
    rw [emitKinds_eq h hemits, show ",".toList = [','] from rfl,
      splitSkipEmpty_join (fun kind hkind => (mem_lastKindsOf hkind).2), kindsOf] at hadded
    rw [kindsOf, filterMap_append, filterMap_emit_carried, nil_append, hadded]
  simp only [hread, hrun, some.injEq, true_and, exists_eq_left']
  constructor
  · intro hsame kind hkind
    rw [← hkinds]
    exact (hsame.kinds kind).mpr hkind
  · intro hall
    refine ⟨?_, ?_, fun kind => ?_⟩
    · rw [List.filter_append, filter_added, List.append_nil, List.filter_filter]
      simp
    · rw [List.filterMap_append, filterMap_free_carried, free_added, List.nil_append, hfrees]
      exact hinputs.symm
    · rw [hkinds]
      exact ⟨fun hkind => (mem_lastKindsOf hkind).1, hall kind⟩

/-! ## Two commands -/

def withoutRoots : RootMap := ⟨[], .nil⟩

def oneEmit : List Str :=
  ["rustc", "--codegen", "debuginfo=2", "--emit=link,dep-info", "--out-dir", "d", "a.rs"].map
    String.toList

def twoEmits : List Str :=
  ["rustc", "--emit=dep-info", "--emit=link", "--out-dir", "d", "a.rs"].map String.toList

theorem runsWhatWasAsked_iff_oneEmit : RunsWhatWasAsked oneEmit withoutRoots "stage".toList := by
  have hread : readRustc oneEmit.tail = some [.option "-C".toList "debuginfo=2".toList,
      .option "--emit".toList "link,dep-info".toList, .option "--out-dir".toList "d".toList,
      .free "a.rs".toList] := by decide +kernel
  exact (runsWhatWasAsked_iff (by decide +kernel) withoutRoots _).mpr ⟨_, hread, by decide +kernel⟩

/-- With two `--emit` options the kinds of the first are not asked for. -/
theorem not_runsWhatWasAsked_twoEmits :
    (parseRustc twoEmits).Cacheable ∧ ¬ RunsWhatWasAsked twoEmits withoutRoots "stage".toList := by
  refine ⟨by decide +kernel, ?_⟩
  rintro ⟨caller, run, hcaller, hrun, hsame⟩
  have hread : readRustc twoEmits.tail = some [.option "--emit".toList "dep-info".toList,
      .option "--emit".toList "link".toList, .option "--out-dir".toList "d".toList,
      .free "a.rs".toList] := by decide +kernel
  have hreread :
      readRustc (rustCompileCommand (parseRustc twoEmits) withoutRoots "stage".toList).tail =
      some [.option "--emit".toList "link".toList, .option "--out-dir".toList "stage".toList,
        .free "a.rs".toList] := by decide +kernel
  cases hread.symm.trans hcaller
  cases hreread.symm.trans hrun
  exact absurd ((hsame.kinds "dep-info".toList).mpr (by decide +kernel)) (by decide +kernel)

end Vcache

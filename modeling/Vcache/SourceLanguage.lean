import Vcache.ManifestCover

/-!
# The language a source is compiled in

A gcc-style driver applies `-x` to the input files behind it, and without one the
file's extension decides. `Parse` moves every `-x` into `base_args`, and the
commands built from them name the source last, so a `-x` that stood behind the
source reaches it all the same.
-/

namespace Vcache

open List Option

variable {pre : Str} {words rest' : List Str}

/-! ## The driver -/

/-- The flags, `-x` apart, that take the next word as their value. -/
def valueFlags : List Str :=
  ["-o", "-MF", "-MT", "-MQ", "--config", "--remap-path-prefix", "-MJ", "-serialize-diagnostics",
    "--serialize-diagnostics", "-gen-cdb-fragment-path", "-l", "-e"].map String.toList ++
    separateValueFlags.filter (· != "-x".toList)

def isInput (word : Str) : Bool := word.head? != some '-' || word == "-".toList

/-- `-x none`: the extension decides. -/
def noLanguage : Str := "none".toList

/-- A driver at the words of a command line, with the `-x` value in effect: the input files,
each with the value in effect where it stands, and the value in effect at the end. There is
no reading when a flag lacks its value. `--language=` is a flag like others here, not `-x`. -/
def readLine : Str → List Str → Option (List (Str × Str) × Str)
  | x, [] => some ([], x)
  | x, word :: rest =>
    if isInput word then (readLine x rest).map (fun read => ((word, x) :: read.1, read.2))
    else if word = "-x".toList then
      match rest with
      | [] => none
      | value :: rest' => readLine value rest'
    else if startsWith word "-x".toList then readLine (word.drop 2) rest
    else if word ∈ valueFlags then
      match rest with
      | [] => none
      | _ :: rest' => readLine x rest'
    else readLine x rest

structure LanguageRules (L : Type*) where
  ofFlag : Str → L
  ofExtension : Str → L

def LanguageRules.language {L : Type*} (rules : LanguageRules L) (x path : Str) : L :=
  if x = noLanguage then rules.ofExtension path else rules.ofFlag x

/-- The language of the only input file of a command. -/
def sourceLanguage {L : Type*} (rules : LanguageRules L) (words : List Str) : Option L :=
  match readLine noLanguage words with
  | some ([(path, x)], _) => some (rules.language x path)
  | _ => none

/-- The commands built for an accepted command line give its source the language the command
line gives it. -/
def CommandsKeepLanguage {L : Type*} (rules : LanguageRules L) (parsed : CompilerArgs) : Prop :=
  ∀ language, sourceLanguage rules parsed.argv.tail = some language →
    ∀ roots compilerId depfile absentListPath output addMd,
      sourceLanguage rules
          (buildPreprocessCommand parsed roots compilerId depfile absentListPath).tail =
        some language ∧
      sourceLanguage rules
          (buildCompileCommand parsed roots output depfile addMd absentListPath).tail =
        some language

/-! ## Reading word by word -/

section Words

variable {x word value : Str} {rest : List Str}

/-- The second letters a flag that takes a value does not have. -/
def otherSeconds : List (Option Char) := "xWfdcSEm".toList.map some

theorem valueFlags_spelling : ∀ word ∈ valueFlags,
    isInput word = false ∧ word[1]? ∉ otherSeconds ∧
      startsWith word "--config=".toList = false ∧
      startsWith word "--remap-path-prefix=".toList = false ∧
      (word[1]? = some 'M' → word ∈ ["-MF", "-MT", "-MQ", "-MJ"].map String.toList) ∧
      (word[1]? = some 'o' → word = "-o".toList) ∧
      (isLinkOnlyFlag word = true → linkOnlyFlagTakesValue word = true) := by
  decide +kernel

theorem mem_valueFlags : ∀ word ∈ ["-o", "-MF", "-MT", "-MQ", "--config", "--remap-path-prefix",
    "-Xclang", "-l", "-L", "-Xlinker", "-T", "-u", "-z", "-e"].map String.toList,
    word ∈ valueFlags := by
  decide +kernel

theorem notMem_valueFlags_of_startsWith (h : startsWith word pre = true)
    (hlen : 1 < pre.length) (hpre : pre[1]? ∈ otherSeconds) : word ∉ valueFlags := by
  intro hmem
  have hsecond := (valueFlags_spelling word hmem).2.1
  rw [startsWith_getElem? h hlen] at hsecond
  exact hsecond hpre

theorem not_language_of_mem (h : word ∈ valueFlags) : startsWith word "-x".toList = false := by
  by_contra hx
  rw [Bool.not_eq_false] at hx
  exact notMem_valueFlags_of_startsWith hx (by decide) (by decide) h

theorem readLine_input (h : isInput word = true) :
    readLine x (word :: rest) =
      (readLine x rest).map (fun read => ((word, x) :: read.1, read.2)) := by
  rw [readLine.eq_def]
  simp only [if_pos h]

theorem readLine_language : readLine x ("-x".toList :: value :: rest) = readLine value rest := by
  rw [readLine, if_neg (by decide), if_pos rfl]

theorem readLine_joined (hne : word ≠ "-x".toList) (h : startsWith word "-x".toList = true) :
    readLine x (word :: rest) = readLine (word.drop 2) rest := by
  have hinput : isInput word = false := by
    obtain ⟨tail, rfl⟩ := startsWith_iff.mp h
    cases tail with
    | nil => decide
    | cons c tail => rfl
  rw [readLine.eq_def]
  simp only [hinput, Bool.false_eq_true, if_false, if_neg hne, if_pos h]

theorem readLine_value (h : word ∈ valueFlags) :
    readLine x (word :: value :: rest) = readLine x rest := by
  have hinput := (valueFlags_spelling word h).1
  have hlanguage := not_language_of_mem h
  have hne : word ≠ "-x".toList := by
    rintro rfl
    cases hlanguage
  rw [readLine, if_neg (by rw [hinput]; simp), if_neg hne, if_neg (by rw [hlanguage]; simp),
    if_pos h]

theorem readLine_missing (h : word ∈ valueFlags ∨ word = "-x".toList) :
    readLine x [word] = none := by
  rcases h with h | rfl
  · have hinput := (valueFlags_spelling word h).1
    have hlanguage := not_language_of_mem h
    have hne : word ≠ "-x".toList := by
      rintro rfl
      cases hlanguage
    rw [readLine, if_neg (by rw [hinput]; simp), if_neg hne, if_neg (by rw [hlanguage]; simp),
      if_pos h]
  · rw [readLine, if_neg (by decide), if_pos rfl]

def IsFlag (word : Str) : Prop :=
  isInput word = false ∧ startsWith word "-x".toList = false ∧ word ∉ valueFlags

theorem readLine_flag (h : IsFlag word) : readLine x (word :: rest) = readLine x rest := by
  obtain ⟨hinput, hlanguage, hvalue⟩ := h
  have hne : word ≠ "-x".toList := by
    rintro rfl
    cases hlanguage
  rw [readLine.eq_def]
  simp only [hinput, hlanguage, Bool.false_eq_true, if_false, if_neg hne, if_neg hvalue]

/-- Words that name no input and set no language. -/
def Skips (words : List Str) : Prop := ∀ x tail, readLine x (words ++ tail) = readLine x tail

theorem Skips.nil : Skips [] := fun _ _ => rfl

theorem Skips.append {words' : List Str} (h : Skips words) (h' : Skips words') :
    Skips (words ++ words') := by
  intro x tail
  rw [append_assoc, h, h']

theorem Skips.ite {condition : Prop} [Decidable condition] {words' : List Str}
    (h : Skips words) (h' : Skips words') : Skips (if condition then words else words') := by
  split
  · exact h
  · exact h'

theorem skips_flag (h : IsFlag word) : Skips [word] := fun _ _ => readLine_flag h

theorem skips_value (h : word ∈ valueFlags) : Skips [word, value] := fun _ _ => readLine_value h

end Words

/-! ## Turns of the parser -/

def takesValue (word : Str) : Bool := word ∈ valueFlags || word == "-x".toList

/-- What a turn of `Parse` takes: a word, or an option with its value, which may be missing. -/
inductive Shape (arg : Str) (rest : List Str) (item : CompilerItem) : List Str → Prop where
  | word (htakes : takesValue arg = false) (hwords : item.words = [arg])
      (hsource : (isInput arg = true ∧ item = .source arg) ∨
        (isInput arg = false ∧ item.source? = none)) : Shape arg rest item rest
  | pair (value : Str) (rest' : List Str) (htakes : takesValue arg = true)
      (hrest : rest = value :: rest') (hwords : item.words = [arg, value]) :
      Shape arg rest item rest'
  | missing (rest' : List Str) (htakes : takesValue arg = true) (hrest : rest = []) :
      Shape arg rest item rest'

/-- What a turn of `Parse` means to a driver that reads the same words. -/
inductive DriverTurn (arg : Str) (rest : List Str) (item : CompilerItem) (rest' : List Str) :
    Prop where
  | input (hitem : item = .source arg) (hinput : isInput arg = true) (hrest : rest' = rest)
  | language (value : Str) (hwords : item.words ++ rest' = arg :: rest)
      (hread : ∀ x tail, readLine x (item.words ++ tail) = readLine value tail)
      (hbase : item.baseArgs = item.words) (hdep : item.depArgs = [])
      (hsource : item.source? = none)
  | neutral (hwords : item.words ++ rest' = arg :: rest)
      (hread : Skips item.words) (hsource : item.source? = none)
  | missing (hread : ∀ x, readLine x (arg :: rest) = none)

theorem CompilerItem.words_of_source? {item : CompilerItem} {word : Str}
    (h : item.source? = some word) : item.words = [word] := by
  cases item with
  | source word' => rw [← some.inj h]; rfl
  | _ => cases h

section Turns

variable {arg : Str} {rest : List Str} {item : CompilerItem}

theorem takesValue_iff : takesValue arg = true ↔ arg ∈ valueFlags ∨ arg = "-x".toList := by
  simp [takesValue]

theorem takesValue_of_mem (h : arg ∈ valueFlags) : takesValue arg = true :=
  takesValue_iff.mpr (.inl h)

theorem takesValue_of_notMem (h : arg ∉ valueFlags) (hx : arg ≠ "-x".toList) :
    takesValue arg = false := by
  rw [Bool.eq_false_iff, ne_eq, takesValue_iff]
  exact not_or.mpr ⟨h, hx⟩

theorem not_language_of_startsWith (h : startsWith arg pre = true)
    (hlen : 1 < pre.length) (hpre : pre[1]? ≠ some 'x') :
    startsWith arg "-x".toList = false := by
  by_contra hx
  rw [Bool.not_eq_false] at hx
  have hsecond := startsWith_getElem? hx (by decide : 1 < "-x".toList.length)
  rw [startsWith_getElem? h hlen] at hsecond
  exact hpre hsecond

theorem isFlag_of_startsWith (hinput : isInput arg = false)
    (h : startsWith arg pre = true) (hlen : 1 < pre.length) (hpre : pre[1]? ∈ otherSeconds)
    (hx : pre[1]? ≠ some 'x') : IsFlag arg :=
  ⟨hinput, not_language_of_startsWith h hlen hx, notMem_valueFlags_of_startsWith h hlen hpre⟩

theorem notMem_valueFlags_of_isPrefixMapFlag (h : isPrefixMapFlag arg = true)
    (hne : arg ≠ remapPathPrefix) : arg ∉ valueFlags := by
  simp only [isPrefixMapFlag, Bool.or_eq_true, List.any_eq_true, beq_iff_eq] at h
  obtain ⟨pre, hpre, hstart⟩ := h.resolve_right hne
  have hseconds : ∀ pre ∈ prefixMapPrefixes, 1 < pre.length ∧
      (pre[1]? ∈ otherSeconds ∨ pre = "--remap-path-prefix=".toList) := by decide
  obtain ⟨hlen, hother | rfl⟩ := hseconds pre hpre
  · exact notMem_valueFlags_of_startsWith hstart hlen hother
  · intro hmem
    rw [(valueFlags_spelling arg hmem).2.2.2.1] at hstart
    cases hstart

theorem notMem_valueFlags_of_isDepFlag (h : isDepFlag arg = true)
    (hne : arg ∉ ["-MF", "-MT", "-MQ"].map String.toList) : arg ∉ valueFlags := by
  intro hmem
  have hmj : ∀ word ∈ ["-MF", "-MT", "-MQ", "-MJ"].map String.toList, isDepFlag word = true →
      word ∈ ["-MF", "-MT", "-MQ"].map String.toList := by decide
  exact hne (hmj arg ((valueFlags_spelling arg hmem).2.2.2.2.1
    (second_of_isDepFlag h)) h)

theorem notMem_valueFlags_of_isLinkOnlyFlag (h : isLinkOnlyFlag arg = true)
    (htakes : linkOnlyFlagTakesValue arg = false) : arg ∉ valueFlags := by
  intro hmem
  rw [(valueFlags_spelling arg hmem).2.2.2.2.2.2 h] at htakes
  cases htakes

theorem mem_valueFlags_of_linkOnly (h : linkOnlyFlagTakesValue arg = true) :
    arg ∈ valueFlags :=
  mem_valueFlags arg (mem_append_right
    (["-o", "-MF", "-MT", "-MQ", "--config", "--remap-path-prefix", "-Xclang"].map String.toList)
    (of_decide_eq_true h))

theorem mem_valueFlags_of_separate (h : arg ∈ separateValueFlags) (hx : arg ≠ "-x".toList) :
    arg ∈ valueFlags :=
  mem_append_right _ (mem_filter.mpr ⟨h, by simpa using hx⟩)

theorem notMem_valueFlags (hlate : IsLate arg) (hconfig : arg ≠ "--config".toList)
    (hside : isSideOutputFlag arg = false) (hlink : isLinkOnlyFlag arg = false)
    (hseparate : arg ∉ separateValueFlags) : arg ∉ valueFlags := by
  intro hmem
  rcases mem_append.mp hmem with hmem | hmem
  · have hall : ∀ word ∈ ["-o", "-MF", "-MT", "-MQ", "--config", "--remap-path-prefix", "-MJ",
        "-serialize-diagnostics", "--serialize-diagnostics", "-gen-cdb-fragment-path", "-l",
        "-e"].map String.toList, isPrefixMapFlag word = true ∨ isDepFlag word = true ∨
          startsWith word "-o".toList = true ∨ word = "--config".toList ∨
          isSideOutputFlag word = true ∨ isLinkOnlyFlag word = true := by decide +kernel
    have hword := hall arg hmem
    rw [hlate.map, hlate.dep, hlate.output, hside, hlink] at hword
    simp only [Bool.false_eq_true, false_or, or_false] at hword
    exact hconfig hword
  · exact hseparate (mem_filter.mp hmem).1

theorem isInput_of_isDashed (h : IsDashed arg) : isInput arg = false := by
  simp only [isInput, h.1, bne_self_eq_false, Bool.false_or, beq_eq_false_iff_ne]
  exact h.2

theorem notMem_valueFlags_of_native (h : isNativeTargetFlag arg = true) : arg ∉ valueFlags := by
  have hall : ∀ word ∈ ["-march=native", "-mtune=native", "-mcpu=native"].map String.toList,
      startsWith word "-m".toList = true := by decide
  exact notMem_valueFlags_of_startsWith (hall arg (of_decide_eq_true h)) (by decide) (by decide)

theorem notMem_valueFlags_of_keyedFile {file : Str} (h : keyedFileFlagValue arg = some file) :
    arg ∉ valueFlags := by
  obtain ⟨pre, hfind, _⟩ := map_eq_some_iff.mp h
  have hstart : startsWith arg pre = true := find?_some hfind
  have hseconds : ∀ pre ∈ keyedFilePrefixes, 1 < pre.length ∧
      (pre[1]? ∈ otherSeconds ∨ pre = "--config=".toList) := by decide
  obtain ⟨hlen, hother | rfl⟩ := hseconds pre (mem_of_find?_eq_some hfind)
  · exact notMem_valueFlags_of_startsWith hstart hlen hother
  · intro hmem
    rw [(valueFlags_spelling arg hmem).2.2.1] at hstart
    cases hstart

theorem shape_of_lateBranch (hlate : IsLate arg) (h : LateBranch arg rest item rest') :
    Shape arg rest item rest' := by
  have hword (hmem : arg ∉ valueFlags) := takesValue_of_notMem hmem hlate.language
  have hinput := isInput_of_isDashed hlate.dashed
  have hconfigured (harg : arg = "--config".toList) : takesValue arg = true :=
    takesValue_of_mem (mem_valueFlags arg (by rw [harg]; decide))
  cases h with
  | native _ hnative =>
    exact .word (hword (notMem_valueFlags_of_native hnative)) rfl (.inr ⟨hinput, rfl⟩)
  | keyedFile _ file hfile =>
    exact .word (hword (notMem_valueFlags_of_keyedFile hfile)) rfl (.inr ⟨hinput, rfl⟩)
  | config value rest' harg =>
    exact .pair value rest' (hconfigured harg) rfl (by rw [harg]; rfl)
  | emitPch rest' harg =>
    exact .pair _ rest' (takesValue_of_mem (mem_valueFlags arg (by rw [harg]; decide))) rfl
      (by rw [harg]; rfl)
  | linkOnly _ hlink htakes =>
    exact .word (hword (notMem_valueFlags_of_isLinkOnlyFlag hlink htakes)) rfl (.inr ⟨hinput, rfl⟩)
  | linkMissing _ htakes =>
    exact .missing _ (takesValue_of_mem (mem_valueFlags_of_linkOnly htakes)) rfl
  | linkValue value rest' _ htakes =>
    exact .pair value rest' (takesValue_of_mem (mem_valueFlags_of_linkOnly htakes)) rfl rfl
  | separateMissing _ hmem =>
    exact .missing _ (takesValue_of_mem (mem_valueFlags_of_separate hmem hlate.language)) rfl
  | separate value rest' _ hmem =>
    exact .pair value rest' (takesValue_of_mem (mem_valueFlags_of_separate hmem hlate.language))
      rfl rfl
  | joined _ hlink hside hseparate hconfig | plainFlag _ hlink hside hseparate hconfig =>
    by_cases harg : arg = "--config".toList
    · exact .missing _ (hconfigured harg) (hconfig harg)
    · exact .word (hword (notMem_valueFlags hlate harg hside hlink hseparate)) rfl
        (.inr ⟨hinput, rfl⟩)

theorem shape_ofDepFlag (hinput : isInput arg = false) (hdep : isDepFlag arg = true)
    {out : CompilerItem × List Str} (hout : CompilerItem.ofDepFlag arg rest = out)
    (hpending : out.1.pending? = none) : Shape arg rest out.1 out.2 := by
  have hturn := turn_ofDepFlag hdep hout hpending
  by_cases hvalue : arg ∈ ["-MF", "-MT", "-MQ"].map String.toList
  · subst hout
    simp only [map_cons, map_nil, mem_cons, not_mem_nil, or_false] at hvalue
    have htakes := takesValue_of_mem
      (mem_valueFlags arg (by rcases hvalue with rfl | rfl | rfl <;> decide))
    rcases hvalue with rfl | rfl | rfl <;> cases rest
    all_goals first
      | exact .missing _ htakes rfl
      | exact .pair _ _ htakes rfl rfl
  -- Every other dependency flag is a word of its own.
  have htakes : takesValue arg = false := by
    refine takesValue_of_notMem (notMem_valueFlags_of_isDepFlag hdep hvalue) ?_
    rintro rfl
    exact absurd hdep (by decide)
  simp only [map_cons, map_nil, mem_cons, not_mem_nil, or_false, not_or] at hvalue
  have hone : out.1.words.length = 1 ∧ out.1.source? = none := by
    subst hout
    fun_cases CompilerItem.ofDepFlag arg rest <;>
      simp_all [CompilerItem.words, CompilerItem.source?]
  cases hturn with
  | flag hwords | leftOut hwords => exact .word htakes hwords (.inr ⟨hinput, hone.2⟩)
  | flagValue _ _ _ hwords | leftOutValue _ _ _ hwords =>
    rw [hwords] at hone
    cases hone.1

theorem shape_of_branch (h : Branch arg rest item rest') : Shape arg rest item rest' := by
  have htakes (harg : arg ∈ ["-o", "-MF", "-MT", "-MQ", "--config", "--remap-path-prefix",
      "-Xclang", "-l", "-L", "-Xlinker", "-T", "-u", "-z", "-e"].map String.toList) :=
    takesValue_of_mem (mem_valueFlags arg harg)
  cases h with
  | source _ hsource =>
    have hinput : isInput arg = true := by
      rcases hsource with rfl | hhead
      · rfl
      · simp [isInput, hhead]
    refine .word (takesValue_of_notMem (fun hmem => ?_) ?_) rfl (.inl ⟨hinput, rfl⟩)
    · rw [(valueFlags_spelling arg hmem).1] at hinput
      cases hinput
    · rintro rfl
      cases hinput
  | prefixMapValue value rest' _ harg =>
    exact .pair value rest' (htakes (by rw [harg]; decide)) rfl rfl
  | prefixMap _ hdash hmap hremap =>
    by_cases harg : arg = remapPathPrefix
    · exact .missing _ (htakes (by rw [harg]; decide)) (hremap harg)
    · refine .word (takesValue_of_notMem (notMem_valueFlags_of_isPrefixMapFlag hmap harg) ?_) rfl
        (.inr ⟨isInput_of_isDashed hdash, rfl⟩)
      rintro rfl
      exact absurd hmap (by decide)
  | dep _ hdash hdep hpending =>
    exact shape_ofDepFlag (isInput_of_isDashed hdash) hdep rfl hpending
  | phase _ _ hdash hitem hwords =>
    have hall : ∀ item ∈ [CompilerItem.compileOnly, .preprocessOnly, .assembleOnly],
        item.source? = none ∧ ∀ word ∈ item.words, takesValue word = false := by decide
    obtain ⟨hsource, hword⟩ := hall item hitem
    exact .word (hword arg (by simp [hwords])) hwords
      (.inr ⟨isInput_of_isDashed hdash, hsource⟩)
  | outputMissing harg => exact .missing _ (htakes (by rw [harg]; decide)) rfl
  | output path rest' _ harg =>
    exact .pair path rest' (htakes (by rw [harg]; decide)) rfl (by rw [harg]; rfl)
  | outputJoined _ hdash _ ho hoj =>
    obtain ⟨path, hpath⟩ := startsWith_iff.mp hoj
    refine .word (takesValue_of_notMem (fun hmem => ho ?_) ?_) (by rw [hpath]; rfl)
      (.inr ⟨isInput_of_isDashed hdash, rfl⟩)
    · exact (valueFlags_spelling arg hmem).2.2.2.2.2.1 (startsWith_getElem? hoj (by decide))
    · rintro rfl
      exact absurd hoj (by decide)
  | languageMissing harg => exact .missing _ (takesValue_iff.mpr (.inr harg)) rfl
  | language value rest' _ harg =>
    exact .pair value rest' (takesValue_iff.mpr (.inr harg)) rfl (by rw [harg]; rfl)
  | late hlate h => exact shape_of_lateBranch hlate h

/-- A word that starts with `-x` is told from the other flags by its second letter. -/
theorem lists_of_language (h : Branch arg rest item rest')
    (hx : startsWith arg "-x".toList = true) (hitem : item ≠ .languageMissing) :
    item.baseArgs = item.words ∧ item.depArgs = [] := by
  have hsecond : arg[1]? = some 'x' := startsWith_getElem? hx (by decide)
  cases h with
  | source _ hsource =>
    obtain ⟨tail, rfl⟩ := startsWith_iff.mp hx
    simp at hsource
  | prefixMapValue _ _ _ harg => exact absurd hx (by rw [harg]; decide)
  | prefixMap _ _ hmap =>
    obtain ⟨pre, hpre, hstart⟩ := startsWith_of_isPrefixMapFlag hmap
    have hseconds : ∀ pre ∈ remapPathPrefix :: prefixMapPrefixes, 1 < pre.length ∧
        pre[1]? ≠ some 'x' := by decide
    rw [not_language_of_startsWith hstart (hseconds pre hpre).1 (hseconds pre hpre).2] at hx
    cases hx
  | dep _ _ hdep => cases hsecond.symm.trans (second_of_isDepFlag hdep)
  | phase _ _ _ hphase hwords =>
    have hall : ∀ item ∈ [CompilerItem.compileOnly, .preprocessOnly, .assembleOnly],
        ∀ word ∈ item.words, word[1]? ≠ some 'x' := by decide
    exact absurd hsecond (hall item hphase arg (by simp [hwords]))
  | outputMissing harg | output _ _ _ harg => exact absurd hx (by rw [harg]; decide)
  | outputJoined _ _ _ _ hoj =>
    cases hsecond.symm.trans (startsWith_getElem? hoj (by decide))
  | languageMissing => exact absurd rfl hitem
  | language => exact ⟨rfl, rfl⟩
  | late _ h =>
    cases h with
    | emitPch _ harg => exact absurd hx (by rw [harg]; decide)
    | _ => exact ⟨rfl, rfl⟩

theorem driverTurn_of_branch (h : Branch arg rest item rest') :
    DriverTurn arg rest item rest' := by
  cases shape_of_branch h with
  | word htakes hwords hsource =>
    rcases hsource with ⟨hinput, hitem⟩ | ⟨hinput, hnone⟩
    · exact .input hitem hinput rfl
    have hnot : arg ∉ valueFlags ∧ arg ≠ "-x".toList :=
      not_or.mp (fun htake => by rw [takesValue_iff.mpr htake] at htakes; cases htakes)
    cases hx : startsWith arg "-x".toList with
    | true =>
      obtain ⟨hbase, hdep⟩ := lists_of_language h hx (by
        rintro rfl
        exact hnot.2 (cons.inj hwords).1.symm)
      refine .language (arg.drop 2) (by rw [hwords]; rfl) (fun x tail => ?_) hbase hdep hnone
      rw [hwords]
      exact readLine_joined hnot.2 hx
    | false =>
      refine .neutral (by rw [hwords]; rfl) ?_ hnone
      rw [hwords]
      exact skips_flag ⟨hinput, hx, hnot.1⟩
  | pair value _ htakes hrest hwords =>
    have hnone : item.source? = none := by
      by_contra hsome
      obtain ⟨word, hword⟩ := ne_none_iff_exists'.mp hsome
      cases hwords.symm.trans (CompilerItem.words_of_source? hword)
    have hread : item.words ++ rest' = arg :: rest := by rw [hwords, hrest]; rfl
    rcases takesValue_iff.mp htakes with hmem | rfl
    · refine .neutral hread ?_ hnone
      rw [hwords]
      exact skips_value hmem
    · obtain ⟨hbase, hdep⟩ := lists_of_language h rfl (by rintro rfl; cases hwords)
      refine .language value hread (fun x tail => ?_) hbase hdep hnone
      rw [hwords]
      exact readLine_language
  | missing _ htakes hrest =>
    rw [hrest]
    exact .missing (fun _ => readLine_missing (takesValue_iff.mp htakes))

end Turns

/-! ## Whole command lines -/

theorem CompilerItem.depArgs_eq (item : CompilerItem) :
    item.depArgs = [] ∨ item.depArgs = item.words := by
  cases item with
  | _ => first
    | exact .inl rfl
    | exact .inr rfl

/-- The command line read again from the lists it was parsed into: the sources are left out of
`base_args`, which leave the last `-x` in effect, and `dep_args` set no language. -/
def Rereads (words : List Str) (items : List CompilerItem) : Prop :=
  ∀ x inputs last, readLine x words = some (inputs, last) →
    items.filterMap CompilerItem.source? = inputs.map Prod.fst ∧
      (∀ tail, readLine x (items.flatMap CompilerItem.baseArgs ++ tail) = readLine last tail) ∧
      Skips (items.flatMap CompilerItem.depArgs)

theorem DriverTurn.rereads {arg : Str} {rest : List Str} {item : CompilerItem}
    {items : List CompilerItem} (h : DriverTurn arg rest item rest') (hrest : Rereads rest' items) :
    Rereads (arg :: rest) (item :: items) := by
  intro x inputs last hread
  simp only [flatMap_cons, append_assoc]
  cases h with
  | input hitem hinput heq =>
    subst hitem heq
    rw [readLine_input hinput] at hread
    obtain ⟨⟨inputs', last'⟩, hread', heq⟩ := map_eq_some_iff.mp hread
    cases heq
    obtain ⟨hsources, hbase, hdep⟩ := hrest x inputs' last' hread'
    refine ⟨?_, hbase, hdep⟩
    rw [filterMap_cons_some (show (CompilerItem.source arg).source? = some arg from rfl), hsources]
    rfl
  | language value hwords hturn hitem hitemDep hsource =>
    rw [← hwords, hturn] at hread
    obtain ⟨hsources, hbase, hdep⟩ := hrest value inputs last hread
    refine ⟨by rw [filterMap_cons_none hsource, hsources], fun tail => ?_, ?_⟩
    · rw [hitem, hturn, hbase]
    · rw [hitemDep]
      exact hdep
  | neutral hwords hturn hsource =>
    rw [← hwords, hturn] at hread
    obtain ⟨hsources, hbase, hdep⟩ := hrest x inputs last hread
    refine ⟨by rw [filterMap_cons_none hsource, hsources], fun tail => ?_, ?_⟩
    · rcases item.baseArgs_eq with heq | heq
      · rw [heq, nil_append, hbase]
      · rw [heq, hturn, hbase]
    · rcases item.depArgs_eq with heq | heq
      · rw [heq]
        exact hdep
      · rw [heq]
        exact hturn.append hdep
  | missing hturn =>
    rw [hturn] at hread
    cases hread

theorem rereads_compilerItems (words : List Str)
    (h : ∀ item ∈ compilerItems words, item.pending? = none) :
    Rereads words (compilerItems words) := by
  refine compilerItems_induction ?_ (fun arg rest items hpending hrest => ?_) words h
  · intro x inputs last hread
    cases hread
    exact ⟨rfl, fun tail => rfl, .nil⟩
  · exact (driverTurn_of_branch (branch_nextCompilerItem rfl hpending)).rereads hrest

/-! ## The commands -/

section Commands

variable {x last : Str} {parsed : CompilerArgs}

theorem isFlag_of_second {c : Char} {word : Str} (hc : c ∈ "fdcSE".toList) :
    IsFlag ('-' :: c :: word) := by
  have hseconds : some c ∈ otherSeconds ∧ some c ≠ some 'x' := by
    have hchars : c ∈ ['f', 'd', 'c', 'S', 'E'] := hc
    simp only [mem_cons, not_mem_nil, or_false] at hchars
    rcases hchars with rfl | rfl | rfl | rfl | rfl <;> decide
  exact isFlag_of_startsWith (by simp [isInput]) (startsWith_append ['-', c] word) (by simp)
    hseconds.1 hseconds.2

theorem skips_prefixMapArgs (roots : RootMap) : Skips (roots.prefixMapArgs .c) := by
  rw [RootMap.prefixMapArgs]
  induction roots.roots with
  | nil => exact .nil
  | cons root roots ih =>
    exact (skips_flag (isFlag_of_second (c := 'f') (by decide))).append ih

theorem isFlag_dep {word : Str} (h : word ∈ ["-MP", "-MG", "-MD", "-MMD"].map String.toList) :
    IsFlag word := by
  have hall : ∀ word ∈ ["-MP", "-MG", "-MD", "-MMD"].map String.toList, isInput word = false ∧
      startsWith word "-x".toList = false ∧ isDepFlag word = true ∧
        word ∉ ["-MF", "-MT", "-MQ"].map String.toList := by decide
  obtain ⟨hinput, hx, hdep, hne⟩ := hall word h
  exact ⟨hinput, hx, notMem_valueFlags_of_isDepFlag hdep hne⟩

theorem skips_md : Skips ["-MD".toList] := skips_flag (isFlag_dep (by decide))

theorem skips_absentDeps (absentListPath : Str) :
    Skips (if absentListPath = [] then [] else ["-fabsent-deps=".toList ++ absentListPath]) :=
  .ite .nil (skips_flag (isFlag_of_second (c := 'f') (by decide)))

theorem readLine_source_last (hbase : ∀ tail, readLine x (parsed.baseArgs ++ tail) =
    readLine last tail) (hsource : isInput parsed.source = true) {middle : List Str}
    (hmiddle : Skips middle) :
    readLine x (parsed.baseArgs ++ (middle ++ [parsed.source])) =
      some ([(parsed.source, last)], last) := by
  rw [hbase, hmiddle, readLine_input hsource]
  rfl

theorem buildPreprocessCommand_tail (parsed : CompilerArgs) (roots : RootMap)
    (compilerId : CompilerId) (depfile absentListPath : Str) :
    ∃ middle, Skips middle ∧
      (buildPreprocessCommand parsed roots compilerId depfile absentListPath).tail =
        parsed.baseArgs ++ (middle ++ [parsed.source]) := by
  have hflag : ∀ c ∈ "fdcSE".toList, ∀ word, Skips ['-' :: c :: word] :=
    fun c hc word => skips_flag (isFlag_of_second hc)
  have hmd : Skips ["-MD".toList, "-MF".toList, depfile] :=
    skips_md.append (skips_value (mem_valueFlags _ (by decide)))
  refine ⟨roots.prefixMapArgs .c ++
    (if compilerId.isClang then [] else ["-fno-working-directory".toList]) ++
    (if ¬ compilerId.isClang ∧ ¬ parsed.producesPch then ["-fpch-preprocess".toList] else []) ++
    (if parsed.producesPch then ["-dD".toList] else []) ++
    (if depfile = [] then [] else ["-MD".toList, "-MF".toList, depfile]) ++
    (if absentListPath = [] then [] else ["-fabsent-deps=".toList ++ absentListPath]) ++
    ["-E".toList], ?_, ?_⟩
  · refine .append (.append (.append (.append (.append (.append (skips_prefixMapArgs roots) ?_) ?_)
      ?_) (.ite .nil hmd)) (skips_absentDeps _)) (hflag 'E' (by decide) _)
    · exact .ite .nil (hflag 'f' (by decide) _)
    · exact .ite (hflag 'f' (by decide) _) .nil
    · exact .ite (hflag 'd' (by decide) _) .nil
  · simp only [buildPreprocessCommand, cons_append, tail_cons, append_assoc, nil_append]

theorem buildCompileCommand_tail {parsed : CompilerArgs} (hdep : Skips parsed.depArgs)
    (roots : RootMap) (output depfile : Str) (addMd : Bool) (absentListPath : Str) :
    ∃ middle, Skips middle ∧
      (buildCompileCommand parsed roots output depfile addMd absentListPath).tail =
        parsed.baseArgs ++ (middle ++ [parsed.source]) := by
  have hflag : ∀ c ∈ "fdcSE".toList, ∀ word, Skips ['-' :: c :: word] :=
    fun c hc word => skips_flag (isFlag_of_second hc)
  refine ⟨(if parsed.xclangEmitPch then ["-Xclang".toList, "-emit-pch".toList] else []) ++
    roots.prefixMapArgs .c ++
    (if depfile = [] then [] else parsed.depArgs ++ if addMd then ["-MD".toList] else []) ++
    (if parsed.compileOnly then ["-c".toList] else []) ++
    (if parsed.assembleOnly then ["-S".toList] else []) ++
    (if depfile = [] then []
      else ["-MF".toList, depfile] ++
        if parsed.depTargetExplicit then [] else ["-MT".toList, parsed.output]) ++
    (if absentListPath = [] then [] else ["-fabsent-deps=".toList ++ absentListPath]) ++
    ["-o".toList, output], ?_, ?_⟩
  · refine .append (.append (.append (.append (.append (.append (.append ?_
      (skips_prefixMapArgs roots)) ?_) ?_) ?_) ?_) (skips_absentDeps _))
      (skips_value (mem_valueFlags _ (by decide)))
    · exact .ite (skips_value (mem_valueFlags _ (by decide))) .nil
    · exact .ite .nil (hdep.append (.ite skips_md .nil))
    · exact .ite (hflag 'c' (by decide) _) .nil
    · exact .ite (hflag 'S' (by decide) _) .nil
    · exact .ite .nil ((skips_value (mem_valueFlags _ (by decide))).append
        (.ite .nil (skips_value (mem_valueFlags _ (by decide)))))
  · simp only [buildCompileCommand, cons_append, tail_cons, append_assoc, nil_append]

end Commands

/-! ## Dependency options for the preprocessor -/

/-- No `-Wp,` dependency option stands right behind a flag that takes a value. -/
def KeepsValues (words : List Str) : Prop :=
  words.IsChain (fun flag word =>
    (flag ∉ valueFlags ∧ flag ≠ "-x".toList) ∨ rewritePreprocessorArg word = [word])

theorem rewritePreprocessorArg_eq {word : Str} (h : startsWith word "-Wp,".toList = false) :
    rewritePreprocessorArg word = [word] := by
  rw [rewritePreprocessorArg, h]
  rfl

theorem skips_rewriteFields (fields : List Str) : Skips (rewriteFields fields).1 := by
  fun_induction rewriteFields fields with
  | case1 => exact .nil
  | case2 field h => exact skips_flag (isFlag_dep (by simp at h ⊢; tauto))
  | case3 field h => exact .nil
  | case4 field value fields h out residual hrec fileFlag ih =>
    rw [hrec] at ih
    by_cases hmd : field ∈ ["-MD", "-MMD"].map String.toList
    · have hfile : fileFlag = ["-MF".toList] := if_pos hmd
      rw [hfile]
      exact (skips_flag (isFlag_dep (by simp at hmd ⊢; tauto))).append
        ((skips_value (mem_valueFlags _ (by decide))).append ih)
    · have hfile : fileFlag = [] := if_neg hmd
      rw [hfile]
      exact (skips_value (mem_valueFlags field (by simp at h hmd ⊢; tauto))).append ih
  | case5 field value fields hother out residual hrec h ih =>
    rw [hrec] at ih
    exact (skips_flag (isFlag_dep (by simp at h ⊢; tauto))).append ih
  | case6 field value fields hother out residual hrec h ih =>
    rw [hrec] at ih
    exact ih

theorem skips_rewritePreprocessorArg {word : Str} (h : startsWith word "-Wp,".toList = true) :
    Skips (rewritePreprocessorArg word) := by
  have hflag : ∀ text, IsFlag ("-Wp,".toList ++ text) := by
    intro text
    exact isFlag_of_startsWith rfl (startsWith_append _ text) (by decide) (by decide) (by decide)
  obtain ⟨text, rfl⟩ := startsWith_iff.mp h
  rw [rewritePreprocessorArg, if_pos h]
  simp only
  split_ifs
  · exact skips_flag (hflag text)
  · exact skips_rewriteFields _
  · exact (skips_rewriteFields _).append (skips_flag (hflag _))

theorem rewrite_cons {word : Str} (h : rewritePreprocessorArg word = [word]) (words : List Str) :
    rewritePreprocessorDepOptions (word :: words) =
      word :: rewritePreprocessorDepOptions words := by
  rw [rewritePreprocessorDepOptions, flatMap_cons, h]
  rfl

theorem readLine_rewritePreprocessorDepOptions (h : KeepsValues words)
    (x : Str) : readLine x (rewritePreprocessorDepOptions words) = readLine x words := by
  have hvalueFlag : ∀ word ∈ valueFlags, rewritePreprocessorArg word = [word] := by
    intro word hword
    refine rewritePreprocessorArg_eq (Bool.not_eq_true _ ▸ fun hwp => ?_)
    exact notMem_valueFlags_of_startsWith hwp (by decide) (by decide) hword
  have hlanguage : rewritePreprocessorArg "-x".toList = ["-x".toList] := by decide
  fun_induction readLine x words with
  | case1 x => rfl
  | case2 x word rest hinput ih =>
    have hword : rewritePreprocessorArg word = [word] := by
      refine rewritePreprocessorArg_eq ?_
      by_contra hwp
      obtain ⟨text, rfl⟩ := startsWith_iff.mp (by simpa using hwp)
      cases hinput
    rw [rewrite_cons hword, readLine_input hinput, ih h.of_cons]
  | case3 x hinput =>
    rw [rewrite_cons hlanguage]
    exact readLine_missing (.inr rfl)
  | case4 x value rest hinput ih =>
    obtain ⟨hpair, hrest⟩ := isChain_cons_cons.mp h
    have hvalue := hpair.resolve_left (fun h => h.2 rfl)
    rw [rewrite_cons hlanguage, rewrite_cons hvalue, readLine_language, ih hrest.of_cons]
  | case5 x word rest hinput hne hjoined ih =>
    have hword : rewritePreprocessorArg word = [word] := by
      refine rewritePreprocessorArg_eq ?_
      obtain ⟨text, rfl⟩ := startsWith_iff.mp hjoined
      rfl
    rw [rewrite_cons hword, readLine_joined hne hjoined, ih h.of_cons]
  | case6 x word hinput hne hjoined hmem =>
    rw [rewrite_cons (hvalueFlag word hmem)]
    exact readLine_missing (.inl hmem)
  | case7 x word hinput hne hjoined hmem value rest ih =>
    obtain ⟨hpair, hrest⟩ := isChain_cons_cons.mp h
    have hvalue := hpair.resolve_left (fun h => h.1 hmem)
    rw [rewrite_cons (hvalueFlag word hmem), rewrite_cons hvalue, readLine_value hmem,
      ih hrest.of_cons]
  | case8 x word rest hinput hne hjoined hmem ih =>
    have hflag : IsFlag word := ⟨by simpa using hinput, by simpa using hjoined, hmem⟩
    cases hwp : startsWith word "-Wp,".toList with
    | true =>
      rw [rewritePreprocessorDepOptions, flatMap_cons, skips_rewritePreprocessorArg hwp]
      exact ih h.of_cons
    | false => rw [rewrite_cons (rewritePreprocessorArg_eq hwp), readLine_flag hflag, ih h.of_cons]

/-! ## The result -/

theorem isInput_of_readLine {x last : Str} {inputs : List (Str × Str)}
    (h : readLine x words = some (inputs, last)) : ∀ input ∈ inputs, isInput input.1 = true := by
  fun_induction readLine x words generalizing inputs with
  | case1 x =>
    cases h
    simp
  | case2 x word rest hinput ih =>
    obtain ⟨⟨inputs', last'⟩, hread, heq⟩ := map_eq_some_iff.mp h
    cases heq
    intro input hmem
    rcases mem_cons.mp hmem with rfl | hmem
    · exact hinput
    · exact ih hread input hmem
  | case3 => cases h
  | case4 x hinput value rest ih | case5 x word rest hinput hne hjoined ih => exact ih h
  | case6 => cases h
  | case7 x word hinput hne hjoined hmem value rest ih
  | case8 x word rest hinput hne hjoined hmem ih => exact ih h

section Result

variable {L : Type*} (rules : LanguageRules L) {parsed : CompilerArgs}

theorem sourceLanguage_of_readLine {path x last : Str}
    (h : readLine noLanguage words = some ([(path, x)], last)) :
    sourceLanguage rules words = some (rules.language x path) := by
  rw [sourceLanguage, h]

theorem readLine_of_sourceLanguage {language : L}
    (h : sourceLanguage rules words = some language) :
    ∃ path x last, readLine noLanguage words = some ([(path, x)], last) ∧
      rules.language x path = language := by
  unfold sourceLanguage at h
  split at h
  · rename_i path x last hread
    exact ⟨path, x, last, hread, some.inj h⟩
  · cases h

/-- The built commands keep the source's language exactly when the `-x` in effect where the
source stands and the last one of the command line give it the same. -/
theorem commandsKeepLanguage_iff (readFile : ReadFile) (rawArgv : List Str)
    (hcacheable : (parse readFile rawArgv).Cacheable) :
    (CommandsKeepLanguage rules (parse readFile rawArgv) ↔
      ∀ path x last, readLine noLanguage (parse readFile rawArgv).argv.tail =
          some ([(path, x)], last) →
        rules.language x path = rules.language last path) ∧
    ∀ compiler words, expandResponseFiles readFile rawArgv = some (compiler :: words) →
      startsWith compiler "-Wp,".toList = false → KeepsValues words →
      readLine noLanguage (parse readFile rawArgv).argv.tail = readLine noLanguage words := by
  obtain ⟨expanded, hexpand, hitems, hpending, hparse⟩ := parse_of_cacheable hcacheable
  have hlists := (finishParse_keeps (parsedItems readFile rawArgv) (recordCompilerItems
    (rewritePreprocessorDepOptions expanded) (parsedItems readFile rawArgv))).1
  have hargv : (parse readFile rawArgv).argv = rewritePreprocessorDepOptions expanded := by
    rw [hparse, hlists.argv]
    rfl
  constructor
  · have hsources : (parsedItems readFile rawArgv).filterMap CompilerItem.source? =
        [(parse readFile rawArgv).source] := by
      rw [hparse]
      exact source_of_finishParse (hparse ▸ hcacheable)
    -- What the built commands are read as, when the command line can be read at all.
    have hbuilt : ∀ path x last, readLine noLanguage (parse readFile rawArgv).argv.tail =
        some ([(path, x)], last) → ∀ roots compilerId depfile absentListPath output addMd,
        sourceLanguage rules (buildPreprocessCommand (parse readFile rawArgv) roots compilerId
          depfile absentListPath).tail = some (rules.language last path) ∧
        sourceLanguage rules (buildCompileCommand (parse readFile rawArgv) roots output depfile
          addMd absentListPath).tail = some (rules.language last path) := by
      intro path x last hread roots compilerId depfile absentListPath output addMd
      rw [hargv] at hread
      have hreread := rereads_compilerItems _ (hitems ▸ hpending) _ _ _ hread
      rw [← hitems] at hreread
      obtain ⟨hpaths, hbase, hdep⟩ := hreread
      have hpath : (parse readFile rawArgv).source = path := by
        rw [hsources] at hpaths
        exact (cons.inj hpaths).1
      have hinput : isInput (parse readFile rawArgv).source = true := by
        rw [hpath]
        exact isInput_of_readLine hread (path, x) mem_cons_self
      have hlastBase : ∀ tail, readLine noLanguage ((parse readFile rawArgv).baseArgs ++ tail) =
          readLine last tail := by
        rw [hparse, hlists.baseArgs]
        exact hbase
      have hskips : Skips (parse readFile rawArgv).depArgs := by
        rw [hparse, hlists.depArgs]
        exact hdep
      obtain ⟨middle, hmiddle, htail⟩ := buildPreprocessCommand_tail (parse readFile rawArgv) roots
        compilerId depfile absentListPath
      obtain ⟨middle', hmiddle', htail'⟩ := buildCompileCommand_tail hskips roots output depfile
        addMd absentListPath
      rw [htail, htail', sourceLanguage_of_readLine rules
        (readLine_source_last hlastBase hinput hmiddle), sourceLanguage_of_readLine rules
        (readLine_source_last hlastBase hinput hmiddle'), hpath]
      exact ⟨rfl, rfl⟩
    constructor
    · intro hkeeps path x last hread
      have hsame := (hkeeps _ (sourceLanguage_of_readLine rules hread) noRoots ⟨[], false⟩ [] [] []
        false).1
      rw [(hbuilt path x last hread noRoots ⟨[], false⟩ [] [] [] false).1] at hsame
      exact (some.inj hsame).symm
    · intro hlast language hlanguage
      obtain ⟨path, x, last, hread, rfl⟩ := readLine_of_sourceLanguage rules hlanguage
      rw [hlast path x last hread]
      exact hbuilt path x last hread
  · intro compiler words hwords hcompiler hkeeps
    cases hexpand.symm.trans hwords
    rw [hargv, rewrite_cons (rewritePreprocessorArg_eq hcompiler), tail_cons]
    exact readLine_rewritePreprocessorDepOptions hkeeps _

end Result

/-! ## A `-x` on either side of the source -/

def spelledLanguage : LanguageRules Str := ⟨id, extension⟩

theorem commandsKeepLanguage_before :
    let parsed := parse (fun _ => none) (wordsOfLine "gcc -c -x c++ a.c -xc -o a.o -x c++")
    CommandsKeepLanguage spelledLanguage parsed := by
  have heval : (parse (fun _ => none)
        (wordsOfLine "gcc -c -x c++ a.c -xc -o a.o -x c++")).Cacheable ∧
      readLine noLanguage (parse (fun _ => none)
        (wordsOfLine "gcc -c -x c++ a.c -xc -o a.o -x c++")).argv.tail =
          some ([("a.c".toList, "c++".toList)], "c++".toList) := by
    decide +kernel
  refine (commandsKeepLanguage_iff spelledLanguage _ _ heval.1).1.mpr ?_
  intro path x last hread
  rw [heval.2] at hread
  simp only [some.injEq, Prod.mk.injEq, cons.injEq, and_true] at hread
  obtain ⟨⟨rfl, rfl⟩, rfl⟩ := hread
  rfl

/-- `gcc -c a.c -x c++` compiles C, and the commands built for it compile C++. -/
theorem not_commandsKeepLanguage_behind :
    let parsed := parse (fun _ => none) (wordsOfLine "gcc -c a.c -x c++")
    parsed.Cacheable ∧ sourceLanguage spelledLanguage parsed.argv.tail = some "c".toList ∧
      sourceLanguage spelledLanguage
          (buildPreprocessCommand parsed noRoots ⟨[], false⟩ [] []).tail = some "c++".toList ∧
      sourceLanguage spelledLanguage
          (buildCompileCommand parsed noRoots "a.o".toList [] false []).tail =
        some "c++".toList := by
  decide +kernel

end Vcache

import Vcache.CommandLine

/-!
# Response files expand to what was put in them

A response file holds arguments the way GNU tools write them: white space, quotes and
backslashes have a backslash before them, and an empty argument is a pair of quotes. Files may
name further files with `@`, to a depth of `kMaxDepth`.
-/

namespace Vcache

open List

/-! ## One file -/

def isQuote (c : Char) : Bool := c = '\'' ∨ c = '"'

def escapeChar (c : Char) : Str := if isSpace c ∨ isQuote c ∨ c = '\\' then ['\\', c] else [c]

/-- An argument as it stands in a response file, with the white space after it. -/
structure WrittenArg where
  arg : Str
  /-- The quotes an empty argument is written with. -/
  quote : Char
  space : Str
  quoted : isQuote quote = true
  blank : space.all isSpace = true

def WrittenArg.word (w : WrittenArg) : Str :=
  if w.arg = [] then [w.quote, w.quote] else w.arg.flatMap escapeChar

namespace Lexer

variable {lx : Lexer} {tokens : List Str} {current : Str}

theorem run_space {c : Char} (hc : isSpace c = true) (hquote : lx.quote = none) (text : Str) :
    run lx (c :: text) = run lx.endToken text := by
  have hplain : ¬ (c = '\'' ∨ c = '"') := by
    rintro (rfl | rfl) <;> exact absurd hc (by decide)
  rw [run, hquote]
  · simp only [if_neg hplain, if_pos hc]
  · rintro c' text' rfl
    exact absurd hc (by decide)

theorem run_spaces {space : Str} (hspace : space.all isSpace = true) (text : Str) :
    run ⟨tokens, [], false, none⟩ (space ++ text) = run ⟨tokens, [], false, none⟩ text := by
  induction space with
  | nil => rfl
  | cons c space ih =>
    obtain ⟨hc, hrest⟩ := Bool.and_eq_true_iff.mp hspace
    rw [cons_append, run_space hc rfl]
    exact ih hrest

theorem run_escapeChar (hquote : lx.quote = none) (c : Char) (text : Str) :
    run lx (escapeChar c ++ text) = run { lx.push c with inToken := true } text := by
  rw [escapeChar]
  split
  next => exact run.eq_2 ..
  next hc =>
    simp only [not_or] at hc
    obtain ⟨hspace, hplain, hslash⟩ := hc
    rw [singleton_append, run, hquote]
    · simp only [if_neg (fun h => hplain (decide_eq_true h)), if_neg hspace]
    · exact fun _ _ h => absurd h hslash

theorem run_escaped (arg text : Str) : run ⟨tokens, current, true, none⟩
    (arg.flatMap escapeChar ++ text) = run ⟨tokens, current ++ arg, true, none⟩ text := by
  induction arg generalizing current with
  | nil => rw [append_nil]; rfl
  | cons c arg ih =>
    rw [flatMap_cons, append_assoc, run_escapeChar rfl]
    exact (@ih (current ++ [c])).trans (by rw [append_assoc]; rfl)

theorem run_word (w : WrittenArg) (text : Str) :
    run ⟨tokens, [], false, none⟩ (w.word ++ text) = run ⟨tokens, w.arg, true, none⟩ text := by
  rw [WrittenArg.word]
  split
  next harg =>
    have hquote : w.quote = '\'' ∨ w.quote = '"' := of_decide_eq_true w.quoted
    rcases hquote with hq | hq <;> rw [hq, harg] <;> rfl
  next harg =>
    obtain ⟨c, arg, harg⟩ := exists_cons_of_ne_nil harg
    rw [harg, flatMap_cons, append_assoc, run_escapeChar rfl]
    exact run_escaped arg text

/-- The lexer after the words of a file, the last of which may have no space after it. -/
theorem run_words {words : List WrittenArg} (hsep : ∀ w ∈ words.dropLast, w.space ≠ []) :
    (run ⟨tokens, [], false, none⟩ (words.flatMap fun w => w.word ++ w.space)).quote = none ∧
      (run ⟨tokens, [], false, none⟩ (words.flatMap fun w => w.word ++ w.space)).endToken.tokens =
        tokens ++ words.map (·.arg) := by
  induction words generalizing tokens with
  | nil => simp [run, endToken]
  | cons w words ih =>
    rw [flatMap_cons, append_assoc, run_word]
    cases hspace : w.space with
    | nil =>
      cases words with
      | nil => simp [run, endToken]
      | cons next words => exact absurd hspace (hsep w mem_cons_self)
    | cons c space =>
      have hblank := w.blank
      rw [hspace] at hblank
      obtain ⟨hc, hrest⟩ := Bool.and_eq_true_iff.mp hblank
      have hwords : ∀ w ∈ words.dropLast, w.space ≠ [] := by
        intro w' hw'
        cases words with
        | nil => cases hw'
        | cons next words => exact hsep w' (mem_cons_of_mem _ hw')
      have hrun := @ih (tokens ++ [w.arg]) hwords
      rw [cons_append, run_space hc rfl, endToken, if_pos rfl, run_spaces hrest]
      exact ⟨hrun.1, hrun.2.trans (by simp)⟩

end Lexer

/-! ## Files in files -/

/-- An argument, or a file of arguments. -/
inductive ResponseTree where
  | leaf (arg : Str)
  | file (path : Str) (args : List ResponseTree)

namespace ResponseTree

def word : ResponseTree → Str
  | leaf arg => arg
  | file path _ => '@' :: path

def leaves : ResponseTree → List Str
  | leaf arg => [arg]
  | file _ args => args.flatMap leaves

/-- The files are there, at most `depth` deep, and no leaf looks like one. -/
inductive Stands (readFile : ReadFile) : ℕ → ResponseTree → Prop
  | leaf {depth : ℕ} {arg : Str} : arg.head? ≠ some '@' → Stands readFile depth (leaf arg)
  | file {depth : ℕ} {path : Str} {args : List ResponseTree} : path ≠ [] →
      (readFile path).bind tokenize = some (args.map word) →
      (∀ t ∈ args, Stands readFile depth t) → Stands readFile (depth + 1) (file path args)

end ResponseTree

variable {readFile : ReadFile} {depth : ℕ}

theorem isResponseArg_file {path : Str} (h : path ≠ []) : isResponseArg ('@' :: path) = true := by
  obtain ⟨c, path, rfl⟩ := exists_cons_of_ne_nil h
  simp [isResponseArg]

theorem isResponseArg_leaf {arg : Str} (h : arg.head? ≠ some '@') : isResponseArg arg = false := by
  simp [isResponseArg, h]

theorem expandArgs_words {trees : List ResponseTree}
    (h : ∀ t ∈ trees, t.Stands readFile depth) :
    expandArgs readFile depth (trees.map ResponseTree.word) =
      some (trees.flatMap ResponseTree.leaves) := by
  induction depth generalizing trees with
  | zero =>
    have hleaf : ∀ t ∈ trees, isResponseArg t.word = false ∧ t.leaves = [t.word] := by
      intro t ht
      cases h t ht with
      | leaf harg => exact ⟨isResponseArg_leaf harg, by rw [ResponseTree.leaves]; rfl⟩
    have hnone : ¬ (trees.map ResponseTree.word).any isResponseArg = true := by
      rw [any_map, any_eq_true]
      rintro ⟨t, ht, hfile⟩
      exact Bool.false_ne_true ((hleaf t ht).1.symm.trans hfile)
    rw [expandArgs, if_neg hnone, flatMap_congr (fun t ht => (hleaf t ht).2)]
    exact congrArg some map_eq_flatMap
  | succ depth ih =>
    rw [expandArgs, mapM_map]
    refine (congrArg _ (mapM_congr (g := fun t => some t.leaves) fun t ht => ?_)).trans
      (congrArg (Option.map flatten) mapM_pure)
    change ite _ _ _ = _
    cases h t ht with
    | leaf harg =>
      rw [ResponseTree.leaves]
      exact if_neg (by rw [ResponseTree.word, isResponseArg_leaf harg]; simp)
    | file hpath hfile hargs =>
      obtain ⟨contents, hread, htokens⟩ := Option.bind_eq_some_iff.mp hfile
      rw [ResponseTree.leaves, ResponseTree.word, if_pos (isResponseArg_file hpath), drop_one,
        tail_cons, hread]
      simp only [htokens, Option.bind_some]
      exact ih hargs

/-- A file that leads to a file of the same kind is never expanded. -/
theorem expandArgs_cyclic {paths : List Str}
    (h : ∀ path ∈ paths, path ≠ [] ∧ ∃ words, (readFile path).bind tokenize = some words ∧
      ∃ next ∈ paths, '@' :: next ∈ words)
    {path : Str} (hpath : path ∈ paths) {args : List Str} (hargs : '@' :: path ∈ args) :
    expandArgs readFile depth args = none := by
  have hresponse : ∀ path ∈ paths, isResponseArg ('@' :: path) = true :=
    fun path hpath => isResponseArg_file (h path hpath).1
  induction depth generalizing path args with
  | zero => exact if_pos (any_eq_true.mpr ⟨_, hargs, hresponse path hpath⟩)
  | succ depth ih =>
    obtain ⟨-, words, hwords, next, hnext, hmem⟩ := h path hpath
    obtain ⟨contents, hread, htokens⟩ := Option.bind_eq_some_iff.mp hwords
    rw [expandArgs, Option.map_eq_none_iff]
    by_contra hsome
    obtain ⟨expanded, hexpanded⟩ := Option.ne_none_iff_exists'.mp hsome
    obtain ⟨y, -, hy⟩ := (mem_of_mapM hexpanded).1 _ hargs
    rw [if_pos (hresponse path hpath), drop_one, tail_cons, hread] at hy
    simp only [htokens, Option.bind_some] at hy
    rw [ih hnext hmem] at hy
    cases hy

/-- What is written to a response file is read back, a tree of files no deeper than the limit
gives its leaves in order, and a chain of files that goes round is refused. -/
theorem responseFiles_exact (readFile : ReadFile) :
    (∀ (lead : Str) (words : List WrittenArg), lead.all isSpace = true →
      (∀ w ∈ words.dropLast, w.space ≠ []) →
        tokenize (lead ++ words.flatMap fun w => w.word ++ w.space) = some (words.map (·.arg))) ∧
    (∀ trees : List ResponseTree, (∀ t ∈ trees, t.Stands readFile 8) →
      expandResponseFiles readFile (trees.map ResponseTree.word) =
        some (trees.flatMap ResponseTree.leaves)) ∧
    (∀ paths : List Str, (∀ path ∈ paths, path ≠ [] ∧ ∃ words,
        (readFile path).bind tokenize = some words ∧ ∃ next ∈ paths, '@' :: next ∈ words) →
      ∀ path ∈ paths, ∀ args, '@' :: path ∈ args → expandResponseFiles readFile args = none) := by
  refine ⟨?_, fun trees h => expandArgs_words h,
    fun paths h path hpath args hargs => expandArgs_cyclic h hpath hargs⟩
  intro lead words hlead hsep
  obtain ⟨hquote, htokens⟩ := @Lexer.run_words [] words hsep
  rw [tokenize, Lexer.run_spaces hlead]
  simp only [hquote, htokens]
  rfl

/-- `a` has an option and names `b`; `c` and `d` name each other. -/
def filesInFiles : ReadFile := fun path =>
  if path = "a".toList then some "-O2 @b".toList
  else if path = "b".toList then some "x.c".toList
  else if path = "c".toList then some "@d".toList
  else if path = "d".toList then some "-g @c".toList
  else none

theorem responseFiles_exact_nested :
    expandResponseFiles filesInFiles ["-c".toList, "@a".toList] =
        some ["-c".toList, "-O2".toList, "x.c".toList] ∧
      expandResponseFiles filesInFiles ["-c".toList, "@c".toList] = none := by
  obtain ⟨-, htrees, hcycle⟩ := responseFiles_exact filesInFiles
  constructor
  · have hb : ResponseTree.Stands filesInFiles 7 (.file "b".toList [.leaf "x.c".toList]) :=
      .file (by decide) (by decide) (by simpa using .leaf (by decide))
    have ha : ResponseTree.Stands filesInFiles 8 (.file "a".toList [.leaf "-O2".toList,
        .file "b".toList [.leaf "x.c".toList]]) :=
      .file (by decide) (by decide) (by simpa using ⟨.leaf (by decide), hb⟩)
    refine (htrees [.leaf "-c".toList, .file "a".toList [.leaf "-O2".toList,
      .file "b".toList [.leaf "x.c".toList]]] ?_).trans (by simp [ResponseTree.leaves])
    simpa using ⟨.leaf (by decide), ha⟩
  · refine hcycle ["c".toList, "d".toList] ?_ "c".toList mem_cons_self _ (by decide)
    simp only [forall_mem_cons]
    exact ⟨⟨by decide, ["@d".toList], by decide, by decide⟩,
      ⟨by decide, ["-g".toList, "@c".toList], by decide, by decide⟩, by simp⟩

end Vcache

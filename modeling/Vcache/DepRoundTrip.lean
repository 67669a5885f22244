import Vcache.DepFile

/-!
# Writing a dependency file and reading it again

`Escape` and the grammar's escapes are written separately. They are inverse on
every character but the colon: the grammar reads `\\:` as one, and `Escape` writes
it bare, where it ends the targets. So what `RenderDepFile` wrote is read back
exactly when no token holds a colon.
-/

namespace Vcache

open List Peg

variable {token : Str} {rule : DepRule} {rules : List DepRule} {dep : DepFile}

/-! ## Tokens -/

def lineBreaks : List Char := ['\n', '\r', '\x0b', '\x0c']

def LineToken (token : Str) : Prop := token ≠ [] ∧ ∀ c ∈ token, c ∉ lineBreaks

def PlainToken (token : Str) : Prop := LineToken token ∧ ':' ∉ token

theorem eq_of_isSpace {c : Char} (h : isSpace c = true) : c = ' ' ∨ c = '\t' ∨ c ∈ lineBreaks := by
  have hcode : c.toNat = 32 ∨ (9 ≤ c.toNat ∧ c.toNat ≤ 13) := by
    rw [isSpace, Bool.or_eq_true, Bool.and_eq_true, beq_iff_eq, decide_eq_true_eq,
      decide_eq_true_eq] at h
    rcases h with rfl | ⟨hlow, hhigh⟩
    · exact .inl rfl
    · exact .inr ⟨hlow, hhigh⟩
  have heq : ∀ d : Char, c.toNat = d.toNat → c = d := fun d hd => Char.toNat_inj.mp hd
  rcases hcode with hcode | ⟨hlow, hhigh⟩
  · exact .inl (heq ' ' hcode)
  · rcases (by omega : c.toNat = 9 ∨ c.toNat = 10 ∨ c.toNat = 11 ∨ c.toNat = 12 ∨ c.toNat = 13)
      with hcode | hcode | hcode | hcode | hcode
    · exact .inr (.inl (heq '\t' hcode))
    · rw [heq '\n' hcode]; decide
    · rw [heq '\x0b' hcode]; decide
    · rw [heq '\x0c' hcode]; decide
    · rw [heq '\r' hcode]; decide

theorem consumes_eol : Consumes eol := by
  intro s a t h
  rw [eol.eq_def] at h
  split at h
  · cases h
    exact Nat.lt_succ_of_lt (Nat.lt_succ_self _)
  · cases h
    exact Nat.lt_succ_self _
  · cases h
    exact Nat.lt_succ_self _
  · cases h

theorem eol_cons {c : Char} (h : c ∉ lineBreaks) (s : Str) : eol (c :: s) = none := by
  rw [eol.eq_def]
  split
  · rename_i heq
    exact absurd ((cons.inj heq).1 ▸ (by decide)) h
  · rename_i heq
    exact absurd ((cons.inj heq).1 ▸ (by decide)) h
  · rename_i heq
    exact absurd ((cons.inj heq).1 ▸ (by decide)) h
  · rfl

theorem consumes_skipper : Consumes skipper :=
  consumes_choice (consumes_value (consumes_satisfy _)) (consumes_value (consumes_seq
    (consumes_satisfy _) (fun s a t h => Nat.le_of_lt (consumes_eol s a t h))))

theorem consumes_pathChar : Consumes pathChar := by
  have hone : ∀ (p : Char → Bool) s a t, satisfy p s = some (a, t) → t.length ≤ s.length :=
    fun p s a t h => Nat.le_of_lt (consumes_satisfy p s a t h)
  exact consumes_choice (consumes_value (consumes_seq (consumes_satisfy _) (hone _)))
    (consumes_choice (consumes_value (consumes_seq (consumes_satisfy _) (hone _)))
      (consumes_satisfy _))

theorem consumes_pathToken : Consumes pathToken :=
  consumes_skipping consumes_skipper (consumes_many1 consumes_pathChar)

theorem consumes_skipping_eol : Consumes (skipping skipper eol) :=
  consumes_skipping consumes_skipper consumes_eol

theorem pathChar_of_plain {c : Char} (hspace : isSpace c = false) (hcolon : c ≠ ':')
    (hslash : c ≠ '\\') (hdollar : c ≠ '$') (rest : Str) :
    pathChar (c :: rest) = some (c, rest) := by
  simp [pathChar, choice, value, seq, lit, satisfy, hspace, hcolon, hslash, hdollar]

theorem isSpace_eq_false {c : Char} (hblank : c ≠ ' ') (htab : c ≠ '\t') (h : c ∉ lineBreaks) :
    isSpace c = false := by
  rw [Bool.eq_false_iff]
  intro hspace
  rcases eq_of_isSpace hspace with hc | hc | hc
  · exact hblank hc
  · exact htab hc
  · exact h hc

theorem pathChar_escapeDepChar {c : Char} (hline : c ∉ lineBreaks) (hcolon : c ≠ ':')
    (rest : Str) : pathChar (escapeDepChar c ++ rest) = some (c, rest) := by
  by_cases hescaped : c = ' ' ∨ c = '\t' ∨ c = '#' ∨ c = '\\'
  · rw [escapeDepChar, if_pos hescaped]
    rcases hescaped with rfl | rfl | rfl | rfl <;> rfl
  · by_cases hdollar : c = '$'
    · subst hdollar
      rfl
    · rw [escapeDepChar, if_neg hescaped, if_neg hdollar]
      simp only [not_or] at hescaped
      obtain ⟨hblank, htab, -, hslash⟩ := hescaped
      exact pathChar_of_plain (isSpace_eq_false hblank htab hline) hcolon hslash hdollar rest

theorem skipper_escapeDepPath (h : LineToken token) (rest : Str) :
    skipper (escapeDepPath token ++ rest) = none := by
  obtain ⟨c, token, rfl⟩ := exists_cons_of_ne_nil h.1
  rw [escapeDepPath, flatMap_cons, append_assoc]
  by_cases hescaped : c = ' ' ∨ c = '\t' ∨ c = '#' ∨ c = '\\'
  · rw [escapeDepChar, if_pos hescaped]
    rcases hescaped with rfl | rfl | rfl | rfl <;> rfl
  · by_cases hdollar : c = '$'
    · subst hdollar
      rfl
    · rw [escapeDepChar, if_neg hescaped, if_neg hdollar]
      simp only [not_or] at hescaped
      obtain ⟨hblank, htab, -, hslash⟩ := hescaped
      simp [skipper, choice, value, seq, lit, satisfy, isBlank, hblank, htab, hslash]

theorem skip_of_none {s : Str} (h : skipper s = none) : skip skipper s = s := by
  rw [skip, star_of_none h]

theorem skip_blank (s : Str) : skip skipper (' ' :: s) = skip skipper s := by
  rw [skip, star_of_some consumes_skipper (show skipper (' ' :: s) = some ((), s) from rfl)]
  rfl

theorem pathToken_blank (s : Str) : pathToken (' ' :: s) = pathToken s := by
  rw [pathToken, skipping, skipping, skip_blank]

theorem pathToken_of_none {s : Str} (hskip : skipper s = none) (hchar : pathChar s = none) :
    pathToken s = none := by
  rw [pathToken, skipping, skip_of_none hskip]
  exact many1_of_none hchar

theorem pathToken_escapeDepPath (h : PlainToken token) {rest : Str} (hrest : pathChar rest = none) :
    pathToken (escapeDepPath token ++ rest) = some (token, rest) := by
  rw [pathToken, skipping, skip_of_none (skipper_escapeDepPath h.1 rest)]
  obtain ⟨⟨hne, hline⟩, hcolon⟩ := h
  obtain ⟨c, token, rfl⟩ := exists_cons_of_ne_nil hne
  have hread : ∀ d ∈ c :: token, ∀ s, pathChar (escapeDepChar d ++ s) = some (d, s) :=
    fun d hd s => pathChar_escapeDepChar (hline d hd) (fun heq => hcolon (heq ▸ hd)) s
  have hstar : star pathChar (token.flatMap escapeDepChar ++ rest) = (token, rest) :=
    star_flatMap consumes_pathChar (fun _ => True)
      (fun d hd s _ => hread d (mem_cons_of_mem _ hd) s) (fun _ _ _ => trivial) trivial hrest
  rw [escapeDepPath, flatMap_cons, append_assoc, many1_of_some (hread c mem_cons_self _), hstar]

theorem star_pathToken {tokens : List Str} (h : ∀ t ∈ tokens, PlainToken t) (stop : Str)
    (hskip : skipper stop = none) (hchar : pathChar stop = none) :
    star pathToken (tokens.flatMap (fun t => ' ' :: escapeDepPath t) ++ stop) = (tokens, stop) := by
  refine star_flatMap consumes_pathToken (fun s => pathChar s = none) ?_ ?_ hchar
    (pathToken_of_none hskip hchar)
  · intro t ht rest hrest
    rw [cons_append, pathToken_blank]
    exact pathToken_escapeDepPath (h t ht) hrest
  · exact fun t _ rest => rfl

/-! ## Rules -/

def LineRule (rule : DepRule) : Prop :=
  rule.targets ≠ [] ∧ (∀ t ∈ rule.targets, LineToken t) ∧ ∀ p ∈ rule.prerequisites, LineToken p

def PlainRule (rule : DepRule) : Prop :=
  rule.targets ≠ [] ∧ (∀ t ∈ rule.targets, PlainToken t) ∧ ∀ p ∈ rule.prerequisites, PlainToken p

def ruleLine (rule : DepRule) : Str :=
  match rule.targets with
  | [] => []
  | target :: targets =>
    escapeDepPath target ++ targets.flatMap (fun t => ' ' :: escapeDepPath t) ++
      ':' :: rule.prerequisites.flatMap (fun p => ' ' :: escapeDepPath p)

theorem renderDepRule_eq (h : rule.targets ≠ []) :
    renderDepRule rule = ruleLine rule ++ ['\n'] := by
  obtain ⟨target, targets, htargets⟩ := exists_cons_of_ne_nil h
  simp [renderDepRule, ruleLine, htargets]

theorem depRule_ruleLine (h : PlainRule rule) (rest : Str) :
    depRule (ruleLine rule ++ '\n' :: rest) = some (rule, '\n' :: rest) := by
  obtain ⟨targets, prerequisites⟩ := rule
  obtain ⟨hne, htargets, hprerequisites⟩ := h
  obtain ⟨target, targets, rfl⟩ := exists_cons_of_ne_nil hne
  have hafter : ∀ s, pathChar (targets.flatMap (fun t => ' ' :: escapeDepPath t) ++ ':' :: s) =
      none := by
    intro s
    cases targets <;> rfl
  have htail := star_pathToken (fun t ht => htargets t (mem_cons_of_mem _ ht))
    (':' :: (prerequisites.flatMap (fun p => ' ' :: escapeDepPath p) ++ '\n' :: rest)) rfl rfl
  have hcolon : skipping skipper (lit ':')
      (':' :: (prerequisites.flatMap (fun p => ' ' :: escapeDepPath p) ++ '\n' :: rest)) =
      some (':', prerequisites.flatMap (fun p => ' ' :: escapeDepPath p) ++ '\n' :: rest) := by
    rw [skipping, skip_of_none rfl]
    rfl
  have hprereqs := star_pathToken hprerequisites ('\n' :: rest) rfl rfl
  have hfirst := pathToken_escapeDepPath (htargets target mem_cons_self) (hafter
    (prerequisites.flatMap (fun p => ' ' :: escapeDepPath p) ++ '\n' :: rest))
  have hruleTargets := many1_of_some hfirst
  rw [htail] at hruleTargets
  have hseq := seq_of_some hruleTargets (seq_of_some hcolon
    (show rulePrereqs _ = some _ from congrArg some hprereqs))
  simp only [ruleLine, append_assoc, cons_append]
  exact value_of_some hseq

theorem skipping_eol_ruleLine (h : LineRule rule) (rest : Str) :
    skipping skipper eol (ruleLine rule ++ rest) = none := by
  obtain ⟨targets, prerequisites⟩ := rule
  obtain ⟨hne, htargets, -⟩ := h
  obtain ⟨target, targets, rfl⟩ := exists_cons_of_ne_nil hne
  have htarget := htargets target mem_cons_self
  simp only [ruleLine, append_assoc]
  rw [skipping, skip_of_none (skipper_escapeDepPath htarget _)]
  obtain ⟨c, token, rfl⟩ := exists_cons_of_ne_nil htarget.1
  have hbreak := htarget.2 c mem_cons_self
  rw [escapeDepPath, flatMap_cons, append_assoc]
  by_cases hescaped : c = ' ' ∨ c = '\t' ∨ c = '#' ∨ c = '\\'
  · rw [escapeDepChar, if_pos hescaped]
    rfl
  · by_cases hdollar : c = '$'
    · subst hdollar
      rfl
    · rw [escapeDepChar, if_neg hescaped, if_neg hdollar]
      exact eol_cons hbreak _

theorem PlainRule.line (h : PlainRule rule) : LineRule rule :=
  ⟨h.1, fun t ht => (h.2.1 t ht).1, fun p hp => (h.2.2 p hp).1⟩

theorem consumes_depRule : Consumes depRule := by
  refine consumes_value (consumes_seq (consumes_many1 consumes_pathToken) ?_)
  intro s r t h
  obtain ⟨a, u, b, v, hcolon, hprereqs, heq⟩ := seq_eq_some h
  cases heq
  obtain ⟨-, rfl⟩ := Prod.mk.inj (Option.some.inj hprereqs)
  have hlt := consumes_skipping consumes_skipper (consumes_satisfy _) s a u hcolon
  exact (star_length_le consumes_pathToken u).trans hlt.le

theorem flatMap_renderDepRule (h : ∀ r ∈ rule :: rules, r.targets ≠ []) :
    (rule :: rules).flatMap renderDepRule =
      ruleLine rule ++ (rules.flatMap (fun r => '\n' :: ruleLine r) ++ ['\n']) := by
  induction rules generalizing rule with
  | nil => simp [renderDepRule_eq (h rule mem_cons_self)]
  | cons next rules ih =>
    rw [flatMap_cons, renderDepRule_eq (h rule mem_cons_self),
      ih (fun r hr => h r (mem_cons_of_mem _ hr))]
    simp

/-- The rules after the first, each behind the line end that separates it from the one before. -/
theorem star_nextRule (h : ∀ rule ∈ rules, PlainRule rule) {tail : Str}
    (htail : tail = [] ∨ tail = ['\n']) :
    star (value Prod.snd (seq (many1 (skipping skipper eol)) depRule))
      (rules.flatMap (fun r => '\n' :: ruleLine r) ++ '\n' :: tail) = (rules, '\n' :: tail) := by
  refine star_flatMap (consumes_value (consumes_seq (consumes_many1 consumes_skipping_eol) ?_))
    (fun s => ∃ t, s = '\n' :: t) ?_ (fun r _ rest => ⟨_, rfl⟩) ⟨tail, rfl⟩ ?_
  · exact fun s r t hr => (consumes_depRule s r t hr).le
  · rintro rule hrule _ ⟨rest, rfl⟩
    have heol : skipping skipper eol ('\n' :: (ruleLine rule ++ '\n' :: rest)) =
        some ((), ruleLine rule ++ '\n' :: rest) := rfl
    have heols := many1_of_some heol
    rw [star_of_none (skipping_eol_ruleLine (h rule hrule).line _)] at heols
    exact value_of_some (seq_of_some heols (depRule_ruleLine (h rule hrule) rest))
  · rcases htail with rfl | rfl <;> rfl

theorem parseDepRules_render (h : ∀ rule ∈ rules, PlainRule rule)
    {tail : Str} (htail : tail = [] ∨ tail = ['\n']) :
    parseDepRules (rules.flatMap renderDepRule ++ tail) = some rules := by
  cases rules with
  | nil => rcases htail with rfl | rfl <;> rfl
  | cons rule rules =>
    have hrule := h rule mem_cons_self
    have hrest : ∀ r ∈ rules, PlainRule r := fun r hr => h r (mem_cons_of_mem _ hr)
    have hnext : ∃ t, rules.flatMap (fun r => '\n' :: ruleLine r) ++ '\n' :: tail = '\n' :: t := by
      cases rules with
      | nil => exact ⟨tail, rfl⟩
      | cons r rules => exact ⟨_, rfl⟩
    obtain ⟨t, ht⟩ := hnext
    have hfirst : depRule (ruleLine rule ++
        (rules.flatMap (fun r => '\n' :: ruleLine r) ++ '\n' :: tail)) =
        some (rule, rules.flatMap (fun r => '\n' :: ruleLine r) ++ '\n' :: tail) := by
      rw [ht]
      exact depRule_ruleLine hrule t
    have hsep : sepBy1 depRule (many1 (skipping skipper eol)) (ruleLine rule ++
        (rules.flatMap (fun r => '\n' :: ruleLine r) ++ '\n' :: tail)) =
        some (rule :: rules, '\n' :: tail) := by
      have hseq := seq_of_some hfirst (show many _ _ = some _ from
        congrArg some (star_nextRule hrest htail))
      exact value_of_some hseq
    have hfile : depFile (ruleLine rule ++
        (rules.flatMap (fun r => '\n' :: ruleLine r) ++ '\n' :: tail)) =
        some (rule :: rules, []) := by
      have hend : star (skipping skipper eol) ('\n' :: tail) =
          (() :: tail.map (fun _ => ()), []) := by
        rcases htail with rfl | rfl <;> rfl
      have hopt : optional (sepBy1 depRule (many1 (skipping skipper eol))) (ruleLine rule ++
          (rules.flatMap (fun r => '\n' :: ruleLine r) ++ '\n' :: tail)) =
          some (some (rule :: rules), '\n' :: tail) := by
        rw [Peg.optional, hsep]
      have hstart : many (skipping skipper eol) (ruleLine rule ++
          (rules.flatMap (fun r => '\n' :: ruleLine r) ++ '\n' :: tail)) =
          some ([], ruleLine rule ++
            (rules.flatMap (fun r => '\n' :: ruleLine r) ++ '\n' :: tail)) :=
        congrArg some (star_of_none (skipping_eol_ruleLine hrule.line _))
      exact value_of_some (seq_of_some hstart (seq_of_some hopt
        (show many _ _ = some _ from congrArg some hend)))
    have htext : (rule :: rules).flatMap renderDepRule ++ tail = ruleLine rule ++
        (rules.flatMap (fun r => '\n' :: ruleLine r) ++ '\n' :: tail) := by
      rw [flatMap_renderDepRule (fun r hr => (h r hr).1)]
      simp
    rw [htext, parseDepRules, hfile]
    rfl

/-! ## Environment lines -/

/-- A variable rustc can have written: no `=` or line end in the name, no line end in the value. -/
def LineEnv (env : DepEnv) : Prop :=
  '=' ∉ env.name ∧ '\n' ∉ env.name ∧ ∀ value ∈ env.value, '\n' ∉ value

theorem extractEnvDeps_line {line : Str} (h : '\n' ∉ line) (text : Str) :
    extractEnvDeps (line ++ '\n' :: text) = match envDepOf line with
      | some env => ((extractEnvDeps text).1, env :: (extractEnvDeps text).2)
      | none => (line ++ '\n' :: (extractEnvDeps text).1, (extractEnvDeps text).2) := by
  obtain ⟨field, fields, hsplit⟩ := exists_cons_of_ne_nil (split_ne_nil '\n' text)
  rw [extractEnvDeps, split_append, split_of_notMem h, extractEnvDeps, hsplit]
  rfl

theorem lineBreak_notMem_escapeDepPath {b : Char} (hb : b ∈ lineBreaks)
    (h : LineToken token) : b ∉ escapeDepPath token := by
  have hne : ∀ d, d ∉ lineBreaks → b ≠ d := fun d hd heq => hd (heq ▸ hb)
  intro hmem
  obtain ⟨c, hc, hmem⟩ := mem_flatMap.mp hmem
  have hbreak := hne c (h.2 c hc)
  rw [escapeDepChar] at hmem
  split at hmem
  · rcases mem_cons.mp hmem with hslash | hmem
    · exact hne '\\' (by decide) hslash
    · exact hbreak (mem_singleton.mp hmem)
  · split at hmem
    · rcases mem_cons.mp hmem with hdollar | hmem
      · exact hne '$' (by decide) hdollar
      · exact hne '$' (by decide) (mem_singleton.mp hmem)
    · exact hbreak (mem_singleton.mp hmem)

theorem lineBreak_notMem_tokens {b : Char} (hb : b ∈ lineBreaks) {tokens : List Str}
    (h : ∀ t ∈ tokens, LineToken t) : b ∉ tokens.flatMap (fun t => ' ' :: escapeDepPath t) := by
  intro hmem
  obtain ⟨t, ht, hmem⟩ := mem_flatMap.mp hmem
  rcases mem_cons.mp hmem with rfl | hmem
  · exact absurd hb (by decide)
  · exact lineBreak_notMem_escapeDepPath hb (h t ht) hmem

theorem lineBreak_notMem_ruleLine {b : Char} (hb : b ∈ lineBreaks)
    (h : LineRule rule) : b ∉ ruleLine rule := by
  obtain ⟨targets, prerequisites⟩ := rule
  obtain ⟨hne, htargets, hprerequisites⟩ := h
  obtain ⟨target, targets, rfl⟩ := exists_cons_of_ne_nil hne
  have htarget := lineBreak_notMem_escapeDepPath hb (htargets target mem_cons_self)
  have hrest := lineBreak_notMem_tokens hb (fun t ht => htargets t (mem_cons_of_mem _ ht))
  have hprereqs := lineBreak_notMem_tokens hb hprerequisites
  have hcolon : b ≠ ':' := by
    rintro rfl
    exact absurd hb (by decide)
  simp only [ruleLine, mem_append, mem_cons, not_or]
  exact ⟨⟨htarget, hrest⟩, hcolon, hprereqs⟩

/-- A token that starts with `#` is escaped, so no rule is taken for one of rustc's lines. -/
theorem envDepOf_ruleLine (h : LineRule rule) :
    envDepOf (ruleLine rule) = none := by
  obtain ⟨targets, prerequisites⟩ := rule
  obtain ⟨hne, htargets, -⟩ := h
  obtain ⟨target, targets, rfl⟩ := exists_cons_of_ne_nil hne
  obtain ⟨c, token, rfl⟩ := exists_cons_of_ne_nil (htargets target mem_cons_self).1
  have hhead : (ruleLine ⟨(c :: token) :: targets, prerequisites⟩).head? =
      (escapeDepChar c).head? := by
    simp only [ruleLine, escapeDepPath, flatMap_cons, escapeDepChar]
    split
    · rfl
    · split <;> rfl
  have hsharp : (escapeDepChar c).head? ≠ some '#' := by
    rw [escapeDepChar]
    split
    · simp
    · split
      · simp
      · rename_i hescaped _
        exact fun hc => hescaped (.inr (.inr (.inl (Option.some.inj hc))))
  rw [envDepOf, if_neg]
  intro hstarts
  obtain ⟨t, ht⟩ := startsWith_iff.mp hstarts
  rw [← hhead, ht] at hsharp
  exact hsharp rfl

theorem extractEnvDeps_rules (h : ∀ rule ∈ rules, LineRule rule) (text : Str) :
    extractEnvDeps (rules.flatMap renderDepRule ++ text) =
      (rules.flatMap renderDepRule ++ (extractEnvDeps text).1, (extractEnvDeps text).2) := by
  induction rules with
  | nil => rfl
  | cons rule rules ih =>
    have hrule := h rule mem_cons_self
    rw [flatMap_cons, renderDepRule_eq hrule.1, append_assoc, append_assoc,
      singleton_append, extractEnvDeps_line (lineBreak_notMem_ruleLine (by decide) hrule),
      envDepOf_ruleLine hrule, ih (fun r hr => h r (mem_cons_of_mem _ hr))]
    simp

theorem envDepOf_unset {name : Str} (h : '=' ∉ name) :
    envDepOf (kEnvDepPrefix ++ name) = some ⟨name, none⟩ := by
  rw [envDepOf, if_pos (startsWith_append _ _)]
  simp only [drop_left, findChar_of_notMem h]

theorem envDepOf_set {name : Str} (h : '=' ∉ name) (value : Str) :
    envDepOf (kEnvDepPrefix ++ (name ++ '=' :: value)) = some ⟨name, some value⟩ := by
  rw [envDepOf, if_pos (startsWith_append _ _)]
  simp only [drop_left, findChar_append h]
  simp

theorem exists_line_renderDepEnv {env : DepEnv} (h : LineEnv env) :
    ∃ line, renderDepEnv env = line ++ ['\n'] ∧ '\n' ∉ line ∧ envDepOf line = some env := by
  obtain ⟨name, value⟩ := env
  obtain ⟨hname, hline, hvalue⟩ := h
  have hlead : '\n' ∉ kEnvDepPrefix := by decide
  cases value with
  | none =>
    refine ⟨kEnvDepPrefix ++ name, by simp [renderDepEnv], ?_, envDepOf_unset hname⟩
    exact fun hmem => (mem_append.mp hmem).elim hlead hline
  | some value =>
    refine ⟨kEnvDepPrefix ++ (name ++ '=' :: value), by simp [renderDepEnv], ?_,
      envDepOf_set hname value⟩
    simp only [mem_append, mem_cons, not_or]
    exact ⟨hlead, hline, by decide, hvalue value rfl⟩

theorem extractEnvDeps_envs {envs : List DepEnv} (h : ∀ env ∈ envs, LineEnv env) :
    extractEnvDeps (envs.flatMap renderDepEnv) = ([], envs) := by
  induction envs with
  | nil => rfl
  | cons env envs ih =>
    obtain ⟨line, hrender, hnewline, hread⟩ := exists_line_renderDepEnv (h env mem_cons_self)
    rw [flatMap_cons, hrender, append_assoc, singleton_append,
      extractEnvDeps_line hnewline, hread, ih (fun e he => h e (mem_cons_of_mem _ he))]

/-- What the grammar is given for a rendered file, and the variables taken out before. -/
theorem extractEnvDeps_renderDepFile (hrules : ∀ rule ∈ dep.rules, LineRule rule)
    (henvs : ∀ env ∈ dep.envDeps, LineEnv env) :
    extractEnvDeps (renderDepFile dep) = (dep.rules.flatMap renderDepRule ++
      (if dep.envDeps = [] then [] else ['\n']), dep.envDeps) := by
  rw [renderDepFile, append_assoc, extractEnvDeps_rules hrules]
  by_cases hnone : dep.envDeps = []
  · simp only [hnone, if_true]
    rfl
  · simp only [if_neg hnone]
    rw [show ['\n'] ++ dep.envDeps.flatMap renderDepEnv = [] ++ '\n' ::
      dep.envDeps.flatMap renderDepEnv from rfl, extractEnvDeps_line not_mem_nil,
      extractEnvDeps_envs henvs]
    rfl

theorem parseDepFile_render_eq (hrules : ∀ rule ∈ dep.rules, LineRule rule)
    (henvs : ∀ env ∈ dep.envDeps, LineEnv env) :
    parseDepFile (renderDepFile dep) = (parseDepRules (dep.rules.flatMap renderDepRule ++
      (if dep.envDeps = [] then [] else ['\n']))).map (fun rules => ⟨rules, dep.envDeps⟩) := by
  rw [parseDepFile, extractEnvDeps_renderDepFile hrules henvs]
  by_cases hnone : dep.envDeps = []
  · simp only [hnone, if_true, renderDepFile, flatMap_nil, append_nil]
  · simp only [if_neg hnone]

theorem parseDepFile_renderDepFile (hrules : ∀ rule ∈ dep.rules, PlainRule rule)
    (henvs : ∀ env ∈ dep.envDeps, LineEnv env) :
    parseDepFile (renderDepFile dep) = some dep := by
  rw [parseDepFile_render_eq (fun r hr => (hrules r hr).line) henvs, parseDepRules_render hrules]
  · rfl
  · split
    · exact .inl rfl
    · exact .inr rfl

/-! ## Colons -/

/-- Every backslash stands before a character `Escape` puts one in front of. -/
inductive Escaped : Str → Prop
  | nil : Escaped []
  | char {c : Char} {s : Str} : c ≠ '\\' → Escaped s → Escaped (c :: s)
  | pair {c : Char} {s : Str} : c ∈ [' ', '\t', '#', '\\'] → Escaped s → Escaped ('\\' :: c :: s)

theorem Escaped.append {s t : Str} (hs : Escaped s) (ht : Escaped t) : Escaped (s ++ t) := by
  induction hs with
  | nil => exact ht
  | char hc _ ih => exact .char hc ih
  | pair hc _ ih => exact .pair hc ih

theorem escaped_flatMap {α : Type*} {write : α → Str} {as : List α}
    (h : ∀ a ∈ as, Escaped (write a)) : Escaped (as.flatMap write) := by
  induction as with
  | nil => exact .nil
  | cons a as ih =>
    rw [flatMap_cons]
    exact (h a mem_cons_self).append (ih (fun b hb => h b (mem_cons_of_mem _ hb)))

theorem escaped_escapeDepPath (token : Str) : Escaped (escapeDepPath token) := by
  refine escaped_flatMap (fun c _ => ?_)
  rw [escapeDepChar]
  split
  · rename_i hescaped
    exact .pair (by simpa using hescaped) .nil
  · split
    · exact .char (by decide) (.char (by decide) .nil)
    · rename_i hescaped _
      exact .char (fun hc => hescaped (.inr (.inr (.inr hc)))) .nil

theorem escaped_renderDepRule (rule : DepRule) : Escaped (renderDepRule rule) := by
  have htokens : ∀ tokens : List Str,
      Escaped (tokens.flatMap (fun t => ' ' :: escapeDepPath t)) := fun tokens =>
    escaped_flatMap (fun t _ => .char (by decide) (escaped_escapeDepPath t))
  rw [renderDepRule]
  split
  · exact .nil
  · rename_i target targets _
    have hend : Escaped (':' :: rule.prerequisites.flatMap (fun p => ' ' :: escapeDepPath p)) :=
      .char (by decide) (htokens _)
    have hnewline : Escaped ['\n'] := .char (by decide) .nil
    exact (((escaped_escapeDepPath target).append (htokens targets)).append hend).append hnewline

theorem Escaped.tail {c : Char} {s : Str} (h : Escaped (c :: s)) (hc : c ≠ '\\') : Escaped s := by
  cases h with
  | char _ hs => exact hs
  | pair _ _ => exact absurd rfl hc

/-- No line has a second colon; `seen` says whether this one had its first. -/
def oneColonALine (seen : Bool) : Str → Bool
  | [] => true
  | c :: s =>
    if c = '\n' ∨ c = '\r' then oneColonALine false s
    else if c = ':' then !seen && oneColonALine true s
    else oneColonALine seen s

/-- The rest of a written text, with a second colon still to come on some line. -/
def SecondColon (seen : Bool) (s : Str) : Prop := Escaped s ∧ oneColonALine seen s = false

section SecondColon

variable {seen : Bool} {c : Char} {s : Str}

theorem SecondColon.tail (h : SecondColon seen (c :: s)) (hslash : c ≠ '\\')
    (hline : ¬ (c = '\n' ∨ c = '\r')) (hcolon : c ≠ ':') : SecondColon seen s := by
  obtain ⟨hs, hbad⟩ := h
  rw [oneColonALine, if_neg hline, if_neg hcolon] at hbad
  exact ⟨hs.tail hslash, hbad⟩

theorem SecondColon.lineEnd (h : SecondColon seen (c :: s)) (hline : c = '\n' ∨ c = '\r') :
    SecondColon false s := by
  obtain ⟨hs, hbad⟩ := h
  rw [oneColonALine, if_pos hline] at hbad
  refine ⟨hs.tail ?_, hbad⟩
  rcases hline with rfl | rfl <;> decide

theorem SecondColon.colon (h : SecondColon false (':' :: s)) : SecondColon true s :=
  ⟨h.1.tail (by decide), h.2⟩

/-- Behind a backslash stands an escaped character, which ends neither line nor targets. -/
theorem SecondColon.pair (h : SecondColon seen ('\\' :: s)) :
    ∃ c t, s = c :: t ∧ c ∈ [' ', '\t', '#', '\\'] ∧ SecondColon seen t := by
  obtain ⟨hs, hbad⟩ := h
  cases hs with
  | char hc _ => exact absurd rfl hc
  | @pair c t hc ht =>
    have hne : ∀ d, d ∉ [' ', '\t', '#', '\\'] → c ≠ d := fun d hd heq => hd (heq ▸ hc)
    have hline : ¬ (c = '\n' ∨ c = '\r') :=
      fun h => h.elim (hne '\n' (by decide)) (hne '\r' (by decide))
    rw [oneColonALine, if_neg (by decide), if_neg (by decide), oneColonALine, if_neg hline,
      if_neg (hne ':' (by decide))] at hbad
    exact ⟨c, t, rfl, hc, ht, hbad⟩

theorem keeps_satisfy {p : Char → Bool} (h : ∀ d ∈ ['\\', '\n', '\r', ':'], p d = false) :
    Keeps (SecondColon seen) (fun _ => True) (satisfy p) := by
  intro s c t hs hc
  obtain ⟨rfl, hp⟩ := satisfy_eq_some hc
  have hne : ∀ d ∈ ['\\', '\n', '\r', ':'], c ≠ d := fun d hd heq => by
    rw [heq, h d hd] at hp
    cases hp
  exact ⟨hs.tail (hne _ (by decide)) (fun h => h.elim (hne _ (by decide)) (hne _ (by decide)))
    (hne _ (by decide)), trivial⟩

theorem triple_eol : Triple (SecondColon seen) (SecondColon false) (fun _ => True) eol := by
  intro s a t hs h
  rw [eol.eq_def] at h
  split at h
  · cases h
    exact ⟨(hs.lineEnd (.inr rfl)).lineEnd (.inl rfl), trivial⟩
  · cases h
    exact ⟨hs.lineEnd (.inr rfl), trivial⟩
  · cases h
    exact ⟨hs.lineEnd (.inl rfl), trivial⟩
  · cases h

theorem seq_backslash {α : Type*} {q : Parser Char α} {t : Str} {r : Char × α}
    (hs : SecondColon seen s) (h : seq (lit '\\') q s = some (r, t)) :
    ∃ c u, c ∈ [' ', '\t', '#', '\\'] ∧ SecondColon seen u ∧ q (c :: u) = some (r.2, t) := by
  obtain ⟨a, u, b, v, ha, hb, heq⟩ := seq_eq_some h
  cases heq
  obtain ⟨rfl, hslash⟩ := satisfy_eq_some ha
  obtain rfl := of_decide_eq_true hslash
  obtain ⟨c, w, rfl, hc, hw⟩ := hs.pair
  exact ⟨c, w, hc, hw, hb⟩

theorem keeps_skipper : Keeps (SecondColon seen) (fun _ => True) skipper := by
  refine Triple.choice ((keeps_satisfy (by simp [isBlank])).value (fun _ _ => trivial)) ?_
  intro s a t hs h
  obtain ⟨r, hr, -⟩ := value_eq_some h
  obtain ⟨c, u, hc, -, heol⟩ := seq_backslash hs hr
  have hbreak : c ∉ lineBreaks := by
    intro hb
    rcases mem_cons.mp hc with rfl | hc
    · exact absurd hb (by decide)
    rcases mem_cons.mp hc with rfl | hc
    · exact absurd hb (by decide)
    rcases mem_cons.mp hc with rfl | hc
    · exact absurd hb (by decide)
    · rw [mem_singleton.mp hc] at hb
      exact absurd hb (by decide)
  rw [eol_cons hbreak] at heol
  cases heol

theorem keeps_pathChar : Keeps (SecondColon seen) (fun _ => True) pathChar := by
  refine Triple.choice ?_ (Triple.choice ?_ (keeps_satisfy (by simp [isSpace])))
  · intro s a t hs h
    obtain ⟨r, hr, -⟩ := value_eq_some h
    obtain ⟨c, u, -, hu, hchar⟩ := seq_backslash hs hr
    obtain ⟨heq, -⟩ := satisfy_eq_some hchar
    exact ⟨(cons.inj heq).2 ▸ hu, trivial⟩
  · exact (Triple.seq (keeps_satisfy (by simp)) (keeps_satisfy (by simp))).value
      (fun _ _ => trivial)

theorem keeps_pathToken : Keeps (SecondColon seen) (fun _ => True) pathToken :=
  (Triple.skipping keeps_skipper (keeps_pathChar.many1 keeps_pathChar)).imp (fun _ _ => trivial)

theorem triple_depRule :
    Triple (SecondColon false) (SecondColon true) (fun _ => True) depRule := by
  have hcolon : Triple (SecondColon false) (SecondColon true) (fun _ => True) (lit ':') := by
    intro s c t hs h
    obtain ⟨rfl, hc⟩ := satisfy_eq_some h
    obtain rfl := of_decide_eq_true hc
    exact ⟨hs.colon, trivial⟩
  exact ((keeps_pathToken.many1 keeps_pathToken).seq ((Triple.skipping keeps_skipper hcolon).seq
    (Keeps.many keeps_pathToken))).value (fun _ _ => trivial)

theorem triple_depFile :
    Triple (SecondColon false) (fun s => SecondColon false s ∨ SecondColon true s)
      (fun _ => True) depFile := by
  have heol : ∀ seen, Triple (SecondColon seen) (SecondColon false) (fun _ => True)
      (skipping skipper eol) := fun _ => Triple.skipping keeps_skipper triple_eol
  have hsep := (heol true).many1 (heol false)
  have hend : Keeps (fun s => SecondColon false s ∨ SecondColon true s) (fun _ => True)
      (skipping skipper eol) := by
    intro s a t hs h
    rcases hs with hs | hs
    · exact ⟨.inl ((heol false) s a t hs h).1, trivial⟩
    · exact ⟨.inl ((heol true) s a t hs h).1, trivial⟩
  exact ((Keeps.many (heol false)).seq ((Triple.optional (triple_depRule.sepBy1 hsep)).seq
    (Keeps.many hend))).value (fun _ _ => trivial)

/-- The grammar does not read a text with two colons on one line. -/
theorem parseDepRules_of_secondColon (h : SecondColon false s) : parseDepRules s = none := by
  rw [parseDepRules]
  split
  · rfl
  · rename_i rules rest hread
    rw [if_neg]
    intro hskip
    have hrest : ∀ seen, ¬ SecondColon seen rest := by
      intro seen hbad
      have hend := (keeps_skipper.upTo rest.length hbad).1
      rw [show (upTo skipper rest.length rest).2 = [] from hskip] at hend
      cases hend.2
    rcases (triple_depFile s rules rest h hread).1 with hbad | hbad
    · exact hrest false hbad
    · exact hrest true hbad

end SecondColon

theorem oneColonALine_line {line : Str} (h : ∀ b ∈ ['\n', '\r'], b ∉ line) (seen : Bool)
    (rest : Str) :
    oneColonALine seen (line ++ '\n' :: rest) =
      (decide (line.count ':' + seen.toNat ≤ 1) && oneColonALine false rest) := by
  induction line generalizing seen with
  | nil => cases seen <;> simp [oneColonALine]
  | cons c line ih =>
    have hline : ¬ (c = '\n' ∨ c = '\r') := by
      rintro (rfl | rfl)
      · exact h _ (by decide) mem_cons_self
      · exact h _ (by decide) mem_cons_self
    have hrest : ∀ b ∈ ['\n', '\r'], b ∉ line :=
      fun b hb hmem => h b hb (mem_cons_of_mem _ hmem)
    rw [cons_append, oneColonALine, if_neg hline]
    split
    · rename_i hcolon
      subst hcolon
      rw [ih hrest, count_cons_self]
      cases seen
      · simp
      · simp
    · rename_i hcolon
      rw [ih hrest, count_cons_of_ne hcolon]

theorem colon_mem_escapeDepPath (h : ':' ∈ token) : ':' ∈ escapeDepPath token :=
  mem_flatMap.mpr ⟨':', h, by decide⟩

theorem two_le_count_ruleLine (hne : rule.targets ≠ [])
    (htoken : token ∈ rule.targets ++ rule.prerequisites) (hcolon : ':' ∈ token) :
    2 ≤ (ruleLine rule).count ':' := by
  obtain ⟨targets, prerequisites⟩ := rule
  obtain ⟨target, targets, rfl⟩ := exists_cons_of_ne_nil hne
  have hmem : ∀ tokens : List Str, token ∈ tokens →
      0 < (tokens.flatMap (fun t => ' ' :: escapeDepPath t)).count ':' := fun tokens ht =>
    count_pos_iff.mpr (mem_flatMap.mpr ⟨token, ht,
      mem_cons_of_mem _ (colon_mem_escapeDepPath hcolon)⟩)
  simp only [ruleLine, count_append, count_cons_self]
  rcases mem_append.mp htoken with ht | ht
  · rcases mem_cons.mp ht with rfl | ht
    · have := count_pos_iff.mpr (colon_mem_escapeDepPath hcolon)
      omega
    · have := hmem targets ht
      omega
  · have := hmem prerequisites ht
    omega

theorem secondColon_render (h : ∀ rule ∈ rules, LineRule rule) {tail : Str}
    (htail : Escaped tail) (hrule : rule ∈ rules)
    (htoken : token ∈ rule.targets ++ rule.prerequisites) (hcolon : ':' ∈ token) :
    SecondColon false (rules.flatMap renderDepRule ++ tail) := by
  refine ⟨(escaped_flatMap (fun r _ => escaped_renderDepRule r)).append htail, ?_⟩
  induction rules with
  | nil => exact absurd hrule not_mem_nil
  | cons first rules ih =>
    have hfirst := h first mem_cons_self
    rw [flatMap_cons, renderDepRule_eq hfirst.1, append_assoc, append_assoc,
      singleton_append, oneColonALine_line (fun b hb => lineBreak_notMem_ruleLine
        (mem_append_left ['\x0b', '\x0c'] hb) hfirst), Bool.and_eq_false_iff]
    rcases mem_cons.mp hrule with rfl | hrule
    · left
      have := two_le_count_ruleLine hfirst.1 htoken hcolon
      simpa using by omega
    · exact .inr (ih (fun r hr => h r (mem_cons_of_mem _ hr)) hrule)

theorem parseDepFile_render_colon (hrules : ∀ rule ∈ dep.rules, LineRule rule)
    (henvs : ∀ env ∈ dep.envDeps, LineEnv env) (hrule : rule ∈ dep.rules)
    (htoken : token ∈ rule.targets ++ rule.prerequisites) (hcolon : ':' ∈ token) :
    parseDepFile (renderDepFile dep) = none := by
  rw [parseDepFile_render_eq hrules henvs, parseDepRules_of_secondColon, Option.map_none]
  refine secondColon_render hrules ?_ hrule htoken hcolon
  split
  · exact .nil
  · exact .char (by decide) .nil

/-! ## What the grammar reads -/

theorem lineBreak_notMem_pathChar : Keeps (fun _ => True) (fun c => c ∉ lineBreaks) pathChar := by
  have hescaped : ∀ c, c ∈ [' ', '\t', '\\', '#', ':'] → c ∉ lineBreaks := by
    intro c hc hbreak
    revert hc
    simp only [lineBreaks, mem_cons, not_mem_nil, or_false] at hbreak
    rcases hbreak with rfl | rfl | rfl | rfl <;> decide
  have hspace : ∀ c ∈ lineBreaks, isSpace c = true := by simp [lineBreaks, isSpace]
  refine Triple.choice ?_ (Triple.choice ?_ ?_)
  · intro s c t _ h
    obtain ⟨r, hr, rfl⟩ := value_eq_some h
    obtain ⟨a, u, b, v, -, hb, heq⟩ := seq_eq_some hr
    cases heq
    obtain ⟨-, hmem⟩ := satisfy_eq_some hb
    exact ⟨trivial, hescaped b (of_decide_eq_true hmem)⟩
  · intro s c t _ h
    obtain ⟨r, -, rfl⟩ := value_eq_some h
    exact ⟨trivial, by decide⟩
  · intro s c t _ h
    obtain ⟨-, hc⟩ := satisfy_eq_some h
    refine ⟨trivial, fun hbreak => ?_⟩
    rw [hspace c hbreak] at hc
    cases hc

theorem lineToken_pathToken : Keeps (fun _ => True) LineToken pathToken :=
  Triple.skipping (triple_true _) (lineBreak_notMem_pathChar.many1 lineBreak_notMem_pathChar)

theorem lineRule_depRule : Keeps (fun _ => True) LineRule depRule :=
  ((lineToken_pathToken.many1 lineToken_pathToken).seq
    ((triple_true _).seq (Keeps.many lineToken_pathToken))).value (fun _ h => ⟨h.1.1, h.1.2, h.2.2⟩)

theorem lineRule_of_parseDepFile {text : Str} (h : parseDepFile text = some dep) :
    ∀ rule ∈ dep.rules, LineRule rule := by
  have hfile : Keeps (fun _ => True) (fun rules => ∀ rule ∈ rules, LineRule rule) depFile := by
    refine ((triple_true _).seq ((Triple.optional (lineRule_depRule.sepBy1 (triple_true _))).seq
      (triple_true _))).value ?_
    rintro ⟨lead, rules, trail⟩ ⟨-, hrules, -⟩
    cases rules with
    | none => exact fun rule hrule => absurd hrule not_mem_nil
    | some rules => exact hrules rules rfl
  rw [parseDepFile] at h
  obtain ⟨rules, hrules, rfl⟩ := Option.map_eq_some_iff.mp h
  rw [parseDepRules] at hrules
  split at hrules
  · cases hrules
  · rename_i read rest hread
    split at hrules
    · cases hrules
      exact (hfile _ _ _ trivial hread).2
    · cases hrules

/-- A dependency file is read back as it was written exactly when no token holds a colon. -/
theorem parseDepFile_renderDepFile_iff (dep : DepFile)
    (hrules : ∀ rule ∈ dep.rules, LineRule rule) (henvs : ∀ env ∈ dep.envDeps, LineEnv env) :
    parseDepFile (renderDepFile dep) = some dep ↔
      ∀ rule ∈ dep.rules, ∀ token ∈ rule.targets ++ rule.prerequisites, ':' ∉ token := by
  constructor
  · intro h rule hrule token htoken hcolon
    rw [parseDepFile_render_colon hrules henvs hrule htoken hcolon] at h
    cases h
  · intro hcolon
    refine parseDepFile_renderDepFile (fun rule hrule => ?_) henvs
    obtain ⟨hne, htargets, hprereqs⟩ := hrules rule hrule
    exact ⟨hne, fun t ht => ⟨htargets t ht, hcolon rule hrule t (mem_append_left _ ht)⟩,
      fun p hp => ⟨hprereqs p hp, hcolon rule hrule p (mem_append_right _ hp)⟩⟩

/-- Blanks, hashes, dollars and backslashes in the paths, and an `=` in a variable's value. -/
def writtenDepFile : DepFile where
  rules := [⟨["out dir/a.o".toList], ["a#1.c".toList, "$x\\y.h".toList]⟩]
  envDeps := [⟨"FLAGS".toList, some "a=b c".toList⟩, ⟨"UNSET".toList, none⟩]

theorem parseDepFile_renderDepFile_written :
    parseDepFile (renderDepFile writtenDepFile) = some writtenDepFile :=
  (parseDepFile_renderDepFile_iff writtenDepFile
    (by simp [writtenDepFile, LineRule, LineToken, lineBreaks])
    (by simp only [writtenDepFile, LineEnv]; decide)).mpr (by decide)

theorem parseDepFile_renderDepFile_colon :
    parseDepFile (renderDepFile ⟨[⟨["a.o".toList], ["gen:1/a.h".toList]⟩], []⟩) = none := by
  decide

end Vcache

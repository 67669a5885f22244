import Mathlib.Data.List.Induction
import Vcache.Preprocessed

/-!
# Preprocessor output read in blocks

`HashNormalizedPreprocessedOutput` reads a file block by block, carries the partial
last line over to the next block, skips from one `#` to the next within the whole lines
of a block, and hands the hasher large pieces. What reaches the hasher is the text
that `normalizePreprocessed` makes of the whole file.
-/

namespace Vcache

open List Option

variable {line run : Str} {lines : List Str}

/-- The locals of `HashNormalizedPreprocessedOutput`; `fed` is what the hasher was given. -/
structure NormalizeState where
  fed : Str := []
  hashBatch : Str := []
  pending : Str := []
  ok : Bool := true
  sawIncbin : Bool := false
  pchPaths : List Str := []
deriving DecidableEq

def kHashBatchBytes : ℕ := 256 * 1024

namespace NormalizeState

def emit (s : NormalizeState) (text : Str) : NormalizeState :=
  if kHashBatchBytes < s.hashBatch.length + text.length then
    if kHashBatchBytes < text.length then
      { s with fed := s.fed ++ s.hashBatch ++ text, hashBatch := [] }
    else { s with fed := s.fed ++ s.hashBatch, hashBatch := text }
  else { s with hashBatch := s.hashBatch ++ text }

/-- `text` is one or more whole lines, none of which starts with `#`. -/
def feedPlain (s : NormalizeState) (text : Str) : NormalizeState :=
  let s := s.emit text
  if !s.sawIncbin && containsIncbin text then { s with sawIncbin := true } else s

/-- `collectsPch` says that the caller gave `pch_paths`. -/
def feedLine (collectsPch : Bool) (roots : RootMap) (s : NormalizeState) (line : Str)
    (withNewline : Bool) : NormalizeState :=
  let newline (s : NormalizeState) := if withNewline then s.emit ['\n'] else s
  if collectsPch = true ∧ startsWith line kPchPragma = true then
    if line.length ≤ kPchPragma.length ∨ line.getLast? ≠ some '"' then { s with ok := false }
    else
      let pch := (line.drop kPchPragma.length).dropLast
      let s := { s with pchPaths := s.pchPaths ++ [pch] }
      newline (((s.emit kPchPragma).emit (escape (roots.canonicalize pch))).emit ['"'])
  else if line.head? = some '#' then newline (s.emit (normalizeLinemarker roots line))
  else newline (s.feedPlain line)

/-- The loop over the `#`s of whole lines: `run` is the text from `plain_run_start` to `scan`,
`text` the rest; `fuel` bounds the turns. -/
def scanWhole (collectsPch : Bool) (roots : RootMap) :
    ℕ → NormalizeState → Str → Str → NormalizeState
  | 0, s, _, _ => s
  | fuel + 1, s, run, text =>
    let run := run ++ text.takeWhile (· != '#')
    match text.dropWhile (· != '#') with
    | [] => if run = [] then s else s.feedPlain run
    | hash :: after =>
      if run = [] ∨ run.getLast? = some '\n' then
        let s := if run = [] then s else s.feedPlain run
        let line := hash :: after.takeWhile (· != '\n')
        scanWhole collectsPch roots fuel (s.feedLine collectsPch roots line true) []
          ((after.dropWhile (· != '\n')).drop 1)
      else scanWhole collectsPch roots fuel s (run ++ [hash]) after

/-- The rest of a turn from `line_start` on, where a line begins. -/
def readLines (collectsPch : Bool) (roots : RootMap) (s : NormalizeState) (text : Str) :
    NormalizeState :=
  let rest := (text.reverse.takeWhile (· != '\n')).reverse
  let whole := text.take (text.length - rest.length)
  let s := s.scanWhole collectsPch roots (whole.length + 1) [] whole
  if rest = [] then s else { s with pending := rest }

/-- One turn of the read loop. -/
def readBlock (collectsPch : Bool) (roots : RootMap) (s : NormalizeState) (data : Str) :
    NormalizeState :=
  if s.pending = [] then s.readLines collectsPch roots data
  else match findChar '\n' data with
    | none => { s with pending := s.pending ++ data }
    | some newline =>
      let s := s.feedLine collectsPch roots (s.pending ++ data.take newline) true
      { s with pending := [] }.readLines collectsPch roots (data.drop (newline + 1))

end NormalizeState

/-- `readError` is what `ferror` says when no more comes. -/
def hashNormalizedPreprocessedOutput (roots : RootMap) (blocks : List Str) (readError : Bool)
    (collectsPch : Bool := true) : NormalizeState :=
  let s := blocks.foldl (NormalizeState.readBlock collectsPch roots) {}
  let s := if readError then { s with ok := false } else s
  let s := if s.ok && s.pending ≠ [] then s.feedLine collectsPch roots s.pending false else s
  { s with fed := s.fed ++ s.hashBatch, hashBatch := [] }

/-- What one call of `feed_line` emits and notes. Without `pch_paths` a pragma is a line like
any other that starts with `#`. -/
def lineFed (collectsPch : Bool) (roots : RootMap) (line : Str) : Option NormalizedText :=
  if collectsPch = true then feedLine roots line
  else if line.head? = some '#' then some ⟨normalizeLinemarker roots line, false, []⟩
  else some ⟨line, containsIncbin line, []⟩

theorem lineFed_collecting (roots : RootMap) : lineFed true roots = feedLine roots := rfl

theorem lineFed_pragma (roots : RootMap) {collectsPch : Bool}
    (h : collectsPch = true ∧ startsWith line kPchPragma = true) :
    lineFed collectsPch roots line =
      if line.length ≤ kPchPragma.length ∨ line.getLast? ≠ some '"' then none
      else some ⟨kPchPragma ++ escape (roots.canonicalize (line.drop kPchPragma.length).dropLast) ++
        ['"'], false, [(line.drop kPchPragma.length).dropLast]⟩ := by
  rw [lineFed, if_pos h.1, feedLine, if_pos h.2]

theorem lineFed_other (roots : RootMap) {collectsPch : Bool}
    (h : ¬ (collectsPch = true ∧ startsWith line kPchPragma = true)) :
    lineFed collectsPch roots line =
      if line.head? = some '#' then some ⟨normalizeLinemarker roots line, false, []⟩
      else some ⟨line, containsIncbin line, []⟩ := by
  rw [lineFed]
  split
  next hcollects => rw [feedLine, if_neg (fun hstart => h ⟨hcollects, hstart⟩)]
  next => rfl

/-! ## What a state has emitted -/

namespace NormalizeState

variable {collectsPch : Bool} {roots : RootMap} {feed : Str → Option NormalizedText}
  {s s' s'' : NormalizeState}

def emitted (s : NormalizeState) : Str := s.fed ++ s.hashBatch

@[simp] theorem emitted_emit (s : NormalizeState) (text : Str) :
    (s.emit text).emitted = s.emitted ++ text := by
  unfold emit
  split_ifs <;> simp [emitted]

@[simp] theorem pending_emit (s : NormalizeState) (text : Str) :
    (s.emit text).pending = s.pending := by
  unfold emit
  split_ifs <;> rfl

@[simp] theorem ok_emit (s : NormalizeState) (text : Str) : (s.emit text).ok = s.ok := by
  unfold emit
  split_ifs <;> rfl

@[simp] theorem sawIncbin_emit (s : NormalizeState) (text : Str) :
    (s.emit text).sawIncbin = s.sawIncbin := by
  unfold emit
  split_ifs <;> rfl

@[simp] theorem pchPaths_emit (s : NormalizeState) (text : Str) :
    (s.emit text).pchPaths = s.pchPaths := by
  unfold emit
  split_ifs <;> rfl

/-- From `s` to `s'` these lines were fed, and after each the text `stop`. -/
structure LinesFed (feed : Str → Option NormalizedText) (stop : Str) (lines : List Str)
    (s s' : NormalizeState) : Prop where
  emitted : s'.emitted = s.emitted ++ lines.flatMap (fun line =>
    ((feed line).map (fun n => n.text ++ stop)).getD [])
  ok : s'.ok = (s.ok && lines.all (fun line => (feed line).isSome))
  sawIncbin : s'.sawIncbin = (s.sawIncbin || lines.any (fun line =>
    (feed line).any NormalizedText.sawIncbin))
  pchPaths : s'.pchPaths = s.pchPaths ++ lines.flatMap (fun line =>
    ((feed line).map NormalizedText.pchPaths).getD [])

theorem LinesFed.refl (feed : Str → Option NormalizedText) (stop : Str) (s : NormalizeState) :
    LinesFed feed stop [] s s where
  emitted := by simp
  ok := by simp
  sawIncbin := by simp
  pchPaths := by simp

theorem LinesFed.trans {stop : Str} {lines' : List Str}
    (h : LinesFed feed stop lines s s') (h' : LinesFed feed stop lines' s' s'') :
    LinesFed feed stop (lines ++ lines') s s'' where
  emitted := by rw [h'.emitted, h.emitted, List.flatMap_append, List.append_assoc]
  ok := by rw [h'.ok, h.ok, List.all_append, Bool.and_assoc]
  sawIncbin := by rw [h'.sawIncbin, h.sawIncbin, List.any_append, Bool.or_assoc]
  pchPaths := by rw [h'.pchPaths, h.pchPaths, List.flatMap_append, List.append_assoc]

theorem LinesFed.setPending {stop : Str} (h : LinesFed feed stop lines s s')
    (pending : Str) : LinesFed feed stop lines s { s' with pending := pending } :=
  ⟨h.emitted, h.ok, h.sawIncbin, h.pchPaths⟩

theorem linesFed_newline {n : NormalizedText} (withNewline : Bool) (hline : feed line = some n)
    (hemitted : s'.emitted = s.emitted ++ n.text) (hok : s'.ok = s.ok)
    (hincbin : s'.sawIncbin = (s.sawIncbin || n.sawIncbin))
    (hpch : s'.pchPaths = s.pchPaths ++ n.pchPaths) :
    LinesFed feed (if withNewline then ['\n'] else []) [line] s
      (if withNewline then s'.emit ['\n'] else s') := by
  cases withNewline <;>
    constructor <;> simp [hline, hemitted, hok, hincbin, hpch]

@[simp] theorem emitted_feedPlain (s : NormalizeState) (text : Str) :
    (s.feedPlain text).emitted = s.emitted ++ text := by
  unfold feedPlain
  simp only
  split
  · exact emitted_emit s text
  · exact emitted_emit s text

theorem feedPlain_fields (s : NormalizeState) (text : Str) :
    (s.feedPlain text).ok = s.ok ∧ (s.feedPlain text).pchPaths = s.pchPaths ∧
      (s.feedPlain text).sawIncbin = (s.sawIncbin || containsIncbin text) := by
  unfold feedPlain
  cases hsaw : s.sawIncbin <;> cases hhas : containsIncbin text <;> simp [hsaw]

theorem linesFed_feedLine (collectsPch : Bool) (roots : RootMap) (s : NormalizeState) (line : Str)
    (withNewline : Bool) :
    LinesFed (lineFed collectsPch roots) (if withNewline then ['\n'] else []) [line] s
      (s.feedLine collectsPch roots line withNewline) := by
  by_cases hpragma : collectsPch = true ∧ startsWith line kPchPragma = true
  case pos =>
    have hline := lineFed_pragma roots hpragma
    rw [feedLine, if_pos hpragma]
    split at hline
    next hbad =>
      rw [if_pos hbad]
      constructor <;> simp [hline, NormalizeState.emitted]
    next hgood =>
      rw [if_neg hgood]
      refine linesFed_newline withNewline hline ?_ (by simp) (by simp) (by simp)
      rw [emitted_emit, emitted_emit, emitted_emit, append_assoc, append_assoc, append_assoc]
      rfl
  case neg =>
    have hline := lineFed_other roots hpragma
    rw [feedLine, if_neg hpragma]
    split at hline
    next hhash =>
      rw [if_pos hhash]
      exact linesFed_newline withNewline hline (by simp) (by simp) (by simp) (by simp)
    next hhash =>
      rw [if_neg hhash]
      obtain ⟨hok, hpch, hsaw⟩ := s.feedPlain_fields line
      exact linesFed_newline withNewline hline (by simp) hok hsaw (by simpa using hpch)

@[simp] theorem pending_feedPlain (s : NormalizeState) (text : Str) :
    (s.feedPlain text).pending = s.pending := by
  unfold feedPlain
  simp only
  split
  · exact pending_emit s text
  · exact pending_emit s text

@[simp] theorem pending_feedLine (roots : RootMap) (s : NormalizeState) (line : Str)
    (withNewline : Bool) : (s.feedLine collectsPch roots line withNewline).pending = s.pending := by
  unfold feedLine
  simp only
  split_ifs <;> simp

@[simp] theorem pending_scanWhole (roots : RootMap) (fuel : ℕ) (s : NormalizeState)
    (run text : Str) : (s.scanWhole collectsPch roots fuel run text).pending = s.pending := by
  induction fuel generalizing s run text with
  | zero => rfl
  | succ fuel ih =>
    rw [scanWhole]
    split
    next => split_ifs <;> simp
    next =>
      simp only
      split_ifs <;> simp [ih]

/-! ## Whole lines -/

def terminated (lines : List Str) : Str := lines.flatMap (· ++ ['\n'])

theorem terminated_append (lines lines' : List Str) :
    terminated (lines ++ lines') = terminated lines ++ terminated lines' := List.flatMap_append

theorem split_terminated_append (h : ∀ line ∈ lines, '\n' ∉ line)
    (rest : Str) : split '\n' (terminated lines ++ rest) = lines ++ split '\n' rest := by
  induction lines with
  | nil => rfl
  | cons line lines ih =>
    have hline : '\n' ∉ line := h line mem_cons_self
    have hrest := ih (fun other hother => h other (mem_cons_of_mem _ hother))
    have htext : terminated (line :: lines) ++ rest =
        line ++ '\n' :: (terminated lines ++ rest) := by simp [terminated]
    rw [htext, split_append, split_of_notMem hline, hrest, singleton_append, cons_append]

theorem terminated_inj {lines' : List Str} (h : ∀ line ∈ lines, '\n' ∉ line)
    (h' : ∀ line ∈ lines', '\n' ∉ line) (heq : terminated lines = terminated lines') :
    lines = lines' := by
  have hsplit := split_terminated_append h []
  rw [heq, split_terminated_append h' []] at hsplit
  exact (append_cancel_right hsplit).symm

/-- A text is its whole lines and the rest after the last newline. -/
theorem exists_terminated (text : Str) :
    ∃ lines rest, text = terminated lines ++ rest ∧ (∀ line ∈ lines, '\n' ∉ line) ∧
      '\n' ∉ rest := by
  induction text with
  | nil => exact ⟨[], [], rfl, by simp, by simp⟩
  | cons c text ih =>
    obtain ⟨lines, rest, rfl, hlines, hrest⟩ := ih
    by_cases hc : c = '\n'
    case pos =>
      refine ⟨[] :: lines, rest, ?_, ?_, hrest⟩
      · rw [hc]
        rfl
      · intro line hline
        rcases mem_cons.mp hline with rfl | hline
        · simp
        · exact hlines line hline
    case neg =>
      cases lines with
      | nil =>
        refine ⟨[], c :: rest, rfl, by simp, ?_⟩
        rw [mem_cons, not_or]
        exact ⟨fun h => hc h.symm, hrest⟩
      | cons line lines =>
        refine ⟨(c :: line) :: lines, rest, rfl, ?_, hrest⟩
        intro other hother
        rcases mem_cons.mp hother with rfl | hother
        · rw [mem_cons, not_or]
          exact ⟨fun h => hc h.symm, hlines line mem_cons_self⟩
        · exact hlines other (mem_cons_of_mem _ hother)

theorem exists_terminated_of_getLast {text : Str} (h : text = [] ∨ text.getLast? = some '\n') :
    ∃ lines, text = terminated lines ∧ ∀ line ∈ lines, '\n' ∉ line := by
  obtain ⟨lines, rest, rfl, hlines, hrest⟩ := exists_terminated text
  refine ⟨lines, ?_, hlines⟩
  cases hlast : rest.getLast? with
  | none => rw [getLast?_eq_none_iff.mp hlast, append_nil]
  | some c =>
    have hc : c ∈ rest := mem_of_getLast? hlast
    rcases h with h | h
    · rw [(append_eq_nil_iff.mp h).2] at hc
      cases hc
    · rw [getLast?_append, hlast] at h
      cases h
      exact absurd hc hrest

theorem getLast?_terminated (lines : List Str) :
    terminated lines = [] ∨ (terminated lines).getLast? = some '\n' := by
  rcases eq_nil_or_concat lines with rfl | ⟨before, line, rfl⟩
  · exact .inl rfl
  · right
    rw [concat_eq_append, terminated_append]
    simp [terminated]

def NoHashStart (text : Str) : Prop :=
  ∀ before after, text = before ++ '#' :: after → before ≠ [] ∧ before.getLast? ≠ some '\n'

theorem NoHashStart.append {plain : Str} (h : NoHashStart run) (hplain : '#' ∉ plain) :
    NoHashStart (run ++ plain) := by
  intro before after heq
  rcases append_eq_append_iff.mp heq with ⟨middle, -, hmiddle⟩ | ⟨middle, hrun, hmiddle⟩
  · exact absurd (hmiddle ▸ by simp) hplain
  · cases middle with
    | nil =>
      rw [nil_append] at hmiddle
      exact absurd (hmiddle ▸ mem_cons_self) hplain
    | cons c middle =>
      obtain ⟨rfl, -⟩ := cons.inj hmiddle
      exact h before middle hrun

theorem NoHashStart.append_hash (h : NoHashStart run)
    (hrun : ¬ (run = [] ∨ run.getLast? = some '\n')) : NoHashStart (run ++ ['#']) := by
  intro before after heq
  rcases append_eq_append_iff.mp heq with ⟨middle, hbefore, hmiddle⟩ | ⟨middle, hmid, hrest⟩
  · cases middle with
    | nil =>
      rw [append_nil] at hbefore
      rw [hbefore]
      exact not_or.mp hrun
    | cons c middle => simp at hmiddle
  · cases middle with
    | nil =>
      rw [append_nil] at hmid
      rw [← hmid]
      exact not_or.mp hrun
    | cons c middle =>
      obtain ⟨rfl, -⟩ := cons.inj hrest
      exact h before middle hmid

theorem head?_ne_of_noHashStart (h : NoHashStart (terminated lines)) :
    ∀ line ∈ lines, line.head? ≠ some '#' := by
  intro line hline hhash
  obtain ⟨before, after, rfl⟩ := mem_iff_append.mp hline
  obtain ⟨rest, rfl⟩ : ∃ rest, line = '#' :: rest := head?_eq_some_iff.mp hhash
  have hsplit : terminated (before ++ ('#' :: rest) :: after) =
      terminated before ++ '#' :: (rest ++ '\n' :: terminated after) := by
    rw [terminated_append]
    simp [terminated]
  obtain ⟨hne, hlast⟩ := h _ _ hsplit
  exact (getLast?_terminated before).elim hne hlast

theorem lineFed_plain (collectsPch : Bool) (roots : RootMap) (h : line.head? ≠ some '#') :
    lineFed collectsPch roots line = some ⟨line, containsIncbin line, []⟩ := by
  have hpragma : startsWith line kPchPragma = false := by
    rw [Bool.eq_false_iff]
    intro hstart
    obtain ⟨rest, rfl⟩ := startsWith_iff.mp hstart
    exact h rfl
  rw [lineFed_other roots (by simp [hpragma]), if_neg h]

theorem containsIncbin_append (line text : Str) :
    containsIncbin (line ++ '\n' :: text) = (containsIncbin line || containsIncbin text) := by
  rw [Bool.eq_iff_iff, Bool.or_eq_true, containsIncbin, containsIncbin, containsIncbin,
    contains_iff, contains_iff, contains_iff]
  exact infix_append_cons_iff (by decide)

theorem containsIncbin_terminated (lines : List Str) :
    containsIncbin (terminated lines) = lines.any containsIncbin := by
  induction lines with
  | nil => rfl
  | cons line lines ih =>
    have htext : terminated (line :: lines) = line ++ '\n' :: terminated lines := by
      simp [terminated]
    rw [htext, containsIncbin_append, ih, any_cons]

/-- A run of plain lines fed at once is the lines fed one by one. -/
theorem linesFed_feedPlain (collectsPch : Bool) (roots : RootMap) (s : NormalizeState)
    (h : ∀ line ∈ lines, line.head? ≠ some '#') :
    LinesFed (lineFed collectsPch roots) ['\n'] lines s (s.feedPlain (terminated lines)) := by
  obtain ⟨hok, hpch, hsaw⟩ := s.feedPlain_fields (terminated lines)
  have hfed : ∀ line ∈ lines,
      lineFed collectsPch roots line = some ⟨line, containsIncbin line, []⟩ :=
    fun line hline => lineFed_plain collectsPch roots (h line hline)
  refine ⟨?_, ?_, ?_, ?_⟩
  · rw [emitted_feedPlain, terminated]
    congr 1
    apply flatMap_congr
    intro line hline
    simp [hfed line hline]
  · rw [hok]
    have hall : lines.all (fun line => (lineFed collectsPch roots line).isSome) = true := by
      rw [List.all_eq_true]
      intro line hline
      simp [hfed line hline]
    rw [hall, Bool.and_true]
  · rw [hsaw, containsIncbin_terminated]
    congr 1
    rw [Bool.eq_iff_iff, List.any_eq_true, List.any_eq_true]
    constructor
    · rintro ⟨line, hline, hincbin⟩
      exact ⟨line, hline, by simpa [hfed line hline] using hincbin⟩
    · rintro ⟨line, hline, hincbin⟩
      exact ⟨line, hline, by simpa [hfed line hline] using hincbin⟩
  · rw [hpch]
    have hnone : lines.flatMap (fun line =>
        ((lineFed collectsPch roots line).map NormalizedText.pchPaths).getD []) = [] := by
      rw [List.flatMap_eq_nil_iff]
      intro line hline
      simp [hfed line hline]
    rw [hnone, append_nil]

theorem takeWhile_line (h : '\n' ∉ line) (rest : Str) :
    (line ++ '\n' :: rest).takeWhile (· != '\n') = line := by
  rw [takeWhile_append_of_pos]
  · simp
  · intro c hc
    simpa using fun heq : c = '\n' => h (heq ▸ hc)

theorem dropWhile_line (h : '\n' ∉ line) (rest : Str) :
    (line ++ '\n' :: rest).dropWhile (· != '\n') = '\n' :: rest := by
  rw [dropWhile_append_of_pos]
  · simp
  · intro c hc
    simpa using fun heq : c = '\n' => h (heq ▸ hc)

/-- Where a `#` starts a line, the lines before it and the rest of its own are at hand. -/
theorem lines_at_hash {after : Str}
    (hstart : run = [] ∨ run.getLast? = some '\n') (htext : run ++ '#' :: after = terminated lines)
    (hlines : ∀ line ∈ lines, '\n' ∉ line) :
    ∃ before line rest, lines = before ++ ('#' :: line) :: rest ∧ run = terminated before ∧
      after = line ++ '\n' :: terminated rest := by
  obtain ⟨before, hrun, hbefore⟩ := exists_terminated_of_getLast hstart
  have hend : '#' :: after = [] ∨ ('#' :: after).getLast? = some '\n' := by
    right
    rcases getLast?_terminated lines with hnil | hlast
    · rw [hnil] at htext
      simp at htext
    · rw [← htext, getLast?_append_of_ne_nil _ (by simp)] at hlast
      exact hlast
  obtain ⟨others, hafter, hothers⟩ := exists_terminated_of_getLast hend
  have hsplit : lines = before ++ others := by
    apply terminated_inj hlines
    · intro line hline
      exact (mem_append.mp hline).elim (hbefore line) (hothers line)
    · rw [terminated_append, ← hrun, ← hafter, htext]
  cases others with
  | nil => cases hafter
  | cons first rest =>
    cases first with
    | nil => cases hafter
    | cons c line =>
      have hcons : '#' :: after = c :: (line ++ '\n' :: terminated rest) := by
        rw [hafter]
        simp [terminated]
      obtain ⟨rfl, hline⟩ := cons.inj hcons
      exact ⟨before, line, rest, hsplit, hrun, hline⟩

theorem linesFed_run (collectsPch : Bool) (roots : RootMap) (s : NormalizeState)
    (hrun : NoHashStart run) (hlines : run = terminated lines) :
    LinesFed (lineFed collectsPch roots) ['\n'] lines s
      (if run = [] then s else s.feedPlain run) := by
  split
  next hnil =>
    have hempty : lines = [] := by
      cases lines with
      | nil => rfl
      | cons line lines =>
        rw [hnil] at hlines
        simp [terminated] at hlines
    rw [hempty]
    exact .refl _ _ s
  next =>
    rw [hlines]
    exact linesFed_feedPlain collectsPch roots s (head?_ne_of_noHashStart (hlines ▸ hrun))

/-- The loop over the `#`s feeds the whole lines of its text. -/
theorem linesFed_scanWhole {fuel : ℕ} {text : Str}
    (hfuel : text.length < fuel) (hrun : NoHashStart run)
    (htext : run ++ text = terminated lines) (hlines : ∀ line ∈ lines, '\n' ∉ line) :
    LinesFed (lineFed collectsPch roots) ['\n'] lines s
      (s.scanWhole collectsPch roots fuel run text) := by
  induction fuel generalizing s run text lines with
  | zero => omega
  | succ fuel ih =>
    rw [scanWhole]
    have hplain : '#' ∉ text.takeWhile (· != '#') := by
      intro hmem
      have hall : (text.takeWhile (· != '#')).all (· != '#') = true := all_takeWhile
      simpa using all_eq_true.mp hall '#' hmem
    have hrun' := hrun.append hplain
    have hparts : run ++ text.takeWhile (· != '#') ++ text.dropWhile (· != '#') =
        terminated lines := by rw [append_assoc, takeWhile_append_dropWhile, htext]
    have hlength := congrArg length (takeWhile_append_dropWhile (p := (· != '#'))
      (l := text))
    generalize run ++ text.takeWhile (· != '#') = run' at hrun' hparts
    cases hdrop : text.dropWhile (· != '#') with
    | nil =>
      rw [hdrop, append_nil] at hparts
      exact linesFed_run collectsPch roots s hrun' hparts
    | cons hash after =>
      have hhash : hash = '#' := by
        have hhead := head?_dropWhile_not (· != '#') text
        rw [hdrop] at hhead
        simpa using hhead
      subst hhash
      rw [hdrop] at hparts hlength
      simp only
      split
      next hstart =>
        obtain ⟨before, line, rest, rfl, hbefore, rfl⟩ := lines_at_hash hstart hparts hlines
        have hline : '\n' ∉ line := fun hmem => hlines ('#' :: line) (by simp)
          (mem_cons_of_mem _ hmem)
        rw [takeWhile_line hline, dropWhile_line hline, drop_one, tail_cons]
        have hfirst := linesFed_run collectsPch roots s hrun' hbefore
        have hsecond := linesFed_feedLine collectsPch roots
          (if run' = [] then s else s.feedPlain run') ('#' :: line) true
        refine hfirst.trans (hsecond.trans (ih ?_ ?_ rfl ?_))
        · simp at hlength
          omega
        · simp [NoHashStart]
        · intro other hother
          exact hlines other (by simp [hother])
      next hinside =>
        apply ih
        · simp at hlength
          omega
        · exact hrun'.append_hash hinside
        · rw [← hparts]
          simp
        · exact hlines

theorem rest_of_text {rest : Str} (hrest : '\n' ∉ rest) :
    ((terminated lines ++ rest).reverse.takeWhile (· != '\n')).reverse = rest := by
  rw [reverse_append, takeWhile_append_of_pos]
  · have hstop : (terminated lines).reverse.takeWhile (· != '\n') = [] := by
      rcases getLast?_terminated lines with hnil | hlast
      · rw [hnil]
        rfl
      · obtain ⟨before, hbefore⟩ := getLast?_eq_some_iff.mp hlast
        rw [hbefore]
        simp
    rw [hstop, append_nil, reverse_reverse]
  · intro c hc
    simpa using fun heq : c = '\n' => hrest (heq ▸ mem_reverse.mp hc)

theorem linesFed_readLines {rest : Str} (hlines : ∀ line ∈ lines, '\n' ∉ line)
    (hrest : '\n' ∉ rest) (hpending : s.pending = []) :
    LinesFed (lineFed collectsPch roots) ['\n'] lines s
        (s.readLines collectsPch roots (terminated lines ++ rest)) ∧
      (s.readLines collectsPch roots (terminated lines ++ rest)).pending = rest := by
  have hwhole : (terminated lines ++ rest).take
      ((terminated lines ++ rest).length - rest.length) = terminated lines := by
    rw [length_append, Nat.add_sub_cancel, take_left']
    rfl
  have hfed : LinesFed (lineFed collectsPch roots) ['\n'] lines s
      (s.scanWhole collectsPch roots ((terminated lines).length + 1) [] (terminated lines)) :=
    linesFed_scanWhole (Nat.lt_succ_self _) (by simp [NoHashStart]) rfl hlines
  rw [readLines]
  simp only [rest_of_text hrest, hwhole]
  split
  next hnil => exact ⟨hfed, by rw [pending_scanWhole, hpending, hnil]⟩
  next => exact ⟨hfed.setPending rest, rfl⟩

/-- After the blocks that make up `seen`: its whole lines are fed, the rest waits. -/
structure Fed (feed : Str → Option NormalizedText) (seen : Str) (lines : List Str)
    (s : NormalizeState) : Prop where
  seen_eq : seen = terminated lines ++ s.pending
  lines_whole : ∀ line ∈ lines, '\n' ∉ line
  pending_part : '\n' ∉ s.pending
  linesFed : LinesFed feed ['\n'] lines { } s

theorem Fed.readLines {seen : Str}
    (h : Fed (lineFed collectsPch roots) seen lines s) (hpending : s.pending = []) (text : Str) :
    ∃ lines', Fed (lineFed collectsPch roots) (seen ++ text) lines'
      (s.readLines collectsPch roots text) := by
  obtain ⟨more, rest, rfl, hmore, hrest⟩ := exists_terminated text
  have hfed : LinesFed (lineFed collectsPch roots) ['\n'] more s
      (s.readLines collectsPch roots (terminated more ++ rest)) :=
    (linesFed_readLines hmore hrest hpending).1
  have hleft : (s.readLines collectsPch roots (terminated more ++ rest)).pending = rest :=
    (linesFed_readLines hmore hrest hpending).2
  refine ⟨lines ++ more, ?_, ?_, hleft.symm ▸ hrest, h.linesFed.trans hfed⟩
  · rw [hleft, h.seen_eq, hpending, append_nil, terminated_append, append_assoc]
  · intro line hline
    exact (mem_append.mp hline).elim (h.lines_whole line) (hmore line)

theorem Fed.readBlock {seen : Str} (h : Fed (lineFed collectsPch roots) seen lines s) (data : Str) :
    ∃ lines', Fed (lineFed collectsPch roots) (seen ++ data) lines'
      (s.readBlock collectsPch roots data) := by
  rw [NormalizeState.readBlock]
  split
  next hpending => exact h.readLines hpending data
  next =>
    split
    next hnone =>
      have hdata : '\n' ∉ data := by
        intro hmem
        have hfind := findIdx?_eq_none_iff.mp hnone '\n' hmem
        simp at hfind
      refine ⟨lines, ?_, h.lines_whole, ?_, h.linesFed.setPending _⟩
      · rw [h.seen_eq, append_assoc]
      · rw [mem_append, not_or]
        exact ⟨h.pending_part, hdata⟩
    next newline hsome =>
      obtain ⟨hdata, hfront⟩ := findChar_eq_some hsome
      generalize data.take newline = front at hdata hfront
      generalize data.drop (newline + 1) = back at hdata
      subst hdata
      have hline := linesFed_feedLine collectsPch roots s (s.pending ++ front) true
      have hfed : Fed (lineFed collectsPch roots) (seen ++ (front ++ ['\n']))
          (lines ++ [s.pending ++ front])
          { s.feedLine collectsPch roots (s.pending ++ front) true with pending := [] } := by
        refine ⟨?_, ?_, by simp, (h.linesFed.trans hline).setPending []⟩
        · rw [h.seen_eq, terminated_append]
          simp [terminated]
        · refine forall_mem_concat.mpr ⟨h.lines_whole, ?_⟩
          rw [mem_append, not_or]
          exact ⟨h.pending_part, hfront⟩
      have hblock : seen ++ (front ++ '\n' :: back) = seen ++ (front ++ ['\n']) ++ back := by
        simp
      rw [hblock]
      exact hfed.readLines rfl back

theorem fed_blocks (collectsPch : Bool) (roots : RootMap) (blocks : List Str) :
    ∃ lines, Fed (lineFed collectsPch roots) blocks.flatten lines
      (blocks.foldl (readBlock collectsPch roots) { }) := by
  induction blocks using reverseRecOn with
  | nil => exact ⟨[], rfl, by simp, by simp, .refl _ _ _⟩
  | append_singleton blocks data ih =>
    obtain ⟨lines, h⟩ := ih
    rw [flatten_append, foldl_append]
    simpa using h.readBlock data

end NormalizeState

/-! ## The whole file -/

open NormalizeState

/-- What the lines of a file become, the last of which has no newline. -/
def fedText (feed : Str → Option NormalizedText) (lines : List Str) (rest : Str) : Str :=
  lines.flatMap (fun line => ((feed line).map (fun n => n.text ++ ['\n'])).getD []) ++
    if lines.all (fun line => (feed line).isSome) then
      ((feed rest).map NormalizedText.text).getD []
    else []

theorem lineFed_nil (collectsPch : Bool) (roots : RootMap) :
    lineFed collectsPch roots [] = some ⟨[], false, []⟩ :=
  lineFed_plain collectsPch roots (by simp)

theorem linesFed_last (collectsPch : Bool) (roots : RootMap) (s : NormalizeState) :
    LinesFed (lineFed collectsPch roots) [] [s.pending] s
      (if s.pending ≠ [] then s.feedLine collectsPch roots s.pending false else s) := by
  split
  next => exact linesFed_feedLine collectsPch roots s s.pending false
  next hnil =>
    rw [not_not] at hnil
    constructor <;> simp [hnil, lineFed_nil]

/-- The outcome for a file with these lines and this rest after the last newline. -/
structure WholeFile (feed : Str → Option NormalizedText) (lines : List Str) (rest : Str)
    (s : NormalizeState) : Prop where
  fed : s.fed = fedText feed lines rest
  ok : s.ok = (lines ++ [rest]).all (fun line => (feed line).isSome)
  sawIncbin : s.ok = true → s.sawIncbin = (lines ++ [rest]).any (fun line =>
    (feed line).any NormalizedText.sawIncbin)
  pchPaths : s.ok = true → s.pchPaths = (lines ++ [rest]).flatMap (fun line =>
    ((feed line).map NormalizedText.pchPaths).getD [])

/-- The hasher gets the lines of the file, whatever the blocks. -/
theorem exists_wholeFile (collectsPch : Bool) (roots : RootMap) (blocks : List Str) :
    ∃ lines rest, split '\n' blocks.flatten = lines ++ [rest] ∧
      WholeFile (lineFed collectsPch roots) lines rest
        (hashNormalizedPreprocessedOutput roots blocks false collectsPch) := by
  obtain ⟨lines, h⟩ := fed_blocks collectsPch roots blocks
  have hsplit : split '\n' blocks.flatten =
      lines ++ [(blocks.foldl (readBlock collectsPch roots) { }).pending] := by
    conv_lhs => rw [h.seen_eq]
    rw [split_terminated_append h.lines_whole, split_of_notMem h.pending_part]
  have hlines := h.linesFed
  refine ⟨lines, (blocks.foldl (readBlock collectsPch roots) { }).pending, hsplit, ?_⟩
  simp only [hashNormalizedPreprocessedOutput, Bool.false_eq_true, if_false]
  generalize blocks.foldl (readBlock collectsPch roots) { } = s at hlines
  have hok : s.ok = lines.all (fun line => (lineFed collectsPch roots line).isSome) := by
    simpa using hlines.ok
  have hemitted : s.fed ++ s.hashBatch = _ := hlines.emitted
  cases hsok : s.ok with
  | false =>
    rw [hsok] at hok
    refine ⟨?_, ?_, by simp [hsok], by simp [hsok]⟩
    · rw [fedText, ← hok]
      simpa [NormalizeState.emitted] using hemitted
    · rw [all_append, ← hok]
      simp [hsok]
  | true =>
    rw [hsok] at hok
    simp only [Bool.true_and, decide_eq_true_eq]
    have hall := linesFed_last collectsPch roots s
    generalize (if s.pending ≠ [] then s.feedLine collectsPch roots s.pending false else s) =
      last at hall
    refine ⟨?_, ?_, fun _ => ?_, fun _ => ?_⟩
    · have hlast : last.fed ++ last.hashBatch = _ := hall.emitted
      change last.fed ++ last.hashBatch = _
      rw [hlast, fedText, ← hok, if_pos rfl, NormalizeState.emitted, hemitted]
      simp [NormalizeState.emitted]
    · rw [all_append, ← hok, Bool.true_and]
      change last.ok = _
      rw [hall.ok, hsok, Bool.true_and]
    · change last.sawIncbin = _
      rw [hall.sawIncbin, hlines.sawIncbin, any_append, Bool.false_or]
    · change last.pchPaths = _
      rw [hall.pchPaths, hlines.pchPaths, flatMap_append, nil_append]

theorem join_concat (sep : Str) (parts : List Str) (last : Str) :
    join sep (parts ++ [last]) = parts.flatMap (· ++ sep) ++ last := by
  induction parts with
  | nil => rfl
  | cons part parts ih =>
    obtain ⟨next, more, hmore⟩ := exists_cons_of_ne_nil (l := parts ++ [last]) (by simp)
    rw [cons_append, flatMap_cons, hmore, join]
    · rw [← hmore, ih, append_assoc, append_assoc, append_assoc]
    · simp

/-- When every line is well formed, the outcome in terms of what each line became. -/
theorem WholeFile.of_ok {feed : Str → Option NormalizedText} {rest : Str}
    {s : NormalizeState} (h : WholeFile feed lines rest s) (hok : s.ok = true)
    {g : Str → NormalizedText} (hg : ∀ line n, feed line = some n → n = g line) :
    (∀ line ∈ lines ++ [rest], feed line = some (g line)) ∧
      s.fed = join ['\n'] ((lines ++ [rest]).map (fun line => (g line).text)) ∧
      s.sawIncbin = (lines ++ [rest]).any (fun line => (g line).sawIncbin) ∧
      s.pchPaths = (lines ++ [rest]).flatMap (fun line => (g line).pchPaths) := by
  have hwell := all_eq_true.mp (h.ok.symm.trans hok)
  have hfeed : ∀ line ∈ lines ++ [rest], feed line = some (g line) := by
    intro line hline
    obtain ⟨n, hn⟩ := isSome_iff_exists.mp (hwell line hline)
    rw [hn, hg line n hn]
  have hall : lines.all (fun line => (feed line).isSome) = true := by
    rw [List.all_eq_true]
    exact fun line hline => hwell line (List.mem_append_left _ hline)
  refine ⟨hfeed, ?_, ?_, ?_⟩
  · rw [h.fed, fedText, if_pos hall, hfeed rest (by simp), Option.map_some, Option.getD_some,
      List.map_append, List.map_singleton, join_concat, List.flatMap_map]
    congr 1
    apply List.flatMap_congr
    intro line hline
    rw [hfeed line (List.mem_append_left _ hline), Option.map_some, Option.getD_some]
  · rw [h.sawIncbin hok, Bool.eq_iff_iff, List.any_eq_true, List.any_eq_true]
    refine exists_congr (fun line => and_congr_right (fun hline => ?_))
    rw [hfeed line hline, Option.any_some]
  · rw [h.pchPaths hok]
    apply List.flatMap_congr
    intro line hline
    rw [hfeed line hline, Option.map_some, Option.getD_some]

theorem mapM_eq_filterMap {α β : Type*} (f : α → Option β) (xs : List α) :
    xs.mapM f = if xs.all (fun x => (f x).isSome) then some (xs.filterMap f) else none := by
  induction xs with
  | nil => rfl
  | cons x xs ih =>
    rw [mapM_cons, ih]
    cases hx : f x with
    | none => simp [hx]
    | some y =>
      rw [all_cons, hx, filterMap_cons, hx]
      simp only [isSome_some, Bool.true_and]
      split <;> rfl

theorem filterMap_eq_map {α β : Type*} {f : α → Option β} {g : α → β} {xs : List α}
    (h : ∀ x ∈ xs, f x = some (g x)) : xs.filterMap f = xs.map g := by
  rw [← List.filterMap_eq_map]
  exact List.filterMap_congr h

/-- The blocks do not matter: the result is that of the whole text. -/
theorem hashNormalizedPreprocessedOutput_eq (roots : RootMap) (blocks : List Str) :
    normalizePreprocessed roots blocks.flatten =
      let s := hashNormalizedPreprocessedOutput roots blocks false
      if s.ok then some ⟨s.fed, s.sawIncbin, s.pchPaths⟩ else none := by
  obtain ⟨lines, rest, hsplit, hfile⟩ := exists_wholeFile true roots blocks
  rw [lineFed_collecting] at hfile
  rw [normalizePreprocessed, hsplit, mapM_eq_filterMap, ← hfile.ok]
  simp only
  split
  next hok =>
    obtain ⟨hfeed, hfed, hincbin, hpch⟩ := hfile.of_ok hok
      (g := fun line => (feedLine roots line).getD ⟨[], false, []⟩)
      (fun line n hn => by rw [hn, Option.getD_some])
    rw [filterMap_eq_map hfeed, hfed, hincbin, hpch, Option.map_some, List.map_map, List.any_map,
      List.flatMap_map]
    rfl
  next => rfl

/-! ## Line by line -/

/-- The path a well-formed `pch_preprocess` pragma names. -/
def pchPragmaPath (line : Str) : Option Str :=
  if startsWith line kPchPragma = true ∧ kPchPragma.length < line.length ∧
      line.getLast? = some '"' then
    some (line.drop kPchPragma.length).dropLast
  else none

def collectedPath (collectsPch : Bool) (line : Str) : Option Str :=
  if collectsPch then pchPragmaPath line else none

def normalizedLine (collectsPch : Bool) (roots : RootMap) (line : Str) : Str :=
  match collectedPath collectsPch line with
  | some pch => kPchPragma ++ escape (roots.canonicalize pch) ++ ['"']
  | none => if line.head? = some '#' then normalizeLinemarker roots line else line

theorem head?_of_pchPragma (h : startsWith line kPchPragma = true) :
    line.head? = some '#' := by
  obtain ⟨rest, rfl⟩ := startsWith_iff.mp h
  rfl

theorem collectedPath_other {collectsPch : Bool}
    (h : ¬ (collectsPch = true ∧ startsWith line kPchPragma = true)) :
    collectedPath collectsPch line = none := by
  rw [collectedPath]
  split
  next hcollects => rw [pchPragmaPath, if_neg (fun hpragma => h ⟨hcollects, hpragma.1⟩)]
  next => rfl

theorem eq_of_lineFed {collectsPch : Bool} {roots : RootMap} {n : NormalizedText}
    (h : lineFed collectsPch roots line = some n) :
    n = ⟨normalizedLine collectsPch roots line,
      line.head? != some '#' && containsIncbin line, (collectedPath collectsPch line).toList⟩ := by
  by_cases hpragma : collectsPch = true ∧ startsWith line kPchPragma = true
  case pos =>
    have hhash := head?_of_pchPragma hpragma.2
    rw [lineFed_pragma roots hpragma] at h
    split at h
    next => cases h
    next hclosed =>
      rw [not_or, not_le, not_not] at hclosed
      have hpath : collectedPath collectsPch line =
          some (line.drop kPchPragma.length).dropLast := by
        rw [collectedPath, if_pos hpragma.1, pchPragmaPath, if_pos ⟨hpragma.2, hclosed⟩]
      rw [← some.inj h, normalizedLine, hpath, hhash]
      rfl
  case neg =>
    have hpath := collectedPath_other hpragma
    rw [lineFed_other roots hpragma] at h
    split at h
    next hhash =>
      rw [← some.inj h, normalizedLine, hpath, hhash]
      rfl
    next hhash =>
      have hplain : (line.head? != some '#') = true := by simpa using hhash
      rw [← some.inj h, normalizedLine, hpath, hplain]
      simp only [if_neg hhash, Bool.true_and, toList_none]

/-- However the file is cut into reads: when the call succeeds, the hasher was given the lines
one by one, and what was noted is what the lines hold. -/
theorem hashNormalized_line_by_line (roots : RootMap) (blocks : List Str) (readError : Bool)
    (collectsPch : Bool)
    (hok : (hashNormalizedPreprocessedOutput roots blocks readError collectsPch).ok = true) :
    let s := hashNormalizedPreprocessedOutput roots blocks readError collectsPch
    let lines := split '\n' blocks.flatten
    s.fed = join ['\n'] (lines.map (normalizedLine collectsPch roots)) ∧
      (s.sawIncbin = true ↔
        ∃ line ∈ lines, line.head? ≠ some '#' ∧ ".incbin".toList <:+: line) ∧
      s.pchPaths = lines.filterMap (collectedPath collectsPch) := by
  have hread : readError = false := by
    by_contra hread
    rw [Bool.not_eq_false] at hread
    simp [hashNormalizedPreprocessedOutput, hread] at hok
  subst hread
  obtain ⟨lines, rest, hsplit, hfile⟩ := exists_wholeFile collectsPch roots blocks
  obtain ⟨-, hfed, hincbin, hpch⟩ := hfile.of_ok hok (fun _ _ => eq_of_lineFed)
  simp only [hsplit]
  refine ⟨hfed, ?_, ?_⟩
  · rw [hincbin, List.any_eq_true]
    refine exists_congr (fun line => and_congr_right (fun _ => ?_))
    rw [Bool.and_eq_true, bne_iff_ne, containsIncbin, contains_iff]
  · rw [hpch, List.filterMap_eq_flatMap_toList]

/-- A marker, a pragma and a line with the directive, cut inside each. -/
theorem hashNormalized_line_by_line_fourReads :
    let blocks := ["# 1 \"/w/".toList, "a.c\"\n#pragma GCC pch_pre".toList,
      "process \"/w/h.gch\"\n.inc".toList, "bin \"x\"".toList]
    let s := hashNormalizedPreprocessedOutput
      (RootMap.sortRoots [⟨"/w".toList, "/v".toList⟩]) blocks false true
    s.ok = true ∧ s.sawIncbin = true ∧ s.pchPaths = ["/w/h.gch".toList] ∧
      s.fed = "# 1 \"/v/a.c\"\n#pragma GCC pch_preprocess \"/v/h.gch\"\n.incbin \"x\"".toList := by
  intro blocks s
  have hok : s.ok = true := by decide +kernel
  obtain ⟨hfed, hincbin, hpch⟩ := hashNormalized_line_by_line
    (RootMap.sortRoots [⟨"/w".toList, "/v".toList⟩]) blocks false true hok
  refine ⟨hok, hincbin.mpr ?_, ?_, ?_⟩
  · exact ⟨".incbin \"x\"".toList, by decide +kernel, by decide, List.IsPrefix.isInfix (by decide)⟩
  · rw [hpch]
    decide +kernel
  · rw [hfed]
    decide +kernel

end Vcache

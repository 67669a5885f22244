import Mathlib.Data.List.Perm.Basic
import Vcache.StepMachine
import Vcache.Trace

/-!
# One trace log, many processes

The processes of a traced run append their records to one log (`trace/fstrace.c`). A
record is one line and one `write`; the kernel puts each `write` at the end of the file
but may take only a part of it. A process that loses a record says so, with a marker file
or, where that cannot be made, with a line of its own in the log. The caller looks for the
marker and then reads the log (`core/link_trace`).
-/

namespace Vcache

open List Option

/-! ## Records -/

inductive TraceKind where
  | read | absent | tool | loaded | written | listing
deriving DecidableEq

def TraceKind.char : TraceKind → Char
  | read => 'R'
  | absent => 'M'
  | tool => 'P'
  | loaded => 'L'
  | written => 'W'
  | listing => 'D'

def TraceKind.ofChar (c : Char) : Option TraceKind :=
  [read, absent, tool, loaded, written, listing].find? (·.char = c)

theorem TraceKind.ofChar_char (kind : TraceKind) : ofChar kind.char = some kind := by
  cases kind <;> decide

abbrev TraceRecord := TraceKind × Str

def TraceRecord.line (r : TraceRecord) : Str := r.1.char :: '\t' :: r.2

/-- The file a process in the directory `cwd` means by `path`; a directory that was removed,
or lies outside the process's root, has no name. -/
def absolutePath (cwd : Option Str) (path : Str) : Option Str :=
  if isAbsolute path then some path
  else
    match cwd with
    | none => none
    | some dir =>
      if !isAbsolute dir then none
      else if endsWith dir ['/'] then some (dir ++ path)
      else some (dir ++ '/' :: path)

/-! ## The tracer -/

-- `VCACHE_RECORD_MAX`
def recordMax : ℕ := 4096

/-- `cwd_prefix`: what `getcwd` writes into `size - 1` bytes, its NUL included. -/
def cwdPrefix (cwd : Option Str) (size : ℕ) : Option Str :=
  match cwd with
  | none => none
  | some dir =>
    if size - 1 < dir.length + 1 then none
    else if !isAbsolute dir then none
    else if endsWith dir ['/'] then some dir
    else some (dir ++ ['/'])

/-- The path `emit` copies into its buffer after the kind and the tab, if it can be
recorded. -/
def recordPath (cwd : Option Str) (path : Str) : Option Str :=
  match if isAbsolute path then some [] else cwdPrefix cwd (recordMax - 2) with
  | none => none
  | some front =>
    let copied := front ++ path.take (recordMax - 1 - (2 + front.length))
    if '\n' ∈ copied ∨ '\t' ∈ copied then none
    else if copied.length < front.length + path.length then none
    else some copied

inductive LogFd where
  | unopened | opened
  /-- The log could not be opened; it is not tried again. -/
  | failed
deriving DecidableEq

inductive EmitPhase where
  | idle
  | writing (record : TraceRecord)
  | marking
deriving DecidableEq

structure Tracer where
  /-- What `getcwd` would say. -/
  cwd : Option Str
  logFd : LogFd := .unopened
  phase : EmitPhase := .idle
deriving DecidableEq

structure TraceState where
  log : Option Str := none
  /-- `<log>.incomplete` exists. -/
  marker : Bool := false
  tracers : List Tracer
  /-- The calls of `emit` so far, each with the file it meant. -/
  emitted : List (TraceKind × Option Str) := []
deriving DecidableEq

def sentinel : Str := "\n!\n".toList

inductive TraceEvent where
  | fork (pid : ℕ)
  | exec (pid : ℕ)
  | chdir (pid : ℕ) (cwd : Option Str)
  /-- `opens`: the log can be opened, where this call is the first to need it. -/
  | emit (pid : ℕ) (kind : TraceKind) (path : Str) (opens : Bool)
  /-- `none` for EINTR; an error that wrote nothing is a `write` of no bytes. -/
  | write (pid : ℕ) (count : Option ℕ)
  /-- `marker`: the marker file can be made; `count`: what is written of the sentinel. -/
  | mark (pid : ℕ) (marker : Bool) (count : ℕ)
deriving DecidableEq

namespace TraceState

def append (s : TraceState) (text : Str) : TraceState :=
  { s with log := some (s.log.getD [] ++ text) }

def setTracer (s : TraceState) (pid : ℕ) (t : Tracer) : TraceState :=
  { s with tracers := s.tracers.set pid t }

/-- `emit` after `ensure_log`, in a process that has the log open. -/
def startRecord (t : Tracer) (kind : TraceKind) (path : Str) : Tracer :=
  match recordPath t.cwd path with
  | some copied => { t with phase := .writing (kind, copied) }
  | none => { t with phase := .marking }

def emit (s : TraceState) (pid : ℕ) (t : Tracer) (kind : TraceKind) (path : Str) (opens : Bool) :
    TraceState :=
  if path = [] then s
  else
    let s := { s with emitted := s.emitted ++ [(kind, absolutePath t.cwd path)] }
    match t.logFd with
    | .opened => s.setTracer pid (startRecord t kind path)
    | .failed => s
    | .unopened =>
      if opens then
        (s.append []).setTracer pid (startRecord { t with logFd := .opened } kind path)
      else s.setTracer pid { t with logFd := .failed, phase := .marking }

def write (s : TraceState) (pid : ℕ) (t : Tracer) (record : Str) : Option ℕ → TraceState
  | none => s
  | some count =>
    (s.append (record.take count)).setTracer pid
      { t with phase := if record.length ≤ count then .idle else .marking }

def markIncomplete (s : TraceState) (pid : ℕ) (t : Tracer) (marker : Bool) (count : ℕ) :
    TraceState :=
  let s := s.setTracer pid { t with phase := .idle }
  if marker then { s with marker := true }
  else if t.logFd = .opened then s.append (sentinel.take count)
  else s

def step (s : TraceState) : TraceEvent → Option TraceState
  | .fork pid =>
    match s.tracers[pid]? with
    | some t => if t.phase = .idle then some { s with tracers := s.tracers ++ [t] } else none
    | none => none
  | .exec pid =>
    -- the log is opened with O_CLOEXEC
    match s.tracers[pid]? with
    | some t =>
      if t.phase = .idle then some (s.setTracer pid { t with logFd := .unopened }) else none
    | none => none
  | .chdir pid cwd =>
    match s.tracers[pid]? with
    | some t => if t.phase = .idle then some (s.setTracer pid { t with cwd := cwd }) else none
    | none => none
  | .emit pid kind path opens =>
    match s.tracers[pid]? with
    | some t => if t.phase = .idle then some (s.emit pid t kind path opens) else none
    | none => none
  | .write pid count =>
    match s.tracers[pid]? with
    | some t =>
      match t.phase with
      | .writing record => some (s.write pid t (record.line ++ ['\n']) count)
      | _ => none
    | none => none
  | .mark pid marker count =>
    match s.tracers[pid]? with
    | some t => if t.phase = .marking then some (s.markIncomplete pid t marker count) else none
    | none => none

/-- A process that lost a record can make the marker or write the whole sentinel. -/
def MarkSucceeds (s : TraceState) : TraceEvent → Prop
  | .mark pid marker count =>
    marker = true ∨
      (∃ t, s.tracers[pid]? = some t ∧ t.logFd = .opened) ∧ sentinel.length ≤ count
  | _ => True

end TraceState

/-! ## The reader -/

def TraceRecords.push (records : TraceRecords) : TraceRecord → TraceRecords
  | (.read, path) => { records with reads := records.reads ++ [path] }
  | (.absent, path) => { records with absent := records.absent ++ [path] }
  | (.tool, path) => { records with tools := records.tools ++ [path] }
  | (.loaded, path) => { records with loaded := records.loaded ++ [path] }
  | (.written, path) => { records with written := records.written ++ [path] }
  -- listings are covered by the paths probed within them
  | (.listing, _) => records

def readTraceLine (line : Str) : Option TraceRecord :=
  if line = "!".toList then none
  else if line.length < 3 ∨ (line.drop 1).head? ≠ some '\t' then none
  else if (line.drop 2).head? ≠ some '/' then none
  else
    match line.head?.bind TraceKind.ofChar with
    | some kind => some (kind, line.drop 2)
    | none => none

def readTraceRecords (log : Option Str) : Option TraceRecords :=
  match log with
  | none => none
  | some text =>
    if text ≠ [] ∧ text.getLast? ≠ some '\n' then none
    else
      (splitSkipEmpty '\n' text).foldlM
        (fun records line => (readTraceLine line).map records.push) {}

def traceMarkedIncomplete (s : TraceState) : Bool := s.marker

def TraceRecords.ofKind (records : TraceRecords) : TraceKind → List Str
  | .read => records.reads
  | .absent => records.absent
  | .tool => records.tools
  | .loaded => records.loaded
  | .written => records.written
  | .listing => []

/-! ## What a record says -/

theorem recordPath_eq_some {cwd : Option Str} {path copied : Str}
    (h : recordPath cwd path = some copied) :
    absolutePath cwd path = some copied ∧ '\n' ∉ copied := by
  revert h
  fun_cases recordPath cwd path
  next => nofun
  next => nofun
  next => nofun
  next front hfront taken hplain hwhole =>
    intro h
    obtain rfl := some.inj h
    have hcopied : taken = front ++ path := by
      refine congrArg (front ++ ·) (take_of_length_le ?_)
      rw [length_append, length_take] at hwhole
      omega
    refine ⟨?_, fun hmem => hplain (.inl hmem)⟩
    unfold absolutePath
    split at hfront
    next habs =>
      cases hfront
      rw [if_pos habs, hcopied, nil_append]
    next habs =>
      rw [if_neg habs, hcopied]
      revert hfront
      fun_cases cwdPrefix cwd (recordMax - 2) <;> rintro ⟨⟩
      next hdir hslash => simp only [if_neg hdir, if_pos hslash]
      next hdir hslash =>
        simp only [if_neg hdir, if_neg hslash]
        rw [append_assoc, singleton_append]

theorem isAbsolute_absolutePath {cwd : Option Str} {path abs : Str}
    (h : absolutePath cwd path = some abs) : isAbsolute abs = true := by
  revert h
  fun_cases absolutePath cwd path <;> rintro ⟨⟩
  next habs => exact habs
  next hdir _ => exact isAbsolute_append (by simpa using hdir) _
  next hdir _ => exact isAbsolute_append (by simpa using hdir) _

/-- A record the reader takes back from its line. -/
def TraceRecord.Plain (r : TraceRecord) : Prop := isAbsolute r.2 = true ∧ '\n' ∉ r.2

variable {r : TraceRecord} {logged : List TraceRecord}

theorem TraceRecord.Plain.line (h : r.Plain) :
    r.line ≠ [] ∧ '\n' ∉ r.line := by
  refine ⟨cons_ne_nil _ _, ?_⟩
  have hkind : '\n' ≠ r.1.char := by cases r.1 <;> decide
  simp [TraceRecord.line, hkind, h.2]

theorem readTraceLine_line (h : r.Plain) : readTraceLine r.line = some r := by
  obtain ⟨kind, path⟩ := r
  obtain ⟨habs, -⟩ := h
  cases path with
  | nil => cases habs
  | cons c path =>
    have hc : c = '/' := by simpa [isAbsolute] using habs
    subst hc
    have hmark : TraceRecord.line (kind, '/' :: path) ≠ "!".toList := by
      simp [TraceRecord.line]
    rw [readTraceLine, if_neg hmark]
    simp [TraceRecord.line, TraceKind.ofChar_char]

/-! ## Reading whole logs and marked ones -/

theorem foldlM_push_eq (records : TraceRecords) {rs : List TraceRecord} (h : ∀ r ∈ rs, r.Plain) :
    (rs.map TraceRecord.line).foldlM
        (fun records line => (readTraceLine line).map records.push) records =
      some (rs.foldl TraceRecords.push records) := by
  induction rs generalizing records with
  | nil => rfl
  | cons r rs ih =>
    rw [map_cons, foldlM_cons, readTraceLine_line (h r mem_cons_self)]
    exact ih (records.push r) (fun r' hr' => h r' (mem_cons_of_mem _ hr'))

theorem foldlM_push_eq_none {lines : List Str} {line : Str} (hmem : line ∈ lines)
    (hline : readTraceLine line = none) (records : TraceRecords) :
    lines.foldlM (fun records line => (readTraceLine line).map records.push) records = none := by
  induction lines generalizing records with
  | nil => cases hmem
  | cons first lines ih =>
    rw [foldlM_cons]
    rcases mem_cons.mp hmem with rfl | hmem
    · rw [hline]
      rfl
    · cases readTraceLine first with
      | none => rfl
      | some r => exact ih hmem _

theorem ofKind_push (records : TraceRecords) (r : TraceRecord) {kind : TraceKind}
    (hkind : kind ≠ .listing) :
    (records.push r).ofKind kind = records.ofKind kind ++ if r.1 = kind then [r.2] else [] := by
  obtain ⟨kind', path⟩ := r
  cases kind <;> cases kind' <;> simp [TraceRecords.push, TraceRecords.ofKind] at hkind ⊢

theorem ofKind_foldl_push (records : TraceRecords) (rs : List TraceRecord) {kind : TraceKind}
    (hkind : kind ≠ .listing) :
    (rs.foldl TraceRecords.push records).ofKind kind =
      records.ofKind kind ++ (rs.filter (·.1 = kind)).map Prod.snd := by
  induction rs generalizing records with
  | nil => simp
  | cons r rs ih =>
    rw [foldl_cons, ih, ofKind_push records r hkind, append_assoc]
    by_cases h : r.1 = kind <;> simp [h]

theorem readTraceRecords_lines {rs : List TraceRecord} (h : ∀ r ∈ rs, r.Plain) :
    readTraceRecords (some ((rs.map TraceRecord.line).flatMap (· ++ ['\n']))) =
      some (rs.foldl TraceRecords.push {}) := by
  have hsplit : splitSkipEmpty '\n' ((rs.map TraceRecord.line).flatMap (· ++ ['\n'])) =
      rs.map TraceRecord.line := by
    apply splitSkipEmpty_lines
    intro line hline
    obtain ⟨r, hr, rfl⟩ := mem_map.mp hline
    exact (h r hr).line
  have hends : ¬ ((rs.map TraceRecord.line).flatMap (· ++ ['\n']) ≠ [] ∧
      ((rs.map TraceRecord.line).flatMap (· ++ ['\n'])).getLast? ≠ some '\n') := by
    rintro ⟨hne, hlast⟩
    rcases eq_nil_or_concat rs with rfl | ⟨rs, r, rfl⟩
    · exact hne rfl
    · exact hlast (by simp)
  rw [readTraceRecords]
  simp only [if_neg hends, hsplit, foldlM_push_eq {} h]

/-- The sentinel is a line of its own wherever it landed. -/
theorem readTraceRecords_sentinel {log : Option Str} (h : sentinel <:+: log.getD []) :
    readTraceRecords log = none := by
  cases log with
  | none => rfl
  | some text =>
    obtain ⟨front, rest, htext⟩ := h
    have hsplit : split '\n' text = split '\n' front ++ (["!".toList] ++ split '\n' rest) := by
      have hshape : text = front ++ '\n' :: ("!".toList ++ '\n' :: rest) := by
        rw [← getD_some (a := text), ← htext]
        simp [sentinel]
      have hmark : split '\n' "!".toList = ["!".toList] := rfl
      rw [hshape, split_append, split_append, hmark]
    have hmem : "!".toList ∈ splitSkipEmpty '\n' text := by
      rw [splitSkipEmpty, hsplit]
      simp
    rw [readTraceRecords]
    split
    next => rfl
    next => exact foldlM_push_eq_none hmem rfl {}

/-! ## Runs -/

namespace TraceState

variable {s s' : TraceState} {pid : ℕ} {t : Tracer}

/-- The move of one process. -/
inductive Move (s : TraceState) (pid : ℕ) (t : Tracer) : TraceEvent → TraceState → Prop where
  | fork (hidle : t.phase = .idle) : Move s pid t (.fork pid) { s with tracers := s.tracers ++ [t] }
  | exec (hidle : t.phase = .idle) :
    Move s pid t (.exec pid) (s.setTracer pid { t with logFd := .unopened })
  | chdir (hidle : t.phase = .idle) (cwd : Option Str) :
    Move s pid t (.chdir pid cwd) (s.setTracer pid { t with cwd := cwd })
  | emit (hidle : t.phase = .idle) (kind : TraceKind) (path : Str) (opens : Bool) :
    Move s pid t (.emit pid kind path opens) (s.emit pid t kind path opens)
  | write {r : TraceRecord} (hwriting : t.phase = .writing r) (count : Option ℕ) :
    Move s pid t (.write pid count) (s.write pid t (r.line ++ ['\n']) count)
  | mark (hmarking : t.phase = .marking) (marker : Bool) (count : ℕ) :
    Move s pid t (.mark pid marker count) (s.markIncomplete pid t marker count)

theorem exists_move {e : TraceEvent} (h : s.step e = some s') :
    ∃ pid t, s.tracers[pid]? = some t ∧ Move s pid t e s' := by
  revert h
  fun_cases step s e <;> rintro ⟨⟩
  next pid t ht hidle => exact ⟨pid, t, ht, .fork hidle⟩
  next pid t ht hidle => exact ⟨pid, t, ht, .exec hidle⟩
  next pid cwd t ht hidle => exact ⟨pid, t, ht, .chdir hidle cwd⟩
  next pid kind path opens t ht hidle => exact ⟨pid, t, ht, .emit hidle kind path opens⟩
  next pid count t ht r hwriting => exact ⟨pid, t, ht, .write hwriting count⟩
  next pid marker count t ht hmarking => exact ⟨pid, t, ht, .mark hmarking marker count⟩

/-! ### A lost record is told -/

/-- The trace will be refused: it is marked, or a process is about to mark it. -/
def Flagged (s : TraceState) : Prop :=
  s.marker = true ∨ sentinel <:+: s.log.getD [] ∨ ∃ t ∈ s.tracers, t.phase = .marking

theorem flagged_setTracer (ht : s.tracers[pid]? = some t) {t' : Tracer}
    (hphase : t'.phase = .marking) : (s.setTracer pid t').Flagged := by
  obtain ⟨hpid, -⟩ := List.getElem?_eq_some_iff.mp ht
  exact .inr (.inr ⟨t', List.mem_set hpid t', hphase⟩)

theorem mem_set_of_ne {tracers : List Tracer} {t₀ t' : Tracer} (ht : tracers[pid]? = some t)
    (hmem : t₀ ∈ tracers) (hne : t₀ ≠ t) : t₀ ∈ tracers.set pid t' := by
  obtain ⟨i, hi⟩ := getElem?_of_mem hmem
  have hpid : pid ≠ i := by
    rintro rfl
    exact hne (some.inj (hi.symm.trans ht))
  exact mem_of_getElem? ((getElem?_set_ne hpid).trans hi)

/-- Marks stay, the log only grows, and a process keeps what it is about to do while
another one moves. -/
theorem Flagged.setTracer (h : s.Flagged) (ht : s.tracers[pid]? = some t)
    (hphase : t.phase ≠ .marking) (t' : Tracer) : (s.setTracer pid t').Flagged := by
  rcases h with hmarker | hlog | ⟨t₀, hmem, hmarking⟩
  · exact .inl hmarker
  · exact .inr (.inl hlog)
  · refine .inr (.inr ⟨t₀, mem_set_of_ne ht hmem ?_, hmarking⟩)
    rintro rfl
    exact hphase hmarking

theorem Flagged.append (h : s.Flagged) (text : Str) : (s.append text).Flagged := by
  rcases h with hmarker | hlog | hmarking
  · exact .inl hmarker
  · exact .inr (.inl (hlog.trans (prefix_append _ _).isInfix))
  · exact .inr (.inr hmarking)

theorem Flagged.emit (h : s.Flagged) (ht : s.tracers[pid]? = some t) (hidle : t.phase = .idle)
    (kind : TraceKind) (path : Str) (opens : Bool) : (s.emit pid t kind path opens).Flagged := by
  have hphase : t.phase ≠ .marking := by simp [hidle]
  rw [TraceState.emit]
  split
  next => exact h
  next =>
    have hcalled : Flagged { s with emitted := s.emitted ++ [(kind, absolutePath t.cwd path)] } := h
    cases t.logFd with
    | opened => exact hcalled.setTracer ht hphase _
    | failed => exact hcalled
    | unopened =>
      cases opens with
      | true => exact (hcalled.append []).setTracer ht hphase _
      | false => exact hcalled.setTracer ht hphase _

theorem flagged_markIncomplete {marker : Bool} {count : ℕ}
    (hok : marker = true ∨ t.logFd = .opened ∧ sentinel.length ≤ count) :
    (s.markIncomplete pid t marker count).Flagged := by
  cases marker with
  | true => exact .inl rfl
  | false =>
    obtain ⟨hfd, hcount⟩ := hok.resolve_left Bool.false_ne_true
    have hstate : s.markIncomplete pid t false count =
        (s.setTracer pid { t with phase := .idle }).append sentinel := by
      simp [markIncomplete, hfd, take_of_length_le hcount]
    rw [hstate]
    exact .inr (.inl (suffix_append _ _).isInfix)

theorem Flagged.move {e : TraceEvent} (h : s.Flagged) (ht : s.tracers[pid]? = some t)
    (hmove : Move s pid t e s') (hok : s.MarkSucceeds e) : s'.Flagged := by
  cases hmove with
  | fork hidle =>
    rcases h with hmarker | hlog | ⟨t₀, hmem, hmarking⟩
    · exact .inl hmarker
    · exact .inr (.inl hlog)
    · exact .inr (.inr ⟨t₀, mem_append_left _ hmem, hmarking⟩)
  | exec hidle | chdir hidle cwd => exact h.setTracer ht (by simp [hidle]) _
  | emit hidle kind path opens => exact h.emit ht hidle kind path opens
  | write hwriting count =>
    cases count with
    | none => exact h
    | some count => exact (h.append _).setTracer ht (by simp [hwriting]) _
  | mark hmarking marker count =>
    apply flagged_markIncomplete
    refine hok.imp_right ?_
    rintro ⟨⟨t', ht', hfd⟩, hcount⟩
    cases ht.symm.trans ht'
    exact ⟨hfd, hcount⟩

/-! ### Until a record is lost the log holds them all -/

end TraceState

/-- The record a process has made and not yet written. -/
def Tracer.inFlight (t : Tracer) : Option TraceRecord :=
  match t.phase with
  | .writing r => some r
  | _ => none

namespace TraceState

variable {s s' : TraceState} {pid : ℕ} {t : Tracer}

def inFlight (s : TraceState) : List TraceRecord := s.tracers.filterMap Tracer.inFlight

/-- No record is lost: those in the log and those on their way are the calls of `emit`. -/
structure Whole (s : TraceState) (logged : List TraceRecord) : Prop where
  log_eq : s.log.getD [] = (logged.map TraceRecord.line).flatMap (· ++ ['\n'])
  emitted_perm : s.emitted.Perm ((logged ++ s.inFlight).map fun r => (r.1, some r.2))
  plain : ∀ r ∈ logged ++ s.inFlight, r.Plain
  usable : ∀ t ∈ s.tracers, t.logFd ≠ .failed

theorem inFlight_perm (ht : s.tracers[pid]? = some t) :
    s.inFlight.Perm (t.inFlight.toList ++ (s.tracers.eraseIdx pid).filterMap Tracer.inFlight) := by
  obtain ⟨hpid, rfl⟩ := List.getElem?_eq_some_iff.mp ht
  have hperm := (List.getElem_cons_eraseIdx_perm hpid).symm.filterMap Tracer.inFlight
  rw [List.filterMap_cons] at hperm
  cases hfly : (s.tracers[pid]).inFlight with
  | none | some r =>
    simp only [hfly] at hperm
    exact hperm

theorem inFlight_setTracer_perm (ht : s.tracers[pid]? = some t) (t' : Tracer) :
    (s.setTracer pid t').inFlight.Perm
      (t'.inFlight.toList ++ (s.tracers.eraseIdx pid).filterMap Tracer.inFlight) := by
  obtain ⟨hpid, -⟩ := List.getElem?_eq_some_iff.mp ht
  have hget : (s.setTracer pid t').tracers[pid]? = some t' := List.getElem?_set_self hpid
  have hperm := inFlight_perm hget
  rwa [setTracer, List.eraseIdx_set_eq] at hperm

theorem Whole.setTracer_idle (h : s.Whole logged)
    (ht : s.tracers[pid]? = some t) {t' : Tracer} (hfly : t.inFlight = none)
    (hfly' : t'.inFlight = none) (husable : t'.logFd ≠ .failed) :
    (s.setTracer pid t').Whole logged := by
  have hperm : (s.setTracer pid t').inFlight.Perm s.inFlight := by
    have hset := inFlight_setTracer_perm ht t'
    rw [hfly', ← hfly] at hset
    exact hset.trans (inFlight_perm ht).symm
  refine ⟨h.log_eq, h.emitted_perm.trans ((hperm.symm.append_left _).map _), ?_, ?_⟩
  · intro r hr
    exact h.plain r ((hperm.append_left _).mem_iff.mp hr)
  · intro t₀ ht₀
    rcases mem_or_eq_of_mem_set ht₀ with hmem | rfl
    · exact h.usable t₀ hmem
    · exact husable

theorem Whole.append_nil (h : s.Whole logged) :
    (s.append []).Whole logged :=
  ⟨(List.append_nil _).trans h.log_eq, h.emitted_perm, h.plain, h.usable⟩

theorem Whole.startRecord (h : s.Whole logged)
    (ht : s.tracers[pid]? = some t) (hfly : t.inFlight = none) (t' : Tracer)
    (hphase : t'.phase = .writing r) (hplain : r.Plain) (husable : t'.logFd ≠ .failed) :
    Whole (setTracer { s with emitted := s.emitted ++ [(r.1, some r.2)] } pid t') logged := by
  have hfly' : t'.inFlight = some r := by rw [Tracer.inFlight, hphase]
  have hperm : (s.setTracer pid t').inFlight.Perm (r :: s.inFlight) := by
    have hset := inFlight_setTracer_perm ht t'
    have hold := inFlight_perm ht
    rw [hfly'] at hset
    rw [hfly] at hold
    exact hset.trans (hold.symm.cons r)
  refine ⟨h.log_eq, ?_, ?_, ?_⟩
  · have hnew : (s.emitted ++ [(r.1, some r.2)]).Perm
        ((r :: (logged ++ s.inFlight)).map fun r => (r.1, some r.2)) :=
      (perm_append_singleton _ _).trans (h.emitted_perm.cons _)
    exact hnew.trans ((perm_middle.symm.trans (hperm.symm.append_left _)).map _)
  · intro r' hr'
    have hmem : r' ∈ logged ++ r :: s.inFlight := (hperm.append_left _).mem_iff.mp hr'
    rcases mem_cons.mp (perm_middle.mem_iff.mp hmem) with rfl | hmem
    · exact hplain
    · exact h.plain r' hmem
  · intro t₀ ht₀
    rcases mem_or_eq_of_mem_set ht₀ with hmem | rfl
    · exact h.usable t₀ hmem
    · exact husable

theorem Whole.written (h : s.Whole logged)
    (ht : s.tracers[pid]? = some t) (hphase : t.phase = .writing r) :
    Whole ((s.append (r.line ++ ['\n'])).setTracer pid { t with phase := .idle })
      (logged ++ [r]) := by
  have hfly : t.inFlight = some r := by rw [Tracer.inFlight, hphase]
  have hperm : s.inFlight.Perm (r :: (s.setTracer pid { t with phase := .idle }).inFlight) := by
    have hold := inFlight_perm ht
    rw [hfly] at hold
    exact hold.trans ((inFlight_setTracer_perm ht { t with phase := .idle }).symm.cons r)
  have hall : (logged ++ s.inFlight).Perm
      (logged ++ [r] ++ (s.setTracer pid { t with phase := .idle }).inFlight) := by
    rw [append_assoc]
    exact hperm.append_left logged
  refine ⟨?_, h.emitted_perm.trans (hall.map _), ?_, ?_⟩
  · change s.log.getD [] ++ (r.line ++ ['\n']) = _
    rw [h.log_eq]
    simp
  · intro r' hr'
    exact h.plain r' (hall.mem_iff.mpr hr')
  · intro t₀ ht₀
    rcases mem_or_eq_of_mem_set ht₀ with hmem | rfl
    · exact h.usable t₀ hmem
    · exact h.usable t (mem_of_getElem? ht)

theorem inFlight_of_idle (hidle : t.phase = .idle) : t.inFlight = none := by
  rw [Tracer.inFlight, hidle]

section

variable (h : s.Whole logged) (ht : s.tracers[pid]? = some t)

include h ht

theorem Whole.record
    (hidle : t.phase = .idle) (kind : TraceKind) (path : Str)
    (t' : Tracer) (hcwd : t'.cwd = t.cwd) (husable : t'.logFd ≠ .failed) :
    let s' := setTracer { s with emitted := s.emitted ++ [(kind, absolutePath t.cwd path)] } pid
      (TraceState.startRecord t' kind path)
    s'.Flagged ∨ s'.Whole logged := by
  rw [TraceState.startRecord]
  cases hpath : recordPath t'.cwd path with
  | none => exact .inl (flagged_setTracer ht rfl)
  | some copied =>
    obtain ⟨habs, hplain⟩ := recordPath_eq_some hpath
    rw [← hcwd, habs]
    have hrecord : TraceRecord.Plain (kind, copied) := ⟨isAbsolute_absolutePath habs, hplain⟩
    exact .inr (h.startRecord ht (inFlight_of_idle hidle)
      { t' with phase := .writing (kind, copied) } rfl hrecord husable)

theorem Whole.emit
    (hidle : t.phase = .idle) (kind : TraceKind) (path : Str)
    (opens : Bool) :
    (s.emit pid t kind path opens).Flagged ∨ (s.emit pid t kind path opens).Whole logged := by
  have husable := h.usable t (mem_of_getElem? ht)
  rw [TraceState.emit]
  split
  next => exact .inr h
  next =>
    cases hfd : t.logFd with
    | opened => exact h.record ht hidle kind path t rfl husable
    | failed => exact absurd hfd husable
    | unopened =>
      cases opens with
      | true =>
        exact h.append_nil.record ht hidle kind path { t with logFd := .opened } rfl
          (by simp)
      | false => exact .inl (flagged_setTracer ht rfl)

theorem Whole.write
    (hphase : t.phase = .writing r) (count : Option ℕ) :
    (s.write pid t (r.line ++ ['\n']) count).Flagged ∨
      ∃ logged', (s.write pid t (r.line ++ ['\n']) count).Whole logged' := by
  cases count with
  | none => exact .inr ⟨logged, h⟩
  | some count =>
    rw [TraceState.write]
    split
    next hall =>
      rw [take_of_length_le hall]
      exact .inr ⟨logged ++ [r], h.written ht hphase⟩
    next =>
      have hget : (s.append ((r.line ++ ['\n']).take count)).tracers[pid]? = some t := ht
      exact .inl (flagged_setTracer hget rfl)

theorem Whole.move {e : TraceEvent}
    (hmove : Move s pid t e s') (hok : s.MarkSucceeds e) :
    s'.Flagged ∨ ∃ logged', s'.Whole logged' := by
  have husable := h.usable t (mem_of_getElem? ht)
  cases hmove with
  | fork hidle =>
    have hfly : inFlight { s with tracers := s.tracers ++ [t] } = s.inFlight := by
      simp [inFlight, inFlight_of_idle hidle]
    refine .inr ⟨logged, h.log_eq, ?_, ?_, ?_⟩
    · rw [hfly]
      exact h.emitted_perm
    · rw [hfly]
      exact h.plain
    · intro t₀ ht₀
      rcases mem_append.mp ht₀ with hmem | hmem
      · exact h.usable t₀ hmem
      · exact mem_singleton.mp hmem ▸ husable
  | exec hidle =>
    exact .inr ⟨logged, h.setTracer_idle ht (inFlight_of_idle hidle) (inFlight_of_idle hidle)
      (by simp)⟩
  | chdir hidle cwd =>
    exact .inr ⟨logged, h.setTracer_idle ht (inFlight_of_idle hidle) (inFlight_of_idle hidle)
      husable⟩
  | emit hidle kind path opens =>
    exact (h.emit ht hidle kind path opens).imp_right fun hwhole => ⟨logged, hwhole⟩
  | write hwriting count => exact h.write ht hwriting count
  | mark hmarking marker count =>
    have hflagged : s.Flagged := .inr (.inr ⟨t, mem_of_getElem? ht, hmarking⟩)
    exact .inl (hflagged.move ht (.mark hmarking marker count) hok)

end

theorem flagged_or_whole {tracers : List Tracer} {events : List TraceEvent}
    (hstart : ∀ t ∈ tracers, t.phase = .idle ∧ t.logFd = .unopened)
    (h : StepMachine.Run step MarkSucceeds { tracers } events s) :
    s.Flagged ∨ ∃ logged, s.Whole logged := by
  have hstep : ∀ s e s', step s e = some s' → s.MarkSucceeds e →
      (s.Flagged ∨ ∃ logged, s.Whole logged) → (s'.Flagged ∨ ∃ logged, s'.Whole logged) := by
    intro s e s' he hok hinv
    obtain ⟨pid, t, ht, hmove⟩ := exists_move he
    rcases hinv with hflagged | ⟨logged, hwhole⟩
    · exact .inl (hflagged.move ht hmove hok)
    · exact hwhole.move ht hmove hok
  have hfly : inFlight { tracers } = [] := by
    rw [inFlight, filterMap_eq_nil_iff]
    exact fun t ht => inFlight_of_idle (hstart t ht).1
  refine h.invariant hstep (.inr ⟨[], rfl, ?_, ?_, ?_⟩)
  · rw [hfly]
    exact .refl _
  · rw [hfly]
    simp
  · intro t ht
    simp [(hstart t ht).2]

/-- A trace that is read is the whole trace. Of the processes nothing is assumed but that
they have returned from their calls. -/
theorem trace_complete_or_refused {tracers : List Tracer} {events : List TraceEvent}
    (hstart : ∀ t ∈ tracers, t.phase = .idle ∧ t.logFd = .unopened)
    (h : StepMachine.Run step MarkSucceeds { tracers } events s)
    (hdone : ∀ t ∈ s.tracers, t.phase = .idle) :
    traceMarkedIncomplete s = true ∨ readTraceRecords s.log = none ∨
      ∃ records, readTraceRecords s.log = some records ∧
        ∀ kind, kind ≠ .listing →
          ((records.ofKind kind).map some).Perm
            ((s.emitted.filter (·.1 = kind)).map Prod.snd) := by
  rcases flagged_or_whole hstart h with (hmarker | hlog | ⟨t, ht, hmarking⟩) | ⟨logged, hwhole⟩
  · exact .inl hmarker
  · exact .inr (.inl (readTraceRecords_sentinel hlog))
  · rw [hdone t ht] at hmarking
    cases hmarking
  · cases hlog : s.log with
    | none => exact .inr (.inl rfl)
    | some text =>
      have hfly : s.inFlight = [] :=
        List.filterMap_eq_nil_iff.mpr fun t ht => inFlight_of_idle (hdone t ht)
      have hemitted := hwhole.emitted_perm
      have hplain := hwhole.plain
      have htext := hwhole.log_eq
      rw [hfly, List.append_nil] at hemitted hplain
      rw [hlog, Option.getD_some] at htext
      refine .inr (.inr ⟨_, htext ▸ readTraceRecords_lines hplain, ?_⟩)
      intro kind hkind
      rw [ofKind_foldl_push {} logged hkind]
      refine List.Perm.trans (.of_eq ?_) ((hemitted.filter _).map _).symm
      have hempty : TraceRecords.ofKind {} kind = [] := by cases kind <;> rfl
      simp [hempty, List.filter_map, Function.comp_def]

-- Two processes in two directories, whose calls overlap.
def twoTracers : List Tracer := [⟨some "/w".toList, .unopened, .idle⟩, ⟨none, .unopened, .idle⟩]

def twoCalls : List TraceEvent :=
  [.emit 0 .read "a.o".toList true, .emit 1 .absent "/lib/b.so".toList true, .write 1 (some 12),
    .write 0 none, .write 0 (some 9)]

def bothLogged : TraceState where
  log := some "M\t/lib/b.so\nR\t/w/a.o\n".toList
  tracers := [⟨some "/w".toList, .opened, .idle⟩, ⟨none, .opened, .idle⟩]
  emitted := [(.read, some "/w/a.o".toList), (.absent, some "/lib/b.so".toList)]

theorem run_twoCalls :
    StepMachine.Run step MarkSucceeds { tracers := twoTracers } twoCalls bothLogged :=
  .cons rfl trivial <| .cons rfl trivial <| .cons rfl trivial <| .cons rfl trivial <|
    .cons rfl trivial <| .nil _

theorem trace_complete_or_refused_twoCalls :
    traceMarkedIncomplete bothLogged = true ∨ readTraceRecords bothLogged.log = none ∨
      ∃ records, readTraceRecords bothLogged.log = some records ∧
        ∀ kind, kind ≠ .listing →
          ((records.ofKind kind).map some).Perm
            ((bothLogged.emitted.filter (·.1 = kind)).map Prod.snd) :=
  trace_complete_or_refused (by decide) run_twoCalls (by decide)

-- A record cut short and continued by another one still reads as a record; the sentinel
-- after them is what refuses the log.
example : (readTraceRecords (some "R\t/w/aR\t/w/b\n".toList)).isSome = true ∧
    (readTraceRecords (some "R\t/w/aR\t/w/b\n\n!\n".toList)).isSome = false := by decide

end TraceState

end Vcache

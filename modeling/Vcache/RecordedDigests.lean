import Vcache.CxxTrace
import Vcache.FileMemo

/-!
# Digests recorded while files change

After a compile the manifest gets the digest of every file the compile read
(`RecordDepfileInputs`, `AddCxxTraceInputs`). Each file is read first and its times are
looked at afterwards; a time at or after the start of the compile declines. The times are
the clock's, rounded down, and the start is not: a file that changes right after the start
can get a time before it.
-/

namespace Vcache

open MemoState List Option

open TimedFiles (stamp Files Change Reader)

variable {hash : Str → Str} {memo' : MemoState} {phase : RecordPhase} {granule : ℕ}
  {rest : List Str} {e : RecordEvent}

inductive FileKind where
  | regular | directory | other
deriving DecidableEq

/-- What the two functions are called with. A file's kind never changes. -/
structure RecordInput where
  hash : Str → Str
  granule : ℕ
  roots : RootMap
  cwd : Str
  prerequisites : List Str
  scanIncbin : Bool
  trace : CxxTraceInputs
  kind : FileId → FileKind

def RecordInput.depPaths (inp : RecordInput) : List Str :=
  (inp.prerequisites.map (cxxAbsolutePath inp.cwd)).eraseDups

def RecordInput.inputs (inp : RecordInput) : List Str := inp.depPaths ++ inp.trace.reads

def contentAt (files : HostFiles) (path : Str) : Option Str :=
  (files.names path).map (fun id => (files.inodes id).content)

def lastChangeNs (files : HostFiles) (path : Str) : Option ℕ :=
  (files.names path).map (fun id => max (files.inodes id).mtime (files.inodes id).ctime)

/-- A recorded file; `since` are the contents its path led to from the start of the compile to
the look at its times. -/
structure RecordedDigest where
  path : Str
  digest : Str
  since : List (Option Str)
deriving DecidableEq

/-- A recorded digest is that of all the contents the path led to. -/
def RecordedDigest.Throughout (hash : Str → Str) (file : RecordedDigest) : Prop :=
  file.since ≠ [] ∧ ∀ contents ∈ file.since, ∃ text, contents = some text ∧ file.digest = hash text

inductive RecordPhase where
  | waiting
  | compiling
  /-- At the head of the loop of `RecordDepfileInputs`. -/
  | depfile (rest : List Str)
  | depReading (path : Str) (rest : List Str) (reader : Reader FileId Char)
  | depRead (path : Str) (rest : List Str) (bytes : Option Str)
  /-- At the head of the loop of `AddCxxTraceInputs`. -/
  | trace (rest : List Str)
  | traceStatted (path : Str) (rest : List Str)
  | traceHashing (path : Str) (rest : List Str) (cid : ℕ)
  | traceHashed (path : Str) (rest : List Str) (digest : Option Str)
  | declined (why : Str)

structure RecordState where
  memo : MemoState
  started : Option ℕ := none
  sinceStart : Str → List (Option Str) := fun _ => []
  phase : RecordPhase := .waiting
  recorded : List RecordedDigest := []

inductive RecordEvent where
  /-- Files change, and other processes hash files. -/
  | memo (e : MemoEvent)
  | startClock
  | record
  | depOpen (ok : Bool)
  | depRead (bytes : ℕ)
  | depFinish (ok : Bool)
  | depStat
  | addTrace
  | traceStat
  | traceCall (cid : ℕ)
  | traceTake
  | traceCheck

namespace RecordState

def goto (s : RecordState) (phase : RecordPhase) : RecordState := { s with phase := phase }

def decline (s : RecordState) (why : Str) : RecordState :=
  { s with phase := .declined why, recorded := [] }

def recordDigest (s : RecordState) (path digest : Str) (phase : RecordPhase) : RecordState :=
  { s with
    phase := phase
    recorded := s.recorded ++ [⟨path, digest, s.sinceStart path⟩] }

/-- The rest of a turn of `RecordDepfileInputs` once the file was read. -/
def depStat (inp : RecordInput) (s : RecordState) (started : ℕ) (path : Str) (rest : List Str)
    (bytes : Option Str) : RecordState :=
  match bytes, lastChangeNs s.memo.files path with
  | some text, some changed =>
    if started ≤ changed then
      s.decline (path ++ " changed while it was being compiled".toList)
    else match findTimeMacro text with
      | some macroName => s.decline (path ++ " uses ".toList ++ macroName)
      | none =>
        if inp.scanIncbin && containsIncbin text then
          s.decline (path ++ " contains .incbin".toList)
        else s.recordDigest path (inp.hash text) (.depfile rest)
  | _, _ => s.decline ("cannot read ".toList ++ path)

/-- The rest of a turn of `AddCxxTraceInputs` once the file was hashed. -/
def traceCheck (s : RecordState) (started : ℕ) (path : Str) (rest : List Str)
    (digest : Option Str) : RecordState :=
  match digest, lastChangeNs s.memo.files path with
  | some digest, some changed =>
    if started ≤ changed then
      s.decline (path ++ " changed while it was being compiled".toList)
    else s.recordDigest path digest (.trace rest)
  | _, _ => s.decline ("cannot read ".toList ++ path)

def listed (inp : RecordInput) (s : RecordState) : List Str :=
  s.recorded.map (fun file =>
    withoutDotSegments (inp.roots.localize (inp.roots.canonicalize file.path)))

def traceReads (inp : RecordInput) (s : RecordState) : List Str :=
  (inp.trace.reads.filter (fun path => path ∉ s.listed inp)).eraseDups

def traceStat (inp : RecordInput) (s : RecordState) (path : Str) (rest : List Str) :
    RecordState :=
  match s.memo.files.names path with
  | none =>
    if path ∈ inp.trace.written then s.goto (.trace rest)
    else s.decline (path ++ " was read by the compile and is gone".toList)
  | some id =>
    match inp.kind id with
    | .directory => s.goto (.trace rest)
    | .other => s.decline (path ++ " is not a regular file".toList)
    | .regular => s.goto (.traceStatted path rest)

def callDigest : MemoCall → Option (Option Str)
  | .returned digest => some digest
  | .answered _ _ _ digest => some (some digest)
  | _ => none

def setMemo (s : RecordState) (memo : MemoState) : RecordState :=
  { s with
    memo := memo
    sinceStart := if s.started = none then s.sinceStart
      else fun path => s.sinceStart path ++ [contentAt memo.files path] }

def step (inp : RecordInput) (s : RecordState) (e : RecordEvent) : Option RecordState :=
  match e, s.phase with
  | .memo e, _ => (s.memo.step inp.hash inp.granule e).map s.setMemo
  | .startClock, .waiting => some { s with
      started := some s.memo.files.clock
      sinceStart := fun path => [contentAt s.memo.files path]
      phase := .compiling }
  | .record, .compiling => some (s.goto (.depfile inp.depPaths))
  | .depOpen ok, .depfile (path :: rest) =>
    match ok, s.memo.files.names path with
    | true, some file => some (s.goto (.depReading path rest ⟨file, []⟩))
    | _, _ => some (s.goto (.depRead path rest none))
  | .depRead bytes, .depReading path rest reader =>
    some (s.goto (.depReading path rest (reader.read s.memo.files bytes)))
  | .depFinish ok, .depReading path rest reader =>
    if ok = false then some (s.goto (.depRead path rest none))
    else if reader.AtEnd s.memo.files then some (s.goto (.depRead path rest (some reader.seen)))
    else none
  | .depStat, .depRead path rest bytes =>
    s.started.map (fun started => s.depStat inp started path rest bytes)
  | .addTrace, .depfile [] => some (s.goto (.trace (s.traceReads inp)))
  | .traceStat, .trace (path :: rest) => some (s.traceStat inp path rest)
  | .traceCall cid, .traceStatted path rest =>
    (s.memo.step inp.hash inp.granule (.start cid path)).map (fun memo =>
      { s with memo := memo, phase := .traceHashing path rest cid })
  | .traceTake, .traceHashing path rest cid =>
    (callDigest (s.memo.calls cid)).map (fun digest => s.goto (.traceHashed path rest digest))
  | .traceCheck, .traceHashed path rest digest =>
    s.started.map (fun started => s.traceCheck started path rest digest)
  | _, _ => none

/-- The change does nothing to the file the path leads to. -/
def LeavesAlone (granule : ℕ) (files : HostFiles) (c : Change Str FileId Char) (path : Str) :
    Prop :=
  ∀ id, (files.change granule c).names path = some id →
    files.names path = some id ∧ (files.change granule c).inodes id = files.inodes id

/-- From the start of the compile to the next stamp no input changes. -/
def QuietGranule (inp : RecordInput) (s : RecordState) : RecordEvent → Prop
  | .memo (.change c) => ∀ started, s.started = some started →
      started ≤ stamp inp.granule s.memo.files.clock ∨
        ∀ path ∈ inp.inputs, LeavesAlone inp.granule s.memo.files c path
  | _ => True

/-! ## What holds along a run -/

/-- The path leads to a file that was last changed before the start. -/
def Old (started : ℕ) (files : HostFiles) (path : Str) (id : FileId) : Prop :=
  files.names path = some id ∧ (files.inodes id).ctime < started

/-- A call that hashes the path for the recording, by how far it has come. -/
def CallSteady (hash : Str → Str) (started : ℕ) (files : HostFiles) (path : Str) :
    MemoCall → Prop
  | .idle => False
  | .begun asked _ => asked = path
  | .statted asked _ before _ since => asked = path ∧ ∀ id, Old started files path id →
      before.file = id ∧ ∀ contents ∈ since, contents = (files.inodes id).content
  | .hashing task => task.path = path
  | .reading task reader => task.path = path ∧ ∀ id, Old started files path id →
      reader.Reads files id
  | .hashed task seen => task.path = path ∧ ∀ id, Old started files path id →
      seen = (files.inodes id).content
  | .storing _ seen => ∀ id, Old started files path id → seen = (files.inodes id).content
  | .returned digest => ∀ id, Old started files path id → ∀ text ∈ digest,
      text = hash (files.inodes id).content
  | .answered _ _ since _ => ∀ id, Old started files path id →
      ∀ contents ∈ since, contents = (files.inodes id).content

/-- What the recording knows, by how far it has come. -/
def PhaseSteady (inp : RecordInput) (started : ℕ) (memo : MemoState) : RecordPhase → Prop
  | .waiting => False
  | .compiling => True
  | .depfile rest => ∀ path ∈ rest, path ∈ inp.inputs
  | .depReading path rest reader => (∀ other ∈ path :: rest, other ∈ inp.inputs) ∧
      ∀ id, Old started memo.files path id → reader.Reads memo.files id
  | .depRead path rest bytes => (∀ other ∈ path :: rest, other ∈ inp.inputs) ∧
      ∀ id, Old started memo.files path id → ∀ text ∈ bytes,
        text = (memo.files.inodes id).content
  | .trace rest => ∀ path ∈ rest, path ∈ inp.inputs
  | .traceStatted path rest => ∀ other ∈ path :: rest, other ∈ inp.inputs
  | .traceHashing path rest cid => (∀ other ∈ path :: rest, other ∈ inp.inputs) ∧
      CallSteady inp.hash started memo.files path (memo.calls cid)
  | .traceHashed path rest digest => (∀ other ∈ path :: rest, other ∈ inp.inputs) ∧
      ∀ id, Old started memo.files path id → ∀ text ∈ digest,
        text = inp.hash (memo.files.inodes id).content
  | .declined _ => True

structure Steady (inp : RecordInput) (started : ℕ) (s : RecordState) : Prop where
  since_ne : ∀ path, s.sinceStart path ≠ []
  since : ∀ path ∈ inp.inputs, ∀ id, Old started s.memo.files path id →
    ∀ contents ∈ s.sinceStart path, contents = some (s.memo.files.inodes id).content
  phase : PhaseSteady inp started s.memo s.phase
  recorded : ∀ file ∈ s.recorded, RecordedDigest.Throughout inp.hash file

variable {inp : RecordInput} {started : ℕ} {s s' : RecordState}

/-- A change does nothing to an input that has an old stamp afterwards. -/
theorem old_of_change {c : Change Str FileId Char} {files : HostFiles} {path : Str} {id : FileId}
    (hquiet : started ≤ stamp inp.granule files.clock ∨
      ∀ path ∈ inp.inputs, LeavesAlone inp.granule files c path)
    (hpath : path ∈ inp.inputs) (h : Old started (files.change inp.granule c) path id) :
    Old started files path id ∧ (files.change inp.granule c).inodes id = files.inodes id := by
  obtain ⟨hname, hctime⟩ := h
  rcases hquiet with hstamp | halone
  · have hbound : started - 1 < stamp inp.granule files.clock := by omega
    have hold := Files.name_untouched c hbound hname (by omega)
    have hinode : (files.change inp.granule c).inodes id = files.inodes id :=
      Files.inode_untouched c hbound (by omega)
    exact ⟨⟨hold, hinode ▸ hctime⟩, hinode⟩
  · obtain ⟨hold, hinode⟩ := halone path hpath id hname
    exact ⟨⟨hold, hinode ▸ hctime⟩, hinode⟩

section Change

variable {files files' : HostFiles} {path : Str}

theorem CallSteady.change {call : MemoCall}
    (h : CallSteady hash started files path call)
    (hsame : ∀ id, Old started files' path id →
      Old started files path id ∧ files'.inodes id = files.inodes id) :
    CallSteady hash started files' path (call.note files') := by
  cases call with
  | idle | begun asked now => exact h
  | statted asked now before clock since =>
    refine ⟨h.1, ?_⟩
    intro id hid
    obtain ⟨hold, hinode⟩ := hsame id hid
    obtain ⟨hfile, hsince⟩ := h.2 id hold
    refine ⟨hfile, ?_⟩
    intro contents hcontents
    rw [hinode]
    rcases mem_append.mp hcontents with hmem | hmem
    · exact hsince contents hmem
    · rw [mem_singleton.mp hmem, hfile, hinode]
  | hashing task => exact h
  | reading task reader =>
    refine ⟨h.1, ?_⟩
    intro id hid
    obtain ⟨hold, hinode⟩ := hsame id hid
    rw [Reader.Reads, hinode]
    exact h.2 id hold
  | hashed task seen =>
    refine ⟨h.1, ?_⟩
    intro id hid
    obtain ⟨hold, hinode⟩ := hsame id hid
    exact hinode ▸ h.2 id hold
  | storing before seen | returned digest | answered before clock since digest =>
    intro id hid
    obtain ⟨hold, hinode⟩ := hsame id hid
    exact hinode ▸ h id hold

theorem PhaseSteady.change {memo : MemoState}
    (h : PhaseSteady inp started memo phase)
    (hcalls : ∀ cid, memo'.calls cid = (memo.calls cid).note memo'.files)
    (hsame : ∀ path ∈ inp.inputs, ∀ id, Old started memo'.files path id →
      Old started memo.files path id ∧ memo'.files.inodes id = memo.files.inodes id) :
    PhaseSteady inp started memo' phase := by
  cases phase with
  | waiting => exact h
  | compiling => trivial
  | depfile rest => exact h
  | depReading path rest reader =>
    refine ⟨h.1, ?_⟩
    intro id hid
    obtain ⟨hold, hinode⟩ := hsame path (h.1 path mem_cons_self) id hid
    rw [Reader.Reads, hinode]
    exact h.2 id hold
  | depRead path rest bytes =>
    refine ⟨h.1, ?_⟩
    intro id hid
    obtain ⟨hold, hinode⟩ := hsame path (h.1 path mem_cons_self) id hid
    exact hinode ▸ h.2 id hold
  | trace rest | traceStatted path rest => exact h
  | traceHashing path rest cid =>
    refine ⟨h.1, ?_⟩
    rw [hcalls]
    exact h.2.change (hsame path (h.1 path mem_cons_self))
  | traceHashed path rest digest =>
    refine ⟨h.1, ?_⟩
    intro id hid
    obtain ⟨hold, hinode⟩ := hsame path (h.1 path mem_cons_self) id hid
    exact hinode ▸ h.2 id hold
  | declined why => trivial

end Change

theorem CallSteady.move {memo : MemoState} {path : Str} {call call' : MemoCall}
    (h : CallSteady inp.hash started memo.files path call)
    (hmove : MemoState.CallMove inp.hash memo call call') :
    CallSteady inp.hash started memo.files path call' := by
  cases hmove with
  | start asked => exact h.elim
  | stat hstat =>
    obtain rfl : _ = path := h
    refine ⟨rfl, ?_⟩
    intro id hid
    have hfile := some.inj ((statIdentity_eq_some hstat).1.symm.trans hid.1)
    refine ⟨hfile, ?_⟩
    intro contents hcontents
    rw [mem_singleton.mp hcontents, hfile]
  | statFails => exact h
  | hit hmemo hdigest => exact fun id hid => (h.2 id hid).2
  | miss => exact h.1
  | opened hname =>
    obtain rfl : _ = path := h
    refine ⟨rfl, ?_⟩
    intro id hid
    cases hname.symm.trans hid.1
    exact Reader.reads_start _ _
  | read bytes => exact ⟨h.1, fun id hid => (h.2 id hid).read bytes⟩
  | finish hend => exact ⟨h.1, fun id hid => (h.2 id hid).eq_content hend⟩
  | settle hsettled hstat => exact h.2
  | unsettled =>
    intro id hid text htext
    rw [← h.2 id hid]
    exact (some.inj htext).symm
  | stored =>
    intro id hid text htext
    rw [← h id hid]
    exact (some.inj htext).symm
  | failed =>
    intro id hid text htext
    cases htext

/-- A step of another kind than a change: the files stay, and the calls move. -/
theorem PhaseSteady.moves {memo : MemoState}
    (h : PhaseSteady inp started memo phase) (hfiles : memo'.files = memo.files)
    (hcalls : ∀ cid, memo'.calls cid = memo.calls cid ∨
      MemoState.CallMove inp.hash memo (memo.calls cid) (memo'.calls cid)) :
    PhaseSteady inp started memo' phase := by
  cases phase with
  | waiting => exact h
  | compiling => trivial
  | depfile rest => exact h
  | depReading path rest reader | depRead path rest bytes => exact ⟨h.1, hfiles ▸ h.2⟩
  | trace rest | traceStatted path rest => exact h
  | traceHashing path rest cid =>
    refine ⟨h.1, ?_⟩
    rw [hfiles]
    rcases hcalls cid with hsame | hmove
    · rw [hsame]
      exact h.2
    · exact h.2.move hmove
  | traceHashed path rest digest => exact ⟨h.1, hfiles ▸ h.2⟩
  | declined why => trivial

theorem memo_step_cases {memo : MemoState} {e : MemoEvent}
    (h : memo.step hash granule e = some memo') :
    (∃ c, e = .change c ∧ memo'.files = memo.files.change granule c ∧
      ∀ cid, memo'.calls cid = (memo.calls cid).note memo'.files) ∨
    (memo'.files = memo.files ∧ ∀ cid, memo'.calls cid = memo.calls cid ∨
      MemoState.CallMove hash memo (memo.calls cid) (memo'.calls cid)) := by
  rcases step_cases h with ⟨c, rfl, rfl⟩ | ⟨key, text, -, rfl⟩ | ⟨cid, call, hstep⟩
  · exact .inl ⟨c, rfl, rfl, fun _ => rfl⟩
  · exact .inr ⟨rfl, fun _ => .inl rfl⟩
  · refine .inr ⟨hstep.files, ?_⟩
    intro other
    rw [hstep.calls]
    by_cases hother : other = cid
    · rw [hother, Function.update_self]
      exact .inr hstep.move
    · rw [Function.update_of_ne hother]
      exact .inl rfl

theorem Steady.memo (hs : s.Steady inp started) (hstarted : s.started = some started)
    {e : MemoEvent} {memo : MemoState}
    (hquiet : s.QuietGranule inp (.memo e))
    (h : s.memo.step inp.hash inp.granule e = some memo) :
    (s.setMemo memo).Steady inp started := by
  have hsame : ∀ path ∈ inp.inputs, ∀ id, Old started memo.files path id →
      Old started s.memo.files path id ∧ memo.files.inodes id = s.memo.files.inodes id := by
    intro path hpath id hid
    rcases memo_step_cases h with ⟨c, rfl, hfiles, -⟩ | ⟨hfiles, -⟩
    · rw [hfiles] at hid ⊢
      exact old_of_change (hquiet started hstarted) hpath hid
    · rw [hfiles] at hid ⊢
      exact ⟨hid, rfl⟩
  have hsince : (s.setMemo memo).sinceStart =
      fun path => s.sinceStart path ++ [contentAt memo.files path] := by
    simp [setMemo, hstarted]
  refine ⟨?_, ?_, ?_, hs.recorded⟩
  · intro path
    simp [hsince]
  · intro path hpath id hid contents hcontents
    change contents = some (memo.files.inodes id).content
    obtain ⟨hold, hinode⟩ := hsame path hpath id hid
    rw [hsince] at hcontents
    rcases mem_append.mp hcontents with hmem | hmem
    · rw [hinode]
      exact hs.since path hpath id hold contents hmem
    · have hname : memo.files.names path = some id := hid.1
      rw [mem_singleton.mp hmem, contentAt, hname]
      rfl
  · rcases memo_step_cases h with ⟨c, -, -, hcalls⟩ | ⟨hfiles, hcalls⟩
    · exact hs.phase.change hcalls hsame
    · exact hs.phase.moves hfiles hcalls

theorem Steady.goto (hs : s.Steady inp started)
    (hphase : PhaseSteady inp started s.memo phase) : (s.goto phase).Steady inp started :=
  ⟨hs.since_ne, hs.since, hphase, hs.recorded⟩

theorem Steady.decline (hs : s.Steady inp started) (why : Str) :
    (s.decline why).Steady inp started :=
  ⟨hs.since_ne, hs.since, trivial, by simp [RecordState.decline]⟩

theorem old_of_lastChangeNs {files : HostFiles} {path : Str} {changed : ℕ}
    (h : lastChangeNs files path = some changed) (hearly : ¬ started ≤ changed) :
    ∃ id, Old started files path id := by
  obtain ⟨id, hname, rfl⟩ := map_eq_some_iff.mp h
  exact ⟨id, hname, by omega⟩

theorem Steady.recordDigest (hs : s.Steady inp started) {path digest : Str}
    {id : FileId} (hpath : path ∈ inp.inputs) (hold : Old started s.memo.files path id)
    (hdigest : digest = inp.hash (s.memo.files.inodes id).content)
    (hphase : PhaseSteady inp started s.memo phase) :
    (s.recordDigest path digest phase).Steady inp started := by
  refine ⟨hs.since_ne, hs.since, hphase, forall_mem_concat.mpr ⟨hs.recorded, hs.since_ne path, ?_⟩⟩
  intro contents hcontents
  exact ⟨_, hs.since path hpath id hold contents hcontents, hdigest⟩

theorem Steady.depStat (hs : s.Steady inp started) {path : Str}
    {bytes : Option Str} (hphase : s.phase = .depRead path rest bytes) :
    (s.depStat inp started path rest bytes).Steady inp started := by
  have hread := hs.phase
  rw [hphase] at hread
  fun_cases s.depStat inp started path rest bytes
  case case4 hchanged hearly _ _ =>
    obtain ⟨id, hold⟩ := old_of_lastChangeNs hchanged hearly
    refine hs.recordDigest (hread.1 path mem_cons_self) hold ?_ ?_
    · rw [hread.2 id hold _ rfl]
    · exact fun other hother => hread.1 other (mem_cons_of_mem _ hother)
  all_goals exact hs.decline _

theorem Steady.traceCheck (hs : s.Steady inp started) {path : Str}
    {digest : Option Str} (hphase : s.phase = .traceHashed path rest digest) :
    (s.traceCheck started path rest digest).Steady inp started := by
  have hhashed := hs.phase
  rw [hphase] at hhashed
  fun_cases s.traceCheck started path rest digest
  case case2 text _ hchanged hearly =>
    obtain ⟨id, hold⟩ := old_of_lastChangeNs hchanged hearly
    refine hs.recordDigest (hhashed.1 path mem_cons_self) hold (hhashed.2 id hold text rfl) ?_
    exact fun other hother => hhashed.1 other (mem_cons_of_mem _ hother)
  all_goals exact hs.decline _

theorem Steady.traceStat (hs : s.Steady inp started) {path : Str}
    (hphase : s.phase = .trace (path :: rest)) :
    (s.traceStat inp path rest).Steady inp started := by
  have hall := hs.phase
  rw [hphase] at hall
  have hrest : PhaseSteady inp started s.memo (.trace rest) :=
    fun other hother => hall other (mem_cons_of_mem _ hother)
  fun_cases s.traceStat inp path rest
  case case5 => exact hs.goto hall
  all_goals first
    | exact hs.goto hrest
    | exact hs.decline _

theorem callDigest_eq {memo : MemoState} {path : Str} {call : MemoCall}
    {digest : Option Str} (hgood : MemoState.CallGood inp.hash granule memo call)
    (hcall : CallSteady inp.hash started memo.files path call)
    (h : callDigest call = some digest) :
    ∀ id, Old started memo.files path id → ∀ text ∈ digest,
      text = inp.hash (memo.files.inodes id).content := by
  cases call with
  | returned found =>
    cases h
    exact hcall
  | answered before clock since found =>
    cases h
    intro id hid text htext
    cases htext
    obtain ⟨contents, hmem, rfl, -⟩ := hgood
    rw [hcall id hid contents hmem]
  | _ => cases h

theorem depStat_kept (path : Str) (rest : List Str) (bytes : Option Str) :
    (s.depStat inp started path rest bytes).started = s.started ∧
      (s.depStat inp started path rest bytes).memo = s.memo := by
  fun_cases s.depStat inp started path rest bytes <;> exact ⟨rfl, rfl⟩

theorem traceCheck_kept (path : Str) (rest : List Str) (digest : Option Str) :
    (s.traceCheck started path rest digest).started = s.started ∧
      (s.traceCheck started path rest digest).memo = s.memo := by
  fun_cases s.traceCheck started path rest digest <;> exact ⟨rfl, rfl⟩

theorem traceStat_kept (path : Str) (rest : List Str) :
    (s.traceStat inp path rest).started = s.started ∧
      (s.traceStat inp path rest).memo = s.memo := by
  fun_cases s.traceStat inp path rest <;> exact ⟨rfl, rfl⟩

theorem start_eq_some {cid : ℕ} {path : Str} {memo : MemoState}
    (h : memo.step hash granule (.start cid path) = some memo') :
    memo' = memo.setCall cid (.begun path memo.files.clock) := by
  simp only [MemoState.step, MemoState.callStep] at h
  cases hcall : memo.calls cid with
  | idle =>
    rw [hcall] at h
    exact (some.inj h).symm
  | _ => simp [hcall] at h

theorem memo_of_step (h : s.step inp e = some s') :
    s'.memo = s.memo ∨ ∃ e, s.memo.step inp.hash inp.granule e = some s'.memo := by
  unfold RecordState.step at h
  split at h
  next =>
    obtain ⟨memo, hmemo, rfl⟩ := map_eq_some_iff.mp h
    exact .inr ⟨_, hmemo⟩
  next =>
    cases h
    exact .inl rfl
  next =>
    cases h
    exact .inl rfl
  next =>
    split at h <;> obtain rfl := some.inj h <;> exact .inl rfl
  next =>
    cases h
    exact .inl rfl
  next =>
    split_ifs at h <;> obtain rfl := some.inj h <;> exact .inl rfl
  next =>
    obtain ⟨started, -, rfl⟩ := map_eq_some_iff.mp h
    exact .inl (depStat_kept _ _ _).2
  next =>
    cases h
    exact .inl rfl
  next =>
    cases h
    exact .inl (traceStat_kept _ _).2
  next =>
    obtain ⟨memo, hmemo, rfl⟩ := map_eq_some_iff.mp h
    exact .inr ⟨_, hmemo⟩
  next =>
    obtain ⟨digest, -, rfl⟩ := map_eq_some_iff.mp h
    exact .inl rfl
  next =>
    obtain ⟨started, -, rfl⟩ := map_eq_some_iff.mp h
    exact .inl (traceCheck_kept _ _ _).2
  next => cases h

theorem Steady.step (hs : s.Steady inp started) (hstarted : s.started = some started)
    (hgood : MemoState.MemoGood inp.hash inp.granule s.memo)
    (hquiet : s.QuietGranule inp e) (h : s.step inp e = some s') :
    s'.started = some started ∧ s'.Steady inp started := by
  have hphase := hs.phase
  revert h
  fun_cases RecordState.step inp s e <;> intro h
  next e =>
    obtain ⟨memo, hmemo, rfl⟩ := map_eq_some_iff.mp h
    exact ⟨hstarted, hs.memo hstarted hquiet hmemo⟩
  next hwaiting =>
    rw [hwaiting] at hphase
    exact hphase.elim
  next =>
    cases h
    exact ⟨hstarted, hs.goto (fun path hpath => mem_append_left _ hpath)⟩
  next hdepfile _ hname =>
    rw [hdepfile] at hphase
    cases h
    refine ⟨hstarted, hs.goto ⟨hphase, ?_⟩⟩
    intro id hid
    cases hname.symm.trans hid.1
    exact Reader.reads_start _ _
  next =>
    rw [‹s.phase = _›] at hphase
    cases h
    exact ⟨hstarted, hs.goto ⟨hphase, by simp⟩⟩
  next hreading =>
    rw [hreading] at hphase
    cases h
    exact ⟨hstarted, hs.goto ⟨hphase.1, fun id hid => (hphase.2 id hid).read _⟩⟩
  next hreading =>
    rw [hreading] at hphase
    cases h
    exact ⟨hstarted, hs.goto ⟨hphase.1, by simp⟩⟩
  next hreading _ hend =>
    rw [hreading] at hphase
    cases h
    refine ⟨hstarted, hs.goto ⟨hphase.1, ?_⟩⟩
    intro id hid text htext
    cases htext
    exact (hphase.2 id hid).eq_content hend
  next => cases h
  next hread =>
    rw [hstarted] at h
    cases h
    exact ⟨(depStat_kept _ _ _).1.trans hstarted, hs.depStat hread⟩
  next =>
    cases h
    refine ⟨hstarted, hs.goto ?_⟩
    intro path hpath
    rw [traceReads, mem_eraseDups, mem_filter] at hpath
    exact mem_append_right _ hpath.1
  next htrace =>
    cases h
    exact ⟨(traceStat_kept _ _).1.trans hstarted, hs.traceStat htrace⟩
  next cid path rest hstatted =>
    rw [hstatted] at hphase
    obtain ⟨memo, hmemo, rfl⟩ := map_eq_some_iff.mp h
    obtain rfl := start_eq_some hmemo
    refine ⟨hstarted, hs.since_ne, hs.since, ⟨hphase, ?_⟩, hs.recorded⟩
    simp [setCall, CallSteady]
  next hhashing =>
    rw [hhashing] at hphase
    obtain ⟨digest, hdigest, rfl⟩ := map_eq_some_iff.mp h
    refine ⟨hstarted, hs.goto ⟨hphase.1, ?_⟩⟩
    exact callDigest_eq (hgood.call _) hphase.2 hdigest
  next hhashed =>
    rw [hstarted] at h
    cases h
    exact ⟨(traceCheck_kept _ _ _).1.trans hstarted, hs.traceCheck hhashed⟩
  next => cases h

/-- Before the start nothing is recorded; from then on the recording is steady. -/
def Recording (inp : RecordInput) (s : RecordState) : Prop :=
  (s.started = none ∧ s.phase = .waiting ∧ s.recorded = []) ∨
    ∃ started, s.started = some started ∧ s.Steady inp started

theorem Recording.step (hs : s.Recording inp)
    (hgood : MemoState.MemoGood inp.hash inp.granule s.memo)
    (hquiet : s.QuietGranule inp e) (h : s.step inp e = some s') : s'.Recording inp := by
  rcases hs with ⟨hnone, hwaiting, hrecorded⟩ | ⟨started, hstarted, hsteady⟩
  · unfold RecordState.step at h
    rw [hwaiting] at h
    cases e with
    | memo e =>
      obtain ⟨memo, -, rfl⟩ := map_eq_some_iff.mp h
      exact .inl ⟨hnone, hwaiting, hrecorded⟩
    | startClock =>
      cases h
      refine .inr ⟨s.memo.files.clock, rfl, by simp, ?_, trivial, by simp [hrecorded]⟩
      intro path hpath id hid contents hcontents
      have hname : s.memo.files.names path = some id := hid.1
      rw [mem_singleton.mp hcontents, contentAt, hname]
      rfl
    | _ => cases h
  · obtain ⟨hstarted', hsteady'⟩ := hsteady.step hstarted hgood hquiet h
    exact .inr ⟨started, hstarted', hsteady'⟩

/-- In a run in which no input changes between the start of the compile and the next stamp,
every recorded digest is that of the contents the file had throughout. -/
theorem recorded_throughout (inp : RecordInput) (hgranule : inp.granule < kUnsettledWindowNs)
    (files : HostFiles) (memos : Str → Option Str)
    (hmemos : ∀ key text, memos key = some text → isWholeDigest text = false)
    {events : List RecordEvent} {t : RecordState}
    (hrun : StepMachine.Run (step inp) (QuietGranule inp) { memo := { files, memos } } events t)
    (hkeys : MemoState.NoCollision inp.hash t.memo.met) {file : RecordedDigest}
    (h : file ∈ t.recorded) : RecordedDigest.Throughout inp.hash file := by
  have hstep : ∀ s e s', step inp s e = some s' → QuietGranule inp s e →
      (MemoState.NoCollision inp.hash s.memo.met →
        MemoState.MemoGood inp.hash inp.granule s.memo ∧ s.Recording inp) →
      MemoState.NoCollision inp.hash s'.memo.met →
        MemoState.MemoGood inp.hash inp.granule s'.memo ∧ s'.Recording inp := by
    intro s e s' hstep hquiet hs hkeys'
    rcases memo_of_step hstep with hsame | ⟨e', hmemo⟩
    · rw [hsame] at hkeys' ⊢
      obtain ⟨hgood, hrecording⟩ := hs hkeys'
      exact ⟨hgood, hrecording.step hgood hquiet hstep⟩
    · have hbefore : MemoState.NoCollision inp.hash s.memo.met := fun id hid id' hid' =>
        hkeys' id (met_of_step hmemo id hid) id' (met_of_step hmemo id' hid')
      obtain ⟨hgood, hrecording⟩ := hs hbefore
      exact ⟨hgood.step hgranule hbefore hmemo, hrecording.step hgood hquiet hstep⟩
  have hstart : MemoState.NoCollision inp.hash [] →
      MemoState.MemoGood inp.hash inp.granule { files, memos } ∧
        Recording inp { memo := { files, memos } } :=
    fun _ => ⟨memoGood_start _ _ files hmemos, .inl ⟨rfl, rfl, rfl⟩⟩
  obtain ⟨-, hrecording⟩ := hrun.invariant hstep hstart hkeys
  rcases hrecording with ⟨-, -, hnone⟩ | ⟨started, -, hsteady⟩
  · rw [hnone] at h
    cases h
  · exact hsteady.recorded file h

def twoInputs : RecordInput where
  hash := MemoState.lastDigit
  granule := 4000000
  roots := ⟨[], List.Pairwise.nil⟩
  cwd := "/".toList
  prerequisites := ["/f".toList]
  scanIncbin := true
  trace := ⟨["/f".toList, "/g".toList], [], [], []⟩
  kind _ := .regular

def twoFiles (clock : ℕ) : HostFiles where
  clock := clock
  names path := if path = "/f".toList then some (1, 1)
    else if path = "/g".toList then some (1, 2) else none
  inodes _ := ⟨"a".toList, 0, 0⟩

theorem recorded_throughout_twoInputs :
    RecordedDigest.Throughout MemoState.lastDigit
      ⟨"/g".toList, MemoState.lastDigit "a".toList, List.replicate 7 (some "a".toList)⟩ := by
  obtain ⟨t, hrun, hend⟩ : ∃ t, StepMachine.Run (step twoInputs) (fun _ _ => True)
      { memo := { files := twoFiles 5000000, memos := fun _ => none } }
      [.startClock, .record, .depOpen true, .depRead 1, .depFinish true, .depStat, .addTrace,
        .traceStat, .traceCall 0, .memo (.stat 0), .memo (.lookup 0), .memo (.openFile 0 true),
        .memo (.read 0 1), .memo (.finish 0 true), .memo (.settle 0), .traceTake, .traceCheck] t ∧
      (t.memo.met, t.recorded) = ([⟨1, 2, 1, 0, 0⟩],
        [⟨"/f".toList, lastDigit "a".toList, [some "a".toList]⟩,
          ⟨"/g".toList, lastDigit "a".toList, replicate 7 (some "a".toList)⟩]) :=
    StepMachine.exists_run_of_exec (by decide +kernel)
  obtain ⟨hmet, hrecorded⟩ := Prod.mk.inj hend
  have hquiet : StepMachine.Run (step twoInputs) (QuietGranule twoInputs)
      { memo := { files := twoFiles 5000000, memos := fun _ => none } } _ t :=
    hrun.imp (by simp [QuietGranule])
  have hkeys : MemoState.NoCollision twoInputs.hash t.memo.met := by
    rw [hmet]
    intro id hid id' hid' _
    rw [mem_singleton.mp hid, mem_singleton.mp hid']
  exact recorded_throughout twoInputs (by decide) (twoFiles 5000000) (fun _ => none) (by simp)
    hquiet hkeys (by rw [hrecorded]; simp)

/-- The compile starts at 5 ms. The file is written right after that and gets the time 4 ms, so
it counts as old, and the digest of what the compile did not see at first is recorded. -/
theorem recorded_changed_in_granule :
    ∃ events t, StepMachine.Run (step twoInputs) (fun _ _ => True)
        { memo := { files := twoFiles 5000000, memos := fun _ => none } } events t ∧
      t.recorded = [⟨"/f".toList, MemoState.lastDigit "b".toList,
        [some "a".toList, some "b".toList]⟩] ∧
      MemoState.lastDigit "b".toList ≠ MemoState.lastDigit "a".toList := by
  obtain ⟨t, hrun, hrecorded⟩ : ∃ t, StepMachine.Run (step twoInputs) (fun _ _ => True)
      { memo := { files := twoFiles 5000000, memos := fun _ => none } }
      [.startClock, .memo (.change (.write (1, 1) "b".toList)), .record, .depOpen true,
        .depRead 1, .depFinish true, .depStat] t ∧
      t.recorded = [⟨"/f".toList, lastDigit "b".toList, [some "a".toList, some "b".toList]⟩] :=
    StepMachine.exists_run_of_exec (by decide +kernel)
  exact ⟨_, t, hrun, hrecorded, by decide⟩

end RecordState

end Vcache

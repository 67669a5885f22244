import Vcache.Blob
import Vcache.StepMachine
import Vcache.TimedFiles

/-!
# Memoised file digests

`HashFileMemoized` keeps the digest of a file under the file's identity: device,
inode, size and times. Calls take their turns with each other and with writers, one
system call a step. A memo is made only for a file that had not changed for two seconds
and was the same after it was read, so a later change gives the file another identity.
A memo may be newer than the `stat` of the call that reads it, though.
-/

namespace Vcache

open TimedFiles (stamp Files Change Reader)

def kUnsettledWindowNs : ℕ := 2000000000

abbrev FileId := ℕ × ℕ

abbrev HostFiles := Files Str FileId Char

structure FileIdentity where
  device : ℕ
  inode : ℕ
  size : ℕ
  mtimeNs : ℕ
  ctimeNs : ℕ
deriving DecidableEq

def FileIdentity.file (id : FileIdentity) : FileId := (id.device, id.inode)

def statIdentity (files : HostFiles) (path : Str) : Option FileIdentity :=
  (files.names path).map (fun id =>
    ⟨id.1, id.2, (files.inodes id).content.length, (files.inodes id).mtime,
      (files.inodes id).ctime⟩)

def memoKey (hash : Str → Str) (id : FileIdentity) : Str :=
  hash (updateDelimited "file-digest-memo-v1".toList ++ updateU64 id.device ++
    updateU64 id.inode ++ updateU64 id.size ++ updateU64 id.mtimeNs ++ updateU64 id.ctimeNs)

def isWholeDigest (text : Str) : Bool := text.length = kDigestHexLen && text.all isHexDigit

/-- What a call that hashes the file itself has in its hands. -/
structure HashTask where
  path : Str
  now : ℕ
  before : Option FileIdentity
deriving DecidableEq

/-- How far a call of `HashFileMemoized` has come. -/
inductive MemoCall where
  | idle
  | begun (path : Str) (now : ℕ)
  /-- `clock` is the time of its `stat`, `since` the contents the file has had since then. -/
  | statted (path : Str) (now : ℕ) (before : FileIdentity) (clock : ℕ) (since : List Str)
  | hashing (task : HashTask)
  | reading (task : HashTask) (reader : Reader FileId Char)
  | hashed (task : HashTask) (seen : Str)
  | storing (before : FileIdentity) (seen : Str)
  | returned (digest : Option Str)
  /-- It returned the digest a memo holds. -/
  | answered (before : FileIdentity) (clock : ℕ) (since : List Str) (digest : Str)
deriving DecidableEq

/-- The file a call has the identity of may have other contents now. -/
def MemoCall.note (files : HostFiles) : MemoCall → MemoCall
  | .statted path now before clock since =>
    .statted path now before clock (since ++ [(files.inodes before.file).content])
  | call => call

structure MemoState where
  files : HostFiles
  memos : Str → Option Str
  calls : ℕ → MemoCall := fun _ => .idle
  /-- Every identity a call was given so far. -/
  met : List FileIdentity := []

inductive MemoEvent where
  | change (c : Change Str FileId Char)
  /-- A crash leaves a memo file that is no digest. -/
  | damage (key text : Str)
  | prune (key : Str)
  | start (cid : ℕ) (path : Str)
  | stat (cid : ℕ)
  | lookup (cid : ℕ)
  | openFile (cid : ℕ) (ok : Bool)
  | read (cid : ℕ) (bytes : ℕ)
  | finish (cid : ℕ) (ok : Bool)
  | settle (cid : ℕ)
  | store (cid : ℕ) (ok : Bool)

namespace MemoState

def setCall (s : MemoState) (cid : ℕ) (call : MemoCall) : MemoState :=
  { s with calls := Function.update s.calls cid call }

def setMemo (s : MemoState) (key : Str) (text : Option Str) : MemoState :=
  { s with memos := Function.update s.memos key text }

/-- The steps of one call. -/
def callStep (hash : Str → Str) (s : MemoState) (cid : ℕ) (e : MemoEvent) : Option MemoState :=
  match e, s.calls cid with
  | .start _ path, .idle => some (s.setCall cid (.begun path s.files.clock))
  | .stat _, .begun path now =>
    match statIdentity s.files path with
    | none => some (s.setCall cid (.hashing ⟨path, now, none⟩))
    | some before =>
      let call := .statted path now before s.files.clock [(s.files.inodes before.file).content]
      some { s.setCall cid call with met := before :: s.met }
  | .lookup _, .statted path now before clock since =>
    match s.memos (memoKey hash before) with
    | none => some (s.setCall cid (.hashing ⟨path, now, some before⟩))
    | some cached =>
      if isWholeDigest cached then some (s.setCall cid (.answered before clock since cached))
      else some (s.setCall cid (.hashing ⟨path, now, some before⟩))
  | .openFile _ ok, .hashing task =>
    match ok, s.files.names task.path with
    | true, some file => some (s.setCall cid (.reading task ⟨file, []⟩))
    | _, _ => some (s.setCall cid (.returned none))
  | .read _ bytes, .reading task reader =>
    some (s.setCall cid (.reading task (reader.read s.files bytes)))
  | .finish _ ok, .reading task reader =>
    if ok = false then some (s.setCall cid (.returned none))
    else if reader.AtEnd s.files then some (s.setCall cid (.hashed task reader.seen)) else none
  | .settle _, .hashed task seen =>
    match task.before with
    | none => some (s.setCall cid (.returned (some (hash seen))))
    | some before =>
      let settled := before.mtimeNs + kUnsettledWindowNs ≤ task.now ∧
        before.ctimeNs + kUnsettledWindowNs ≤ task.now
      if settled ∧ statIdentity s.files task.path = some before then
        some (s.setCall cid (.storing before seen))
      else some (s.setCall cid (.returned (some (hash seen))))
  | .store _ ok, .storing before seen =>
    let s := if ok then s.setMemo (memoKey hash before) (some (hash seen)) else s
    some (s.setCall cid (.returned (some (hash seen))))
  | _, _ => none

def step (hash : Str → Str) (granule : ℕ) (s : MemoState) (e : MemoEvent) : Option MemoState :=
  match e with
  | .change c =>
    let files := s.files.change granule c
    some { s with files := files, calls := fun cid => (s.calls cid).note files }
  | .damage key text => if isWholeDigest text then none else some (s.setMemo key (some text))
  | .prune key => some (s.setMemo key none)
  | .start cid _ | .stat cid | .lookup cid | .openFile cid _ | .read cid _ | .finish cid _
  | .settle cid | .store cid _ => s.callStep hash cid e

/-! ## What a step of a call can be -/

/-- The moves of one call, each with what it finds. -/
inductive CallMove (hash : Str → Str) (s : MemoState) : MemoCall → MemoCall → Prop where
  | start (path : Str) : CallMove hash s .idle (.begun path s.files.clock)
  | stat {path : Str} {now : ℕ} {before : FileIdentity}
      (h : statIdentity s.files path = some before) :
      CallMove hash s (.begun path now)
        (.statted path now before s.files.clock [(s.files.inodes before.file).content])
  | statFails {path : Str} {now : ℕ} :
      CallMove hash s (.begun path now) (.hashing ⟨path, now, none⟩)
  | hit {path : Str} {now : ℕ} {before : FileIdentity} {clock : ℕ} {since : List Str}
      {cached : Str} (h : s.memos (memoKey hash before) = some cached)
      (hdigest : isWholeDigest cached = true) :
      CallMove hash s (.statted path now before clock since) (.answered before clock since cached)
  | miss {path : Str} {now : ℕ} {before : FileIdentity} {clock : ℕ} {since : List Str} :
      CallMove hash s (.statted path now before clock since) (.hashing ⟨path, now, some before⟩)
  | opened {task : HashTask} {file : FileId} (h : s.files.names task.path = some file) :
      CallMove hash s (.hashing task) (.reading task ⟨file, []⟩)
  | read {task : HashTask} {reader : Reader FileId Char} (bytes : ℕ) :
      CallMove hash s (.reading task reader) (.reading task (reader.read s.files bytes))
  | finish {task : HashTask} {reader : Reader FileId Char} (h : reader.AtEnd s.files) :
      CallMove hash s (.reading task reader) (.hashed task reader.seen)
  | settle {path : Str} {now : ℕ} {before : FileIdentity} {seen : Str}
      (hsettled : before.ctimeNs + kUnsettledWindowNs ≤ now)
      (h : statIdentity s.files path = some before) :
      CallMove hash s (.hashed ⟨path, now, some before⟩ seen) (.storing before seen)
  | unsettled {task : HashTask} {seen : Str} :
      CallMove hash s (.hashed task seen) (.returned (some (hash seen)))
  | stored {before : FileIdentity} {seen : Str} :
      CallMove hash s (.storing before seen) (.returned (some (hash seen)))
  /-- The file cannot be opened or read. -/
  | failed {call : MemoCall} : CallMove hash s call (.returned none)

variable {hash : Str → Str} {granule : ℕ} {s s' t : MemoState}

/-- What a step of a call leaves: the files, the other calls, and the memos but for one that is
stored. -/
structure CallStepped (hash : Str → Str) (s : MemoState) (cid : ℕ) (call : MemoCall)
    (s' : MemoState) : Prop where
  move : CallMove hash s (s.calls cid) call
  files : s'.files = s.files
  calls : s'.calls = Function.update s.calls cid call
  met : ∀ id ∈ s.met, id ∈ s'.met
  met_statted : ∀ path now id clock since, call = .statted path now id clock since → id ∈ s'.met
  memos : s'.memos = s.memos ∨ ∃ before seen, s.calls cid = .storing before seen ∧
    s'.memos = Function.update s.memos (memoKey hash before) (some (hash seen))

variable {cid clock : ℕ} {e : MemoEvent} {id : FileIdentity} {path : Str}

theorem CallStepped.setCall {call : MemoCall} (h : CallMove hash s (s.calls cid) call)
    (hstatted : ∀ path now id clock since, call ≠ .statted path now id clock since) :
    CallStepped hash s cid call (s.setCall cid call) :=
  ⟨h, rfl, rfl, fun _ hid => hid, fun _ _ _ _ _ hcall => absurd hcall (hstatted _ _ _ _ _),
    .inl rfl⟩

theorem callStepped_of_callStep (h : s.callStep hash cid e = some s') :
    ∃ call, CallStepped hash s cid call s' := by
  revert h
  fun_cases callStep hash s cid e <;> intro h <;> cases h
  next hcall => exact ⟨_, .setCall (hcall ▸ .start _) (by simp)⟩
  next hcall _ => exact ⟨_, .setCall (hcall ▸ .statFails) (by simp)⟩
  next hcall before hstat _ =>
    refine ⟨_, hcall ▸ .stat hstat, rfl, rfl, fun _ hid => List.mem_cons_of_mem _ hid, ?_,
      .inl rfl⟩
    intro path now id clock since hsame
    obtain ⟨-, -, rfl, -, -⟩ := MemoCall.statted.inj hsame
    exact List.mem_cons_self
  next hcall _ => exact ⟨_, .setCall (hcall ▸ .miss) (by simp)⟩
  next hcall _ hmemo hdigest => exact ⟨_, .setCall (hcall ▸ .hit hmemo hdigest) (by simp)⟩
  next hcall _ _ _ => exact ⟨_, .setCall (hcall ▸ .miss) (by simp)⟩
  next hcall _ hname => exact ⟨_, .setCall (hcall ▸ .opened hname) (by simp)⟩
  next => exact ⟨_, .setCall .failed (by simp)⟩
  next hcall => exact ⟨_, .setCall (hcall ▸ .read _) (by simp)⟩
  next => exact ⟨_, .setCall .failed (by simp)⟩
  next hcall _ hend => exact ⟨_, .setCall (hcall ▸ .finish hend) (by simp)⟩
  next hcall _ => exact ⟨_, .setCall (hcall ▸ .unsettled) (by simp)⟩
  next task seen hcall before hbefore _ hsettled =>
    obtain ⟨path, now, found⟩ := task
    obtain rfl : found = some before := hbefore
    exact ⟨_, .setCall (hcall ▸ .settle hsettled.1.2 hsettled.2) (by simp)⟩
  next hcall _ _ _ _ => exact ⟨_, .setCall (hcall ▸ .unsettled) (by simp)⟩
  next ok before seen hcall _ =>
    have hstored : CallMove hash s (s.calls cid) (.returned (some (hash seen))) := hcall ▸ .stored
    cases ok with
    | true =>
      exact ⟨_, hstored, rfl, rfl, fun _ hid => hid, by simp, .inr ⟨before, seen, hcall, rfl⟩⟩
    | false => exact ⟨_, .setCall hstored (by simp)⟩

/-- What a step can be: the files change, a memo file loses its digest, or a call moves. -/
theorem step_cases (h : s.step hash granule e = some s') :
    (∃ c, e = .change c ∧ s' = { s with
      files := s.files.change granule c
      calls := fun cid => (s.calls cid).note (s.files.change granule c) }) ∨
    (∃ key text, (∀ written, text = some written → isWholeDigest written = false) ∧
      s' = s.setMemo key text) ∨
    ∃ cid call, CallStepped hash s cid call s' := by
  revert h
  fun_cases step hash granule s e <;> intro h
  next c _ => exact .inl ⟨c, rfl, (Option.some.inj h).symm⟩
  next => cases h
  next key text hdigest =>
    refine .inr (.inl ⟨key, some text, ?_, (Option.some.inj h).symm⟩)
    intro written hwritten
    cases hwritten
    simpa using hdigest
  next key => exact .inr (.inl ⟨key, none, by simp, (Option.some.inj h).symm⟩)
  all_goals exact .inr (.inr ⟨_, callStepped_of_callStep h⟩)

/-! ## What a memo is worth -/

theorem statIdentity_eq_some {files : HostFiles} (h : statIdentity files path = some id) :
    files.names path = some id.file ∧ (files.inodes id.file).ctime = id.ctimeNs := by
  obtain ⟨file, hname, rfl⟩ := Option.map_eq_some_iff.mp h
  exact ⟨hname, rfl⟩

/-- The file had these contents when it was settled: it has them as long as it has this
identity, and every call that found the identity has seen them since. -/
structure Knows (granule : ℕ) (s : MemoState) (id : FileIdentity) (contents : Str) : Prop where
  settled : id.ctimeNs < stamp granule s.files.clock
  content : (s.files.inodes id.file).ctime = id.ctimeNs →
    (s.files.inodes id.file).content = contents
  calls : ∀ cid path now clock since, s.calls cid = .statted path now id clock since →
    contents ∈ since ∧ (id.ctimeNs < stamp granule clock → since.head? = some contents)

def CallGood (hash : Str → Str) (granule : ℕ) (s : MemoState) : MemoCall → Prop
  | .idle => True
  | .begun _ now => now ≤ s.files.clock
  | .statted _ now before clock since =>
    now ≤ s.files.clock ∧ before ∈ s.met ∧ clock ≤ s.files.clock ∧
      since.getLast? = some (s.files.inodes before.file).content ∧
      (before.ctimeNs < stamp granule clock →
        (s.files.inodes before.file).ctime = before.ctimeNs →
          since.head? = some (s.files.inodes before.file).content)
  | .hashing task => task.now ≤ s.files.clock ∧ ∀ before ∈ task.before, before ∈ s.met
  | .reading task reader => task.now ≤ s.files.clock ∧ ∀ before ∈ task.before, before ∈ s.met ∧
      (before.ctimeNs + kUnsettledWindowNs ≤ task.now →
        reader.Follows before.ctimeNs s.files task.path)
  | .hashed task seen => task.now ≤ s.files.clock ∧ ∀ before ∈ task.before, before ∈ s.met ∧
      (before.ctimeNs + kUnsettledWindowNs ≤ task.now → ∀ id, s.files.names task.path = some id →
        (s.files.inodes id).ctime ≤ before.ctimeNs → seen = (s.files.inodes id).content)
  | .storing before seen => before ∈ s.met ∧ s.Knows granule before seen
  | .returned _ => True
  | .answered before clock since digest => ∃ contents ∈ since, digest = hash contents ∧
      (before.ctimeNs < stamp granule clock → since.head? = some contents)

structure MemoGood (hash : Str → Str) (granule : ℕ) (s : MemoState) : Prop where
  memo : ∀ key text, s.memos key = some text → isWholeDigest text = true →
    ∃ id ∈ s.met, ∃ contents, key = memoKey hash id ∧ text = hash contents ∧
      s.Knows granule id contents
  call : ∀ cid, CallGood hash granule s (s.calls cid)

theorem stamp_gt_of_settled (hgranule : granule < kUnsettledWindowNs) {ctime now : ℕ}
    (hsettled : ctime + kUnsettledWindowNs ≤ now) (hnow : now ≤ clock) :
    ctime < stamp granule clock := by
  have hlt := TimedFiles.lt_stamp_add hgranule clock
  omega

theorem note_eq_statted {files : HostFiles} {call : MemoCall} {now : ℕ} {since' : List Str}
    (h : call.note files = .statted path now id clock since') :
    ∃ since, call = .statted path now id clock since ∧
      since' = since ++ [(files.inodes id.file).content] := by
  cases call with
  | statted path' now' id' clock' since =>
    obtain ⟨rfl, rfl, rfl, rfl, rfl⟩ := MemoCall.statted.inj h
    exact ⟨since, rfl, rfl⟩
  | _ => cases h

theorem Knows.change {contents : Str} (h : s.Knows granule id contents)
    (c : Change Str FileId Char) (hstep : s.step hash granule (.change c) = some s') :
    s'.Knows granule id contents := by
  cases hstep
  refine ⟨?_, ?_, ?_⟩
  · exact h.settled.trans_le (TimedFiles.stamp_mono _ (Files.clock_le_change _ _ _))
  · intro hctime
    have hsame := Files.inode_untouched c h.settled hctime.le
    change ((s.files.change granule c).inodes id.file).ctime = _ at hctime
    change ((s.files.change granule c).inodes id.file).content = _
    rw [hsame] at hctime ⊢
    exact h.content hctime
  · intro cid path now clock since' hcall
    obtain ⟨since, hold, rfl⟩ := note_eq_statted hcall
    obtain ⟨hmem, hhead⟩ := h.calls cid path now clock since hold
    refine ⟨List.mem_append_left _ hmem, ?_⟩
    intro hclock
    rw [List.head?_append, hhead hclock]
    rfl

theorem CallMove.statted {call : MemoCall} {now : ℕ} {since : List Str}
    (h : CallMove hash s call (.statted path now id clock since)) :
    statIdentity s.files path = some id ∧ clock = s.files.clock ∧
      since = [(s.files.inodes id.file).content] := by
  cases h with
  | stat hstat => exact ⟨hstat, rfl, rfl⟩

theorem Knows.call {contents : Str} (h : s.Knows granule id contents)
    {call : MemoCall} (hstep : CallStepped hash s cid call s') :
    s'.Knows granule id contents := by
  refine ⟨hstep.files ▸ h.settled, hstep.files ▸ h.content, ?_⟩
  intro other path now clock since hcall
  rw [hstep.calls] at hcall
  by_cases hother : other = cid
  case pos =>
    rw [hother, Function.update_self] at hcall
    obtain ⟨hstat, -, rfl⟩ := (hcall ▸ hstep.move).statted
    have hcontent := h.content (statIdentity_eq_some hstat).2
    rw [hcontent]
    exact ⟨List.mem_singleton_self _, fun _ => rfl⟩
  case neg =>
    rw [Function.update_of_ne hother] at hcall
    exact h.calls other path now clock since hcall

theorem CallGood.mono {call : MemoCall} (h : CallGood hash granule s call)
    (hfiles : s'.files = s.files) (hmet : ∀ id ∈ s.met, id ∈ s'.met)
    (hknows : ∀ id contents, s.Knows granule id contents → s'.Knows granule id contents) :
    CallGood hash granule s' call := by
  cases call with
  | idle => trivial
  | begun path now =>
    change now ≤ s'.files.clock
    rw [hfiles]
    exact h
  | statted path now before clock since =>
    obtain ⟨hnow, hmem, hrest⟩ := h
    exact ⟨hfiles ▸ hnow, hmet _ hmem, hfiles ▸ hrest⟩
  | hashing task =>
    exact ⟨hfiles ▸ h.1, fun before hbefore => hmet _ (h.2 before hbefore)⟩
  | reading task reader =>
    refine ⟨hfiles ▸ h.1, fun before hbefore => ?_⟩
    obtain ⟨hmem, hfollows⟩ := h.2 before hbefore
    exact ⟨hmet _ hmem, hfiles ▸ hfollows⟩
  | hashed task seen =>
    refine ⟨hfiles ▸ h.1, fun before hbefore => ?_⟩
    obtain ⟨hmem, hseen⟩ := h.2 before hbefore
    exact ⟨hmet _ hmem, hfiles ▸ hseen⟩
  | storing before seen => exact ⟨hmet _ h.1, hknows _ _ h.2⟩
  | returned digest => trivial
  | answered before clock since digest => exact h

theorem CallGood.change (hgranule : granule < kUnsettledWindowNs) {call : MemoCall}
    (h : CallGood hash granule s call) (c : Change Str FileId Char)
    (hstep : s.step hash granule (.change c) = some s') :
    CallGood hash granule s' (call.note s'.files) := by
  have hknows : ∀ id contents, s.Knows granule id contents → s'.Knows granule id contents :=
    fun id contents hk => hk.change c hstep
  cases hstep
  have hclock := Files.clock_le_change granule s.files c
  cases call with
  | idle => trivial
  | begun path now => exact le_trans h hclock
  | statted path now before clock since =>
    obtain ⟨hnow, hmem, hle, hlast, hhead⟩ := h
    refine ⟨hnow.trans hclock, hmem, hle.trans hclock, List.getLast?_concat, ?_⟩
    intro hsettled hctime
    have hpast : before.ctimeNs < stamp granule s.files.clock :=
      hsettled.trans_le (TimedFiles.stamp_mono _ hle)
    have hsame := Files.inode_untouched c hpast hctime.le
    change ((s.files.change granule c).inodes before.file).ctime = _ at hctime
    change (since ++ [_]).head? = some ((s.files.change granule c).inodes before.file).content
    rw [hsame] at hctime ⊢
    rw [List.head?_append, hhead hsettled hctime]
    rfl
  | hashing task => exact ⟨h.1.trans hclock, h.2⟩
  | reading task reader =>
    refine ⟨h.1.trans hclock, ?_⟩
    intro before hbefore
    obtain ⟨hmem, hfollows⟩ := h.2 before hbefore
    refine ⟨hmem, fun hsettled => ?_⟩
    exact (hfollows hsettled).change (stamp_gt_of_settled hgranule hsettled h.1) c
  | hashed task seen =>
    refine ⟨h.1.trans hclock, ?_⟩
    intro before hbefore
    obtain ⟨hmem, hseen⟩ := h.2 before hbefore
    refine ⟨hmem, fun hsettled id hname hctime => ?_⟩
    have hpast := stamp_gt_of_settled hgranule hsettled h.1
    have hsame := Files.inode_untouched c hpast hctime
    have hold := Files.name_untouched c hpast hname hctime
    change seen = ((s.files.change granule c).inodes id).content
    change ((s.files.change granule c).inodes id).ctime ≤ _ at hctime
    rw [hsame] at hctime ⊢
    exact hseen hsettled id hold hctime
  | storing before seen => exact ⟨h.1, hknows _ _ h.2⟩
  | returned digest => trivial
  | answered before clock since digest => exact h

/-- No two identities that calls were given have one memo key. -/
def NoCollision (hash : Str → Str) (met : List FileIdentity) : Prop :=
  ∀ id ∈ met, ∀ id' ∈ met, memoKey hash id = memoKey hash id' → id = id'

theorem CallMove.good_statted {now : ℕ}
    {since : List Str} {call : MemoCall} (hcall : CallGood hash granule s call)
    (hmove : CallMove hash s call (.statted path now id clock since)) (hfiles : s'.files = s.files)
    (hmet : id ∈ s'.met) : CallGood hash granule s' (.statted path now id clock since) := by
  cases hmove with
  | stat hstat =>
    refine ⟨hfiles ▸ hcall, hmet, hfiles ▸ le_rfl, ?_, fun _ _ => ?_⟩
    · rw [hfiles]
      rfl
    · rw [hfiles]
      rfl

theorem CallMove.good (hgranule : granule < kUnsettledWindowNs) (hs : MemoGood hash granule s)
    (hkeys : NoCollision hash s.met) {call : MemoCall} (hmove : CallMove hash s (s.calls cid) call)
    (hstatted : ∀ path now id clock since, call ≠ .statted path now id clock since) :
    CallGood hash granule s call := by
  have hcall := hs.call cid
  generalize hold : s.calls cid = old at hmove hcall
  cases hmove with
  | start path => exact le_rfl
  | stat h => exact absurd rfl (hstatted _ _ _ _ _)
  | statFails => exact ⟨hcall, by simp⟩
  | hit hmemo hdigest =>
    obtain ⟨id, hid, contents, hkey, rfl, hknows⟩ := hs.memo _ _ hmemo hdigest
    obtain rfl := hkeys _ hcall.2.1 _ hid hkey
    obtain ⟨hmem, hhead⟩ := hknows.calls _ _ _ _ _ hold
    exact ⟨contents, hmem, rfl, hhead⟩
  | miss =>
    refine ⟨hcall.1, ?_⟩
    intro before hbefore
    cases hbefore
    exact hcall.2.1
  | opened hname =>
    refine ⟨hcall.1, ?_⟩
    intro before hbefore
    exact ⟨hcall.2 before hbefore, fun _ => Reader.follows_start hname⟩
  | read bytes =>
    refine ⟨hcall.1, ?_⟩
    intro before hbefore
    obtain ⟨hmem, hfollows⟩ := hcall.2 before hbefore
    exact ⟨hmem, fun hsettled => (hfollows hsettled).read bytes⟩
  | finish hend =>
    refine ⟨hcall.1, ?_⟩
    intro before hbefore
    obtain ⟨hmem, hfollows⟩ := hcall.2 before hbefore
    exact ⟨hmem, fun hsettled id hname hctime =>
      (hfollows hsettled id hname hctime).eq_content hend⟩
  | @settle path now before seen hsettled hstat =>
    obtain ⟨hmem, hseen⟩ := hcall.2 before rfl
    obtain ⟨hname, hctime⟩ := statIdentity_eq_some hstat
    have hcontent : seen = (s.files.inodes before.file).content :=
      hseen hsettled _ hname hctime.le
    refine ⟨hmem, stamp_gt_of_settled hgranule hsettled hcall.1, fun _ => hcontent.symm, ?_⟩
    intro other path' now' clock since hother
    have hgood := hs.call other
    rw [hother] at hgood
    obtain ⟨-, -, -, hlast, hhead⟩ := hgood
    rw [hcontent]
    exact ⟨List.mem_of_getLast? hlast, fun hclock => hhead hclock hctime⟩
  | unsettled => trivial
  | stored => trivial
  | failed => trivial

theorem MemoGood.memo_of (hs : MemoGood hash granule s)
    (hknows : ∀ id contents, s.Knows granule id contents → s'.Knows granule id contents)
    (hmet : ∀ id ∈ s.met, id ∈ s'.met)
    {key text : Str} (hmemo : s.memos key = some text) (hdigest : isWholeDigest text = true) :
    ∃ id ∈ s'.met, ∃ contents, key = memoKey hash id ∧ text = hash contents ∧
      s'.Knows granule id contents := by
  obtain ⟨id, hid, contents, hkey, htext, hk⟩ := hs.memo key text hmemo hdigest
  exact ⟨id, hmet id hid, contents, hkey, htext, hknows id contents hk⟩

theorem MemoGood.callStep (hgranule : granule < kUnsettledWindowNs)
    (hs : MemoGood hash granule s) (hkeys : NoCollision hash s.met) {call : MemoCall}
    (hstep : CallStepped hash s cid call s') : MemoGood hash granule s' := by
  have hknows : ∀ id contents, s.Knows granule id contents → s'.Knows granule id contents :=
    fun id contents hk => hk.call hstep
  constructor
  case memo =>
    intro key text hmemo hdigest
    rcases hstep.memos with hsame | ⟨before, seen, hstoring, hstored⟩
    · rw [hsame] at hmemo
      exact hs.memo_of hknows hstep.met hmemo hdigest
    · rw [hstored] at hmemo
      by_cases hkey : key = memoKey hash before
      case pos =>
        rw [hkey, Function.update_self] at hmemo
        cases hmemo
        have hgood := hs.call cid
        rw [hstoring] at hgood
        exact ⟨before, hstep.met _ hgood.1, seen, hkey, rfl, hknows _ _ hgood.2⟩
      case neg =>
        rw [Function.update_of_ne hkey] at hmemo
        exact hs.memo_of hknows hstep.met hmemo hdigest
  case call =>
    intro other
    rw [hstep.calls]
    by_cases hother : other = cid
    case neg =>
      rw [Function.update_of_ne hother]
      exact (hs.call other).mono hstep.files hstep.met hknows
    case pos =>
      rw [hother, Function.update_self]
      by_cases hstatted : ∃ path now id clock since, call = .statted path now id clock since
      case pos =>
        obtain ⟨path, now, id, clock, since, rfl⟩ := hstatted
        exact hstep.move.good_statted (hs.call cid) hstep.files (hstep.met_statted _ _ _ _ _ rfl)
      case neg =>
        have hgood := hstep.move.good hgranule hs hkeys
          (fun path now id clock since h => hstatted ⟨path, now, id, clock, since, h⟩)
        exact hgood.mono hstep.files hstep.met hknows

theorem MemoGood.setMemo (hs : MemoGood hash granule s) {key : Str} {text : Option Str}
    (htext : ∀ written, text = some written → isWholeDigest written = false) :
    MemoGood hash granule (s.setMemo key text) := by
  have hknows : ∀ id contents, s.Knows granule id contents →
      (s.setMemo key text).Knows granule id contents :=
    fun id contents hk => ⟨hk.settled, hk.content, hk.calls⟩
  constructor
  case memo =>
    intro other written hmemo hdigest
    simp only [MemoState.setMemo] at hmemo
    by_cases hkey : other = key
    case pos =>
      rw [hkey, Function.update_self] at hmemo
      rw [htext written hmemo] at hdigest
      cases hdigest
    case neg =>
      rw [Function.update_of_ne hkey] at hmemo
      exact hs.memo_of hknows (fun _ hid => hid) hmemo hdigest
  case call => exact fun cid => (hs.call cid).mono rfl (fun _ hid => hid) hknows

theorem MemoGood.step (hgranule : granule < kUnsettledWindowNs) (hs : MemoGood hash granule s)
    (hkeys : NoCollision hash s.met) (h : s.step hash granule e = some s') :
    MemoGood hash granule s' := by
  rcases step_cases h with ⟨c, rfl, heq⟩ | ⟨key, text, htext, rfl⟩ | ⟨cid, call, hstep⟩
  · have hknows : ∀ id contents, s.Knows granule id contents → s'.Knows granule id contents :=
      fun id contents hk => hk.change c h
    have hgood : ∀ cid, CallGood hash granule s' ((s.calls cid).note s'.files) :=
      fun cid => (hs.call cid).change hgranule c h
    subst heq
    refine ⟨?_, hgood⟩
    intro key text hmemo hdigest
    exact hs.memo_of hknows (fun _ hid => hid) hmemo hdigest
  · exact hs.setMemo htext
  · exact hs.callStep hgranule hkeys hstep

theorem met_of_step (h : s.step hash granule e = some s') :
    ∀ id ∈ s.met, id ∈ s'.met := by
  rcases step_cases h with ⟨c, -, rfl⟩ | ⟨key, text, -, rfl⟩ | ⟨cid, call, hstep⟩
  · exact fun _ hid => hid
  · exact fun _ hid => hid
  · exact hstep.met

/-- The invariant as long as no two identities met collide. -/
theorem memoGood_step (hgranule : granule < kUnsettledWindowNs)
    (h : s.step hash granule e = some s')
    (hs : NoCollision hash s.met → MemoGood hash granule s) (hkeys : NoCollision hash s'.met) :
    MemoGood hash granule s' := by
  have hbefore : NoCollision hash s.met := fun id hid id' hid' =>
    hkeys id (met_of_step h id hid) id' (met_of_step h id' hid')
  exact (hs hbefore).step hgranule hbefore h

theorem memoGood_start (hash : Str → Str) (granule : ℕ) (files : HostFiles)
    {memos : Str → Option Str}
    (hmemos : ∀ key text, memos key = some text → isWholeDigest text = false) :
    MemoGood hash granule { files, memos } := by
  refine ⟨?_, fun _ => trivial⟩
  intro key text hmemo hdigest
  rw [hmemos key text hmemo] at hdigest
  cases hdigest

/-- A call that answers from a memo returns the digest of contents the file had at a moment
between its `stat` and its look at the memo; of those it had at the `stat`, when the file's
last change was in an earlier granule. -/
theorem answered_with_content (hash : Str → Str) {granule : ℕ}
    (hgranule : granule < kUnsettledWindowNs) (files : HostFiles) (memos : Str → Option Str)
    (hmemos : ∀ key text, memos key = some text → isWholeDigest text = false)
    {events : List MemoEvent} {t : MemoState}
    (hrun : StepMachine.Run (step hash granule) (fun _ _ => True) { files, memos } events t)
    (hkeys : NoCollision hash t.met) {before : FileIdentity}
    {since : List Str} {digest : Str} (h : t.calls cid = .answered before clock since digest) :
    ∃ contents ∈ since, digest = hash contents ∧
      (before.ctimeNs < stamp granule clock → since.head? = some contents) := by
  have hstep : ∀ s e s', step hash granule s e = some s' → True →
      (NoCollision hash s.met → MemoGood hash granule s) →
        NoCollision hash s'.met → MemoGood hash granule s' :=
    fun s e s' h _ hs => memoGood_step hgranule h hs
  have hstart : NoCollision hash [] → MemoGood hash granule { files, memos } :=
    fun _ => memoGood_start hash granule files hmemos
  have hgood := (hrun.invariant hstep hstart hkeys).call cid
  rw [h] at hgood
  exact hgood

def lastDigit (data : Str) : Str :=
  List.replicate 63 '0' ++ [if data = "b".toList then '1' else '0']

def oneFile : HostFiles where
  clock := 1
  names path := if path = "/f".toList then some (1, 1) else none
  inodes _ := ⟨"a".toList, 0, 0⟩

/-- The steps of a call that finds no memo. -/
def hashAndStore (cid : ℕ) : List MemoEvent :=
  [.start cid "/f".toList, .stat cid, .lookup cid, .openFile cid true, .read cid 1,
    .finish cid true, .settle cid, .store cid true]

theorem answered_with_content_settled :
    ∃ events t before clock since, StepMachine.Run (step lastDigit 4000000) (fun _ _ => True)
        ⟨oneFile, fun _ => none, fun _ => .idle, []⟩ events t ∧
      t.calls 1 = .answered before clock since (lastDigit "a".toList) ∧
      ∃ contents ∈ since, lastDigit "a".toList = lastDigit contents ∧
        (before.ctimeNs < stamp 4000000 clock → since.head? = some contents) := by
  obtain ⟨t, hrun, hend⟩ : ∃ t, StepMachine.Run (step lastDigit 4000000) (fun _ _ => True)
      ⟨oneFile, fun _ => none, fun _ => .idle, []⟩ (.change (.tick 3000000000) :: hashAndStore 0 ++
        [.start 1 "/f".toList, .stat 1, .lookup 1]) t ∧
      (t.met, t.calls 1) = ([⟨1, 1, 1, 0, 0⟩, ⟨1, 1, 1, 0, 0⟩],
        .answered ⟨1, 1, 1, 0, 0⟩ 3000000001 ["a".toList] (lastDigit "a".toList)) :=
    StepMachine.exists_run_of_exec (by decide +kernel)
  obtain ⟨hmet, hanswer⟩ := Prod.mk.inj hend
  have hkeys : NoCollision lastDigit t.met := by
    rw [hmet]
    intro id hid id' hid' _
    simp only [List.mem_cons, List.not_mem_nil, or_false, or_self] at hid hid'
    rw [hid, hid']
  exact ⟨_, t, _, _, _, hrun, hanswer,
    answered_with_content lastDigit (by decide) oneFile (fun _ => none) (by simp) hrun hkeys
      hanswer⟩

/-- Call 0 takes its `stat` while the file still changes within one granule. Before it looks
for a memo, call 1 makes one for the contents that came after. -/
theorem answered_with_later_content :
    ∃ events t before clock since, StepMachine.Run (step lastDigit 4000000) (fun _ _ => True)
        ⟨oneFile, fun _ => none, fun _ => .idle, []⟩ events t ∧
      t.calls 0 = .answered before clock since (lastDigit "b".toList) ∧
      since.head? = some "a".toList ∧ lastDigit "b".toList ≠ lastDigit "a".toList := by
  obtain ⟨t, hrun, hanswer⟩ : ∃ t, StepMachine.Run (step lastDigit 4000000)
      (fun _ _ => True) ⟨oneFile, fun _ => none, fun _ => .idle, []⟩
      ([.start 0 "/f".toList, .stat 0, .change (.write (1, 1) "b".toList),
        .change (.tick 3000000000)] ++ hashAndStore 1 ++ [.lookup 0]) t ∧
      t.calls 0 = .answered ⟨1, 1, 1, 0, 0⟩ 1 ["a".toList, "b".toList, "b".toList]
        (lastDigit "b".toList) :=
    StepMachine.exists_run_of_exec (by decide +kernel)
  exact ⟨_, t, _, _, _, hrun, hanswer, rfl, by decide⟩

end MemoState

end Vcache

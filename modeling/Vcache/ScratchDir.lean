import Mathlib.Data.Nat.Digits.Defs
import Vcache.StepMachine
import Vcache.Strings

/-!
# Scratch directories and the sweeps that remove stale ones

A process that makes a scratch directory locks a file in it and holds the lock as
long as it runs. A sweep that gets the lock takes the owner for dead. Both sides ask
for the lock without waiting, so a sweep that holds it for a moment makes the owner
go without for the rest of its life. An error other than `EWOULDBLOCK` leaves the
owner without the lock as well, and to a sweep it means that the lock is free.
-/

namespace Vcache

open StepMachine (Run)

variable {pre : Str} {e : ScratchEvent} {phase : SweepPhase}

variable {sid : ℕ}

/-! ## The name of a scratch directory -/

def kDeadOwnerScratchGraceSeconds : ℕ := 10 * 60

def kScratchTagLength : ℕ := 8

def kScratchRandomLength : ℕ := 6

/-- The prefixes the callers of `MakeScratchDir` pass. -/
def scratchPrefixes : List Str :=
  ["vcache-rs-", "vcache-dep-", "vcache-", "vcache-link-"].map String.toList

structure ScratchOwner where
  pid : ℕ
  tag : Str
deriving DecidableEq

/-- `<prefix><pid>.<tag>-XXXXXX`, the digits read backwards from the dot. -/
def parseScratchOwner (name : Str) : Option ScratchOwner :=
  if name.length < kScratchTagLength + kScratchRandomLength + 4 then none
  else
    let tagEnd := name.length - kScratchRandomLength - 1
    let tagBegin := tagEnd - kScratchTagLength
    if name[tagEnd]? ≠ some '-' ∨ name[tagBegin - 1]? ≠ some '.' then none
    else
      let digits := ((name.take (tagBegin - 1)).reverse.takeWhile isDigit).reverse
      if digits = [] ∨ 9 < digits.length then none
      else
        let pid := Nat.ofDigitChars 10 digits 0
        if pid = 0 then none
        else some ⟨pid, (name.drop tagBegin).take kScratchTagLength⟩

/-- What `MakeScratchDir` names a directory after. The tag is empty when the process cannot
read its pid namespace or boot id. -/
structure ScratchName where
  pre : Str
  pid : ℕ
  tag : Str
  random : Str
  pre_mem : pre ∈ scratchPrefixes
  pid_pos : 0 < pid
  pid_lt : pid < 10 ^ 9
  tag_length : tag = [] ∨ tag.length = kScratchTagLength
  random_length : random.length = kScratchRandomLength

namespace ScratchName

def text (name : ScratchName) : Str :=
  (if name.tag = [] then name.pre
    else name.pre ++ toDecimal name.pid ++ ".".toList ++ name.tag ++ "-".toList) ++ name.random

theorem isDigit_of_mem_toDecimal {n : ℕ} {c : Char} (h : c ∈ toDecimal n) : isDigit c = true := by
  have hdigit := Nat.isDigit_of_mem_toDigits (by omega) (by omega) h
  simpa [isDigit, Char.isDigit, Char.le_def] using hdigit

theorem scratchPrefixes_spelling : ∀ pre ∈ scratchPrefixes,
    pre.reverse.takeWhile isDigit = [] ∧ '.' ∉ pre ∧ 2 ≤ pre.length := by decide

theorem takeWhile_digits {digits : Str} (hpre : pre.reverse.takeWhile isDigit = [])
    (hdigits : ∀ c ∈ digits, isDigit c = true) :
    ((pre ++ digits).reverse.takeWhile isDigit).reverse = digits := by
  have hreverse : ∀ c ∈ digits.reverse, isDigit c = true := by simpa using hdigits
  rw [List.reverse_append, List.takeWhile_append_of_pos hreverse, hpre, List.append_nil,
    List.reverse_reverse]

theorem length_toDecimal_le {n : ℕ} (h : n < 10 ^ 9) : (toDecimal n).length ≤ 9 := by
  rw [toDecimal, Nat.length_toDigits_le_iff (by omega) (by omega)]
  exact h

theorem parseScratchOwner_tagged {tag random : Str} {pid : ℕ} (hpre : pre ∈ scratchPrefixes)
    (hpos : 0 < pid) (hlt : pid < 10 ^ 9) (htag : tag.length = kScratchTagLength)
    (hrandom : random.length = kScratchRandomLength) :
    parseScratchOwner (pre ++ toDecimal pid ++ ".".toList ++ tag ++ "-".toList ++ random) =
      some ⟨pid, tag⟩ := by
  have hdigits : ((pre ++ toDecimal pid).reverse.takeWhile isDigit).reverse = toDecimal pid :=
    takeWhile_digits (scratchPrefixes_spelling pre hpre).1 (fun c hc => isDigit_of_mem_toDecimal hc)
  have hfits : ¬ (toDecimal pid = [] ∨ 9 < (toDecimal pid).length) := by
    rintro (hnil | hlong)
    · exact Nat.toDigits_ne_nil hnil
    · exact absurd (length_toDecimal_le hlt) (by omega)
  have hpid : Nat.ofDigitChars 10 (toDecimal pid) 0 = pid := Nat.ofDigitChars_ten_toDigits
  generalize hfront : pre ++ toDecimal pid = front at hdigits
  have hname : front ++ ".".toList ++ tag ++ "-".toList ++ random =
      front ++ '.' :: (tag ++ '-' :: random) := by simp
  have hlength : (front ++ '.' :: (tag ++ '-' :: random)).length = front.length + 16 := by
    simp only [List.length_append, List.length_cons, htag, hrandom, kScratchTagLength,
      kScratchRandomLength]
  have hdot : (front ++ '.' :: (tag ++ '-' :: random))[front.length]? = some '.' := by simp
  have hdash : (front ++ '.' :: (tag ++ '-' :: random))[front.length + 9]? = some '-' := by
    rw [List.getElem?_append_right (by omega), Nat.add_sub_cancel_left, List.getElem?_cons_succ,
      List.getElem?_append_right (by rw [htag]; exact le_rfl), htag]
    rfl
  have hdrop : ((front ++ '.' :: (tag ++ '-' :: random)).drop (front.length + 1)).take
      kScratchTagLength = tag := by
    rw [← List.drop_drop, List.drop_left, List.drop_one, List.tail_cons, ← htag, List.take_left']
    rfl
  have hlong : ¬ front.length + 16 < kScratchTagLength + kScratchRandomLength + 4 := by
    have hpreLength := (scratchPrefixes_spelling pre hpre).2.2
    rw [← hfront, List.length_append]
    simp only [kScratchTagLength, kScratchRandomLength]
    omega
  have hend : front.length + 16 - kScratchRandomLength - 1 = front.length + 9 := by
    simp only [kScratchRandomLength]
    omega
  have hbegin : front.length + 9 - kScratchTagLength = front.length + 1 := by
    simp only [kScratchTagLength]
    omega
  rw [hname, parseScratchOwner, hlength, if_neg hlong]
  simp only [hend, hbegin, Nat.add_sub_cancel, hdash, hdot, ne_eq, not_true_eq_false, or_self,
    if_false, List.take_left', hdigits, if_neg hfits, hpid, if_neg hpos.ne', hdrop]

theorem parseScratchOwner_untagged {random : Str} (hpre : pre ∈ scratchPrefixes)
    (hrandom : random.length = kScratchRandomLength) :
    parseScratchOwner (pre ++ random) = none := by
  rw [parseScratchOwner]
  split
  next => rfl
  next hlength =>
    simp only
    rw [if_pos]
    refine .inr (fun hdot => (scratchPrefixes_spelling pre hpre).2.1 ?_)
    rw [List.getElem?_append_left] at hdot
    · exact List.mem_of_getElem? hdot
    · rw [List.length_append, hrandom] at hlength ⊢
      simp only [kScratchTagLength, kScratchRandomLength] at hlength ⊢
      omega

theorem parse_text (name : ScratchName) :
    parseScratchOwner name.text =
      if name.tag = [] then none else some ⟨name.pid, name.tag⟩ := by
  rw [text]
  split
  next => exact parseScratchOwner_untagged name.pre_mem name.random_length
  next htag =>
    exact parseScratchOwner_tagged name.pre_mem name.pid_pos name.pid_lt
      (name.tag_length.resolve_left htag) name.random_length

end ScratchName

/-! ## The owner and the sweeps -/

structure Sweeper where
  tag : Str
  processAlive : ℕ → Bool
  maxAge : ℕ

inductive ScratchLock where
  | none | held | free
deriving DecidableEq

/-- What a sweep measured: the clock when it started and the directory's mtime. -/
structure SweepView where
  now : ℕ
  mtime : ℕ
deriving DecidableEq

/-- The rest of the loop body of `RemoveStaleScratchDirs` after the probe. -/
def sweepRemoves (name : Str) (sweeper : Sweeper) (view : SweepView) (lock : ScratchLock) : Bool :=
  if lock = .held then false
  else
    let owner := parseScratchOwner name
    let ownerVisible := owner.any (fun o => sweeper.tag ≠ [] && o.tag = sweeper.tag)
    if lock = .none ∧ ownerVisible ∧ owner.any (fun o => sweeper.processAlive o.pid) then false
    else
      let ownerDead := lock = .free ∨ ownerVisible
      let limit := if ownerDead then kDeadOwnerScratchGraceSeconds else sweeper.maxAge
      !decide (view.now ≤ view.mtime + limit)

inductive OwnerPhase where
  | starting
  /-- The directory is there. -/
  | made
  /-- The lock file is created and open. -/
  | opened
  | running (locked : Bool)
deriving DecidableEq

inductive SweepPhase where
  | idle
  | listing (now : ℕ)
  | statted (view : SweepView)
  | opened (view : SweepView)
  /-- Between its `flock` and its `close`. -/
  | holding (view : SweepView)
  | probed (view : SweepView) (lock : ScratchLock)
  | removing (view : SweepView)
deriving DecidableEq

inductive LockHolder where
  | owner
  | sweep (sid : ℕ)
deriving DecidableEq

structure ScratchEntry where
  mtime : ℕ
  lockFile : Bool
deriving DecidableEq

structure ScratchState where
  clock : ℕ
  entry : Option ScratchEntry := none
  owner : OwnerPhase := .starting
  lock : Option LockHolder := none
  sweep : ℕ → SweepPhase := fun _ => .idle
  removedBy : Option (ℕ × SweepView) := none

inductive ScratchEvent where
  | tick (seconds : ℕ)
  | mkdir
  /-- The owner's `open` of the lock file, which may fail. -/
  | openLock (ok : Bool)
  /-- The owner's `flock`; not `ok` when it fails though nobody holds the lock. -/
  | flock (ok : Bool)
  /-- The owner or its compiler makes a file in the directory. -/
  | touch
  | sweepStart (sid : ℕ)
  | sweepStat (sid : ℕ)
  | sweepOpen (sid : ℕ) (ok : Bool)
  | sweepFlock (sid : ℕ) (ok : Bool)
  | sweepClose (sid : ℕ)
  | sweepDecide (sid : ℕ)
  | sweepRemove (sid : ℕ)
deriving DecidableEq

namespace ScratchState

def setSweep (s : ScratchState) (sid : ℕ) (phase : SweepPhase) : ScratchState :=
  { s with sweep := Function.update s.sweep sid phase }

def ownerStep (s : ScratchState) : ScratchEvent → Option ScratchState
  | .mkdir =>
    if s.owner = .starting then
      some { s with owner := .made, entry := some ⟨s.clock, false⟩ }
    else none
  | .openLock ok =>
    if s.owner = .made then
      match ok, s.entry with
      | true, some _ => some { s with owner := .opened, entry := some ⟨s.clock, true⟩ }
      | _, _ => some { s with owner := .running false }
    else none
  | .flock ok =>
    if s.owner = .opened then
      match ok, s.lock with
      | true, none => some { s with owner := .running true, lock := some .owner }
      | _, _ => some { s with owner := .running false }
    else none
  | .touch =>
    match s.owner, s.entry with
    | .running _, some entry => some { s with entry := some { entry with mtime := s.clock } }
    | _, _ => none
  | _ => none

def sweepStep (name : Str) (sweepers : ℕ → Sweeper) (s : ScratchState) (sid : ℕ) :
    ScratchEvent → Option ScratchState
  | .sweepStart _ =>
    if s.sweep sid = .idle then some (s.setSweep sid (.listing s.clock)) else none
  | .sweepStat _ =>
    match s.sweep sid, s.entry with
    | .listing now, some entry => some (s.setSweep sid (.statted ⟨now, entry.mtime⟩))
    | .listing _, none => some (s.setSweep sid .idle)
    | _, _ => none
  | .sweepOpen _ ok =>
    match s.sweep sid with
    | .statted view =>
      if ok = true ∧ s.entry.any ScratchEntry.lockFile then some (s.setSweep sid (.opened view))
      else some (s.setSweep sid (.probed view .none))
    | _ => none
  | .sweepFlock _ ok =>
    match s.sweep sid with
    | .opened view =>
      match ok, s.lock with
      | true, none => some { s.setSweep sid (.holding view) with lock := some (.sweep sid) }
      | true, some _ => some (s.setSweep sid (.probed view .held))
      -- Only `EWOULDBLOCK` counts as held.
      | false, _ => some (s.setSweep sid (.holding view))
    | _ => none
  | .sweepClose _ =>
    match s.sweep sid with
    | .holding view =>
      some { s.setSweep sid (.probed view .free) with
        lock := if s.lock = some (.sweep sid) then none else s.lock }
    | _ => none
  | .sweepDecide _ =>
    match s.sweep sid with
    | .probed view lock =>
      if sweepRemoves name (sweepers sid) view lock then some (s.setSweep sid (.removing view))
      else some (s.setSweep sid .idle)
    | _ => none
  | .sweepRemove _ =>
    match s.sweep sid with
    | .removing view =>
      if s.entry.isSome then
        some { s.setSweep sid .idle with entry := none, removedBy := some (sid, view) }
      else some (s.setSweep sid .idle)
    | _ => none
  | _ => none

def step (name : Str) (sweepers : ℕ → Sweeper) (s : ScratchState) (e : ScratchEvent) :
    Option ScratchState :=
  match e with
  | .tick seconds => some { s with clock := s.clock + seconds }
  | .mkdir | .openLock _ | .flock _ | .touch => s.ownerStep e
  | .sweepStart sid | .sweepStat sid | .sweepOpen sid _ | .sweepFlock sid _ | .sweepClose sid
  | .sweepDecide sid | .sweepRemove sid => s.sweepStep name sweepers sid e

/-- The owner gets the lock. No sweep that measured more than the grace gets it before, and
none fails to lock with an error other than `EWOULDBLOCK`. -/
def Undisturbed (s : ScratchState) : ScratchEvent → Prop
  | .flock ok => ok = true ∧ s.lock = none
  | .sweepFlock sid ok => ok = false ∨ (s.owner = .opened ∧ s.lock = none) →
      ∀ view, s.sweep sid = .opened view →
        view.now ≤ view.mtime + kDeadOwnerScratchGraceSeconds
  | _ => True

/-- The moves of a step, each with what it finds. -/
inductive Move (name : Str) (sweepers : ℕ → Sweeper) (s : ScratchState) :
    ScratchEvent → ScratchState → Prop where
  | tick (seconds : ℕ) : Move name sweepers s (.tick seconds) { s with clock := s.clock + seconds }
  | mkdir (hphase : s.owner = .starting) : Move name sweepers s .mkdir
      { s with owner := .made, entry := some ⟨s.clock, false⟩ }
  | create (hphase : s.owner = .made) : Move name sweepers s (.openLock true)
      { s with owner := .opened, entry := some ⟨s.clock, true⟩ }
  | createFails (ok : Bool) (hphase : s.owner = .made) : Move name sweepers s (.openLock ok)
      { s with owner := .running false }
  | lock (hphase : s.owner = .opened) (hlock : s.lock = none) : Move name sweepers s (.flock true)
      { s with owner := .running true, lock := some .owner }
  | lockFails (ok : Bool) (hphase : s.owner = .opened) (hlock : ¬ (ok = true ∧ s.lock = none)) :
      Move name sweepers s (.flock ok) { s with owner := .running false }
  | touch (entry : ScratchEntry) (hentry : s.entry = some entry) : Move name sweepers s .touch
      { s with entry := some { entry with mtime := s.clock } }
  /-- A sweep goes on and nothing else changes. -/
  | sweep (e : ScratchEvent) (sid : ℕ) (phase : SweepPhase)
      (hopened : ∀ view, phase = .opened view → s.entry.any ScratchEntry.lockFile = true)
      (hholding : ∀ view, phase ≠ .holding view) (hfree : ∀ view, phase ≠ .probed view .free)
      (hremoving : ∀ view, phase = .removing view → ∃ lock, s.sweep sid = .probed view lock ∧
        sweepRemoves name (sweepers sid) view lock = true) :
      Move name sweepers s e (s.setSweep sid phase)
  | sweepLock (sid : ℕ) (view : SweepView) (hphase : s.sweep sid = .opened view)
      (hlock : s.lock = none) : Move name sweepers s (.sweepFlock sid true)
      { s.setSweep sid (.holding view) with lock := some (.sweep sid) }
  | sweepLockFails (sid : ℕ) (view : SweepView) (hphase : s.sweep sid = .opened view) :
      Move name sweepers s (.sweepFlock sid false) (s.setSweep sid (.holding view))
  | sweepClose (sid : ℕ) (view : SweepView) (hphase : s.sweep sid = .holding view) :
      Move name sweepers s (.sweepClose sid)
      { s.setSweep sid (.probed view .free) with
        lock := if s.lock = some (.sweep sid) then none else s.lock }
  | remove (sid : ℕ) (view : SweepView) (hphase : s.sweep sid = .removing view) :
      Move name sweepers s (.sweepRemove sid)
      { s.setSweep sid .idle with entry := none, removedBy := some (sid, view) }

variable {name : Str} {sweepers : ℕ → Sweeper} {s s' t : ScratchState}

theorem move_of_ownerStep : s.ownerStep e = some s' →
    Move name sweepers s e s' := by
  fun_cases ownerStep s e <;> rintro ⟨⟩
  next hphase => exact .mkdir hphase
  next hphase _ _ => exact .create hphase
  next hphase _ => exact .createFails _ hphase
  next hphase hlock => exact .lock hphase hlock
  next hphase hlock => exact .lockFails _ hphase (by rintro ⟨rfl, h⟩; exact hlock rfl h)
  next hentry _ => exact .touch _ hentry

/-- A sweep that only goes to a phase without a lock and without a verdict. -/
theorem move_plain (e : ScratchEvent) (sid : ℕ)
    (h : phase = .idle ∨ (∃ now, phase = .listing now) ∨ (∃ view, phase = .statted view) ∨
      (∃ view, phase = .probed view .none) ∨ ∃ view, phase = .probed view .held) :
    Move name sweepers s e (s.setSweep sid phase) := by
  rcases h with rfl | ⟨now, rfl⟩ | ⟨view, rfl⟩ | ⟨view, rfl⟩ | ⟨view, rfl⟩ <;>
    exact .sweep e sid _ (by simp) (by simp) (by simp) (by simp)

theorem move_of_sweepStep
    (hsid : ∀ other, (∃ ok, e = .sweepFlock other ok) ∨ e = .sweepClose other ∨
      e = .sweepRemove other → other = sid) :
    s.sweepStep name sweepers sid e = some s' → Move name sweepers s e s' := by
  fun_cases sweepStep name sweepers s sid e <;> rintro ⟨⟩
  next => exact move_plain _ sid (.inr (.inl ⟨_, rfl⟩))
  next => exact move_plain _ sid (.inr (.inr (.inl ⟨_, rfl⟩)))
  next => exact move_plain _ sid (.inl rfl)
  next hfile => exact .sweep _ sid _ (fun _ _ => hfile.2) (by simp) (by simp) (by simp)
  next view _ _ => exact move_plain _ sid (.inr (.inr (.inr (.inl ⟨view, rfl⟩))))
  next view hphase hlock =>
    obtain rfl := hsid _ (.inl ⟨_, rfl⟩)
    exact .sweepLock _ view hphase hlock
  next view _ _ _ => exact move_plain _ sid (.inr (.inr (.inr (.inr ⟨view, rfl⟩))))
  next view hphase =>
    obtain rfl := hsid _ (.inl ⟨_, rfl⟩)
    exact .sweepLockFails _ view hphase
  next view hphase =>
    obtain rfl := hsid _ (.inr (.inl rfl))
    exact .sweepClose _ view hphase
  next view lock hphase hremoves =>
    refine .sweep _ sid _ (by simp) (by simp) (by simp) ?_
    intro view' hview
    obtain rfl := SweepPhase.removing.inj hview
    exact ⟨lock, hphase, hremoves⟩
  next => exact move_plain _ sid (.inl rfl)
  next view hphase _ =>
    obtain rfl := hsid _ (.inr (.inr rfl))
    exact .remove _ view hphase
  next => exact move_plain _ sid (.inl rfl)

theorem move_of_step (h : s.step name sweepers e = some s') :
    Move name sweepers s e s' := by
  revert h
  fun_cases step name sweepers s e <;> intro h
  next seconds =>
    cases h
    exact .tick seconds
  next => exact move_of_ownerStep h
  next => exact move_of_ownerStep h
  next => exact move_of_ownerStep h
  next => exact move_of_ownerStep h
  all_goals exact move_of_sweepStep (by rintro _ (⟨_, h⟩ | h | h) <;> cases h <;> rfl) h

/-! ## What holds along a run -/

/-- The owner is between its `open` and the end of its run, without having failed to lock. -/
def Locking (s : ScratchState) : Prop :=
  s.owner = .opened ∨ s.owner = .running true

/-- No sweep has reason to remove a directory younger than its limit. -/
structure Kept (sweepers : ℕ → Sweeper) (s : ScratchState) : Prop where
  locked : s.owner = .running true → s.lock = some .owner
  file : s.entry.any ScratchEntry.lockFile = true → s.Locking
  opened : ∀ sid view, s.sweep sid = .opened view → s.Locking
  holding : ∀ sid view, s.sweep sid = .holding view →
    view.now ≤ view.mtime + kDeadOwnerScratchGraceSeconds
  free : ∀ sid view, s.sweep sid = .probed view .free →
    view.now ≤ view.mtime + kDeadOwnerScratchGraceSeconds
  removing : ∀ sid view, s.sweep sid = .removing view →
    view.mtime + (sweepers sid).maxAge < view.now
  removed : ∀ sid view, s.removedBy = some (sid, view) →
    view.mtime + (sweepers sid).maxAge < view.now

end ScratchState

/-- A sweep that does not find the lock free and sees the owner alive where it can see it
removes the directory for its age only. -/
theorem ScratchName.age_of_sweepRemoves (name : ScratchName) {sweeper : Sweeper}
    {view : SweepView} {lock : ScratchLock}
    (halive : name.tag ≠ [] → sweeper.tag = name.tag → sweeper.processAlive name.pid = true)
    (hfree : lock = .free → view.now ≤ view.mtime + kDeadOwnerScratchGraceSeconds)
    (h : sweepRemoves name.text sweeper view lock = true) :
    view.mtime + sweeper.maxAge < view.now := by
  have hparse := name.parse_text
  cases lock with
  | held => simp [sweepRemoves] at h
  | free =>
    have hyoung := hfree rfl
    simp only [sweepRemoves, reduceCtorEq, if_false, false_and, true_or, if_true,
      Bool.not_eq_true', decide_eq_false_iff_not] at h
    exact absurd hyoung h
  | none =>
    by_cases hvisible : (parseScratchOwner name.text).any
        (fun o => sweeper.tag ≠ [] && o.tag = sweeper.tag) = true
    case pos =>
      exfalso
      rw [hparse] at hvisible
      split at hvisible
      next => simp at hvisible
      next htag =>
        have hsame : sweeper.tag = name.tag := by
          simp only [Option.any_some, Bool.and_eq_true, decide_eq_true_eq] at hvisible
          exact hvisible.2.symm
        have hseen := halive htag hsame
        simp [sweepRemoves, hparse, htag, hsame, hseen] at h
    case neg =>
      simp only [sweepRemoves] at h
      simp only [hvisible] at h
      simpa using h

namespace ScratchState

variable {name : ScratchName} {sweepers : ℕ → Sweeper} {s s' t : ScratchState}

theorem sweep_setSweep {P : ℕ → SweepPhase → Prop}
    (hold : ∀ other, P other (s.sweep other)) (hnew : P sid phase) (other : ℕ) :
    P other ((s.setSweep sid phase).sweep other) := by
  by_cases hsame : other = sid
  case pos =>
    subst hsame
    simpa [setSweep] using hnew
  case neg => simpa [setSweep, hsame] using hold other

theorem Kept.owner (hs : s.Kept sweepers) {entry : Option ScratchEntry} {phase : OwnerPhase}
    {lock : Option LockHolder} (hlocked : phase = .running true → lock = some .owner)
    (hphase : phase = .opened ∨ phase = .running true ∨
      (¬ s.Locking ∧ entry.any ScratchEntry.lockFile = false)) :
    Kept sweepers { s with entry := entry, owner := phase, lock := lock } where
  locked := hlocked
  file hfile := by
    rcases hphase with h | h | ⟨_, hnone⟩
    · exact .inl h
    · exact .inr h
    · exact absurd hfile (by simp [hnone])
  opened sid view hview := by
    rcases hphase with h | h | ⟨hnot, _⟩
    · exact .inl h
    · exact .inr h
    · exact absurd (hs.opened sid view hview) hnot
  holding := hs.holding
  free := hs.free
  removing := hs.removing
  removed := hs.removed

theorem Kept.sweep (hs : s.Kept sweepers)
    {lock : Option LockHolder} (hlock : s.owner = .running true → lock = s.lock)
    (hopened : ∀ view, phase = .opened view → s.Locking)
    (hyoung : ∀ view, phase = .holding view ∨ phase = .probed view .free →
      view.now ≤ view.mtime + kDeadOwnerScratchGraceSeconds)
    (hremoving : ∀ view, phase = .removing view →
      view.mtime + (sweepers sid).maxAge < view.now) :
    Kept sweepers { s.setSweep sid phase with lock := lock } where
  locked howner := (hlock howner).trans (hs.locked howner)
  file := hs.file
  opened := sweep_setSweep (P := fun _ phase => ∀ view, phase = .opened view → s.Locking)
    hs.opened hopened
  holding := sweep_setSweep (P := fun _ phase => ∀ view, phase = .holding view →
    view.now ≤ view.mtime + kDeadOwnerScratchGraceSeconds) hs.holding
    (fun view h => hyoung view (.inl h))
  free := sweep_setSweep (P := fun _ phase => ∀ view, phase = .probed view .free →
    view.now ≤ view.mtime + kDeadOwnerScratchGraceSeconds) hs.free
    (fun view h => hyoung view (.inr h))
  removing := sweep_setSweep (P := fun sid phase => ∀ view, phase = .removing view →
    view.mtime + (sweepers sid).maxAge < view.now) hs.removing hremoving
  removed := hs.removed

theorem Kept.step (halive : ∀ sid, name.tag ≠ [] → (sweepers sid).tag = name.tag →
      (sweepers sid).processAlive name.pid = true)
    (hs : s.Kept sweepers) (hok : s.Undisturbed e)
    (h : s.step name.text sweepers e = some s') : s'.Kept sweepers := by
  cases move_of_step h with
  | tick seconds => exact ⟨hs.locked, hs.file, hs.opened, hs.holding, hs.free, hs.removing,
      hs.removed⟩
  | mkdir hphase =>
    refine hs.owner (by simp) (.inr (.inr ⟨?_, rfl⟩))
    simp [Locking, hphase]
  | create hphase => exact hs.owner (by simp) (.inl rfl)
  | createFails ok hphase =>
    have hnot : ¬ s.Locking := by simp [Locking, hphase]
    refine hs.owner (by simp) (.inr (.inr ⟨hnot, ?_⟩))
    by_contra hfile
    exact hnot (hs.file (by simpa using hfile))
  | lock hphase hlock => exact hs.owner (by simp) (.inr (.inl rfl))
  | lockFails ok hphase hlock => exact absurd hok hlock
  | touch entry hentry =>
    refine ⟨hs.locked, ?_, hs.opened, hs.holding, hs.free, hs.removing, hs.removed⟩
    intro hfile
    exact hs.file (by simpa [hentry] using hfile)
  | sweep e sid phase hopened hholding hfree hremoving =>
    refine hs.sweep (fun _ => rfl) (fun view hview => hs.file (hopened view hview)) ?_ ?_
    case refine_1 =>
      rintro view (hview | hview)
      · exact absurd hview (hholding view)
      · exact absurd hview (hfree view)
    case refine_2 =>
      intro view hview
      obtain ⟨lock, hphase, hremoves⟩ := hremoving view hview
      refine name.age_of_sweepRemoves (halive sid) ?_ hremoves
      intro hlock
      exact hs.free sid view (hlock ▸ hphase)
  | sweepLock sid view hphase hlock =>
    refine hs.sweep ?_ (by simp) ?_ (by simp)
    case refine_1 =>
      intro howner
      have hheld := hs.locked howner
      rw [hlock] at hheld
      cases hheld
    case refine_2 =>
      rintro view' (hview | hview)
      · obtain rfl := SweepPhase.holding.inj hview
        rcases hs.opened sid view hphase with howner | howner
        · exact hok (.inr ⟨howner, hlock⟩) view hphase
        · have hheld := hs.locked howner
          rw [hlock] at hheld
          cases hheld
      · cases hview
  | sweepLockFails sid view hphase =>
    refine hs.sweep (fun _ => rfl) (by simp) ?_ (by simp)
    rintro view' (hview | hview)
    · obtain rfl := SweepPhase.holding.inj hview
      exact hok (.inl rfl) view hphase
    · cases hview
  | sweepClose sid view hphase =>
    refine hs.sweep ?_ (by simp) ?_ (by simp)
    case refine_1 =>
      intro howner
      simp [hs.locked howner]
    case refine_2 =>
      rintro view' (hview | hview)
      · cases hview
      · obtain ⟨rfl, -⟩ := SweepPhase.probed.inj hview
        exact hs.holding sid view hphase
  | remove sid view hphase =>
    have hidle : Kept sweepers (s.setSweep sid .idle) :=
      hs.sweep (fun _ => rfl) (by simp) (by simp) (by simp)
    refine ⟨hidle.locked, by simp, hidle.opened, hidle.holding, hidle.free, hidle.removing, ?_⟩
    intro sid' view' hremoved
    cases hremoved
    exact hs.removing sid view hphase

/-- While no probe comes between the owner's `open` and its `flock` with a directory it
measured past the grace, none holds the lock when the owner asks for it, and `flock` fails for
no other reason, only age removes the directory. -/
theorem removed_only_for_age (name : ScratchName) (sweepers : ℕ → Sweeper)
    (halive : ∀ sid, name.tag ≠ [] → (sweepers sid).tag = name.tag →
      (sweepers sid).processAlive name.pid = true)
    (clock : ℕ) {events : List ScratchEvent} {t : ScratchState}
    (hrun : StepMachine.Run (step name.text sweepers) Undisturbed { clock := clock } events t)
    {view : SweepView} (hremoved : t.removedBy = some (sid, view)) :
    view.mtime + (sweepers sid).maxAge < view.now := by
  have hstart : Kept sweepers { clock := clock } :=
    ⟨by simp, by simp, by simp, by simp, by simp, by simp, by simp⟩
  have hend : t.Kept sweepers := hrun.invariant
    (fun s e s' hstep hok hs => hs.step halive hok hstep) hstart
  exact hend.removed sid view hremoved

theorem vcachePrefix_mem : "vcache-".toList ∈ scratchPrefixes := by decide

theorem seventySeven_lt : 77 < 10 ^ 9 := by decide

def ownedName : ScratchName where
  pre := "vcache-".toList
  pid := 77
  tag := "0badc0de".toList
  random := "aB3dE9".toList
  pre_mem := vcachePrefix_mem
  pid_pos := Nat.succ_pos 76
  pid_lt := seventySeven_lt
  tag_length := .inr rfl
  random_length := rfl

/-- Sweeps from another pid namespace, with a limit of one day. -/
def foreignSweep (_ : ℕ) : Sweeper := ⟨"1badc0de".toList, fun _ => false, 86400⟩

theorem foreignSweep_alive : ∀ sid, ownedName.tag ≠ [] → (foreignSweep sid).tag = ownedName.tag →
    (foreignSweep sid).processAlive ownedName.pid = true := by
  intro sid _ h
  have hdiff : "1badc0de".toList ≠ ownedName.tag := by decide
  exact absurd h hdiff

/-- The directory could not be locked and is older than a day. -/
theorem removed_only_for_age_oldDir :
    ∃ events t, StepMachine.Run (step ownedName.text foreignSweep) Undisturbed { clock := 5 }
        events t ∧ t.removedBy = some (0, ⟨86406, 5⟩) ∧ 5 + (foreignSweep 0).maxAge < 86406 := by
  have hrun : ∃ t, StepMachine.Run (step ownedName.text foreignSweep) Undisturbed { clock := 5 }
      [.mkdir, .openLock false, .tick 86401, .sweepStart 0, .sweepStat 0, .sweepOpen 0 true,
        .sweepDecide 0, .sweepRemove 0] t ∧ t.removedBy = some (0, ⟨86406, 5⟩) :=
    ⟨_, .cons rfl trivial <| .cons rfl trivial <| .cons rfl trivial <| .cons rfl trivial <|
      .cons rfl trivial <| .cons rfl trivial <| .cons rfl trivial <| .cons rfl trivial <|
      .nil _, rfl⟩
  obtain ⟨t, hrun, hremoved⟩ := hrun
  exact ⟨_, t, hrun, hremoved,
    removed_only_for_age ownedName foreignSweep foreignSweep_alive 5 hrun hremoved⟩

set_option maxRecDepth 4000 in
/-- A probe holds the lock when the owner asks for it, so the owner runs without. A sweep
eleven minutes later finds the lock free and removes the directory under it. -/
theorem removed_young_of_probe :
    ∃ events t, StepMachine.Run (step ownedName.text foreignSweep) (fun _ _ => True)
        { clock := 5 } events t ∧ t.owner = .running false ∧
      t.removedBy = some (1, ⟨665, 5⟩) ∧ 665 ≤ 5 + (foreignSweep 1).maxAge :=
  ⟨[.mkdir, .openLock true, .sweepStart 0, .sweepStat 0, .sweepOpen 0 true, .sweepFlock 0 true,
    .flock true, .sweepClose 0, .sweepDecide 0, .tick 660, .sweepStart 1, .sweepStat 1,
    .sweepOpen 1 true, .sweepFlock 1 true, .sweepClose 1, .sweepDecide 1, .sweepRemove 1], _,
    StepMachine.run_of_exec rfl, rfl, rfl, by decide⟩

end ScratchState

end Vcache

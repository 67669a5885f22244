import Mathlib.Data.List.Basic
import Vcache.StepMachine

/-!
# Single-flight leases

Processes that miss on one key at the same time ask the daemon for a lease on it
(`daemon/server.cc`). The first to ask compiles; the others wait until the lease is
completed: by a store of the key from the holder's process, by the holder's own word, or
because the holder's session closed. A store may still run when its session closes, and
it then completes the lease in the session's stead.

The model follows one key. Every handler changes the table under one mutex, so a move is
what a thread does while it holds it, and a session is answered where its reply is
composed.
-/

namespace Vcache

open List Option

inductive LeaseOutcome where
  | granted | stored | compile
deriving DecidableEq

inductive LeaseCompileReason where
  | none | holderFailed | holderGone | bound | shutdown
deriving DecidableEq

/-- `LeaseWait`; sessions and leases are known by their place in their lists. -/
structure LeaseWait where
  holder : ℕ
  holderPid : ℕ
  storesInProgress : ℕ := 0
  outcome : Option LeaseOutcome := none
  reason : LeaseCompileReason := .none
deriving DecidableEq

structure CompileSession where
  clientPid : ℕ
  isOpen : Bool := true
  /-- The lease whose completion the session's thread waits for. -/
  waitingOn : Option ℕ := none
deriving DecidableEq

/-- A `HandlePut` of the key. -/
structure LeasePut where
  peerPid : ℕ
  storingLease : Option ℕ
  running : Bool := true
deriving DecidableEq

/-- What others can see of the handlers, in the order they did it. -/
inductive LeaseEntry where
  | answered (sid lease : ℕ) (outcome : LeaseOutcome) (reason : LeaseCompileReason)
  | putDone (peerPid : ℕ) (stored : Bool)
  | released (sid : ℕ) (outcome : LeaseOutcome)
deriving DecidableEq

structure LeaseState where
  sessions : List CompileSession := []
  /-- The leases made so far. -/
  leases : List LeaseWait := []
  /-- `leases_[key].compile` -/
  compile : Option ℕ := none
  puts : List LeasePut := []
  log : List LeaseEntry := []
deriving DecidableEq

inductive LeaseEvent where
  | sessionOpen (pid : ℕ)
  | acquire (sid : ℕ)
  /-- `overdue`: the deadline has passed or the waiter is gone. -/
  | waitEnds (sid : ℕ) (overdue : Bool)
  | release (sid : ℕ) (stored : Bool)
  | putStart (pid : ℕ)
  /-- `stored`: what the layers made of the store. -/
  | putFinish (put : ℕ) (stored : Bool)
  | close (sid : ℕ)
deriving DecidableEq

namespace LeaseState

def note (s : LeaseState) (entry : LeaseEntry) : LeaseState := { s with log := s.log ++ [entry] }

def setSession (s : LeaseState) (sid : ℕ) (session : CompileSession) : LeaseState :=
  { s with sessions := s.sessions.set sid session }

def completeLease (s : LeaseState) (outcome : LeaseOutcome) (reason : LeaseCompileReason) :
    LeaseState :=
  match s.compile with
  | none => s
  | some l =>
    match s.leases[l]? with
    | none => s
    | some w =>
      if w.outcome = none then
        { s with
          compile := none
          leases := s.leases.set l { w with outcome := some outcome, reason := reason } }
      else s

/-- The lease on the key is held by the session. -/
def heldBy (s : LeaseState) (sid : ℕ) : Bool :=
  (s.compile.bind (s.leases[·]?)).any (·.holder = sid)

def expireLeases (s : LeaseState) (sid : ℕ) : LeaseState :=
  -- A Put already accepted on another connection decides the result.
  if (s.compile.bind (s.leases[·]?)).any (fun w => w.holder = sid ∧ w.storesInProgress = 0) then
    s.completeLease .compile .holderGone
  else s

def newLease (s : LeaseState) (sid pid : ℕ) : LeaseState :=
  { s with compile := some s.leases.length, leases := s.leases ++ [⟨sid, pid, 0, none, .none⟩] }

/-- `HandleLeaseAcquire` up to its answer or its first wait. -/
def handleLeaseAcquire (readOnly : Bool) (s : LeaseState) (sid : ℕ) (session : CompileSession) :
    LeaseState :=
  if readOnly then s
  else
    match s.compile with
    | none => (s.newLease sid session.clientPid).note (.answered sid s.leases.length .granted .none)
    | some l =>
      if s.heldBy sid then s.note (.answered sid l .granted .none)
      else s.setSession sid { session with waitingOn := some l }

def endWait (s : LeaseState) (sid : ℕ) (session : CompileSession) (l : ℕ) (w : LeaseWait) :
    LeaseState :=
  (s.setSession sid { session with waitingOn := none }).note
    (match w.outcome with
    | some outcome => .answered sid l outcome w.reason
    | none => .answered sid l .compile .bound)

/-- `HandleLeaseRelease`; only the holder may release. -/
def handleLeaseRelease (s : LeaseState) (sid : ℕ) (stored : Bool) : LeaseState :=
  if s.compile.isSome ∧ s.heldBy sid = false then s
  else if stored then (s.note (.released sid .stored)).completeLease .stored .none
  else (s.note (.released sid .compile)).completeLease .compile .holderFailed

/-- The lease a `HandlePut` from the process stores under. -/
def storingLease (s : LeaseState) (pid : ℕ) : Option ℕ :=
  s.compile.filter fun l =>
    (s.leases[l]?).any fun w => pid = 0 ∨ w.holderPid = 0 ∨ w.holderPid = pid

def addStores (s : LeaseState) (l : ℕ) (change : ℕ → ℕ) : LeaseState :=
  { s with
    leases := s.leases.modify l fun w => { w with storesInProgress := change w.storesInProgress } }

def startPut (s : LeaseState) (pid : ℕ) : LeaseState :=
  match s.storingLease pid with
  | none => { s with puts := s.puts ++ [⟨pid, none, true⟩] }
  | some l => { s.addStores l (· + 1) with puts := s.puts ++ [⟨pid, some l, true⟩] }

def finishPut (s : LeaseState) (put : ℕ) (p : LeasePut) (stored : Bool) : LeaseState :=
  let s := { s with puts := s.puts.set put { p with running := false } }.note
    (.putDone p.peerPid stored)
  match p.storingLease with
  | none => s
  | some l =>
    let s := s.addStores l (· - 1)
    if s.compile = some l then
      s.completeLease (if stored then .stored else .compile)
        (if stored then .none else .holderFailed)
    else s

def step (readOnly : Bool) (s : LeaseState) : LeaseEvent → Option LeaseState
  | .sessionOpen pid =>
    -- a pid holds one session at a time
    if 0 < pid ∧ s.sessions.any (fun session => session.isOpen ∧ session.clientPid = pid) then
      some s
    else some { s with sessions := s.sessions ++ [⟨pid, true, none⟩] }
  | .acquire sid =>
    match s.sessions[sid]? with
    | none => none
    | some session =>
      if session.isOpen = true ∧ session.waitingOn = none then
        some (s.handleLeaseAcquire readOnly sid session)
      else none
  | .waitEnds sid overdue =>
    match s.sessions[sid]? with
    | none => none
    | some session =>
      match session.waitingOn with
      | none => none
      | some l =>
        match s.leases[l]? with
        | none => none
        | some w =>
          if overdue = true ∨ w.outcome.isSome then some (s.endWait sid session l w) else none
  | .release sid stored =>
    match s.sessions[sid]? with
    | none => none
    | some session =>
      if session.isOpen = true ∧ session.waitingOn = none then
        some (s.handleLeaseRelease sid stored)
      else none
  | .putStart pid => some (s.startPut pid)
  | .putFinish put stored =>
    match s.puts[put]? with
    | none => none
    | some p => if p.running then some (s.finishPut put p stored) else none
  | .close sid =>
    match s.sessions[sid]? with
    | none => none
    | some session =>
      if session.isOpen = true ∧ session.waitingOn = none then
        some ((s.expireLeases sid).setSession sid { session with isOpen := false })
      else none

/-- The kernel names every peer. -/
def KnownPids (_ : LeaseState) : LeaseEvent → Prop
  | .sessionOpen pid => pid ≠ 0
  | .putStart pid => pid ≠ 0
  | _ => True

/-! ## What the table promises -/

section Lists

variable {α : Type*} {xs : List α} {x y : α} {i j : ℕ}

theorem forall_set {P : ℕ → α → Prop} (hold : ∀ j, j ≠ i → ∀ y, xs[j]? = some y → P j y)
    (hnew : P i x) (j : ℕ) (y : α) (h : (xs.set i x)[j]? = some y) : P j y := by
  rw [List.getElem?_set] at h
  split at h
  next hij =>
    split at h
    next =>
      cases h
      exact hij ▸ hnew
    next => cases h
  next hij => exact hold j (Ne.symm hij) y h

theorem getElem?_set_of_some (h : xs[j]? = some y) :
    (xs.set i x)[j]? = some (if i = j then x else y) := by
  obtain ⟨hj, -⟩ := List.getElem?_eq_some_iff.mp h
  rw [List.getElem?_set]
  split
  next hij => rw [if_pos (hij ▸ hj)]
  next => exact h

theorem forall_concat {P : ℕ → α → Prop} (hold : ∀ j y, xs[j]? = some y → P j y)
    (hnew : P xs.length x) (j : ℕ) (y : α) (h : (xs ++ [x])[j]? = some y) : P j y := by
  rcases Nat.lt_trichotomy j xs.length with hlt | rfl | hlt
  · exact hold j y (getElem?_append_left hlt ▸ h)
  · rw [getElem?_concat_length] at h
    exact some.inj h ▸ hnew
  · rw [getElem?_eq_none (by simpa using Nat.succ_le_of_lt hlt)] at h
    cases h

theorem getElem?_concat_of_some (h : xs[j]? = some y) : (xs ++ [x])[j]? = some y := by
  obtain ⟨hj, -⟩ := List.getElem?_eq_some_iff.mp h
  rw [List.getElem?_append_left hj, h]

theorem concat_eq_append_cons {front rest : List α} (h : xs ++ [x] = front ++ y :: rest) :
    (front = xs ∧ y = x) ∨ ∃ rest', xs = front ++ y :: rest' := by
  rcases eq_nil_or_concat rest with rfl | ⟨rest', z, rfl⟩
  · obtain ⟨hfront, hlast⟩ := append_inj' h rfl
    exact .inl ⟨hfront.symm, (cons.inj hlast).1.symm⟩
  · right
    have hassoc : xs ++ [x] = (front ++ y :: rest') ++ [z] := by simpa using h
    exact ⟨rest', (append_inj' hassoc rfl).1⟩

end Lists

variable {s s' : LeaseState} {sid l : ℕ} {session : CompileSession} {w : LeaseWait}

def LeasePut.under (l : ℕ) (p : LeasePut) : Bool := p.running ∧ p.storingLease = some l

/-- Something happened that lets a waiter on the lease be told that the entry is stored. -/
def Justified (w : LeaseWait) (entries : List LeaseEntry) : Prop :=
  .putDone w.holderPid true ∈ entries ∨ .released w.holder .stored ∈ entries

/-- It happened after the lease was granted. -/
def Honest (log : List LeaseEntry) (l : ℕ) (w : LeaseWait) : Prop :=
  ∃ before after, log = before ++ .answered w.holder l .granted .none :: after ∧ Justified w after

theorem Honest.append {log : List LeaseEntry} (h : Honest log l w) (more : List LeaseEntry) :
    Honest (log ++ more) l w := by
  obtain ⟨before, after, rfl, hjust⟩ := h
  refine ⟨before, after ++ more, by simp, ?_⟩
  exact hjust.imp (mem_append_left _) (mem_append_left _)

theorem Honest.of_granted {log : List LeaseEntry} {entry : LeaseEntry}
    (hgranted : .answered w.holder l .granted .none ∈ log) (hentry : Justified w [entry]) :
    Honest (log ++ [entry]) l w := by
  obtain ⟨before, after, rfl⟩ := append_of_mem hgranted
  refine ⟨before, after ++ [entry], by simp, ?_⟩
  exact hentry.imp (mem_append_right _) (mem_append_right _)

structure Sound (s : LeaseState) : Prop where
  /-- The lease in the table is the uncompleted one. -/
  current : ∀ l : ℕ, s.compile = some l →
    ∃ w : LeaseWait, s.leases[l]? = some w ∧ w.outcome = none
  unique : ∀ (l : ℕ) (w : LeaseWait), s.leases[l]? = some w → w.outcome = none → s.compile = some l
  outcome : ∀ (l : ℕ) (w : LeaseWait), s.leases[l]? = some w → w.outcome ≠ some .granted
  known : ∀ session ∈ s.sessions, session.clientPid ≠ 0
  holder : ∀ (l : ℕ) (w : LeaseWait), s.leases[l]? = some w →
    ∃ session : CompileSession, s.sessions[w.holder]? = some session ∧
      session.clientPid = w.holderPid ∧
      (w.outcome = none → session.isOpen = false → 0 < w.storesInProgress)
  stores : ∀ (l : ℕ) (w : LeaseWait), s.leases[l]? = some w →
    w.storesInProgress = s.puts.countP (LeasePut.under l)
  puts : ∀ p ∈ s.puts, ∀ l : ℕ, p.storingLease = some l →
    ∃ w : LeaseWait, s.leases[l]? = some w ∧ w.holderPid = p.peerPid
  granted : ∀ (l : ℕ) (w : LeaseWait), s.leases[l]? = some w →
    .answered w.holder l .granted .none ∈ s.log
  honest : ∀ (l : ℕ) (w : LeaseWait), s.leases[l]? = some w → w.outcome = some .stored →
    Honest s.log l w
  answers : ∀ before after sid l reason,
    s.log = before ++ .answered sid l .stored reason :: after →
      ∃ w : LeaseWait, s.leases[l]? = some w ∧ Honest before l w

theorem sound_start : Sound {} := by
  refine ⟨?_, ?_, ?_, ?_, ?_, ?_, ?_, ?_, ?_, ?_⟩ <;> simp

/-- What a handler tells, if it does not say that the entry is stored or has reason to. -/
theorem Sound.note (h : s.Sound) {entry : LeaseEntry}
    (hentry : ∀ (sid l : ℕ) reason, entry = .answered sid l .stored reason →
      ∃ w : LeaseWait, s.leases[l]? = some w ∧ Honest s.log l w) : (s.note entry).Sound := by
  refine { h with
    granted := fun l w hw => List.mem_append_left _ (h.granted l w hw)
    honest := fun l w hw hstored => (h.honest l w hw hstored).append _
    answers := fun before after sid l reason hlog => ?_ }
  rcases concat_eq_append_cons hlog with ⟨rfl, hlast⟩ | ⟨rest, hold⟩
  · exact hentry sid l reason hlast.symm
  · exact h.answers before rest sid l reason hold

theorem completeLease_frame (s : LeaseState) (outcome : LeaseOutcome)
    (reason : LeaseCompileReason) :
    (s.completeLease outcome reason).sessions = s.sessions ∧
      (s.completeLease outcome reason).puts = s.puts ∧
      (s.completeLease outcome reason).log = s.log := by
  fun_cases LeaseState.completeLease s outcome reason <;> exact ⟨rfl, rfl, rfl⟩

theorem completeLease_sessions (s : LeaseState) (outcome : LeaseOutcome)
    (reason : LeaseCompileReason) : (s.completeLease outcome reason).sessions = s.sessions :=
  (completeLease_frame s outcome reason).1

theorem completeLease_puts (s : LeaseState) (outcome : LeaseOutcome)
    (reason : LeaseCompileReason) : (s.completeLease outcome reason).puts = s.puts :=
  (completeLease_frame s outcome reason).2.1

theorem completeLease_log (s : LeaseState) (outcome : LeaseOutcome)
    (reason : LeaseCompileReason) : (s.completeLease outcome reason).log = s.log :=
  (completeLease_frame s outcome reason).2.2

theorem Sound.completeLease (h : s.Sound) {outcome : LeaseOutcome} (reason : LeaseCompileReason)
    (hgranted : outcome ≠ .granted)
    (hstored : outcome = .stored → ∀ (l : ℕ) (w : LeaseWait), s.compile = some l →
      s.leases[l]? = some w → Honest s.log l w) : (s.completeLease outcome reason).Sound := by
  cases hcompile : s.compile with
  | none =>
    simp only [LeaseState.completeLease, hcompile]
    exact h
  | some l =>
    obtain ⟨w, hw, hopen⟩ := h.current l hcompile
    simp only [LeaseState.completeLease, hcompile, hw, if_pos hopen]
    refine ⟨by simp, forall_set ?_ (by simp), forall_set (fun l' _ => h.outcome l') ?_, h.known,
      forall_set (fun l' _ => h.holder l') ?_,
      forall_set (fun l' _ => h.stores l') (h.stores l w hw), ?_,
      forall_set (fun l' _ => h.granted l') (h.granted l w hw),
      forall_set (fun l' _ => h.honest l')
        (fun hout => hstored (some.inj hout) l w hcompile hw), ?_⟩
    · intro l' hne w' hold hnone
      exact absurd (some.inj ((h.unique l' w' hold hnone).symm.trans hcompile)) hne
    · exact fun heq => hgranted (some.inj heq)
    · obtain ⟨session, hsession, hpid, -⟩ := h.holder l w hw
      exact ⟨session, hsession, hpid, fun hnone => by cases hnone⟩
    · intro p hp l' hl'
      obtain ⟨w', hw', hpid⟩ := h.puts p hp l' hl'
      refine ⟨_, getElem?_set_of_some hw', ?_⟩
      split
      next hl =>
        subst hl
        cases hw.symm.trans hw'
        exact hpid
      next => exact hpid
    · intro before after sid l' reason' hlog
      obtain ⟨w', hw', hhonest⟩ := h.answers before after sid l' reason' hlog
      refine ⟨_, getElem?_set_of_some hw', ?_⟩
      split
      next hl =>
        subst hl
        cases hw.symm.trans hw'
        exact hhonest
      next => exact hhonest

theorem Sound.openSession (h : s.Sound) {pid : ℕ} (hpid : pid ≠ 0) :
    Sound { s with sessions := s.sessions ++ [⟨pid, true, none⟩] } := by
  refine { h with known := fun session hsession => ?_, holder := fun l w hw => ?_ }
  · rcases mem_append.mp hsession with hold | hnew
    · exact h.known session hold
    · rw [mem_singleton.mp hnew]
      exact hpid
  · obtain ⟨session, hsession, hrest⟩ := h.holder l w hw
    exact ⟨session, getElem?_concat_of_some hsession, hrest⟩

theorem Sound.setSession (h : s.Sound) (hsession : s.sessions[sid]? = some session)
    (session' : CompileSession) (hpid : session'.clientPid = session.clientPid)
    (hclosed : session'.isOpen = false → session.isOpen = false ∨
      ∀ (l : ℕ) (w : LeaseWait), s.leases[l]? = some w → w.outcome = none → w.holder = sid →
        0 < w.storesInProgress) : (s.setSession sid session').Sound := by
  refine { h with known := fun session₀ hmem => ?_, holder := fun l w hw => ?_ }
  · rcases mem_or_eq_of_mem_set hmem with hold | rfl
    · exact h.known session₀ hold
    · rw [hpid]
      exact h.known session (mem_of_getElem? hsession)
  · obtain ⟨session₀, hsession₀, hpid₀, hstores⟩ := h.holder l w hw
    refine ⟨_, getElem?_set_of_some hsession₀, ?_⟩
    split
    next hsid =>
      subst hsid
      cases hsession.symm.trans hsession₀
      refine ⟨hpid.trans hpid₀, fun hnone hshut => ?_⟩
      rcases hclosed hshut with hbefore | hstoring
      · exact hstores hnone hbefore
      · exact hstoring l w hw hnone rfl
    next => exact ⟨hpid₀, hstores⟩

theorem Sound.newLease (h : s.Sound) (hfree : s.compile = none)
    (hsession : s.sessions[sid]? = some session) (hopen : session.isOpen = true) :
    ((s.newLease sid session.clientPid).note
      (.answered sid s.leases.length .granted .none)).Sound := by
  have hcompleted : ∀ (l : ℕ) (w : LeaseWait), s.leases[l]? = some w → w.outcome ≠ none := by
    intro l w hw hnone
    cases hfree.symm.trans (h.unique l w hw hnone)
  refine ⟨?_, forall_concat (fun l w hw hnone => absurd hnone (hcompleted l w hw)) (fun _ => rfl),
    forall_concat h.outcome (by simp), h.known, forall_concat h.holder ?_,
    forall_concat h.stores ?_, ?_,
    forall_concat (fun l w hw => mem_append_left _ (h.granted l w hw))
      (mem_append_right _ (mem_singleton_self _)),
    forall_concat (fun l w hw hstored => (h.honest l w hw hstored).append _) (by simp), ?_⟩
  · intro l hl
    cases hl
    exact ⟨_, getElem?_concat_length, rfl⟩
  · refine ⟨session, hsession, rfl, fun _ hshut => ?_⟩
    cases hopen.symm.trans hshut
  · -- a Put stores under a lease that was there before
    symm
    rw [countP_eq_zero]
    intro p hp hunder
    obtain ⟨-, hstoring⟩ : p.running = true ∧ p.storingLease = some s.leases.length := by
      simpa [LeasePut.under] using hunder
    obtain ⟨w, hw, -⟩ := h.puts p hp _ hstoring
    rw [getElem?_eq_none (Nat.le_refl _)] at hw
    cases hw
  · intro p hp l hl
    obtain ⟨w, hw, hpid⟩ := h.puts p hp l hl
    exact ⟨w, getElem?_concat_of_some hw, hpid⟩
  · intro before after sid' l reason hlog
    rcases concat_eq_append_cons hlog with ⟨-, hlast⟩ | ⟨rest, hold⟩
    · cases hlast
    · obtain ⟨w, hw, hhonest⟩ := h.answers before rest sid' l reason hold
      exact ⟨w, getElem?_concat_of_some hw, hhonest⟩

theorem Sound.setPuts (h : s.Sound) (leases : List LeaseWait) (puts : List LeasePut)
    (hto : ∀ (l : ℕ) (w : LeaseWait), s.leases[l]? = some w →
      leases[l]? = some { w with storesInProgress := puts.countP (LeasePut.under l) })
    (hof : ∀ l : ℕ, leases[l]?.isSome → s.leases[l]?.isSome)
    (hstores : ∀ (l : ℕ) (w : LeaseWait), s.leases[l]? = some w → w.outcome = none →
      0 < w.storesInProgress → 0 < puts.countP (LeasePut.under l))
    (hputs : ∀ p ∈ puts, ∀ l : ℕ, p.storingLease = some l →
      ∃ w : LeaseWait, s.leases[l]? = some w ∧ w.holderPid = p.peerPid) :
    Sound { s with leases := leases, puts := puts } := by
  have hback : ∀ {P : ℕ → LeaseWait → Prop}, (∀ (l : ℕ) (w : LeaseWait), s.leases[l]? = some w →
      P l { w with storesInProgress := puts.countP (LeasePut.under l) }) →
      ∀ (l : ℕ) (w' : LeaseWait), leases[l]? = some w' → P l w' := by
    intro P hP l w' hw'
    obtain ⟨w, hw⟩ := isSome_iff_exists.mp (hof l (by rw [hw']; rfl))
    rw [some.inj (hw'.symm.trans (hto l w hw))]
    exact hP l w hw
  refine ⟨?_, hback h.unique, hback h.outcome, h.known, hback ?_, hback (fun _ _ _ => rfl), ?_,
    hback h.granted, hback h.honest, ?_⟩
  · intro l hl
    obtain ⟨w, hw, hnone⟩ := h.current l hl
    exact ⟨_, hto l w hw, hnone⟩
  · intro l w hw
    obtain ⟨session, hsession, hpid, hstoring⟩ := h.holder l w hw
    exact ⟨session, hsession, hpid, fun hnone hshut =>
      hstores l w hw hnone (hstoring hnone hshut)⟩
  · intro p hp l hl
    obtain ⟨w, hw, hpid⟩ := hputs p hp l hl
    exact ⟨_, hto l w hw, hpid⟩
  · intro before after sid l reason hlog
    obtain ⟨w, hw, hhonest⟩ := h.answers before after sid l reason hlog
    exact ⟨_, hto l w hw, hhonest⟩

theorem storingLease_eq_some (h : s.Sound) {pid : ℕ} (hpid : pid ≠ 0)
    (hl : s.storingLease pid = some l) :
    ∃ w, s.leases[l]? = some w ∧ w.outcome = none ∧ w.holderPid = pid := by
  obtain ⟨hcompile, hany⟩ := filter_eq_some_iff.mp hl
  obtain ⟨w, hw, hnone⟩ := h.current l hcompile
  obtain ⟨session, hsession, hholder, -⟩ := h.holder l w hw
  have hholderPid : w.holderPid ≠ 0 := hholder ▸ h.known session (mem_of_getElem? hsession)
  refine ⟨w, hw, hnone, ?_⟩
  simpa [hw, hpid, hholderPid] using hany

theorem countP_under_concat (puts : List LeasePut) (pid : ℕ) (storing : Option ℕ) (l : ℕ) :
    (puts ++ [LeasePut.mk pid storing true]).countP (LeasePut.under l) =
      puts.countP (LeasePut.under l) + if storing = some l then 1 else 0 := by
  rw [countP_append, countP_singleton]
  simp [LeasePut.under]

theorem Sound.startPut (h : s.Sound) {pid : ℕ} (hpid : pid ≠ 0) : (s.startPut pid).Sound := by
  rw [LeaseState.startPut]
  cases hstoring : s.storingLease pid with
  | none =>
    refine h.setPuts s.leases _ ?_ (fun _ hsome => hsome) ?_ ?_
    · intro l w hw
      rw [countP_under_concat, if_neg (by simp), Nat.add_zero, ← h.stores l w hw]
      exact hw
    · intro l w hw _ hpos
      rw [countP_under_concat, ← h.stores l w hw]
      exact Nat.lt_of_lt_of_le hpos (Nat.le_add_right _ _)
    · intro p hp l hl
      rcases mem_append.mp hp with hold | hnew
      · exact h.puts p hold l hl
      · rw [mem_singleton.mp hnew] at hl
        cases hl
  | some l =>
    obtain ⟨w, hw, -, hholder⟩ := storingLease_eq_some h hpid hstoring
    refine h.setPuts _ _ ?_ ?_ ?_ ?_
    · intro l' w' hw'
      rw [countP_under_concat, ← h.stores l' w' hw', LeaseState.addStores, getElem?_modify, hw']
      by_cases hll : l = l' <;> simp [hll]
    · intro l' hsome
      rw [LeaseState.addStores, getElem?_modify] at hsome
      simpa using hsome
    · intro l' w' hw' _ hpos
      rw [countP_under_concat, ← h.stores l' w' hw']
      exact Nat.lt_of_lt_of_le hpos (Nat.le_add_right _ _)
    · intro p hp l' hl'
      rcases mem_append.mp hp with hold | hnew
      · exact h.puts p hold l' hl'
      · rw [mem_singleton.mp hnew] at hl' ⊢
        obtain rfl := some.inj hl'
        exact ⟨w, hw, hholder⟩

variable {p : LeasePut} {put : ℕ} {readOnly : Bool}

theorem countP_under_set {puts : List LeasePut}
    (hp : puts[put]? = some p) (hrunning : p.running = true) (l : ℕ) :
    (puts.set put { p with running := false }).countP (LeasePut.under l) =
      puts.countP (LeasePut.under l) - if p.storingLease = some l then 1 else 0 := by
  obtain ⟨hput, rfl⟩ := List.getElem?_eq_some_iff.mp hp
  rw [List.countP_set hput]
  simp [LeasePut.under, hrunning]

theorem Sound.endPut (h : s.Sound) (hp : s.puts[put]? = some p) (hrunning : p.running = true)
    (hcompleted : ∀ (l : ℕ) (w : LeaseWait), p.storingLease = some l → s.leases[l]? = some w →
      w.outcome ≠ none) (leases : List LeaseWait)
    (hto : ∀ (l : ℕ) (w : LeaseWait), s.leases[l]? = some w → leases[l]? = some { w with
      storesInProgress := w.storesInProgress - if p.storingLease = some l then 1 else 0 })
    (hof : ∀ l : ℕ, leases[l]?.isSome → s.leases[l]?.isSome) :
    Sound { s with leases := leases, puts := s.puts.set put { p with running := false } } := by
  refine h.setPuts leases _ ?_ hof ?_ ?_
  · intro l w hw
    rw [countP_under_set hp hrunning, ← h.stores l w hw]
    exact hto l w hw
  · intro l w hw hnone hpos
    rw [countP_under_set hp hrunning, ← h.stores l w hw,
      if_neg (fun hl => hcompleted l w hl hw hnone)]
    exact hpos
  · intro p' hp' l hl
    rcases mem_or_eq_of_mem_set hp' with hold | rfl
    · exact h.puts p' hold l hl
    · exact h.puts p (mem_of_getElem? hp) l hl

theorem set_modify {α : Type*} {xs : List α} {i : ℕ} (f : α → α) {x y : α} (h : f x = y) :
    (xs.modify i f).set i y = (xs.set i x).modify i f := by
  apply ext_getElem?
  intro j
  rw [getElem?_set, getElem?_modify, getElem?_modify, getElem?_set, length_modify]
  by_cases hij : i = j
  · by_cases hlt : i < xs.length <;> simp [hij, hij ▸ hlt, h]
  · simp [hij]

/-- The state after a Put, but for what its lease owes it. -/
def putEnded (s : LeaseState) (put : ℕ) (p : LeasePut) (leases : List LeaseWait) : LeaseState :=
  { s with leases := leases, puts := s.puts.set put { p with running := false } }

def oneStoreLess (w : LeaseWait) : LeaseWait :=
  { w with storesInProgress := w.storesInProgress - 1 }

theorem getElem?_oneStoreLess {leases : List LeaseWait}
    (hl : p.storingLease = some l) {l' : ℕ} (hw : leases[l']? = some w) :
    (leases.modify l oneStoreLess)[l']? = some { w with
      storesInProgress := w.storesInProgress - if p.storingLease = some l' then 1 else 0 } := by
  rw [getElem?_modify, hw, hl]
  by_cases hll : l = l' <;> simp [hll, oneStoreLess]

theorem isSome_of_modify {α : Type*} {xs : List α} {f : α → α} {i j : ℕ}
    (h : (xs.modify i f)[j]?.isSome) : xs[j]?.isSome := by
  rw [getElem?_modify] at h
  simpa using h

theorem finishPut_none (stored : Bool) (hl : p.storingLease = none) :
    s.finishPut put p stored = (s.note (.putDone p.peerPid stored)).putEnded put p s.leases := by
  obtain ⟨pid, storing, running⟩ := p
  subst hl
  rfl

theorem finishPut_other (stored : Bool) (hl : p.storingLease = some l)
    (hcompile : s.compile ≠ some l) :
    s.finishPut put p stored = (s.note (.putDone p.peerPid stored)).putEnded put p
      (s.leases.modify l oneStoreLess) := by
  obtain ⟨pid, storing, running⟩ := p
  subst hl
  exact if_neg hcompile

/-- The lease may be completed before the Put is struck off it. -/
theorem finishPut_current (stored : Bool)
    (hl : p.storingLease = some l) (hcompile : s.compile = some l) (hw : s.leases[l]? = some w)
    (hnone : w.outcome = none) :
    let t := (s.note (.putDone p.peerPid stored)).completeLease
      (if stored then .stored else .compile) (if stored then .none else .holderFailed)
    s.finishPut put p stored = t.putEnded put p (t.leases.modify l oneStoreLess) := by
  obtain ⟨pid, storing, running⟩ := p
  subst hl
  have hmodified : (s.leases.modify l oneStoreLess)[l]? = some (oneStoreLess w) := by
    rw [getElem?_modify, hw]
    simp
  unfold oneStoreLess at hmodified
  simp only [LeaseState.finishPut, addStores, note, hcompile, if_true, LeaseState.completeLease,
    hmodified, hnone, hw, putEnded]
  congr 1
  exact set_modify _ rfl

theorem completed_completeLease (h : s.Sound) (hcompile : s.compile = some l)
    {outcome : LeaseOutcome} {reason : LeaseCompileReason}
    (hw : (s.completeLease outcome reason).leases[l]? = some w) : w.outcome ≠ none := by
  obtain ⟨w', hw', hnone⟩ := h.current l hcompile
  simp only [LeaseState.completeLease, hcompile, hw', if_pos hnone] at hw
  rw [getElem?_set_of_some hw', if_pos rfl] at hw
  rw [← some.inj hw]
  simp

theorem Sound.finishPut (h : s.Sound) (hp : s.puts[put]? = some p)
    (hrunning : p.running = true) (stored : Bool) : (s.finishPut put p stored).Sound := by
  have hnoted : (s.note (.putDone p.peerPid stored)).Sound :=
    h.note nofun
  cases hl : p.storingLease with
  | none =>
    rw [finishPut_none stored hl]
    refine hnoted.endPut hp hrunning ?_ s.leases ?_ (fun _ hsome => hsome)
    · intro l w hstoring
      rw [hl] at hstoring
      cases hstoring
    · intro l w hw
      rw [hl, if_neg (by simp)]
      exact hw
  | some l =>
    obtain ⟨w, hw, hpid⟩ := h.puts p (mem_of_getElem? hp) l hl
    by_cases hcompile : s.compile = some l
    · obtain ⟨w', hw', hnone⟩ := h.current l hcompile
      rw [finishPut_current stored hl hcompile hw' hnone]
      have hhonest : (if stored then LeaseOutcome.stored else .compile) = .stored →
          ∀ (l' : ℕ) (w : LeaseWait), s.compile = some l' → s.leases[l']? = some w →
            Honest (s.note (.putDone p.peerPid stored)).log l' w := by
        intro hstored l' w' hl' hw'
        cases hcompile.symm.trans hl'
        cases hw.symm.trans hw'
        refine Honest.of_granted (h.granted l w hw) (.inl ?_)
        cases stored with
        | true => rw [hpid]; exact mem_singleton_self _
        | false => cases hstored
      have hcompleted := hnoted.completeLease (if stored then .none else .holderFailed)
        (by cases stored <;> simp) hhonest
      have hput : ((s.note (.putDone p.peerPid stored)).completeLease
          (if stored then .stored else .compile)
          (if stored then .none else .holderFailed)).puts[put]? = some p := by
        rw [completeLease_puts]
        exact hp
      refine hcompleted.endPut hput hrunning ?_ _ (fun l w => getElem?_oneStoreLess hl)
        (fun _ => isSome_of_modify)
      intro l' w' hl' hw'
      cases hl.symm.trans hl'
      exact completed_completeLease hnoted hcompile hw'
    · rw [finishPut_other stored hl hcompile]
      refine hnoted.endPut hp hrunning ?_ _ (fun l w => getElem?_oneStoreLess hl)
        (fun _ => isSome_of_modify)
      intro l' w' hl' hw' hnone
      cases hl.symm.trans hl'
      exact hcompile (h.unique l w' hw' hnone)

/-! ## Runs -/

theorem heldBy_iff (h : s.Sound) (hcompile : s.compile = some l) :
    s.heldBy sid = true ↔ ∃ w, s.leases[l]? = some w ∧ w.holder = sid := by
  obtain ⟨w, hw, -⟩ := h.current l hcompile
  simp [heldBy, hcompile, hw]

theorem Sound.handleLeaseAcquire (h : s.Sound)
    (hsession : s.sessions[sid]? = some session) (hopen : session.isOpen = true) :
    (s.handleLeaseAcquire readOnly sid session).Sound := by
  rw [LeaseState.handleLeaseAcquire]
  split
  next => exact h
  next =>
    cases hcompile : s.compile with
    | none => exact h.newLease hcompile hsession hopen
    | some l =>
      simp only
      split
      next => exact h.note nofun
      next =>
        refine h.setSession hsession _ rfl (fun hshut => ?_)
        exact .inl hshut

theorem Sound.endWait (h : s.Sound) (hsession : s.sessions[sid]? = some session)
    (hw : s.leases[l]? = some w) : (s.endWait sid session l w).Sound := by
  have hset := h.setSession hsession { session with waitingOn := none } rfl .inl
  rw [LeaseState.endWait]
  split
  next outcome houtcome =>
    apply hset.note
    intro sid' l' reason heq
    obtain ⟨-, rfl, rfl, -⟩ := LeaseEntry.answered.inj heq
    exact ⟨w, hw, h.honest l w hw houtcome⟩
  next =>
    apply hset.note
    intro sid' l' reason heq
    cases heq

theorem Sound.handleLeaseRelease (h : s.Sound) (stored : Bool) :
    (s.handleLeaseRelease sid stored).Sound := by
  rw [LeaseState.handleLeaseRelease]
  split
  next => exact h
  next hheld =>
    have hholder : ∀ (l : ℕ) (w : LeaseWait), s.compile = some l → s.leases[l]? = some w →
        w.holder = sid := by
      intro l w hcompile hw
      have hsid : s.heldBy sid = true := by
        by_contra hnot
        exact hheld ⟨by rw [hcompile]; rfl, by simpa using hnot⟩
      obtain ⟨w', hw', hsid'⟩ := (heldBy_iff h hcompile).mp hsid
      rwa [some.inj (hw.symm.trans hw')]
    cases stored with
    | true =>
      refine (h.note (fun _ _ _ heq => by cases heq)).completeLease .none (by simp) ?_
      intro _ l w hcompile hw
      refine Honest.of_granted (h.granted l w hw) (.inr ?_)
      rw [hholder l w hcompile hw]
      exact mem_singleton_self _
    | false =>
      exact (h.note (fun _ _ _ heq => by cases heq)).completeLease .holderFailed (by simp)
        nofun

theorem Sound.close (h : s.Sound) (hsession : s.sessions[sid]? = some session) :
    ((s.expireLeases sid).setSession sid { session with isOpen := false }).Sound := by
  rw [LeaseState.expireLeases]
  split
  next hexpire =>
    have hcompleted : (s.completeLease .compile .holderGone).Sound :=
      h.completeLease .holderGone (by simp) nofun
    have hget : (s.completeLease .compile .holderGone).sessions[sid]? = some session := by
      rw [completeLease_sessions]
      exact hsession
    refine hcompleted.setSession hget _ rfl fun _ => .inr ?_
    intro l w hw hnone
    cases hcompile : s.compile with
    | none => simp [hcompile] at hexpire
    | some l₀ =>
      -- the one uncompleted lease was just completed
      have hl := hcompleted.unique l w hw hnone
      obtain ⟨w₀, hw₀, hnone₀⟩ := h.current l₀ hcompile
      simp only [LeaseState.completeLease, hcompile, hw₀, if_pos hnone₀] at hl
      cases hl
  next hkeep =>
    refine h.setSession hsession _ rfl fun _ => .inr ?_
    intro l w hw hnone hholder
    have hcompile := h.unique l w hw hnone
    by_contra hzero
    have hidle : w.storesInProgress = 0 := by omega
    exact hkeep (by simp [hcompile, hw, hholder, hidle])

theorem Sound.step {e : LeaseEvent} (h : s.Sound)
    (he : s.step readOnly e = some s') (hok : s.KnownPids e) : s'.Sound := by
  revert he
  fun_cases LeaseState.step readOnly s e <;> intro he <;> cases he
  next => exact h
  next => exact h.openSession hok
  next hsession hidle => exact h.handleLeaseAcquire hsession hidle.1
  next hsession _ _ _ hw _ => exact h.endWait hsession hw
  next => exact h.handleLeaseRelease _
  next => exact h.startPut hok
  next hp hrunning => exact h.finishPut hp hrunning _
  next hsession _ => exact h.close hsession

theorem sound_of_run {events : List LeaseEvent}
    (h : StepMachine.Run (step readOnly) KnownPids {} events s) : s.Sound :=
  h.invariant (fun _ _ _ he hok hs => hs.step he hok) sound_start

theorem finishPut_log (s : LeaseState) (put : ℕ) (p : LeasePut) (stored : Bool) :
    (s.finishPut put p stored).log = s.log ++ [.putDone p.peerPid stored] := by
  unfold LeaseState.finishPut
  split
  next => rfl
  next =>
    simp only
    split
    next => rw [completeLease_log]; rfl
    next => rfl

theorem handleLeaseRelease_log (s : LeaseState) (sid : ℕ) (stored : Bool) :
    (s.handleLeaseRelease sid stored).log = s.log ∨
      ∃ outcome, (s.handleLeaseRelease sid stored).log = s.log ++ [.released sid outcome] := by
  unfold LeaseState.handleLeaseRelease
  split
  next => exact .inl rfl
  next =>
    split
    next => exact .inr ⟨_, completeLease_log _ _ _⟩
    next => exact .inr ⟨_, completeLease_log _ _ _⟩

theorem expireLeases_log (s : LeaseState) (sid : ℕ) : (s.expireLeases sid).log = s.log := by
  unfold LeaseState.expireLeases
  split
  next => exact completeLease_log _ _ _
  next => rfl

/-- The lease in the table is the session's when the session is told so. -/
theorem holder_of_granted {e : LeaseEvent} {reason : LeaseCompileReason}
    (h : s.Sound) (he : s.step readOnly e = some s')
    (hlog : s'.log = s.log ++ [.answered sid l .granted reason]) :
    ∃ w, s'.compile = some l ∧ s'.leases[l]? = some w ∧ w.holder = sid := by
  have hgrows : ∀ entry : LeaseEntry, s.log ≠ s.log ++ [entry] := by simp
  revert he
  fun_cases LeaseState.step readOnly s e <;> intro he <;> cases he
  next => exact absurd hlog (hgrows _)
  next => exact absurd hlog (hgrows _)
  next =>
    revert hlog
    fun_cases LeaseState.handleLeaseAcquire readOnly s _ _ <;> intro hlog
    next => exact absurd hlog (hgrows _)
    next =>
      cases append_cancel_left hlog
      exact ⟨_, rfl, getElem?_concat_length, rfl⟩
    next hcompile hheld =>
      cases append_cancel_left hlog
      obtain ⟨w, hw, hholder⟩ := (heldBy_iff h hcompile).mp hheld
      exact ⟨w, hcompile, hw, hholder⟩
    next => exact absurd hlog (hgrows _)
  next l₀ _ w hw _ =>
    have hentry := (cons.inj (append_cancel_left hlog)).1
    split at hentry
    next outcome houtcome =>
      obtain ⟨-, -, rfl, -⟩ := LeaseEntry.answered.inj hentry
      exact absurd houtcome (h.outcome l₀ w hw)
    next => cases hentry
  next sid' stored _ _ _ =>
    rcases handleLeaseRelease_log s sid' stored with hsame | ⟨outcome, hadded⟩
    · exact absurd (hsame.symm.trans hlog) (hgrows _)
    · cases append_cancel_left (hadded.symm.trans hlog)
  next pid =>
    have hsame : (s.startPut pid).log = s.log := by
      unfold LeaseState.startPut
      split <;> rfl
    exact absurd (hsame.symm.trans hlog) (hgrows _)
  next => cases append_cancel_left ((finishPut_log _ _ _ _).symm.trans hlog)
  next => exact absurd ((expireLeases_log _ _).symm.trans hlog) (hgrows _)

/-- Leases are exclusive and honest, and none outlives its session and the session's Puts. -/
theorem leases_exclusive_and_honest {events : List LeaseEvent}
    (h : StepMachine.Run (step readOnly) KnownPids {} events s) :
    (∀ e s' sid l reason, s.step readOnly e = some s' → s.KnownPids e →
      s'.log = s.log ++ [.answered sid l .granted reason] →
        ∀ w ∈ s'.leases, w.outcome = none → w.holder = sid) ∧
    (∀ before after (sid l : ℕ) reason,
      s.log = before ++ .answered sid l .stored reason :: after →
        ∃ w session, s.leases[l]? = some w ∧ s.sessions[w.holder]? = some session ∧
          ∃ earlier since, before = earlier ++ .answered w.holder l .granted .none :: since ∧
            (.putDone session.clientPid true ∈ since ∨ .released w.holder .stored ∈ since)) ∧
    (∀ (sid : ℕ) session, s.sessions[sid]? = some session → session.isOpen = false →
      (∀ p ∈ s.puts, p.running = true → ∀ (l : ℕ) w, p.storingLease = some l →
        s.leases[l]? = some w → w.holder ≠ sid) →
        ∀ w ∈ s.leases, w.outcome = none → w.holder ≠ sid) := by
  have hs := sound_of_run h
  refine ⟨?_, ?_, ?_⟩
  · intro e s' sid l reason he hok hlog w hw hnone
    have hs' := hs.step he hok
    obtain ⟨w₀, hcompile, hw₀, hholder⟩ := holder_of_granted hs he hlog
    obtain ⟨l', hl'⟩ := getElem?_of_mem hw
    obtain rfl := some.inj (hcompile.symm.trans (hs'.unique l' w hl' hnone))
    cases hw₀.symm.trans hl'
    exact hholder
  · intro before after sid l reason hlog
    obtain ⟨w, hw, earlier, since, hbefore, hjust⟩ := hs.answers before after sid l reason hlog
    obtain ⟨session, hsession, hpid, -⟩ := hs.holder l w hw
    exact ⟨w, session, hw, hsession, earlier, since, hbefore, hpid.symm ▸ hjust⟩
  · rintro sid session hsession hshut hputs w hw hnone rfl
    obtain ⟨l, hl⟩ := getElem?_of_mem hw
    obtain ⟨session', hsession', -, hstoring⟩ := hs.holder l w hl
    cases hsession.symm.trans hsession'
    have hpos := hstoring hnone hshut
    rw [hs.stores l w hl, countP_pos_iff] at hpos
    obtain ⟨p, hp, hunder⟩ := hpos
    obtain ⟨hrunning, hstore⟩ : p.running = true ∧ p.storingLease = some l := by
      simpa [LeasePut.under] using hunder
    exact hputs p hp hrunning l w hstore hl rfl

-- The holder's session closes while its Put still runs; the Put then answers the waiter.
def closedHolder : List LeaseEvent :=
  [.sessionOpen 7, .sessionOpen 8, .acquire 0, .acquire 1, .putStart 7, .close 0,
    .putFinish 0 true, .waitEnds 1 false]

def afterClosedHolder : LeaseState where
  sessions := [⟨7, false, none⟩, ⟨8, true, none⟩]
  leases := [⟨0, 7, 0, some .stored, .none⟩]
  puts := [⟨7, some 0, false⟩]
  log := [.answered 0 0 .granted .none, .putDone 7 true, .answered 1 0 .stored .none]

theorem run_closedHolder :
    StepMachine.Run (step false) KnownPids {} closedHolder afterClosedHolder :=
  .cons rfl (by decide : 7 ≠ 0) <| .cons rfl (by decide : 8 ≠ 0) <| .cons rfl trivial <|
    .cons rfl trivial <| .cons rfl (by decide : 7 ≠ 0) <| .cons rfl trivial <|
    .cons rfl trivial <| .cons rfl trivial <| .nil _

theorem leases_exclusive_and_honest_closedHolder :
    ∃ w session, afterClosedHolder.leases[0]? = some w ∧
      afterClosedHolder.sessions[w.holder]? = some session ∧
        ∃ earlier since, [LeaseEntry.answered 0 0 .granted .none, .putDone 7 true] =
          earlier ++ .answered w.holder 0 .granted .none :: since ∧
            (.putDone session.clientPid true ∈ since ∨ .released w.holder .stored ∈ since) :=
  (leases_exclusive_and_honest run_closedHolder).2.1 _ [] 1 0 .none rfl

end LeaseState

end Vcache

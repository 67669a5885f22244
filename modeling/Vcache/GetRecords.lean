import Vcache.KeySteps

/-!
# The times of puts and gets

What a put or a get has noted stays, and a time noted in a step is the time of that
step. The stamp of a put is when its value was on disk, or, without a disk, when it
was queued: from then on a lookup is to find it or something newer.
-/

namespace Vcache

open Option Function

def PutRecord.stamp (p : PutRecord) (onDisk : Bool) : Option ℕ :=
  if onDisk then p.written else p.queued

def PutRecord.Timed (p : PutRecord) (onDisk : Bool) (clock : ℕ) : Prop :=
  p.started < clock ∧ (∀ a, p.stamp onDisk = some a → p.started ≤ a ∧ a < clock) ∧
    ∀ r stored, p.replied = some (r, stored) → r < clock ∧
      (∀ a, p.stamp onDisk = some a → a < r) ∧ (stored = true → p.stamp onDisk ≠ none)

theorem PutRecord.Timed.later {p : PutRecord} {onDisk : Bool} {clock : ℕ}
    (h : p.Timed onDisk clock) : p.Timed onDisk (clock + 1) := by
  obtain ⟨hstarted, hstamp, hreplied⟩ := h
  refine ⟨by omega, ?_, ?_⟩
  · intro a ha
    have := hstamp a ha
    omega
  · intro r stored hr
    obtain ⟨hlt, hrest⟩ := hreplied r stored hr
    exact ⟨by omega, hrest⟩

def GetRecord.Timed (g : GetRecord) (clock : ℕ) : Prop :=
  g.started < clock ∧ ∀ m, g.missed = some m → g.started ≤ m ∧ m < clock

theorem GetRecord.Timed.later {g : GetRecord} {clock : ℕ} (h : g.Timed clock) :
    g.Timed (clock + 1) := by
  refine ⟨by have := h.1; omega, ?_⟩
  intro m hm
  have := h.2 m hm
  omega

/-- What a thread's records have where it is, if no put is refused. -/
def Control.Fits (onDisk : Bool) (put : Option PutRecord) (get : Option GetRecord) : Control → Prop
  | .putArrived => ∀ p, put = some p → p.replied = none
  | .putDisked b => ∀ p, put = some p →
    p.replied = none ∧ b = onDisk ∧ (onDisk = true → p.stamp onDisk ≠ none)
  | .putLeaving stored => ∀ p, put = some p →
    p.replied = none ∧ (stored = true → p.stamp onDisk ≠ none)
  | .putRefused _ | .putSyncing _ | .putSynced _ _ => False
  | .getArrived => ∀ g, get = some g → g.missed = none
  | _ => True

theorem PutRecord.Timed.of_underWay {p : PutRecord} {onDisk : Bool} {clock : ℕ}
    (hreplied : p.replied = none) (hstarted : p.started < clock)
    (hstamp : ∀ a, p.stamp onDisk = some a → p.started ≤ a ∧ a < clock) : p.Timed onDisk clock :=
  ⟨hstarted, hstamp, by simp [hreplied]⟩

/-- What a step at that time makes of the record of a thread's put. -/
inductive PutMove (onDisk : Bool) (now : ℕ) : Option PutRecord → Option PutRecord → Prop where
  | same {put : Option PutRecord} : PutMove onDisk now put put
  | start {p' : PutRecord} (htimed : p'.Timed onDisk (now + 1)) (hstarted : p'.started = now)
      (hstamp : p'.stamp onDisk = none) (hreplied : p'.replied = none) :
      PutMove onDisk now none (some p')
  | note {p p' : PutRecord} (hunderWay : p.replied = none) (htimed : p'.Timed onDisk (now + 1))
      (hsame : p'.value = p.value ∧ p'.started = p.started)
      (hstamp : p'.stamp onDisk = p.stamp onDisk ∨ p'.stamp onDisk = some now)
      (hreplied : p'.replied = p.replied ∨ ∃ stored, p'.replied = some (now, stored)) :
      PutMove onDisk now (some p) (some p')

/-- What a step at that time makes of the record of a thread's get. -/
inductive GetMove (now : ℕ) : Option GetRecord → Option GetRecord → Prop where
  | same {get : Option GetRecord} : GetMove now get get
  | start {g' : GetRecord} (htimed : g'.Timed (now + 1)) : GetMove now none (some g')
  | note {g g' : GetRecord} (htimed : g'.Timed (now + 1)) (hstarted : g'.started = g.started)
      (hmissed : ∀ m, g.missed = some m → g'.missed = some m) : GetMove now (some g) (some g')

namespace KeyState

variable {onDisk : Bool} {s s' u : KeyState} {tid t : ℕ} {c : Control} {value : Str}

/-- What holds of the records of a key when no put is refused. -/
structure Stamped (onDisk : Bool) (s : KeyState) : Prop where
  put : ∀ tid p, s.puts tid = some p → p.Timed onDisk s.clock
  get : ∀ tid g, s.gets tid = some g → g.Timed s.clock
  thread : ∀ tid, (s.threads tid).Fits onDisk (s.puts tid) (s.gets tid)

theorem Stamped.fits (hs : s.Stamped onDisk) (hc : s.threads tid = c) :
    c.Fits onDisk (s.puts tid) (s.gets tid) :=
  hc ▸ hs.thread tid

structure Grows (onDisk : Bool) (s s' : KeyState) : Prop where
  clock : s'.clock = s.clock + 1
  put : ∀ tid p, s.puts tid = some p → ∃ p', s'.puts tid = some p' ∧ p'.value = p.value ∧
    p'.started = p.started ∧ (p.replied ≠ none → p' = p) ∧
    (p'.stamp onDisk = p.stamp onDisk ∨ p'.stamp onDisk = some s.clock) ∧
    (p'.replied = p.replied ∨ ∃ stored, p'.replied = some (s.clock, stored))
  newPut : ∀ tid p', s'.puts tid = some p' → s.puts tid = none →
    p'.started = s.clock ∧ p'.stamp onDisk = none ∧ p'.replied = none
  get : ∀ tid g, s.gets tid = some g → ∃ g', s'.gets tid = some g' ∧ g'.started = g.started ∧
    ∀ m, g.missed = some m → g'.missed = some m

theorem Grows.of_moves (hclock : s'.clock = s.clock + 1)
    (hputs : ∀ t, PutMove onDisk s.clock (s.puts t) (s'.puts t))
    (hgets : ∀ t, GetMove s.clock (s.gets t) (s'.gets t)) : Grows onDisk s s' := by
  refine ⟨hclock, fun t p hp => ?_, fun t p' hp' hnone => ?_, fun t g hg => ?_⟩
  · have hmove := hputs t
    rw [hp] at hmove
    generalize s'.puts t = put' at hmove
    cases hmove with
    | same => exact ⟨p, rfl, rfl, rfl, fun _ => rfl, .inl rfl, .inl rfl⟩
    | note hunderWay _ hsame hstamp hreplied =>
      exact ⟨_, rfl, hsame.1, hsame.2, fun h => absurd hunderWay h, hstamp, hreplied⟩
  · have hmove := hputs t
    rw [hp', hnone] at hmove
    cases hmove with
    | start _ hstarted hstamp hreplied => exact ⟨hstarted, hstamp, hreplied⟩
  · have hmove := hgets t
    rw [hg] at hmove
    generalize s'.gets t = get' at hmove
    cases hmove with
    | same => exact ⟨g, rfl, rfl, fun _ h => h⟩
    | note _ hstarted hmissed => exact ⟨_, rfl, hstarted, hmissed⟩

theorem Stamped.of_moves (hs : s.Stamped onDisk) (hclock : s'.clock = s.clock + 1)
    (hputs : ∀ t, PutMove onDisk s.clock (s.puts t) (s'.puts t))
    (hgets : ∀ t, GetMove s.clock (s.gets t) (s'.gets t))
    (hthread : ∀ t, (s'.threads t).Fits onDisk (s'.puts t) (s'.gets t)) : s'.Stamped onDisk := by
  refine ⟨fun t p hp => ?_, fun t g hg => ?_, hthread⟩
  · have hmove := hputs t
    rw [hp] at hmove
    rw [hclock]
    generalize hput : s.puts t = put at hmove
    cases hmove with
    | same => exact (hs.put t p hput).later
    | start htimed | note _ htimed => exact htimed
  · have hmove := hgets t
    rw [hg] at hmove
    rw [hclock]
    generalize hget : s.gets t = get at hmove
    cases hmove with
    | same => exact (hs.get t g hget).later
    | start htimed | note htimed => exact htimed

/-- A step in which one thread moves. -/
theorem Stamped.move (hs : s.Stamped onDisk) {put : Option PutRecord} {get : Option GetRecord}
    (hu : u.threads = s.threads ∧ u.clock = s.clock) (hputs : u.puts = update s.puts tid put)
    (hgets : u.gets = update s.gets tid get) (hc : c.Fits onDisk put get)
    (hput : PutMove onDisk s.clock (s.puts tid) put) (hget : GetMove s.clock (s.gets tid) get) :
    (u.goto tid c).Stamped onDisk ∧ Grows onDisk s (u.goto tid c) := by
  have hclock : (u.goto tid c).clock = s.clock + 1 := congrArg (· + 1) hu.2
  have hputs' : ∀ t, PutMove onDisk s.clock (s.puts t) ((u.goto tid c).puts t) := by
    intro t
    rw [show (u.goto tid c).puts = _ from hputs, update_apply]
    split
    next ht => exact ht ▸ hput
    next => exact .same
  have hgets' : ∀ t, GetMove s.clock (s.gets t) ((u.goto tid c).gets t) := by
    intro t
    rw [show (u.goto tid c).gets = _ from hgets, update_apply]
    split
    next ht => exact ht ▸ hget
    next => exact .same
  refine ⟨hs.of_moves hclock hputs' hgets' (fun t => ?_), .of_moves hclock hputs' hgets'⟩
  rw [threads_goto_eq hu.1, show (u.goto tid c).puts = _ from hputs,
    show (u.goto tid c).gets = _ from hgets, update_apply, update_apply]
  split
  next => exact hc
  next => exact hs.thread t

theorem Stamped.goto (hs : s.Stamped onDisk) (hu : u.threads = s.threads ∧ u.puts = s.puts ∧
      u.gets = s.gets ∧ u.clock = s.clock) (hc : c.Fits onDisk (s.puts tid) (s.gets tid)) :
    (u.goto tid c).Stamped onDisk ∧ Grows onDisk s (u.goto tid c) := by
  obtain ⟨hthreads, hputs, hgets, hclock⟩ := hu
  exact hs.move ⟨hthreads, hclock⟩ (hputs.trans (update_eq_self _ _).symm)
    (hgets.trans (update_eq_self _ _).symm) hc .same .same

theorem Stamped.setPut_goto (hs : s.Stamped onDisk) {p : PutRecord}
    (hu : u.threads = s.threads ∧ u.puts = s.puts ∧ u.gets = s.gets ∧ u.clock = s.clock)
    (hc : c.Fits onDisk (some p) (s.gets tid))
    (hput : PutMove onDisk s.clock (s.puts tid) (some p)) :
    ((u.setPut tid p).goto tid c).Stamped onDisk ∧
      Grows onDisk s ((u.setPut tid p).goto tid c) := by
  obtain ⟨hthreads, hputs, hgets, hclock⟩ := hu
  exact hs.move ⟨hthreads, hclock⟩ (by rw [← hputs]; rfl)
    (hgets.trans (update_eq_self _ _).symm) hc hput .same

theorem Stamped.setGet_goto (hs : s.Stamped onDisk) {g : GetRecord}
    (hc : c.Fits onDisk (s.puts tid) (some g)) (hget : GetMove s.clock (s.gets tid) (some g)) :
    ((s.setGet tid g).goto tid c).Stamped onDisk ∧
      Grows onDisk s ((s.setGet tid g).goto tid c) :=
  hs.move ⟨rfl, rfl⟩ (update_eq_self _ _).symm rfl hc .same hget

end KeyState

open KeyState in
/-- What a step does to the records when the disk takes every put and the queue refuses none. -/
theorem stamped_step {cfg : DaemonConfig} {k : Str} {s s' : KeyState} {e : DaemonEvent}
    (hdisk : ∀ tid ok, e = .putDisk tid ok → ok = true)
    (haccepted : ∀ tid watch, e = .putEnqueue tid → s'.threads tid ≠ .putRefused watch)
    (h : KeyStep cfg k s e s') (hs : s.Stamped cfg.diskWritable) :
    s'.Stamped cfg.diskWritable ∧ Grows cfg.diskWritable s s' := by
  have hnow := Nat.lt_succ_self s.clock
  -- A put notes the time at which it is stamped.
  have hstamped {p p' : PutRecord} {onDisk : Bool} (hreplied : p.replied = none)
      (hstarted : p.started < s.clock) (hsame : p'.value = p.value ∧ p'.started = p.started)
      (hreplied' : p'.replied = p.replied) (hstamp : p'.stamp onDisk = some s.clock) :
      PutMove onDisk s.clock (some p) (some p') := by
    refine .note hreplied (.of_underWay (hreplied'.trans hreplied) ?_ ?_) hsame (.inr hstamp)
      (.inl hreplied')
    · rw [hsame.2]
      omega
    · intro a ha
      obtain rfl := some.inj (hstamp.symm.trans ha)
      rw [hsame.2]
      omega
  cases h with
  | other _ _ _ _ _ =>
    exact ⟨hs.of_moves rfl (fun _ => .same) (fun _ => .same) hs.thread,
      .of_moves rfl (fun _ => .same) (fun _ => .same)⟩
  | startPut tid value hc hp =>
    have hstamp : (⟨k, value, s.clock, none, none, none⟩ : PutRecord).stamp cfg.diskWritable =
        none := ite_self _
    refine hs.setPut_goto ⟨rfl, rfl, rfl, rfl⟩ ?_ ?_
    · rintro q ⟨⟩
      rfl
    · rw [hp]
      exact .start (.of_underWay rfl hnow (by simp [hstamp])) rfl hstamp rfl
  | putOnDisk tid p hc hp hwritable =>
    have hreplied := hs.fits hc p hp
    have hstarted := (hs.put tid p hp).1
    rw [hwritable] at hs ⊢
    refine hs.setPut_goto ⟨rfl, rfl, rfl, rfl⟩ ?_
      (hp ▸ hstamped hreplied hstarted ⟨rfl, rfl⟩ rfl rfl)
    rintro q ⟨⟩
    exact ⟨hreplied, rfl, fun _ => some_ne_none _⟩
  | putNoDisk tid ok hc hno =>
    have hmode : cfg.diskWritable = false := by
      rw [hdisk tid ok rfl, Bool.and_true] at hno
      exact hno
    refine hs.goto ⟨rfl, rfl, rfl, rfl⟩ (fun p hp => ⟨hs.fits hc p hp, hmode.symm, ?_⟩)
    rw [hmode]
    simp
  | putSkip tid onDisk hc hs3 =>
    refine hs.goto ⟨rfl, rfl, rfl, rfl⟩ (fun p hp => ?_)
    obtain ⟨hreplied, hmode, hstamp⟩ := hs.fits hc p hp
    exact ⟨hreplied, fun h => hstamp (hmode.symm.trans h)⟩
  | queueOnDisk tid p hc hp _ =>
    obtain ⟨hreplied, hmode, hstamp⟩ := hs.fits hc p hp
    rw [← hmode] at hs hstamp ⊢
    obtain ⟨hstarted, htimes, -⟩ := (hs.put tid p hp).later
    refine hs.setPut_goto ⟨rfl, rfl, rfl, rfl⟩ ?_
      (hp ▸ .note hreplied (.of_underWay hreplied hstarted htimes) ⟨rfl, rfl⟩ (.inl rfl)
        (.inl rfl))
    rintro q ⟨⟩
    exact ⟨hreplied, fun _ => hstamp rfl⟩
  | queueHeld tid p hc hp _ =>
    obtain ⟨hreplied, hmode, -⟩ := hs.fits hc p hp
    have hstarted := (hs.put tid p hp).1
    rw [← hmode] at hs ⊢
    refine hs.setPut_goto ⟨rfl, rfl, rfl, rfl⟩ ?_
      (hp ▸ hstamped hreplied hstarted ⟨rfl, rfl⟩ rfl rfl)
    rintro q ⟨⟩
    exact ⟨hreplied, fun _ => some_ne_none _⟩
  | queueRefused tid p hc hp _ => exact absurd (update_self ..) (haccepted tid _ rfl)
  | retryOvertaken _ _ hc | retrySync _ _ _ hc | retryWatch _ _ hc | retryLost _ _ hc
  | putUpload _ _ _ _ hc | putFinish _ _ _ hc => exact (hs.fits hc).elim
  | putReply tid stored p hc hp =>
    obtain ⟨hreplied, hstamp⟩ := hs.fits hc p hp
    have htimes := (hs.put tid p hp).2.1
    obtain ⟨hstarted, hlater, -⟩ := (hs.put tid p hp).later
    refine hs.setPut_goto ⟨rfl, rfl, rfl, rfl⟩ trivial
      (hp ▸ .note hreplied ⟨hstarted, hlater, ?_⟩ ⟨rfl, rfl⟩ (.inl rfl) (.inr ⟨stored, rfl⟩))
    rintro r flag ⟨⟩
    exact ⟨hnow, fun a ha => (htimes a ha).2, hstamp⟩
  | startGet tid hc hg hp =>
    refine hs.setGet_goto ?_ (hg ▸ .start ⟨hnow, by simp⟩)
    rintro g ⟨⟩
    rfl
  | getDiskMiss tid g hc hg hmiss =>
    have hstarted := (hs.get tid g hg).1
    refine hs.setGet_goto trivial (hg ▸ .note ⟨?_, ?_⟩ rfl ?_)
    · exact hstarted.trans hnow
    · rintro m ⟨⟩
      exact ⟨hstarted.le, hnow⟩
    · intro m hm
      rw [hs.fits hc g hg] at hm
      cases hm
  | getHeldMiss tid hc =>
    exact hs.goto ⟨rfl, rfl, rfl, rfl⟩ (by split <;> trivial)
  | getReply tid value g hc hg =>
    exact hs.setGet_goto trivial
      (hg ▸ .note (hs.get tid g hg).later rfl (fun _ h => h))
  | _ => exact hs.goto ⟨rfl, rfl, rfl, rfl⟩ trivial

end Vcache

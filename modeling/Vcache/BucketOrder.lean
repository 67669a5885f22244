import Vcache.KeySteps

/-!
# Which value the bucket ends on

A daemon without a disk holds the values it has to upload. A flight of a key goes up
alone, and a store during it makes it queue the newer value or leave the last word to
a refused put. So the bucket ends on a value that no later put came after, as long as
no refused put uploads its value beside one that waits: the queue would hand that one
to a worker as well, and of two flights at once either may land last.
-/

namespace Vcache

open Option Function

variable {before : Control}

/-- An upload under way: the count of stores it was taken at, its value, and whether S3 has
it. -/
structure Flight where
  generation : ℕ
  value : Option Str
  sent : Bool

def Control.flight? (c : Control) (put : Option PutRecord) : Option Flight :=
  match c with
  | .took item => some ⟨item.generation, item.blob.map (·.data), false⟩
  | .loaded item blob => some ⟨item.generation, blob, false⟩
  | .sent item outcome =>
    some ⟨item.generation, item.blob.map (·.data), outcome = .uploaded || outcome = .skipped⟩
  | .putSyncing gen => some ⟨gen, put.map (·.value), false⟩
  | .putSynced gen ok => some ⟨gen, put.map (·.value), ok⟩
  | _ => none

/-- What a put's record has at each point of the put. -/
def Control.Recorded (c : Control) (p : PutRecord) : Prop :=
  match c with
  | .putArrived | .putDisked _ => p.queued = none ∧ p.replied = none
  | .putRefused _ | .putSyncing _ | .putSynced _ _ | .putLeaving _ =>
    p.queued ≠ none ∧ p.replied = none
  | .done => p.queued ≠ none ∧ p.replied ≠ none
  | _ => False

/-- Without a disk nothing is written there, and a worker uploads what its item holds. -/
def Control.Sound : Control → Prop
  | .putDisked onDisk => onDisk = false
  | .loaded item blob => item.blob.map (·.data) = blob
  | _ => True

/-- Where a thread is, given the record of its put. -/
structure Control.Matches (c : Control) (clock : ℕ) (put : Option PutRecord) : Prop where
  started : ∀ p, put = some p → p.started < clock
  recorded : ∀ p, put = some p → c.Recorded p
  owned : c.isPut = true → put ≠ none
  sound : c.Sound

theorem Control.Matches.later {c : Control} {clock : ℕ} {put : Option PutRecord}
    (h : c.Matches clock put) : c.Matches (clock + 1) put :=
  { h with started := fun p hp => (h.started p hp).trans (Nat.lt_succ_self _) }

theorem Control.Recorded.queued {c : Control} {p : PutRecord} (h : c.Recorded p)
    (hreplied : p.replied ≠ none) : p.queued ≠ none := by
  cases c <;> first | exact h.1 | exact absurd h.2 hreplied | exact h.elim

namespace KeyState

variable {s s' u : KeyState} {tid t : ℕ} {c : Control} {value : Str}

def flight (s : KeyState) (tid : ℕ) : Option Flight := (s.threads tid).flight? (s.puts tid)

/-- The value of a put that no queued put came after. -/
def Fresh (s : KeyState) (value : Str) : Prop :=
  ∃ tid p, s.puts tid = some p ∧ p.value = value ∧
    ∀ t q, s.puts t = some q → q.queued ≠ none → ¬ p.Before q

def NoneQueued (s : KeyState) : Prop := ∀ tid p, s.puts tid = some p → p.queued = none

/-- A refused put has its upload before it. -/
def Pending (s : KeyState) : Prop :=
  ∃ tid watch, s.threads tid = .putRefused watch ∧ s.overtaken watch = false

def PutThreads (s : KeyState) : Prop := ∀ tid, (s.threads tid).Matches s.clock (s.puts tid)

theorem PutThreads.move (hs : s.PutThreads) (hthreads : u.threads = s.threads)
    (hputs : ∀ t, t ≠ tid → u.puts t = s.puts t) (hclock : u.clock = s.clock)
    (h : c.Matches (s.clock + 1) (u.puts tid)) : (u.goto tid c).PutThreads := by
  have hnow : (u.goto tid c).clock = s.clock + 1 := congrArg (· + 1) hclock
  rw [PutThreads, hnow]
  exact forall_goto (P := fun _ c put => c.Matches (s.clock + 1) put) hthreads hputs h
    (fun t => (hs t).later)

theorem PutThreads.goto (hs : s.PutThreads) (hu : u.threads = s.threads ∧ u.puts = s.puts ∧
      u.clock = s.clock) (hrecorded : ∀ p, s.puts tid = some p → c.Recorded p)
    (howned : c.isPut = true → s.puts tid ≠ none) (hsound : c.Sound) :
    (u.goto tid c).PutThreads := by
  obtain ⟨hthreads, hputs, hclock⟩ := hu
  refine hs.move hthreads (fun t _ => congrFun hputs t) hclock ?_
  rw [hputs]
  exact ⟨(hs tid).later.started, hrecorded, howned, hsound⟩

variable {p : PutRecord} {f : Flight} {watch : Option ℕ}

theorem PutThreads.setPut_goto (hs : s.PutThreads)
    (hu : u.threads = s.threads ∧ u.puts = s.puts ∧ u.clock = s.clock)
    (hstarted : p.started ≤ s.clock) (hrecorded : c.Recorded p) (hsound : c.Sound) :
    ((u.setPut tid p).goto tid c).PutThreads := by
  obtain ⟨hthreads, hputs, hclock⟩ := hu
  refine hs.move hthreads (fun t ht => ?_) hclock ?_
  · rw [← hputs]
    exact update_of_ne ht ..
  · rw [show (u.setPut tid p).puts tid = some p from update_self ..]
    refine ⟨?_, ?_, fun _ => some_ne_none p, hsound⟩
    · rintro _ ⟨⟩
      exact Nat.lt_succ_of_le hstarted
    · rintro _ ⟨⟩
      exact hrecorded

theorem PutThreads.recorded_of (hs : s.PutThreads) (hthread : s.threads tid = c)
    (hp : s.puts tid = some p) : c.Recorded p := hthread ▸ (hs tid).recorded p hp

theorem PutThreads.sound_of (hs : s.PutThreads) (hthread : s.threads tid = c) : c.Sound :=
  hthread ▸ (hs tid).sound

/-- A put that goes on without a change to its record. -/
theorem PutThreads.keep (hs : s.PutThreads) (hu : u.threads = s.threads ∧ u.puts = s.puts ∧
      u.clock = s.clock) (hthread : s.threads tid = before)
    (hput : before.isPut = true) (hrecorded : ∀ p, before.Recorded p → c.Recorded p)
    (hsound : c.Sound) : (u.goto tid c).PutThreads :=
  hs.goto hu (fun p hp => hrecorded p (hs.recorded_of hthread hp))
    (fun _ => (hs tid).owned (hthread ▸ hput)) hsound

/-- A thread without a put goes on. -/
theorem PutThreads.worker (hs : s.PutThreads) (hu : u.threads = s.threads ∧ u.puts = s.puts ∧
      u.clock = s.clock) (hthread : s.threads tid = before)
    (hnot : ∀ p, ¬ before.Recorded p) (hput : c.isPut = false) (hsound : c.Sound) :
    (u.goto tid c).PutThreads := by
  refine hs.goto hu (fun p hp => absurd (hs.recorded_of hthread hp) (hnot p)) ?_ hsound
  rw [hput]
  nofun

/-! ## Freshness -/

theorem fresh_of_unreplied (hp : s.puts tid = some p)
    (hreplied : p.replied = none) : s.Fresh p.value := by
  refine ⟨tid, p, hp, rfl, ?_⟩
  rintro t q - - ⟨time, stored, hreply, -⟩
  rw [hreplied] at hreply
  cases hreply

theorem Fresh.congr (h : s.Fresh value) (hputs : s'.puts = s.puts) : s'.Fresh value := by
  obtain ⟨t, p, hp, hvalue, hlast⟩ := h
  exact ⟨t, p, hputs ▸ hp, hvalue, fun t' q hq => hlast t' q (hputs ▸ hq)⟩

/-- A put that comes, and is not queued, makes nothing old. -/
theorem Fresh.startPut (h : s.Fresh value) (hnone : s.puts tid = none)
    (hqueued : p.queued = none) (hputs : s'.puts = update s.puts tid (some p)) :
    s'.Fresh value := by
  obtain ⟨t, q, hq, hvalue, hlast⟩ := h
  have hne : t ≠ tid := by
    rintro rfl
    rw [hnone] at hq
    cases hq
  refine ⟨t, q, by rw [hputs, update_of_ne hne, hq], hvalue, ?_⟩
  intro t' r hr hsome
  rw [hputs] at hr
  by_cases ht : t' = tid
  · rw [ht, update_self] at hr
    cases hr
    exact absurd hqueued hsome
  · rw [update_of_ne ht] at hr
    exact hlast t' r hr hsome

/-- A put that replies now replies after every put there is has come. -/
theorem Fresh.putReply (h : s.Fresh value) (hs : s.PutThreads) {stored : Bool}
    (hp : s.puts tid = some p)
    (hputs : s'.puts = update s.puts tid (some { p with replied := some (s.clock, stored) })) :
    s'.Fresh value := by
  have hother : ∀ t q, s'.puts t = some q → ∃ q', s.puts t = some q' ∧ q'.queued = q.queued ∧
      q'.started = q.started := by
    intro t q hq
    rw [hputs] at hq
    by_cases ht : t = tid
    · rw [ht, update_self] at hq
      cases hq
      exact ⟨p, ht ▸ hp, rfl, rfl⟩
    · rw [update_of_ne ht] at hq
      exact ⟨q, hq, rfl, rfl⟩
  obtain ⟨t, q, hq, hvalue, hlast⟩ := h
  by_cases ht : t = tid
  · subst ht
    cases hp.symm.trans hq
    refine ⟨t, { p with replied := some (s.clock, stored) }, by rw [hputs, update_self], hvalue, ?_⟩
    rintro t' r hr - ⟨time, flag, hreply, hlt⟩
    obtain ⟨r', hr', -, hstarted⟩ := hother t' r hr
    have htime : s.clock = time := congrArg Prod.fst (some.inj hreply)
    have hbound := (hs t').started r' hr'
    omega
  · refine ⟨t, q, by rw [hputs, update_of_ne ht, hq], hvalue, ?_⟩
    rintro t' r hr hsome ⟨time, flag, hreply, hlt⟩
    obtain ⟨r', hr', hqueued, hstarted⟩ := hother t' r hr
    exact hlast t' r' hr' (hqueued ▸ hsome) ⟨time, flag, hreply, hstarted ▸ hlt⟩

/-! ## Flights of a key in order -/

/-- What holds of a key whose flights go up one at a time. -/
structure Ordered (s : KeyState) : Prop where
  flightId : s.queue.inFlight = s.queue.inFlightId.isSome
  waiting : ∀ item, s.queue.waiting = some item → s.queue.inFlight = false ∧
    s.queue.generation = some item.generation ∧ ∃ blob, item.blob = some blob ∧ s.Fresh blob.data
  flight : ∀ tid f, s.flight tid = some f → s.queue.inFlight = true ∧
    (∃ gen, s.queue.generation = some gen ∧ f.generation ≤ gen) ∧
    ∃ value, f.value = some value ∧ (f.sent = true → s.bucket = some value) ∧
      (s.queue.superseded = false → s.queue.generation = some f.generation → s.Fresh value)
  newer : ∀ tid f, s.flight tid = some f → s.queue.superseded = false →
    s.queue.generation ≠ some f.generation → ∃ blob, s.queue.held = some blob ∧ s.Fresh blob.data
  single : ∀ t t' f f', s.flight t = some f → s.flight t' = some f' → t = t'
  superseded : s.queue.superseded = true → s.queue.inFlight = true ∧ s.Pending
  idle : s.queue.waiting = none → s.queue.inFlight = false → ¬ s.Pending →
    s.NoneQueued ∨ ∃ value, s.bucket = some value ∧ s.Fresh value

theorem Ordered.quiet (hs : s.Ordered) (hqueue : s'.queue = s.queue)
    (hbucket : s'.bucket = s.bucket) (hfresh : ∀ value, s.Fresh value → s'.Fresh value)
    (hnone : s.NoneQueued → s'.NoneQueued) (hpending : s.Pending → s'.Pending)
    (hflight : ∀ t f, s'.flight t = some f → s.flight t = some f) : s'.Ordered := by
  refine ⟨?_, ?_, ?_, ?_, ?_, ?_, ?_⟩
  · rw [hqueue]
    exact hs.flightId
  · intro item hitem
    rw [hqueue] at hitem ⊢
    obtain ⟨hland, hgen, blob, hblob, hlast⟩ := hs.waiting item hitem
    exact ⟨hland, hgen, blob, hblob, hfresh _ hlast⟩
  · intro t f hf
    rw [hqueue, hbucket]
    obtain ⟨hflying, hgen, value, hvalue, hsent, hlast⟩ := hs.flight t f (hflight t f hf)
    exact ⟨hflying, hgen, value, hvalue, hsent, fun hsup heq => hfresh _ (hlast hsup heq)⟩
  · intro t f hf
    rw [hqueue]
    intro hsup hne
    obtain ⟨blob, hheld, hlast⟩ := hs.newer t f (hflight t f hf) hsup hne
    exact ⟨blob, hheld, hfresh _ hlast⟩
  · intro t t' f f' hf hf'
    exact hs.single t t' f f' (hflight t f hf) (hflight t' f' hf')
  · rw [hqueue]
    intro hsup
    obtain ⟨hflying, hwaits⟩ := hs.superseded hsup
    exact ⟨hflying, hpending hwaits⟩
  · rw [hqueue, hbucket]
    intro hwaiting hland hover
    rcases hs.idle hwaiting hland (fun h => hover (hpending h)) with h | ⟨value, hvalue, hlast⟩
    · exact .inl (hnone h)
    · exact .inr ⟨value, hvalue, hfresh _ hlast⟩

theorem queue_goto : (u.goto tid c).queue = u.queue := rfl

theorem Ordered.no_flight (hs : s.Ordered) (hland : s.queue.inFlight = false) (t : ℕ) :
    s.flight t = none := by
  by_contra hsome
  obtain ⟨f, hf⟩ := ne_none_iff_exists'.mp hsome
  have hflying := (hs.flight t f hf).1
  rw [hland] at hflying
  cases hflying

theorem Ordered.not_superseded (hs : s.Ordered) (hland : s.queue.inFlight = false) :
    s.queue.superseded = false := by
  by_contra hsup
  have hflying := (hs.superseded (eq_true_of_ne_false hsup)).1
  rw [hland] at hflying
  cases hflying

theorem flight_of_goto (hthreads : u.threads = s.threads)
    (hputs : ∀ t, t ≠ tid → u.puts t = s.puts t) (hf : (u.goto tid c).flight t = some f) :
    t = tid ∧ c.flight? (u.puts tid) = some f ∨ t ≠ tid ∧ s.flight t = some f := by
  rw [flight, threads_goto_eq hthreads] at hf
  by_cases ht : t = tid
  · rw [if_pos ht, ht] at hf
    exact .inl ⟨ht, hf⟩
  · rw [if_neg ht, show (u.goto tid c).puts t = s.puts t from hputs t ht] at hf
    exact .inr ⟨ht, hf⟩

theorem flight_before (hthreads : u.threads = s.threads)
    (hputs : ∀ t, t ≠ tid → u.puts t = s.puts t) (hc : c.flight? (u.puts tid) = none) (t : ℕ)
    (f : Flight) (hf : (u.goto tid c).flight t = some f) : s.flight t = some f := by
  rcases flight_of_goto hthreads hputs hf with ⟨-, hown⟩ | ⟨-, hbefore⟩
  · rw [hc] at hown
    cases hown
  · exact hbefore

theorem Pending.goto (h : s.Pending) (hthreads : u.threads = s.threads)
    (hover : ∀ watch, s.overtaken watch = false → u.overtaken watch = false)
    (hne : ∀ watch, s.threads tid ≠ .putRefused watch) : (u.goto tid c).Pending := by
  obtain ⟨t, watch, ht, hwatch⟩ := h
  refine ⟨t, watch, ?_, hover watch hwatch⟩
  rw [threads_goto_eq hthreads, if_neg]
  · exact ht
  · rintro rfl
    exact hne watch ht

theorem overtaken_congr (h : u.refusals = s.refusals) (watch : Option ℕ) :
    u.overtaken watch = s.overtaken watch := by
  cases watch with
  | none => rfl
  | some id => rw [overtaken, overtaken, h]

theorem ne_putRefused_of_flight (hf : s.flight tid = some f) (watch : Option ℕ) :
    s.threads tid ≠ .putRefused watch := by
  intro h
  rw [flight, h] at hf
  cases hf

section

variable (hs : s.Ordered)

include hs

/-- A flight starts, with a value that nothing is newer than, when none was under way. -/
theorem Ordered.takeOff (hu : u.threads = s.threads ∧ u.puts = s.puts)
    (hland : s.queue.inFlight = false) {gen : ℕ}
    (hflight : c.flight? (s.puts tid) = some ⟨gen, some value, false⟩) (hfresh : s.Fresh value)
    {flightId : ℕ} (hinFlight : u.queue.inFlight = true)
    (hflightId : u.queue.inFlightId = some flightId) (hwaiting : u.queue.waiting = none)
    (hgen : u.queue.generation = some gen) (hsup : u.queue.superseded = s.queue.superseded) :
    (u.goto tid c).Ordered := by
  obtain ⟨hthreads, hputs⟩ := hu
  have hflights : ∀ t f, (u.goto tid c).flight t = some f →
      t = tid ∧ f = ⟨gen, some value, false⟩ := by
    intro t f hf
    rcases flight_of_goto hthreads (fun t _ => congrFun hputs t) hf with ⟨ht, hown⟩ | ⟨-, hbefore⟩
    · rw [hputs, hflight] at hown
      exact ⟨ht, (some.inj hown).symm⟩
    · rw [hs.no_flight hland t] at hbefore
      cases hbefore
  refine ⟨?_, ?_, ?_, ?_, ?_, ?_, ?_⟩
  · change u.queue.inFlight = u.queue.inFlightId.isSome
    rw [hinFlight, hflightId]
    rfl
  · intro item hitem
    cases hwaiting.symm.trans hitem
  · intro t f hf
    obtain ⟨rfl, rfl⟩ := hflights t f hf
    exact ⟨hinFlight, ⟨gen, hgen, le_rfl⟩, value, rfl, (by simp), fun _ _ => hfresh.congr hputs⟩
  · intro t f hf _ hne
    obtain ⟨rfl, rfl⟩ := hflights t f hf
    exact absurd hgen hne
  · intro t t' f f' hf hf'
    exact (hflights t f hf).1.trans (hflights t' f' hf').1.symm
  · intro h
    cases (hsup.trans (hs.not_superseded hland)).symm.trans h
  · intro _ h
    cases hinFlight.symm.trans h

theorem Ordered.send (hf : s.flight tid = some f) (hvalue : f.value = some value)
    (hc : c.flight? (s.puts tid) = some { f with sent := true }) :
    ({ s with bucket := some value }.goto tid c).Ordered := by
  have hflights : ∀ t g, ({ s with bucket := some value }.goto tid c).flight t = some g →
      t = tid ∧ g = { f with sent := true } := by
    intro t g hg
    rcases flight_of_goto (u := { s with bucket := some value }) (s := s) rfl (fun _ _ => rfl) hg
      with ⟨ht, hown⟩ | ⟨ht, hbefore⟩
    · exact ⟨ht, some.inj (hown.symm.trans hc)⟩
    · exact absurd (hs.single t tid g f hbefore hf) ht
  obtain ⟨hflying, hgen, before, hbefore, -, hlast⟩ := hs.flight tid f hf
  cases hvalue.symm.trans hbefore
  refine ⟨hs.flightId, hs.waiting, ?_, ?_, ?_, ?_, ?_⟩
  · intro t g hg
    obtain ⟨rfl, rfl⟩ := hflights t g hg
    exact ⟨hflying, hgen, value, hvalue, fun _ => rfl, hlast⟩
  · intro t g hg hsup hne
    obtain ⟨rfl, rfl⟩ := hflights t g hg
    exact hs.newer t f hf hsup hne
  · intro t t' g g' hg hg'
    exact (hflights t g hg).1.trans (hflights t' g' hg').1.symm
  · intro hsup
    obtain ⟨-, hpending⟩ := hs.superseded hsup
    exact ⟨hflying, hpending.goto rfl (fun _ => id) (ne_putRefused_of_flight hf)⟩
  · intro _ hland
    cases hflying.symm.trans hland

theorem Ordered.waiting_none (hf : s.flight tid = some f) :
    s.queue.waiting = none := by
  by_contra hsome
  obtain ⟨queued, hqueued⟩ := ne_none_iff_exists'.mp hsome
  have hland := (hs.waiting queued hqueued).1
  rw [(hs.flight tid f hf).1] at hland
  cases hland

/-- Another store has taken the place of the one with this count. -/
def Outdated (queue : KeyQueue) (generation : ℕ) : Prop :=
  queue.superseded = true ∨ queue.generation ≠ some generation

section

variable (hu : u.threads = s.threads ∧ u.puts = s.puts ∧ u.refusals = s.refusals ∧
  u.bucket = s.bucket) (hc : c.flight? (s.puts tid) = none)

include hu hc

/-- The flight is over: the newest value is queued, or a refused put has the last word, or the
bucket has what it should have. -/
theorem Ordered.endFlight (hf : s.flight tid = some f)
    (hnext : (∃ back blob, u.queue = s.queue.queueBack back ∧ s.queue.superseded = false ∧
        s.queue.generation = some back.generation ∧ back.blob = some blob ∧ s.Fresh blob.data) ∨
      u.queue = s.queue.clear ∧ (s.Pending ∨ ∃ value, s.bucket = some value ∧ s.Fresh value)) :
    (u.goto tid c).Ordered := by
  obtain ⟨hthreads, hputs, hrefusals, hbucket⟩ := hu
  have hnone : ∀ t g, (u.goto tid c).flight t ≠ some g := by
    intro t g hg
    rcases flight_of_goto hthreads (fun t _ => congrFun hputs t) hg with ⟨-, hown⟩ | ⟨ht, hbefore⟩
    · rw [hputs, hc] at hown
      cases hown
    · exact ht (hs.single t tid g f hbefore hf)
  have hpending : s.Pending → (u.goto tid c).Pending := by
    intro h
    exact h.goto hthreads (fun watch => (overtaken_congr hrefusals watch).trans)
      (ne_putRefused_of_flight hf)
  obtain ⟨hinFlight, hflightId, hsuperseded⟩ : u.queue.inFlight = false ∧
      u.queue.inFlightId = none ∧ u.queue.superseded = false := by
    rcases hnext with ⟨back, blob, hqueue, hnot, -⟩ | ⟨hqueue, -⟩ <;> rw [hqueue]
    · exact ⟨rfl, rfl, hnot⟩
    · exact ⟨rfl, rfl, rfl⟩
  refine ⟨?_, ?_, fun t g hg => absurd hg (hnone t g), fun t g hg => absurd hg (hnone t g),
    fun t t' g g' hg => absurd hg (hnone t g), ?_, ?_⟩
  · change u.queue.inFlight = u.queue.inFlightId.isSome
    rw [hinFlight, hflightId]
    rfl
  · intro queued (hqueued : u.queue.waiting = some queued)
    rcases hnext with ⟨back, blob, hqueue, -, hgen, hblob, hfresh⟩ | ⟨hqueue, -⟩ <;>
      rw [hqueue] at hqueued
    · cases hqueued
      refine ⟨hinFlight, ?_, blob, hblob, hfresh.congr hputs⟩
      exact (congrArg KeyQueue.generation hqueue).trans hgen
    · cases (hs.waiting_none hf).symm.trans hqueued
  · intro h
    cases hsuperseded.symm.trans h
  · intro (hwaiting : u.queue.waiting = none) _ hover
    rcases hnext with ⟨back, blob, hqueue, -⟩ | ⟨-, h | ⟨value, hvalue, hfresh⟩⟩
    · rw [hqueue] at hwaiting
      cases hwaiting
    · exact absurd (hpending h) hover
    · exact .inr ⟨value, hbucket.trans hvalue, hfresh.congr hputs⟩

/-- A flight that was not superseded queues the newer value, or ends with `q` if there is none. -/
theorem Ordered.settled {gen : ℕ} {later : UploadItem} {q : KeyQueue} (hf : s.flight tid = some f)
    (hgen : s.queue.generation = some gen)
    (hqueue : u.queue = if s.queue.superseded then s.queue.clear else
      if gen ≠ f.generation then s.queue.queueBack later else q)
    (hlater : later.generation = gen ∧ later.blob = s.queue.held)
    (hsame : s.queue.superseded = false → s.queue.generation = some f.generation → u.queue = q →
      (u.goto tid c).Ordered) : (u.goto tid c).Ordered := by
  obtain ⟨rfl, hblob⟩ := hlater
  by_cases hsup : s.queue.superseded = true
  · rw [if_pos hsup] at hqueue
    exact hs.endFlight hu hc hf (.inr ⟨hqueue, .inl (hs.superseded hsup).2⟩)
  · have hnot := eq_false_of_ne_true hsup
    rw [if_neg hsup] at hqueue
    by_cases heq : later.generation = f.generation
    · exact hsame hnot (hgen.trans (congrArg some heq)) (hqueue.trans (if_neg (not_not.mpr heq)))
    · obtain ⟨blob, hheld, hfresh⟩ := hs.newer tid _ hf hnot
        (fun h => heq (some.inj (hgen.symm.trans h)))
      exact hs.endFlight hu hc hf
        (.inl ⟨later, blob, hqueue.trans (if_pos heq), hnot, hgen, hblob.trans hheld, hfresh⟩)

theorem Ordered.land {item : UploadItem} {value : Option Str} {sent : Bool}
    (hf : s.flight tid = some ⟨item.generation, value, sent⟩)
    (hqueue : u.queue = s.queue.finish item)
    (hsent : sent = false → Outdated s.queue item.generation) : (u.goto tid c).Ordered := by
  obtain ⟨-, ⟨gen, hgen, -⟩, last, -, hbucket, hlast⟩ := hs.flight tid _ hf
  rw [KeyQueue.finish, hgen] at hqueue
  refine hs.settled hu hc hf hgen hqueue ⟨rfl, rfl⟩ (fun hnot hgen hqueue => ?_)
  cases sent with
  | true => exact hs.endFlight hu hc hf (.inr ⟨hqueue, .inr ⟨last, hbucket rfl, hlast hnot hgen⟩⟩)
  | false => exact ((hsent rfl).elim (ne_true_of_eq_false hnot) (absurd hgen)).elim

/-- A flight whose attempt failed is queued again, with the newest value there is. -/
theorem Ordered.requeue {item : UploadItem} {sent : Bool}
    (hf : s.flight tid = some ⟨item.generation, item.blob.map (·.data), sent⟩)
    (hqueue : u.queue = s.queue.requeue item) : (u.goto tid c).Ordered := by
  obtain ⟨-, ⟨gen, hgen, -⟩, value, hvalue, -, hlast⟩ := hs.flight tid _ hf
  rw [KeyQueue.requeue, hgen] at hqueue
  refine hs.settled hu hc hf hgen hqueue ⟨rfl, rfl⟩ (fun hnot hgen hqueue => ?_)
  obtain ⟨blob, hblob, rfl⟩ := map_eq_some_iff.mp hvalue
  exact hs.endFlight hu hc hf (.inl ⟨item, blob, hqueue, hnot, hgen, hblob, hlast hnot hgen⟩)

end

/-- An accepted store waits, or is held for the flight of its key to queue. -/
theorem Ordered.accept (k : Str) (blob : HeldBlob)
    (hu : u.threads = s.threads ∧ (∀ t, t ≠ tid → u.puts t = s.puts t) ∧ u.bucket = s.bucket)
    (hqueue : u.queue = s.queue.accept k (some blob)) (hfresh : u.Fresh blob.data)
    (hc : c.flight? (u.puts tid) = none) : (u.goto tid c).Ordered := by
  obtain ⟨hthreads, hputs, hbucket⟩ := hu
  have hflights := flight_before hthreads hputs hc
  have hgen : u.queue.generation = some s.queue.nextGeneration := by rw [hqueue]; rfl
  have hinFlight : u.queue.inFlight = s.queue.inFlight := by rw [hqueue]; rfl
  have hsup : u.queue.superseded = false := by rw [hqueue]; rfl
  -- The count of a flight is at most the one before this store.
  have hnewer : ∀ t f, s.flight t = some f → f.generation < s.queue.nextGeneration := by
    intro t f hf
    obtain ⟨-, ⟨gen, hgen, hle⟩, -⟩ := hs.flight t f hf
    rw [KeyQueue.nextGeneration, hgen]
    exact Nat.lt_succ_of_le hle
  refine ⟨?_, ?_, ?_, ?_, ?_, ?_, ?_⟩
  · change u.queue.inFlight = u.queue.inFlightId.isSome
    rw [hinFlight, hqueue]
    exact hs.flightId
  · intro item hitem
    have hitem : u.queue.waiting = some item := hitem
    change u.queue.inFlight = false ∧ u.queue.generation = some item.generation ∧ _
    rw [hinFlight, hgen]
    obtain ⟨hland, hgeneration, hblob⟩ :=
      KeyQueue.waiting_accept (fun queued h => (hs.waiting queued h).1) (hqueue ▸ hitem)
    exact ⟨hland, congrArg some hgeneration.symm, blob, hblob, hfresh⟩
  · intro t f hf
    have hbefore := hflights t f hf
    obtain ⟨hflying, -, value, hvalue, hsent, -⟩ := hs.flight t f hbefore
    have hlt := hnewer t f hbefore
    refine ⟨hinFlight.trans hflying, ⟨_, hgen, hlt.le⟩, value, hvalue,
      fun h => hbucket.trans (hsent h), fun _ heq => ?_⟩
    have heq := some.inj (hgen.symm.trans heq)
    omega
  · intro t f hf _ _
    exact ⟨blob, by rw [queue_goto, hqueue]; rfl, hfresh⟩
  · intro t t' f f' hf hf'
    exact hs.single t t' f f' (hflights t f hf) (hflights t' f' hf')
  · intro h
    cases hsup.symm.trans h
  · intro hwaiting hland
    have hwaiting : u.queue.waiting = none := hwaiting
    rw [hqueue] at hwaiting
    exact absurd hwaiting (KeyQueue.waiting_accept_ne (hinFlight.symm.trans hland) k _)

/-- A refused store has its upload before it, whatever was queued or in flight. -/
theorem Ordered.refuse
    (hu : u.threads = s.threads ∧ (∀ t, t ≠ tid → u.puts t = s.puts t) ∧ u.bucket = s.bucket)
    (hqueue : u.queue = s.queue.refuse) (hc : c.flight? (u.puts tid) = none)
    (hpending : (u.goto tid c).Pending) : (u.goto tid c).Ordered := by
  obtain ⟨hthreads, hputs, hbucket⟩ := hu
  have hflights := flight_before hthreads hputs hc
  by_cases hflying : s.queue.inFlight = true
  · have hrefuse : u.queue = { s.queue with
        generation := some s.queue.nextGeneration, superseded := true, held := none } := by
      rw [hqueue, KeyQueue.refuse, if_pos hflying]
    have hsup : (u.goto tid c).queue.superseded = true := by
      rw [queue_goto, hrefuse]
    refine ⟨?_, ?_, ?_, ?_, ?_, ?_, fun _ _ h => absurd hpending h⟩
    · change u.queue.inFlight = u.queue.inFlightId.isSome
      rw [hrefuse]
      exact hs.flightId
    · intro item hitem
      have hitem : u.queue.waiting = some item := hitem
      rw [hrefuse] at hitem
      have hland := (hs.waiting item hitem).1
      rw [hflying] at hland
      cases hland
    · intro t f hf
      obtain ⟨-, ⟨gen, hgen, hle⟩, value, hvalue, hsent, -⟩ := hs.flight t f (hflights t f hf)
      refine ⟨?_, ⟨s.queue.nextGeneration, ?_, ?_⟩, value, hvalue,
        fun h => hbucket.trans (hsent h), fun hnot => ?_⟩
      · rw [queue_goto, hrefuse]
        exact hflying
      · rw [queue_goto, hrefuse]
      · rw [KeyQueue.nextGeneration, hgen]
        exact Nat.le_succ_of_le hle
      · rw [hsup] at hnot
        cases hnot
    · intro t f hf hnot
      rw [hsup] at hnot
      cases hnot
    · intro t t' f f' hf hf'
      exact hs.single t t' f f' (hflights t f hf) (hflights t' f' hf')
    · intro _
      refine ⟨?_, hpending⟩
      rw [queue_goto, hrefuse]
      exact hflying
  · have hland := eq_false_of_ne_true hflying
    have hnone : ∀ t f, (u.goto tid c).flight t ≠ some f := by
      intro t f hf
      have hbefore := hflights t f hf
      rw [hs.no_flight hland t] at hbefore
      cases hbefore
    have hrefuse : u.queue.waiting = none ∧ u.queue.inFlight = s.queue.inFlight ∧
        u.queue.inFlightId = s.queue.inFlightId ∧ u.queue.superseded = s.queue.superseded := by
      rw [hqueue, KeyQueue.refuse, if_neg hflying]
      split
      next => exact ⟨rfl, rfl, rfl, rfl⟩
      next hqueued =>
        refine ⟨?_, rfl, rfl, rfl⟩
        by_contra hsome
        exact hqueued (by rw [isSome_iff_ne_none.mpr hsome]; rfl)
    obtain ⟨hwaiting, hinFlight, hflightId, hsup⟩ := hrefuse
    refine ⟨?_, ?_, fun t f hf => absurd hf (hnone t f), fun t f hf => absurd hf (hnone t f),
      fun t t' f f' hf => absurd hf (hnone t f), ?_, fun _ _ h => absurd hpending h⟩
    · change u.queue.inFlight = u.queue.inFlightId.isSome
      rw [hinFlight, hflightId]
      exact hs.flightId
    · intro item hitem
      cases hwaiting.symm.trans hitem
    · intro h
      cases (hsup.trans (hs.not_superseded hland)).symm.trans h

theorem Ordered.quiet_goto (hu : u.queue = s.queue ∧ u.bucket = s.bucket ∧
      u.threads = s.threads ∧ u.puts = s.puts ∧ u.refusals = s.refusals)
    (hthread : s.threads tid = before) (hbefore : ∀ watch, before ≠ .putRefused watch)
    (hc : ∀ f, c.flight? (s.puts tid) = some f → before.flight? (s.puts tid) = some f) :
    (u.goto tid c).Ordered := by
  obtain ⟨hqueue, hbucket, hthreads, hputs, hrefusals⟩ := hu
  refine hs.quiet hqueue hbucket (fun value h => h.congr hputs) ?_ (fun h => ?_) ?_
  · intro h t p hp
    exact h t p (hputs ▸ hp)
  · exact h.goto hthreads (fun watch => (overtaken_congr hrefusals watch).trans)
      (hthread ▸ hbefore)
  · intro t f hf
    rcases flight_of_goto hthreads (fun t _ => congrFun hputs t) hf with ⟨rfl, hown⟩ | ⟨-, hbefore⟩
    · rw [KeyState.flight, hthread]
      exact hc f (hputs ▸ hown)
    · exact hbefore

theorem Ordered.quiet_setPut
    (hthread : s.threads tid = before) (hbefore : ∀ watch, before ≠ .putRefused watch)
    (hfresh : ∀ value, s.Fresh value → ((s.setPut tid p).goto tid c).Fresh value)
    (hnone : s.NoneQueued → p.queued = none) (hc : c.flight? (some p) = none) :
    ((s.setPut tid p).goto tid c).Ordered := by
  have hself : (s.setPut tid p).puts tid = some p := update_self ..
  refine hs.quiet rfl rfl hfresh ?_ (fun h => ?_) ?_
  · intro h t q hq
    by_cases ht : t = tid
    · subst ht
      cases hself.symm.trans hq
      exact hnone h
    · exact h t q ((update_of_ne ht ..).symm.trans hq)
  · exact h.goto rfl (fun _ => id) (hthread ▸ hbefore)
  · exact flight_before (u := s.setPut tid p) rfl (fun t ht => update_of_ne ht ..)
      (by rw [hself, hc])

end

theorem overtaken_takeRefusal {watch' : Option ℕ} (h : s.overtaken watch' = false) :
    (s.takeRefusal watch).overtaken watch' = false := by
  cases watch with
  | none => exact h
  | some id =>
    cases watch' with
    | none => rfl
    | some id' =>
      by_cases hid : id' = id
      · simp [takeRefusal, overtaken, hid]
      · have hsame : (s.takeRefusal (some id)).refusals id' = s.refusals id' :=
          update_of_ne hid ..
        rw [overtaken, hsame]
        exact h

theorem takeRefusal_same (s : KeyState) (watch : Option ℕ) :
    (s.takeRefusal watch).threads = s.threads ∧ (s.takeRefusal watch).puts = s.puts ∧
      (s.takeRefusal watch).clock = s.clock ∧ (s.takeRefusal watch).bucket = s.bucket ∧
      (s.takeRefusal watch).queue = s.queue ∧
      (s.takeRefusal watch).nextRefusalId = s.nextRefusalId := by
  cases watch <;> exact ⟨rfl, rfl, rfl, rfl, rfl, rfl⟩

theorem refuse_same (s : KeyState) :
    s.refuse.threads = s.threads ∧ s.refuse.puts = s.puts ∧ s.refuse.clock = s.clock ∧
      s.refuse.bucket = s.bucket ∧ s.refuse.queue = s.queue.refuse := by
  rw [refuse]
  split <;> exact ⟨rfl, rfl, rfl, rfl, rfl⟩

theorem PutThreads.refused (hs : s.PutThreads)
    (hu : u.threads = (s.takeRefusal watch).threads ∧ u.puts = (s.takeRefusal watch).puts ∧
      u.clock = (s.takeRefusal watch).clock) (hc : s.threads tid = .putRefused watch)
    (hrecorded : ∀ p, (Control.putRefused watch).Recorded p → c.Recorded p) (hsound : c.Sound) :
    (u.goto tid c).PutThreads := by
  obtain ⟨hthreads, hputs, hclock, -⟩ := s.takeRefusal_same watch
  exact hs.keep ⟨hu.1.trans hthreads, hu.2.1.trans hputs, hu.2.2.trans hclock⟩ hc rfl hrecorded
    hsound

/-- An overtaken put leaves the last word to the one that overtook it. -/
theorem Ordered.retryOvertaken (hs : s.Ordered) {stored : Bool}
    (hc : s.threads tid = .putRefused watch) (hover : s.overtaken watch = true) :
    ((s.takeRefusal watch).goto tid (.putLeaving stored)).Ordered := by
  obtain ⟨hthreads, hputs, -, hbucket, hqueue, -⟩ := s.takeRefusal_same watch
  refine hs.quiet hqueue hbucket (fun value h => h.congr hputs) ?_ ?_ ?_
  · intro h t p hp
    exact h t p (hputs ▸ hp)
  · rintro ⟨t, watch', ht, hwatch'⟩
    refine ⟨t, watch', ?_, overtaken_takeRefusal hwatch'⟩
    rw [threads_goto_eq hthreads, if_neg]
    · exact ht
    · rintro rfl
      obtain rfl := Control.putRefused.inj (hc.symm.trans ht)
      rw [hover] at hwatch'
      cases hwatch'
  · exact flight_before hthreads (fun t _ => congrFun hputs t) rfl

/-- A put that finds the key in flight waits for that flight as well. -/
theorem Ordered.retryWatch (hs : s.Ordered) (tid : ℕ) (watch : Option ℕ) :
    ((s.takeRefusal watch).addRefusal.goto tid (.putRefused (some s.nextRefusalId))).Ordered := by
  obtain ⟨hthreads, hputs, -, hbucket, hqueue, hnext⟩ := s.takeRefusal_same watch
  have hnew : (s.takeRefusal watch).addRefusal.refusals s.nextRefusalId = some false := by
    rw [← hnext]
    exact update_self ..
  refine hs.quiet hqueue hbucket (fun value h => h.congr hputs) ?_ ?_ ?_
  · intro h t p hp
    exact h t p (hputs ▸ hp)
  · intro _
    refine ⟨tid, _, update_self .., ?_⟩
    change ((s.takeRefusal watch).addRefusal.refusals s.nextRefusalId).getD false = false
    rw [hnew]
    rfl
  · exact flight_before hthreads (fun t _ => congrFun hputs t) rfl

theorem ordered_get (hputs : s.PutThreads) (hordered : s.Ordered)
    (hu : u.queue = s.queue ∧ u.bucket = s.bucket ∧ u.threads = s.threads ∧ u.puts = s.puts ∧
      u.refusals = s.refusals ∧ u.clock = s.clock)
    (hthread : s.threads tid = before) (hbefore : before.isGet = true)
    (hc : (c.isGet || c = .done) = true) : (u.goto tid c).PutThreads ∧ (u.goto tid c).Ordered := by
  obtain ⟨hqueue, hbucket, hthreads, hsame, hrefusals, hclock⟩ := hu
  have hnot : ∀ p, ¬ before.Recorded p := by
    intro p
    cases before <;> first | exact id | cases hbefore
  have hnoFlight : ∀ put, c.flight? put = none := by
    intro put
    cases c <;> first | rfl | cases hc
  refine ⟨hputs.worker ⟨hthreads, hsame, hclock⟩ hthread hnot ?_ ?_, ?_⟩
  · cases c <;> first | rfl | cases hc
  · cases c <;> trivial
  · refine hordered.quiet_goto ⟨hqueue, hbucket, hthreads, hsame, hrefusals⟩ hthread ?_ ?_
    · rintro watch rfl
      cases hbefore
    · intro f hf
      rw [hnoFlight] at hf
      cases hf

end KeyState

/-! ## Every step keeps the order -/

open KeyState in
theorem ordered_step {cfg : DaemonConfig} (hdisk : cfg.diskWritable = false)
    (hs3 : cfg.s3Writable = true) {k : Str} {s s' : KeyState} {e : DaemonEvent}
    (hbeside : ∀ tid watch, e = .putRetry tid → s.threads tid = .putRefused watch →
      s.overtaken watch = false → s.queue.inFlight = false → s.queue.waiting = none)
    (hworker : ∀ tid item, e = .settle tid → s.threads tid = .sent item .failed →
      Outdated s.queue item.generation)
    (hsync : ∀ tid gen, e = .putFinish tid → s.threads tid = .putSynced gen false →
      Outdated s.queue gen)
    (h : KeyStep cfg k s e s') (hs : s.PutThreads ∧ s.Ordered) : s'.PutThreads ∧ s'.Ordered := by
  obtain ⟨hputs, hordered⟩ := hs
  cases h with
  | other _ _ failed _ hfailed =>
    exact ⟨fun tid => (hputs tid).later,
      hordered.quiet rfl rfl (fun value h => h.congr rfl) id id (fun _ _ => id)⟩
  | startPut tid value hc hp =>
    refine ⟨hputs.setPut_goto ⟨rfl, rfl, rfl⟩ le_rfl ⟨rfl, rfl⟩ trivial, ?_⟩
    exact hordered.quiet_setPut hc (by simp) (fun value h => h.startPut hp rfl rfl) (fun _ => rfl)
      rfl
  | putOnDisk tid p hc hp hwritable =>
    rw [hdisk] at hwritable
    cases hwritable
  | putNoDisk tid ok hc _ =>
    exact ⟨hputs.keep ⟨rfl, rfl, rfl⟩ hc rfl (fun _ => id) rfl,
      hordered.quiet_goto ⟨rfl, rfl, rfl, rfl, rfl⟩ hc (by simp) (by simp [Control.flight?])⟩
  | putSkip tid onDisk hc hs3' =>
    rw [hs3] at hs3'
    cases hs3'
  | queueOnDisk tid p hc hp _ => cases hputs.sound_of hc
  | queueHeld tid p hc hp _ =>
    have hrecorded := hputs.recorded_of hc hp
    refine ⟨hputs.setPut_goto ⟨rfl, rfl, rfl⟩ ((hputs tid).started p hp).le
      ⟨some_ne_none _, hrecorded.2⟩ trivial, ?_⟩
    have hself : (((s.accept k (some ⟨tid, p.value⟩)).setPut tid
      { p with queued := some s.clock }).puts tid) = some { p with queued := some s.clock } :=
      update_self ..
    have hfresh : ((s.accept k (some ⟨tid, p.value⟩)).setPut tid
      { p with queued := some s.clock }).Fresh
        ({ p with queued := some s.clock } : PutRecord).value :=
      fresh_of_unreplied hself hrecorded.2
    exact hordered.accept k ⟨tid, p.value⟩ ⟨rfl, fun t ht => update_of_ne ht .., rfl⟩ rfl hfresh
      (by rw [hself]; rfl)
  | queueRefused tid p hc hp _ =>
    have hrecorded := hputs.recorded_of hc hp
    obtain ⟨hthreads, hsame, hclock, hbucket, hqueue⟩ := s.refuse_same
    refine ⟨hputs.setPut_goto ⟨hthreads, hsame, hclock⟩ ((hputs tid).started p hp).le
      ⟨some_ne_none _, hrecorded.2⟩ trivial, ?_⟩
    refine hordered.refuse ⟨hthreads, fun t ht => ?_, hbucket⟩ hqueue rfl
      ⟨tid, _, update_self .., ?_⟩
    · rw [← hsame]
      exact update_of_ne ht ..
    · change s.refuse.overtaken _ = false
      rw [KeyState.refuse]
      by_cases hflying : s.queue.inFlight = true
      · simp only [hflying, if_true]
        simp [KeyState.overtaken, KeyState.addRefusal]
      · simp only [hflying]
        rfl
  | retryOvertaken tid watch hc hover =>
    exact ⟨hputs.refused ⟨rfl, rfl, rfl⟩ hc (fun _ => id) trivial,
      hordered.retryOvertaken hc hover⟩
  | retrySync tid watch flightId hc hover hland =>
    obtain ⟨hthreads, hsame, -⟩ := s.takeRefusal_same watch
    obtain ⟨p, hp⟩ := ne_none_iff_exists'.mp ((hputs tid).owned (by rw [hc]; rfl))
    have hrecorded := hputs.recorded_of hc hp
    refine ⟨hputs.refused ⟨rfl, rfl, rfl⟩ hc (fun _ => id) trivial, ?_⟩
    exact hordered.takeOff ⟨hthreads, hsame⟩ hland (by rw [hp]; rfl)
      (fresh_of_unreplied hp hrecorded.2) rfl rfl (hbeside tid watch rfl hc hover hland) rfl rfl
  | retryWatch tid watch hc hover hflying hid =>
    exact ⟨hputs.refused ⟨rfl, rfl, rfl⟩ hc (fun _ => id) trivial,
      hordered.retryWatch tid watch⟩
  | retryLost tid watch hc hover hflying hid =>
    have hflightId := hordered.flightId
    rw [hflying, hid] at hflightId
    cases hflightId
  | putUpload tid ok p gen hc hp =>
    refine ⟨hputs.keep ⟨rfl, rfl, rfl⟩ hc rfl (fun _ => id) trivial, ?_⟩
    have hflight : s.flight tid = some ⟨gen, some p.value, false⟩ := by
      rw [flight, hc, hp]
      rfl
    cases ok with
    | true => exact hordered.send hflight rfl (by rw [hp]; rfl)
    | false => exact hordered.quiet_goto ⟨rfl, rfl, rfl, rfl, rfl⟩ hc (by simp) (fun _ => id)
  | putFinish tid gen ok hc =>
    refine ⟨hputs.keep ⟨rfl, rfl, rfl⟩ hc rfl (fun _ => id) trivial,
      hordered.land ⟨rfl, rfl, rfl, rfl⟩ rfl (by rw [flight, hc]; rfl) rfl ?_⟩
    rintro rfl
    exact hsync tid gen rfl hc
  | putReply tid stored p hc hp =>
    have hrecorded := hputs.recorded_of hc hp
    refine ⟨hputs.setPut_goto ⟨rfl, rfl, rfl⟩ ((hputs tid).started p hp).le
      ⟨hrecorded.1, some_ne_none _⟩ trivial, ?_⟩
    exact hordered.quiet_setPut hc (by simp) (fun value h => h.putReply hputs hp rfl)
      (fun hnone => hnone tid p hp) rfl
  | take tid now item flightId hc hp hitem hkey =>
    obtain ⟨hland, hgen, blob, hblob, hfresh⟩ := hordered.waiting item hitem
    refine ⟨hputs.goto ⟨rfl, rfl, rfl⟩ (fun p hp' => ?_) (by simp [Control.isPut]) trivial, ?_⟩
    · rw [hp] at hp'
      cases hp'
    · refine hordered.takeOff ⟨rfl, rfl⟩ hland ?_ hfresh rfl rfl rfl hgen rfl
      rw [Control.flight?, hblob]
      rfl
  | load tid item hc =>
    obtain ⟨-, -, value, hvalue, -⟩ := hordered.flight tid
      ⟨item.generation, item.blob.map (·.data), false⟩ (by rw [flight, hc]; rfl)
    obtain ⟨blob, hblob, rfl⟩ := map_eq_some_iff.mp hvalue
    simp only [hblob]
    refine ⟨hputs.worker ⟨rfl, rfl, rfl⟩ hc (fun _ => id) rfl hvalue,
      hordered.quiet_goto ⟨rfl, rfl, rfl, rfl, rfl⟩ hc (by simp) (fun f hf => ?_)⟩
    rw [← hf, Control.flight?, hblob]
    rfl
  | sendNothing tid now ok item hc =>
    obtain ⟨-, -, value, hvalue, -⟩ := hordered.flight tid ⟨item.generation, none, false⟩
      (by rw [flight, hc]; rfl)
    cases hvalue
  | sendUploaded tid now item blob hc =>
    refine ⟨hputs.worker ⟨rfl, rfl, rfl⟩ hc (fun _ => id) rfl trivial, ?_⟩
    have hblob : item.blob.map (·.data) = some blob := hputs.sound_of hc
    have hflight : s.flight tid = some ⟨item.generation, some blob, false⟩ := by
      rw [flight, hc]
      rfl
    refine hordered.send hflight rfl ?_
    rw [Control.flight?, hblob]
    rfl
  | sendFailed tid now item blob attempts wait outcome houtcome hc =>
    have hblob : item.blob.map (·.data) = some blob := hputs.sound_of hc
    refine ⟨hputs.worker ⟨rfl, rfl, rfl⟩ hc (fun _ => id) rfl trivial,
      hordered.quiet_goto ⟨rfl, rfl, rfl, rfl, rfl⟩ hc (by simp) (fun f hf => ?_)⟩
    rw [← hf, Control.flight?, Control.flight?, hblob]
    rcases houtcome with rfl | rfl <;> rfl
  | settleRetry tid item hc =>
    exact ⟨hputs.worker ⟨rfl, rfl, rfl⟩ hc (fun _ => id) rfl trivial,
      hordered.requeue ⟨rfl, rfl, rfl, rfl⟩ rfl (by rw [flight, hc]; rfl) rfl⟩
  | settle tid item outcome hc houtcome =>
    refine ⟨hputs.worker ⟨rfl, rfl, rfl⟩ hc (fun _ => id) rfl trivial,
      hordered.land ⟨rfl, rfl, rfl, rfl⟩ rfl (by rw [flight, hc]; rfl) rfl (fun hsent => ?_)⟩
    cases outcome with
    | failed => exact hworker tid item rfl hc
    | retry => exact absurd rfl houtcome
    | skipped | uploaded => cases hsent
  | startGet tid hc hg hp =>
    exact ⟨hputs.goto ⟨rfl, rfl, rfl⟩ (fun p hp' => absurd hp' (by simp [hp]))
        (by simp [Control.isPut]) trivial,
      hordered.quiet_goto ⟨rfl, rfl, rfl, rfl, rfl⟩ hc (by simp) (by simp [Control.flight?])⟩
  | getHeldMiss tid hc =>
    exact ordered_get hputs hordered ⟨rfl, rfl, rfl, rfl, rfl, rfl⟩ hc rfl (by split <;> rfl)
  | _ => exact ordered_get hputs hordered ⟨rfl, rfl, rfl, rfl, rfl, rfl⟩ (by assumption) rfl rfl

theorem ordered_start (journalled : Bool) (maxHeldBytes : ℕ) (disk bucket : Str → Option Str)
    (k : Str) : ((Daemon.start journalled maxHeldBytes disk bucket).key k).PutThreads ∧
      ((Daemon.start journalled maxHeldBytes disk bucket).key k).Ordered := by
  have hidle : ∀ tid, ((Daemon.start journalled maxHeldBytes disk bucket).key k).threads tid =
      .idle := fun tid => Daemon.threads_idle rfl
  have hflight : ∀ tid f,
      ((Daemon.start journalled maxHeldBytes disk bucket).key k).flight tid ≠ some f := by
    intro tid f h
    rw [KeyState.flight, hidle] at h
    cases h
  refine ⟨fun tid => ⟨nofun, nofun, ?_, ?_⟩, ⟨rfl, nofun, fun tid f hf => absurd hf (hflight tid f),
    fun tid f hf => absurd hf (hflight tid f), fun t _ f _ hf => absurd hf (hflight t f), nofun,
    fun _ _ _ => .inl nofun⟩⟩
  · rw [hidle]
    nofun
  · rw [hidle]
    trivial

/-! ## Uploads that do not fail -/

def Control.hasFailed : Control → Bool
  | .putSynced _ ok => !ok
  | .sent _ outcome => outcome = .failed || outcome = .retry
  | _ => false

def KeyState.NoneFailed (s : KeyState) : Prop := ∀ tid, (s.threads tid).hasFailed = false

theorem KeyState.NoneFailed.goto {s u : KeyState} {tid : ℕ} {c : Control} (hs : s.NoneFailed)
    (hthreads : u.threads = s.threads) (hc : c.hasFailed = false) :
    (u.goto tid c).NoneFailed := by
  intro t
  rw [KeyState.threads_goto_eq hthreads]
  split
  · exact hc
  · exact hs t

theorem noneFailed_step {cfg : DaemonConfig} {k : Str} {s s' : KeyState} {e : DaemonEvent}
    (hok : e.s3Fails = false) (h : KeyStep cfg k s e s') (hs : s.NoneFailed) : s'.NoneFailed := by
  cases h with
  | other => exact hs
  | queueRefused tid p hc hp _ => exact hs.goto s.refuse_same.1 rfl
  | retryOvertaken tid watch | retrySync tid watch | retryWatch tid watch
  | retryLost tid watch => exact hs.goto (s.takeRefusal_same watch).1 rfl
  | putUpload tid ok p gen hc hp => exact hs.goto rfl hok
  | sendFailed => cases hok
  | getHeldMiss => exact hs.goto rfl (by split <;> rfl)
  | _ => exact hs.goto rfl rfl

namespace Daemon

/-- A refused put that nothing has overtaken would start its upload now, and another value of its
key waits in the queue. -/
def syncsBesideWaiting (s : Daemon) (tid : ℕ) : Bool :=
  match s.control tid, s.puts tid with
  | .putRefused watch, some p =>
    !(takeWatched s.uploads watch).1 && !s.uploads.inFlight p.key &&
      (s.uploads.waiting p.key).isSome
  | _, _ => false

def besideWaiting (s : Daemon) : DaemonEvent → Bool
  | .putRetry tid => s.syncsBesideWaiting tid
  | _ => false

/-- S3 takes every put, and no refused put uploads beside a value that waits. -/
def OneFlight (s : Daemon) (e : DaemonEvent) : Prop :=
  e.s3Fails = false ∧ s.besideWaiting e = false

instance (s : Daemon) (e : DaemonEvent) : Decidable (OneFlight s e) :=
  inferInstanceAs (Decidable (_ ∧ _))

variable {cfg : DaemonConfig} {s : Daemon} {tid : ℕ} {k : Str}

theorem waiting_of_not_beside (hs : s.Wf)
    (h : s.syncsBesideWaiting tid = false) (hc : (s.key k).threads tid = .putRefused watch)
    (hput : (s.key k).puts tid ≠ none) (hover : (s.key k).overtaken watch = false)
    (hland : (s.key k).queue.inFlight = false) : (s.key k).queue.waiting = none := by
  obtain ⟨p, hsome⟩ := ne_none_iff_exists'.mp hput
  obtain ⟨hp, rfl⟩ := puts_key_iff.mp hsome
  have hcontrol : s.control tid = .putRefused watch := Control.eq_of_onKey hc (by simp)
  have htaken := (takeWatched_key (k := p.key) hs hcontrol hp).1 rfl
  have hinFlight : s.uploads.inFlight p.key = false := hland
  rw [syncsBesideWaiting, hcontrol, hp] at h
  simp only [htaken, hover, hinFlight, Bool.not_false, Bool.true_and] at h
  exact isNone_iff_eq_none.mp (isSome_eq_false_iff.mp h)

/-- Once nothing of a key that was put waits or is in flight and every put of it has replied, the
bucket has the value of a put that was not over before another one of the key came. -/
theorem bucket_not_overwritten (hdisk : cfg.diskEnabled = false) (hs3 : cfg.s3Writable = true)
    {journalled : Bool} {maxHeldBytes : ℕ} {disk bucket : Str → Option Str}
    {events : List DaemonEvent} {t : Daemon}
    (hrun : StepMachine.Run (step cfg) OneFlight (start journalled maxHeldBytes disk bucket)
      events t)
    (hidle : t.uploads.waiting k = none ∧ t.uploads.inFlight k = false)
    (hreplied : ∀ tid p, t.puts tid = some p → p.key = k → p.replied ≠ none)
    (hput : ∃ tid p, t.puts tid = some p ∧ p.key = k) :
    ∃ tid p, t.puts tid = some p ∧ p.key = k ∧ t.bucket k = some p.value ∧
      ∀ tid' q, t.puts tid' = some q → q.key = k → ¬ p.Before q := by
  have hwritable : cfg.diskWritable = false := by
    rw [DaemonConfig.diskWritable, hdisk]
    rfl
  have hstart : ((start journalled maxHeldBytes disk bucket).key k).NoneFailed :=
    fun tid => congrArg Control.hasFailed (threads_idle rfl)
  obtain ⟨-, hputs, hordered⟩ :
      (t.key k).NoneFailed ∧ (t.key k).PutThreads ∧ (t.key k).Ordered := by
    refine run_key (fun s => s.NoneFailed ∧ s.PutThreads ∧ s.Ordered) ?_ hrun (start_wf ..)
      ⟨hstart, ordered_start ..⟩
    intro d e d' hwf hok _ h hs
    have hnone : ∀ {tid c}, (d.key k).threads tid = c → c.hasFailed = false := by
      rintro tid c rfl
      exact hs.1 tid
    refine ⟨noneFailed_step hok.1 h hs.1, ordered_step hwritable hs3 ?_ ?_ ?_ h hs.2⟩
    · rintro tid watch rfl hc hover hland
      exact waiting_of_not_beside hwf hok.2 hc ((hs.2.1 tid).owned (by rw [hc]; rfl)) hover hland
    · intro tid item _ hc
      cases hnone hc
    · intro tid gen _ hc
      cases hnone hc
  -- A refused put has not replied.
  have hover : ¬ (t.key k).Pending := by
    rintro ⟨tid, watch, hc, -⟩
    obtain ⟨p, hp⟩ := ne_none_iff_exists'.mp ((hputs tid).owned (by rw [hc]; rfl))
    have hrecorded := hputs.recorded_of hc hp
    obtain ⟨hp, hk⟩ := puts_key_iff.mp hp
    exact hreplied tid p hp hk hrecorded.2
  have hqueued : ∀ tid p, (t.key k).puts tid = some p → p.queued ≠ none := by
    intro tid p hp
    obtain ⟨hsome, hk⟩ := puts_key_iff.mp hp
    exact ((hputs tid).recorded p hp).queued (hreplied tid p hsome hk)
  rcases hordered.idle hidle.1 hidle.2 hover with hnone | ⟨value, hvalue, tid, p, hp, rfl, hlast⟩
  · obtain ⟨tid, p, hp, hk⟩ := hput
    have hp := puts_key_iff.mpr ⟨hp, hk⟩
    exact absurd (hnone tid p hp) (hqueued tid p hp)
  · obtain ⟨hsome, hk⟩ := puts_key_iff.mp hp
    refine ⟨tid, p, hsome, hk, hvalue, ?_⟩
    intro tid' q hq hqk
    have hq := puts_key_iff.mpr ⟨hq, hqk⟩
    exact hlast tid' q hq (hqueued tid' q hq)

def offerPut (tid : ℕ) (value : String) : List DaemonEvent :=
  [.startPut tid "k".toList value.toList, .putDisk tid true, .putEnqueue tid]

def memoryDaemon : Daemon := start false 3 (fun _ => none) (fun _ => none)

/-- `C` takes the place of `B` in the queue. `NNNN` comes while `C` goes up, does not fit and goes
up after it. -/
def supersededThenRefused : List DaemonEvent :=
  offerPut 0 "B" ++ [.putReply 0] ++ offerPut 1 "C" ++ [.putReply 1, .take 10 0, .load 10] ++
    offerPut 2 "NNNN" ++ [.send 10 true 0, .settle 10, .putRetry 2, .putUpload 2 true, .putFinish 2,
    .putReply 2]

theorem bucket_not_overwritten_refused : ∃ t,
    StepMachine.Run (step ⟨false, false, true, true⟩) OneFlight memoryDaemon supersededThenRefused
      t ∧
    ∃ tid p, t.puts tid = some p ∧ p.key = "k".toList ∧ t.bucket "k".toList = some p.value ∧
      ∀ tid' q, t.puts tid' = some q → q.key = "k".toList → ¬ p.Before q := by
  have hrun : StepMachine.Run (step ⟨false, false, true, true⟩) OneFlight memoryDaemon
      supersededThenRefused _ := StepMachine.run_of_exec (some_get rfl).symm
  refine ⟨_, hrun, bucket_not_overwritten rfl rfl hrun ⟨rfl, rfl⟩ ?_ ⟨0, _, rfl, rfl⟩⟩
  intro tid p hp _
  match tid with
  | 0 | 1 | 2 =>
    cases hp
    simp
  | tid + 3 => cases hp

/-- `AAAA` does not fit. `B` is queued and has its reply before `N` comes. `AAAA` goes up while
`B` waits, a worker takes `B` as well, and `N` is queued and uploaded before `B` gets there. -/
def overtakenUploads : List DaemonEvent :=
  offerPut 0 "AAAA" ++ offerPut 1 "B" ++ [.putReply 1, .putRetry 0, .take 10 0, .load 10,
    .putUpload 0 true, .putFinish 0, .putReply 0] ++ offerPut 2 "N" ++ [.putReply 2, .take 11 0,
    .load 11, .send 11 true 0, .settle 11, .send 10 true 0, .settle 10]

/-- Nothing waits or is in flight and all three puts have replied, `B` before `N` came. The
bucket has `B`. -/
theorem bucket_overwritten_by_older :
    (StepMachine.exec (step ⟨false, false, true, true⟩) (fun _ e => e.s3Fails = false) memoryDaemon
      overtakenUploads).map (fun t => (t.uploads.order, t.uploads.inFlight "k".toList)) =
        some ([], false) ∧
    (StepMachine.exec (step ⟨false, false, true, true⟩) (fun _ e => e.s3Fails = false) memoryDaemon
      overtakenUploads).map (fun t => ((t.puts 0).map (·.replied), (t.puts 1).map (·.replied),
        (t.puts 2).map (fun p => (p.started, p.replied)))) =
        some (some (some (12, true)), some (some (6, true)), some (13, some (16, true))) ∧
    (StepMachine.exec (step ⟨false, false, true, true⟩) (fun _ e => e.s3Fails = false) memoryDaemon
      overtakenUploads).map (fun t => ((t.puts 1).map (·.value), t.bucket "k".toList)) =
        some (some "B".toList, some "B".toList) :=
  ⟨rfl, rfl, rfl⟩

end Daemon

end Vcache

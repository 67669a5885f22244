import Vcache.DiskConvergence

/-!
# A key and its marker

A put that has its value on disk leaves a marker of its key when it queues it, and
the flight that has uploaded the newest value takes the marker away. The disk never
has an older value than the last put that wrote it, so a worker that reads it after a
put has queued the key uploads that put's value or a later one. A put that comes in
between counts the key's stores up, and then the flight leaves the marker.
-/

namespace Vcache

open Option Function

variable {p : PutRecord} {item : UploadItem}

theorem Control.of_get {c : Control} (hc : c.isGet = true ∨ c = .done) :
    c.offDisk = false ∧ (∀ item, ¬ c.Carries item) ∧ c.isPut = false := by
  refine ⟨?_, ?_, ?_⟩
  · rcases hc with hc | rfl
    · cases c <;> first | rfl | cases hc
    · rfl
  · rintro item (rfl | ⟨_, rfl⟩ | ⟨_, rfl⟩) <;> rcases hc with hc | hc <;> cases hc
  · rcases hc with hc | rfl
    · cases c <;> first | rfl | cases hc
    · rfl

/-! ## The records of the puts -/

/-- What a put's record has at some points of the put. -/
def Control.Notes (c : Control) (p : PutRecord) : Prop :=
  match c with
  | .putArrived => p.written = none ∧ p.queued = none
  | .putDisked true => p.written ≠ none
  | .putLeaving _ => p.queued ≠ none
  | _ => True

/-- The record of a put whose thread is there. -/
structure PutRecord.At (p : PutRecord) (c : Control) (clock : ℕ) : Prop where
  notes : c.Notes p
  past : ∀ t, p.written = some t → t < clock
  written : p.queued ≠ none → p.written ≠ none
  replied : p.replied ≠ none → p.queued ≠ none

theorem PutRecord.At.later {c : Control} {clock : ℕ} (h : p.At c clock) : p.At c (clock + 1) :=
  { h with past := fun t ht => (h.past t ht).trans (Nat.lt_succ_self _) }

def PutsRecorded (puts : ℕ → Option PutRecord) (threads : ℕ → Control) (clock : ℕ) : Prop :=
  ∀ tid p, puts tid = some p → p.At (threads tid) clock

namespace PutsRecorded

variable {puts : ℕ → Option PutRecord} {threads : ℕ → Control} {clock tid : ℕ} {c : Control}

theorem notes_of (hs : PutsRecorded puts threads clock) (hc : threads tid = c)
    (hp : puts tid = some p) : c.Notes p := hc ▸ (hs tid p hp).notes

/-- A thread goes where it has no put. -/
theorem move (hs : PutsRecorded puts threads clock) (hc : c.isPut = false) :
    PutsRecorded puts (update threads tid c) (clock + 1) := by
  intro t q hq
  by_cases ht : t = tid
  · rw [ht, update_self]
    refine { (hs t q hq).later with notes := ?_ }
    cases c <;> trivial
  · rw [update_of_ne ht]
    exact (hs t q hq).later

/-- A put goes on with a new record. -/
theorem set (hs : PutsRecorded puts threads clock) (h : p.At c (clock + 1)) :
    PutsRecorded (update puts tid (some p)) (update threads tid c) (clock + 1) := by
  intro t q hq
  by_cases ht : t = tid
  · rw [ht, update_self] at hq ⊢
    cases hq
    exact h
  · rw [update_of_ne ht] at hq ⊢
    exact (hs t q hq).later

end PutsRecorded

/-! ## What a marker covers -/

namespace KeyState

variable {s s' : KeyState} {tid t : ℕ} {c : Control} {marked : Bool}

/-- The value is of a put that wrote the disk at that time or later. -/
def CoveredBy (s : KeyState) (value : Option Str) (written : Option ℕ) : Prop :=
  ∃ tid q, s.puts tid = some q ∧ value = some q.value ∧
    ∃ t t', written = some t ∧ q.written = some t' ∧ t ≤ t'

def CoversQueued (s : KeyState) (value : Option Str) : Prop :=
  ∀ tid p, s.puts tid = some p → p.queued ≠ none → s.CoveredBy value p.written

def CoversWritten (s : KeyState) (value : Option Str) : Prop :=
  ∀ tid p, s.puts tid = some p → p.written ≠ none → s.CoveredBy value p.written

/-- No put is lost or written again. -/
def ValuesKept (s s' : KeyState) : Prop :=
  ∀ tid q, s.puts tid = some q → ∃ q', s'.puts tid = some q' ∧ q'.value = q.value ∧
    (q.written ≠ none → q'.written = q.written)

/-- No put is lost or written again, and none is queued. -/
structure PutsGrow (s s' : KeyState) : Prop where
  kept : s.ValuesKept s'
  queued : ∀ tid p', s'.puts tid = some p' → p'.queued ≠ none →
    ∃ p, s.puts tid = some p ∧ p.queued ≠ none ∧ p.written = p'.written

theorem PutsGrow.of_eq (h : s'.puts = s.puts) : s.PutsGrow s' := by
  refine ⟨?_, ?_⟩
  · intro t q hq
    exact ⟨q, by rw [h, hq], rfl, fun _ => rfl⟩
  · intro t p hp hqueued
    rw [h] at hp
    exact ⟨p, hp, hqueued, rfl⟩

theorem CoveredBy.grow {value : Option Str} {written : Option ℕ}
    (hkept : s.ValuesKept s') (h : s.CoveredBy value written) : s'.CoveredBy value written := by
  obtain ⟨t, q, hq, rfl, n, n', hn, hn', hle⟩ := h
  obtain ⟨q', hq', hvalue, hwritten⟩ := hkept t q hq
  refine ⟨t, q', hq', by rw [hvalue], n, n', hn, ?_, hle⟩
  rw [hwritten (by rw [hn']; exact some_ne_none _), hn']

theorem CoversQueued.grow {value : Option Str} (h : s.CoversQueued value) (hgrow : s.PutsGrow s') :
    s'.CoversQueued value := by
  intro t p' hp' hqueued
  obtain ⟨p, hp, hbefore, hsame⟩ := hgrow.queued t p' hp' hqueued
  rw [← hsame]
  exact (h t p hp hbefore).grow hgrow.kept

theorem CoversQueued.of_none (h : s.CoversQueued none) (value : Option Str) :
    s.CoversQueued value := by
  intro t p hp hqueued
  obtain ⟨_, _, _, hvalue, _⟩ := h t p hp hqueued
  cases hvalue

/-- Whether the key has a marker after the event. -/
def marker (s : KeyState) (marked : Bool) : DaemonEvent → Bool
  | .putEnqueue tid =>
    match s.threads tid with
    | .putDisked true => true
    | _ => marked
  | .settle tid =>
    match s.threads tid with
    | .sent item outcome =>
      if outcome ≠ .retry ∧ s.queue.generation = some item.generation then false else marked
    | _ => marked
  | _ => marked

/-- What holds of a key and its marker. -/
structure Journalled (s : KeyState) (marked : Bool) : Prop where
  flights : DiskFlights s.queue s.threads
  records : PutsRecorded s.puts s.threads s.clock
  disk : s.CoversWritten s.disk
  loaded : ∀ tid item blob, s.threads tid = .loaded item blob →
    s.queue.generation = some item.generation → s.CoversQueued blob
  sent : ∀ tid item outcome, s.threads tid = .sent item outcome →
    outcome = .uploaded ∨ outcome = .skipped →
    s.queue.generation = some item.generation → s.CoversQueued s.bucket
  active : s.queue.waiting ≠ none ∨ s.queue.inFlight = true → marked = true
  settled : marked = false → s.CoversQueued s.bucket

/-- A step that no flight takes part in and that does not queue the key. -/
theorem Journalled.keep (hs : s.Journalled marked) (hqueue : s'.queue = s.queue)
    (hbucket : s'.bucket = s.bucket) (hflights : DiskFlights s'.queue s'.threads)
    (hrecords : PutsRecorded s'.puts s'.threads s'.clock) (hgrow : s.PutsGrow s')
    (hdisk : s'.CoversWritten s'.disk)
    (hthreads : ∀ t item, (s'.threads t).Carries item → s'.threads t = s.threads t) :
    s'.Journalled marked := by
  refine ⟨hflights, hrecords, hdisk, ?_, ?_, ?_, ?_⟩
  · intro t item blob h hgen
    have hbefore := hthreads t item (.inr (.inl ⟨blob, h⟩))
    exact (hs.loaded t item blob (hbefore ▸ h) (hqueue ▸ hgen)).grow hgrow
  · intro t item outcome h houtcome hgen
    have hbefore := hthreads t item (.inr (.inr ⟨outcome, h⟩))
    rw [hbucket]
    exact (hs.sent t item outcome (hbefore ▸ h) houtcome (hqueue ▸ hgen)).grow hgrow
  · rw [hqueue]
    exact hs.active
  · intro hnone
    rw [hbucket]
    exact (hs.settled hnone).grow hgrow

theorem Journalled.keep_goto (hs : s.Journalled marked) {u : KeyState} (hqueue : u.queue = s.queue)
    (hbucket : u.bucket = s.bucket) (hthreads : u.threads = s.threads)
    (hoff : c.offDisk = false) (hcarries : ∀ item, ¬ c.Carries item)
    (hrecords : PutsRecorded u.puts (update s.threads tid c) (u.clock + 1))
    (hgrow : s.PutsGrow u) (hdisk : u.CoversWritten u.disk) : (u.goto tid c).Journalled marked := by
  have hafter : (u.goto tid c).threads = update s.threads tid c := by
    rw [← hthreads]
    rfl
  refine hs.keep hqueue hbucket ?_ ?_ ⟨hgrow.kept, hgrow.queued⟩ hdisk ?_
  · rw [hafter, show (u.goto tid c).queue = s.queue from hqueue]
    exact hs.flights.move hoff hcarries
  · rw [hafter]
    exact hrecords
  · intro t item h
    rw [hafter] at h ⊢
    exact update_of_ne (carries_of_update h (hcarries item)).1 ..

theorem Journalled.keep_get (hs : s.Journalled marked) {u : KeyState}
    (hu : u.queue = s.queue ∧ u.disk = s.disk ∧ u.bucket = s.bucket ∧ u.puts = s.puts ∧
      u.threads = s.threads ∧ u.clock = s.clock)
    (hoff : c.offDisk = false) (hcarries : ∀ item, ¬ c.Carries item) (hput : c.isPut = false) :
    (u.goto tid c).Journalled marked := by
  obtain ⟨hqueue, hdisk, hbucket, hputs, hthreads, hclock⟩ := hu
  have hgrow : s.PutsGrow u := .of_eq hputs
  refine hs.keep_goto hqueue hbucket hthreads hoff hcarries ?_ hgrow ?_
  · rw [hputs, hclock]
    exact hs.records.move hput
  · intro t p hp hwritten
    rw [hputs] at hp
    rw [hdisk]
    exact (hs.disk t p hp hwritten).grow hgrow.kept

theorem Journalled.tick (hs : s.Journalled marked) (nextId failed : ℕ) :
    { s with
      nextRefusalId := nextId
      uploadsFailed := failed
      clock := s.clock + 1 }.Journalled marked :=
  hs.keep rfl rfl hs.flights (fun t p hp => (hs.records t p hp).later) (.of_eq rfl) hs.disk
    (fun _ _ _ => rfl)

/-- A marker too many does no harm. -/
theorem Journalled.mark (hs : s.Journalled marked) : s.Journalled true :=
  ⟨hs.flights, hs.records, hs.disk, hs.loaded, hs.sent, fun _ => rfl, fun h => by cases h⟩

/-- Only the end of a flight takes the marker away. -/
theorem marker_of_idle (marked : Bool) {e : DaemonEvent}
    (hidle : ∀ tid, e = .settle tid → s.threads tid = .idle) :
    s.marker marked e = marked ∨ s.marker marked e = true := by
  cases e with
  | putEnqueue tid =>
    rw [marker]
    split
    · exact .inr rfl
    · exact .inl rfl
  | settle tid =>
    rw [marker, hidle tid rfl]
    exact .inl rfl
  | _ => exact .inl rfl

theorem valuesKept_setPut (h : ∀ q, s.puts tid = some q → p.value = q.value ∧
      (q.written ≠ none → p.written = q.written)) : s.ValuesKept (s.setPut tid p) := by
  intro t q hq
  by_cases ht : t = tid
  · subst ht
    exact ⟨p, update_self .., h q hq⟩
  · exact ⟨q, (update_of_ne ht ..).trans hq, rfl, fun _ => rfl⟩

theorem putsGrow_setPut (hkept : s.ValuesKept (s.setPut tid p))
    (hqueued : p.queued ≠ none → ∃ q, s.puts tid = some q ∧ q.queued ≠ none ∧
      q.written = p.written) : s.PutsGrow (s.setPut tid p) := by
  refine ⟨hkept, fun t q hq hqueue => ?_⟩
  by_cases ht : t = tid
  · subst ht
    have hself : (s.setPut t p).puts t = some p := update_self ..
    cases hself.symm.trans hq
    exact hqueued hqueue
  · exact ⟨q, (update_of_ne ht ..).symm.trans hq, hqueue, rfl⟩

/-- The disk covers what it did when no other put has its value there. -/
theorem CoversWritten.setPut {value : Option Str} (h : s.CoversWritten value)
    (hkept : s.ValuesKept (s.setPut tid p))
    (hp : p.written ≠ none → ∃ q, s.puts tid = some q ∧ q.written = p.written) :
    (s.setPut tid p).CoversWritten value := by
  intro t q hq hwritten
  by_cases ht : t = tid
  · subst ht
    have hself : (s.setPut t p).puts t = some p := update_self ..
    cases hself.symm.trans hq
    obtain ⟨before, hbefore, hsame⟩ := hp hwritten
    rw [← hsame] at hwritten ⊢
    exact (h t before hbefore hwritten).grow hkept
  · exact (h t q ((update_of_ne ht ..).symm.trans hq) hwritten).grow hkept

theorem Journalled.startPut (hs : s.Journalled marked) (k value : Str) (hp : s.puts tid = none) :
    ((s.setPut tid ⟨k, value, s.clock, none, none, none⟩).goto tid .putArrived).Journalled
      marked := by
  have hgrow : s.PutsGrow (s.setPut tid ⟨k, value, s.clock, none, none, none⟩) := by
    refine putsGrow_setPut (valuesKept_setPut (fun q hq => ?_)) (fun h => absurd rfl h)
    rw [hp] at hq
    cases hq
  exact hs.keep_goto rfl rfl rfl rfl (Control.not_carries_of_isPut rfl)
    (hs.records.set ⟨⟨rfl, rfl⟩, nofun, fun h => absurd rfl h, fun h => absurd rfl h⟩) hgrow
    (hs.disk.setPut hgrow.kept (fun h => absurd rfl h))

/-- A put writes the disk: its value is the newest there is. -/
theorem Journalled.putOnDisk (hs : s.Journalled marked)
    (hc : s.threads tid = .putArrived) (hp : s.puts tid = some p) :
    (({ s with disk := some p.value }.setPut tid { p with written := some s.clock }).goto tid
      (.putDisked true)).Journalled marked := by
  obtain ⟨hwritten, hqueued⟩ := hs.records.notes_of hc hp
  have hgrow : s.PutsGrow (s.setPut tid { p with written := some s.clock }) := by
    refine putsGrow_setPut (valuesKept_setPut (fun q hq => ?_)) (fun h => absurd hqueued h)
    cases hp.symm.trans hq
    exact ⟨rfl, fun h => absurd hwritten h⟩
  refine hs.keep_goto rfl rfl rfl rfl (Control.not_carries_of_isPut rfl) (hs.records.set ?_)
    ⟨hgrow.kept, hgrow.queued⟩ ?_
  · refine ⟨some_ne_none _, ?_, fun h => absurd hqueued h, (hs.records tid p hp).replied⟩
    rintro _ ⟨⟩
    exact Nat.lt_succ_self _
  · intro t q hq hwritten'
    have hself : update s.puts tid (some { p with written := some s.clock }) tid =
      some { p with written := some s.clock } := update_self ..
    refine ⟨tid, { p with written := some s.clock }, hself, rfl, ?_⟩
    obtain ⟨n, hn⟩ := ne_none_iff_exists'.mp hwritten'
    refine ⟨n, s.clock, hn, rfl, ?_⟩
    have hq : update s.puts tid (some { p with written := some s.clock }) t = some q := hq
    by_cases ht : t = tid
    · rw [ht, hself] at hq
      cases hq
      exact (some.inj hn).ge
    · rw [update_of_ne ht] at hq
      exact ((hs.records t q hq).past n hn).le

theorem Journalled.putReply (hs : s.Journalled marked) {stored : Bool}
    (hc : s.threads tid = .putLeaving stored) (hp : s.puts tid = some p) :
    ((s.setPut tid { p with replied := some (s.clock, stored) }).goto tid .done).Journalled
      marked := by
  have hgrow : s.PutsGrow (s.setPut tid { p with replied := some (s.clock, stored) }) := by
    refine putsGrow_setPut (valuesKept_setPut (fun q hq => ?_)) (fun h => ⟨p, hp, h, rfl⟩)
    cases hp.symm.trans hq
    exact ⟨rfl, fun _ => rfl⟩
  have hat := (hs.records tid p hp).later
  have hqueued : p.queued ≠ none := hs.records.notes_of hc hp
  exact hs.keep_goto rfl rfl rfl rfl (Control.not_carries_of_isGet rfl)
    (hs.records.set ⟨trivial, hat.past, hat.written, fun _ => hqueued⟩) hgrow
    (hs.disk.setPut hgrow.kept (fun h => ⟨p, hp, rfl⟩))

/-- The put queues its key and leaves its marker. A flight there is has an older count. -/
theorem Journalled.queueOnDisk (hs : s.Journalled marked) (k : Str)
    (hc : s.threads tid = .putDisked true) (hp : s.puts tid = some p) :
    (((s.accept k none).setPut tid { p with queued := some s.clock }).goto tid
      (.putLeaving true)).Journalled true := by
  have hcarries := Control.not_carries_of_isPut (c := .putLeaving true) rfl
  have hwritten : p.written ≠ none := hs.records.notes_of hc hp
  have hkept : s.ValuesKept (s.setPut tid { p with queued := some s.clock }) := by
    refine valuesKept_setPut (fun q hq => ?_)
    cases hp.symm.trans hq
    exact ⟨rfl, fun _ => rfl⟩
  refine ⟨(hs.flights.accept k).move rfl hcarries,
    hs.records.set ⟨some_ne_none _, (hs.records tid p hp).later.past, fun _ => hwritten,
      fun _ => some_ne_none _⟩, hs.disk.setPut hkept (fun _ => ⟨p, hp, rfl⟩), ?_, ?_,
    fun _ => rfl, ?_⟩
  · intro t item blob h hgen
    have hloaded : s.threads t = .loaded item blob := (threads_of_goto h (by simp)).2
    exact absurd hgen (hs.flights.nextGeneration_ne (.inr (.inl ⟨blob, hloaded⟩)))
  · intro t item outcome h _ hgen
    have hsent : s.threads t = .sent item outcome := (threads_of_goto h (by simp)).2
    exact absurd hgen (hs.flights.nextGeneration_ne (.inr (.inr ⟨outcome, hsent⟩)))
  · intro h
    cases h

theorem Journalled.take (hs : s.Journalled marked)
    (hitem : s.queue.waiting = some item) (tid flightId : ℕ) :
    ({ s with queue := { s.queue.takeOff flightId with waiting := none } }.goto tid
      (.took item)).Journalled marked := by
  have hmarked : marked = true := hs.active (.inl (by rw [hitem]; exact some_ne_none _))
  refine ⟨hs.flights.take hitem tid flightId, hs.records.move rfl, hs.disk, ?_, ?_,
    fun _ => hmarked, hs.settled⟩
  · intro t item' blob h
    have hloaded : s.threads t = .loaded item' blob := (threads_of_goto h (by simp)).2
    exact absurd (.inr (.inl ⟨blob, hloaded⟩)) (hs.flights.not_carries hitem t item')
  · intro t item' outcome h
    have hsent : s.threads t = .sent item' outcome := (threads_of_goto h (by simp)).2
    exact absurd (.inr (.inr ⟨outcome, hsent⟩)) (hs.flights.not_carries hitem t item')

theorem Journalled.advance (hs : s.Journalled marked) {item' : UploadItem}
    (bucket : Option Str) (hbefore : (s.threads tid).Carries item) (hafter : c.Carries item')
    (hgen : item'.generation = item.generation) (hblob : item'.blob = item.blob)
    (hput : c.isPut = false) (hloaded : ∀ blob, c = .loaded item' blob → s.CoversQueued blob)
    (hsent : ∀ outcome, c = .sent item' outcome → outcome = .uploaded ∨ outcome = .skipped →
      s.queue.generation = some item'.generation → s.CoversQueued bucket) :
    ({ s with bucket }.goto tid c).Journalled marked := by
  have hmarked : marked = true := hs.active (.inr (hs.flights.flight tid item hbefore).1)
  refine ⟨hs.flights.advance hbefore hafter hgen hblob, hs.records.move hput, hs.disk, ?_, ?_,
    fun _ => hmarked, ?_⟩
  · intro t i blob h _
    have h : update s.threads tid c t = .loaded i blob := h
    obtain ⟨rfl, rfl⟩ := hs.flights.carries_of_advance hbefore hafter (t := t) (i := i)
      (.inr (.inl ⟨blob, h⟩))
    rw [update_self] at h
    exact hloaded blob h
  · intro t i outcome h houtcome hcurrent
    have h : update s.threads tid c t = .sent i outcome := h
    obtain ⟨rfl, rfl⟩ := hs.flights.carries_of_advance hbefore hafter (t := t) (i := i)
      (.inr (.inr ⟨outcome, h⟩))
    rw [update_self] at h
    exact hsent outcome h houtcome hcurrent
  · intro hnone
    rw [hmarked] at hnone
    cases hnone

/-- The worker reads what no put that has queued the key is newer than. -/
theorem Journalled.load (hs : s.Journalled marked)
    (hc : s.threads tid = .took item) : (s.goto tid (.loaded item s.disk)).Journalled marked := by
  refine hs.advance s.bucket (.inl hc) (.inr (.inl ⟨_, rfl⟩)) rfl rfl rfl ?_ ?_
  · intro blob h
    obtain rfl := (Control.loaded.inj h).2
    intro t p hp hqueued
    exact hs.disk t p hp ((hs.records t p hp).written hqueued)
  · intro outcome h
    cases h

theorem Journalled.sendNothing (hs : s.Journalled marked) (hc : s.threads tid = .loaded item none) :
    (s.goto tid (.sent item .skipped)).Journalled marked := by
  refine hs.advance s.bucket (.inr (.inl ⟨_, hc⟩)) (.inr (.inr ⟨_, rfl⟩)) rfl rfl rfl ?_ ?_
  · intro blob h
    cases h
  · intro outcome _ _ hgen
    exact (hs.loaded tid item none hc hgen).of_none s.bucket

theorem Journalled.sendUploaded (hs : s.Journalled marked) {blob : Str}
    (hc : s.threads tid = .loaded item (some blob)) :
    ({ s with bucket := some blob }.goto tid (.sent item .uploaded)).Journalled marked := by
  refine hs.advance _ (.inr (.inl ⟨_, hc⟩)) (.inr (.inr ⟨_, rfl⟩)) rfl rfl rfl ?_ ?_
  · intro blob' h
    cases h
  · intro outcome _ _ hgen
    exact hs.loaded tid item _ hc hgen

theorem Journalled.sendFailed (hs : s.Journalled marked) {blob : Option Str}
    (hc : s.threads tid = .loaded item blob) (attempts wait : ℕ) {outcome : UploadOutcome}
    (houtcome : outcome = .failed ∨ outcome = .retry) :
    (s.goto tid (.sent { item with attempts, notBefore := wait } outcome)).Journalled marked := by
  have hafter : (Control.sent { item with attempts, notBefore := wait } outcome).Carries
      { item with attempts, notBefore := wait } := .inr (.inr ⟨_, rfl⟩)
  refine hs.advance s.bucket (.inr (.inl ⟨_, hc⟩)) hafter rfl rfl rfl ?_ ?_
  · intro blob' h
    cases h
  · intro outcome' h hup
    obtain rfl := (Control.sent.inj h).2
    rcases houtcome with rfl | rfl <;> rcases hup with hup | hup <;> cases hup

/-- The flight ends. Its marker goes only when the bucket covers every queued put. -/
theorem Journalled.land (hs : s.Journalled marked) {queue : KeyQueue}
    {after : Bool} (failed : ℕ) (hbefore : (s.threads tid).Carries item)
    (hflights : DiskFlights queue (update s.threads tid .idle))
    (hactive : queue.waiting ≠ none ∨ queue.inFlight = true → after = true)
    (hsettled : after = false → s.CoversQueued s.bucket) :
    ({ s with queue, uploadsFailed := failed }.goto tid .idle).Journalled after := by
  refine ⟨hflights, hs.records.move rfl, hs.disk, ?_, ?_, hactive, hsettled⟩
  · intro t i blob h
    exact absurd (.inr (.inl ⟨blob, h⟩)) (hs.flights.not_carries_landed hbefore t i)
  · intro t i outcome h
    exact absurd (.inr (.inr ⟨outcome, h⟩)) (hs.flights.not_carries_landed hbefore t i)

theorem Journalled.queueBack (hs : s.Journalled marked) {again : UploadItem} (failed : ℕ)
    (hbefore : (s.threads tid).Carries item) (hblob : again.blob = none)
    (hgen : s.queue.generation = some again.generation) :
    ({ s with queue := s.queue.queueBack again, uploadsFailed := failed }.goto tid
      .idle).Journalled marked := by
  have hmarked : marked = true := hs.active (.inr (hs.flights.flight tid item hbefore).1)
  refine hs.land failed hbefore ?_ (fun _ => hmarked) hs.settled
  refine hs.flights.land hbefore hs.flights.superseded hs.flights.held ?_
  intro queued h
  cases h
  exact ⟨rfl, hblob, hgen⟩

theorem Journalled.settleRetry (hs : s.Journalled marked) (hc : s.threads tid = .sent item .retry) :
    ({ s with queue := s.queue.requeue item }.goto tid .idle).Journalled marked := by
  have hbefore : (s.threads tid).Carries item := .inr (.inr ⟨_, hc⟩)
  obtain ⟨-, hblob, gen, hgen, -⟩ := hs.flights.flight tid item hbefore
  obtain ⟨again, hagain, hnone, hsame⟩ := hs.flights.requeue_eq hgen hblob
  rw [hagain]
  exact hs.queueBack s.uploadsFailed hbefore hnone (by rw [hsame, hgen])

theorem Journalled.settle (hs : s.Journalled marked) {outcome : UploadOutcome}
    (failed : ℕ) (hc : s.threads tid = .sent item outcome)
    (houtcome : outcome = .uploaded ∨ outcome = .skipped) :
    ({ s with queue := s.queue.finish item, uploadsFailed := failed }.goto tid .idle).Journalled
      (s.marker marked (.settle tid)) := by
  have hbefore : (s.threads tid).Carries item := .inr (.inr ⟨_, hc⟩)
  have hretry : outcome ≠ .retry := by
    rcases houtcome with rfl | rfl <;> simp
  obtain ⟨-, -, gen, hgen, -⟩ := hs.flights.flight tid item hbefore
  simp only [marker, hc]
  by_cases hsame : gen = item.generation
  · subst hsame
    rw [if_pos ⟨hretry, hgen⟩, hs.flights.finish_newest hgen]
    refine hs.land failed hbefore ?_ ?_ (fun _ => hs.sent tid item outcome hc houtcome hgen)
    · refine hs.flights.land hbefore rfl rfl ?_
      intro queued h
      have h : s.queue.waiting = some queued := h
      rw [hs.flights.waiting_none hbefore] at h
      cases h
    · rintro (h | h)
      · exact absurd (hs.flights.waiting_none hbefore) h
      · cases h
  · have hne : ¬ (outcome ≠ .retry ∧ s.queue.generation = some item.generation) := by
      rintro ⟨-, h⟩
      exact hsame (some.inj (hgen.symm.trans h))
    rw [if_neg hne, hs.flights.finish_older hgen hsame]
    exact hs.queueBack failed hbefore rfl hgen

end KeyState

open KeyState in
theorem journalled_step {cfg : DaemonConfig} (hdisk : cfg.diskWritable = true)
    (hs3 : cfg.s3Writable = true) {k : Str} {d : Daemon} {s s' : KeyState} {e : DaemonEvent}
    {marked : Bool} (hd : d.key k = s) (hok : DiskTakesPuts d e)
    (hkept : ∀ tid item, e = .settle tid → s.threads tid ≠ .sent item .failed)
    (hidle : ∀ tid, e = .settle tid → s'.threads tid = .idle)
    (h : KeyStep cfg k s e s') (hs : s.Journalled marked) : s'.Journalled (s.marker marked e) := by
  have henabled : cfg.diskEnabled = true := by
    rw [DaemonConfig.diskWritable] at hdisk
    exact (Bool.and_eq_true_iff.mp hdisk).1
  have hoff : ∀ {tid c}, s.threads tid = c → c.offDisk = false := by
    rintro tid c rfl
    exact hs.flights.onDisk tid
  have hkeep : ∀ {u : KeyState} {tid : ℕ} {c : Control},
      (u.queue = s.queue ∧ u.disk = s.disk ∧ u.bucket = s.bucket ∧ u.puts = s.puts ∧
        u.threads = s.threads ∧ u.clock = s.clock) → c.isGet = true ∨ c = .done →
      (u.goto tid c).Journalled marked := by
    intro u tid c hu hc
    obtain ⟨hoff, hcarries, hput⟩ := Control.of_get hc
    exact hs.keep_get hu hoff hcarries hput
  cases h with
  | other _ nextId failed =>
    rcases marker_of_idle (s := s) marked hidle with heq | heq
    · rw [heq]
      exact hs.tick nextId failed
    · rw [heq]
      exact (hs.tick nextId failed).mark
  | startPut tid value hc hp => exact hs.startPut k value hp
  | putOnDisk tid p hc hp _ => exact hs.putOnDisk hc hp
  | putNoDisk tid ok hc hdisk' =>
    have hok : ok = true := hok
    rw [hdisk, hok] at hdisk'
    cases hdisk'
  | putSkip tid onDisk hc hs3' =>
    rw [hs3] at hs3'
    cases hs3'
  | queueOnDisk tid p hc hp _ =>
    simp only [marker, hc]
    exact hs.queueOnDisk k hc hp
  | queueHeld tid p hc | queueRefused tid p hc | retryOvertaken tid watch hc
  | retrySync tid watch _ hc | retryWatch tid watch hc | retryLost tid watch hc
  | putUpload tid ok p gen hc | putFinish tid gen ok hc => cases hoff hc
  | putReply tid stored p hc hp => exact hs.putReply hc hp
  | take tid now item flightId hc hp hitem hkey => exact hs.take hitem tid flightId
  | load tid item hc =>
    have hblob := (hs.flights.flight tid item (.inl hc)).2.1
    simp only [hblob, henabled, if_true]
    exact hs.load hc
  | sendNothing tid now ok item hc => exact hs.sendNothing hc
  | sendUploaded tid now item blob hc => exact hs.sendUploaded hc
  | sendFailed tid now item blob attempts wait outcome houtcome hc =>
    exact hs.sendFailed hc attempts wait houtcome
  | settleRetry tid item hc =>
    simp only [marker, hc]
    exact hs.settleRetry hc
  | settle tid item outcome hc houtcome =>
    refine hs.settle _ hc ?_
    cases outcome with
    | skipped => exact .inr rfl
    | uploaded => exact .inl rfl
    | failed => exact absurd hc (hkept tid item rfl)
    | retry => exact absurd rfl houtcome
  | getBackfill tid ok value g hc =>
    obtain rfl := fetched_eq_none hd hc hok
    exact hkeep ⟨rfl, rfl, rfl, rfl, rfl, rfl⟩ (.inl rfl)
  | getHeldMiss tid hc =>
    exact hkeep ⟨rfl, rfl, rfl, rfl, rfl, rfl⟩ (.inl (by split <;> rfl))
  | getReply tid value g hc => exact hkeep ⟨rfl, rfl, rfl, rfl, rfl, rfl⟩ (.inr rfl)
  | _ => exact hkeep ⟨rfl, rfl, rfl, rfl, rfl, rfl⟩ (.inl rfl)

end Vcache

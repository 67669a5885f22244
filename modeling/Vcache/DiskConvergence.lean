import Vcache.KeySteps

/-!
# The bucket follows the disk

A daemon with a writable disk queues keys without their values, and a worker reads
the disk when it uploads. A value read before a newer one was written is uploaded
under an old count of stores, and the flight then queues the key again. So when
nothing of a key is left to upload, the bucket has what the disk has, except while a
put has written the disk and has not yet queued the key.
-/

namespace Vcache

open Option Function

/-- The thread is neither between the parts of a put nor has a flight. -/
def Control.isQuiet : Control → Bool
  | .putDisked _ | .putRefused _ | .putSyncing _ | .putSynced _ _
  | .took _ | .loaded _ _ | .sent _ _ => false
  | _ => true

/-! ## Flights without values -/

def Control.offDisk : Control → Bool
  | .putDisked false | .putRefused _ | .putSyncing _ | .putSynced _ _ => true
  | _ => false

theorem Control.Carries.offDisk {c : Control} {item : UploadItem} (h : c.Carries item) :
    c.offDisk = false ∧ c.isQuiet = false := by
  rcases h with rfl | ⟨_, rfl⟩ | ⟨_, rfl⟩ <;> exact ⟨rfl, rfl⟩

/-- The queue and the threads of a key that is only ever queued without its value. -/
structure DiskFlights (queue : KeyQueue) (threads : ℕ → Control) : Prop where
  superseded : queue.superseded = false
  held : queue.held = none
  onDisk : ∀ tid, (threads tid).offDisk = false
  waiting : ∀ item, queue.waiting = some item → queue.inFlight = false ∧ item.blob = none ∧
    queue.generation = some item.generation
  flight : ∀ tid item, (threads tid).Carries item → queue.inFlight = true ∧ item.blob = none ∧
    ∃ gen, queue.generation = some gen ∧ item.generation ≤ gen
  single : ∀ t t' item item', (threads t).Carries item → (threads t').Carries item' → t = t'

namespace DiskFlights

variable {queue : KeyQueue} {threads : ℕ → Control} {tid t : ℕ} {c : Control} {item : UploadItem}

section

variable (hs : DiskFlights queue threads)

include hs

theorem offDisk_update (hc : c.offDisk = false) (t : ℕ) :
    (update threads tid c t).offDisk = false := by
  by_cases ht : t = tid
  · rw [ht, update_self]
    exact hc
  · rw [update_of_ne ht]
    exact hs.onDisk t

/-- Only threads that are quiet may be elsewhere. -/
theorem quiet {threads' : ℕ → Control}
    (h : ∀ t, (threads' t).isQuiet = false → threads t = threads' t) :
    DiskFlights queue threads' := by
  have hcarries : ∀ t item, (threads' t).Carries item → (threads t).Carries item := by
    intro t item hitem
    rw [h t hitem.offDisk.2]
    exact hitem
  refine ⟨hs.superseded, hs.held, fun t => ?_, hs.waiting,
    fun t item hitem => hs.flight t item (hcarries t item hitem),
    fun t t' item item' hi hi' => hs.single t t' item item' (hcarries t item hi)
      (hcarries t' item' hi')⟩
  by_contra hoff
  have hbusy : (threads' t).isQuiet = false := by
    cases hc : threads' t <;> rw [hc] at hoff <;> first | rfl | exact absurd rfl hoff
  exact hoff (h t hbusy ▸ hs.onDisk t)

/-- A thread goes where it has no flight. -/
theorem move (hc : c.offDisk = false)
    (hcarries : ∀ item, ¬ c.Carries item) : DiskFlights queue (update threads tid c) := by
  refine ⟨hs.superseded, hs.held, hs.offDisk_update hc, hs.waiting, ?_, ?_⟩
  · intro t item h
    exact hs.flight t item (carries_of_update h (hcarries item)).2
  · intro t t' item item' h h'
    exact hs.single t t' item item' (carries_of_update h (hcarries item)).2
      (carries_of_update h' (hcarries item')).2

theorem waiting_none (h : (threads t).Carries item) :
    queue.waiting = none := by
  by_contra hsome
  obtain ⟨queued, hqueued⟩ := ne_none_iff_exists'.mp hsome
  have hlanded := (hs.waiting queued hqueued).1
  rw [(hs.flight t item h).1] at hlanded
  cases hlanded

theorem nextGeneration_ne (h : (threads t).Carries item) :
    some queue.nextGeneration ≠ some item.generation := by
  intro heq
  obtain ⟨-, -, gen, hgen, hle⟩ := hs.flight t item h
  have heq := some.inj heq
  rw [KeyQueue.nextGeneration, hgen, getD_some] at heq
  omega

theorem accept (k : Str) :
    DiskFlights (queue.accept k none) threads := by
  refine ⟨rfl, rfl, hs.onDisk, ?_, ?_, hs.single⟩
  · intro item hitem
    obtain ⟨hland, hgen, hblob⟩ :=
      KeyQueue.waiting_accept (fun queued h => (hs.waiting queued h).1) hitem
    exact ⟨hland, hblob, congrArg some hgen.symm⟩
  · intro t item h
    obtain ⟨hflight, hblob, gen, hgen, hle⟩ := hs.flight t item h
    refine ⟨hflight, hblob, queue.nextGeneration, rfl, ?_⟩
    rw [KeyQueue.nextGeneration, hgen, getD_some]
    omega

theorem not_carries (hitem : queue.waiting = some item) (t : ℕ)
    (item' : UploadItem) : ¬ (threads t).Carries item' := by
  intro h
  rw [hs.waiting_none h] at hitem
  cases hitem

theorem take (hitem : queue.waiting = some item)
    (tid flightId : ℕ) :
    DiskFlights { queue.takeOff flightId with waiting := none }
      (update threads tid (.took item)) := by
  obtain ⟨-, hblob, hgen⟩ := hs.waiting item hitem
  have hown : ∀ t item', (update threads tid (.took item) t).Carries item' →
      t = tid ∧ item' = item := by
    intro t item' h
    by_cases ht : t = tid
    · rw [ht, update_self] at h
      exact ⟨ht, h.unique (.inl rfl)⟩
    · rw [update_of_ne ht] at h
      exact absurd h (hs.not_carries hitem t item')
  refine ⟨hs.superseded, hs.held, hs.offDisk_update rfl, ?_, ?_, ?_⟩
  · intro item' h
    cases h
  · intro t item' h
    obtain ⟨-, rfl⟩ := hown t item' h
    exact ⟨rfl, hblob, _, hgen, le_rfl⟩
  · intro t t' item' item'' h h'
    exact (hown t item' h).1.trans (hown t' item'' h').1.symm

section

variable (hbefore : (threads tid).Carries item)

include hbefore

theorem carries_of_advance {item' i : UploadItem}
    (hafter : c.Carries item')
    (h : (update threads tid c t).Carries i) : t = tid ∧ i = item' := by
  by_cases ht : t = tid
  · rw [ht, update_self] at h
    exact ⟨ht, h.unique hafter⟩
  · rw [update_of_ne ht] at h
    exact absurd (hs.single t tid i item h hbefore) ht

theorem advance {item' : UploadItem}
    (hafter : c.Carries item')
    (hgen : item'.generation = item.generation) (hblob : item'.blob = item.blob) :
    DiskFlights queue (update threads tid c) := by
  obtain ⟨hflight, hnone, gen, hgeneration, hle⟩ := hs.flight tid item hbefore
  refine ⟨hs.superseded, hs.held, hs.offDisk_update hafter.offDisk.1, hs.waiting, ?_, ?_⟩
  · intro t i h
    obtain ⟨-, rfl⟩ := hs.carries_of_advance hbefore hafter h
    exact ⟨hflight, hblob.trans hnone, gen, hgeneration, hgen ▸ hle⟩
  · intro t t' i i' h h'
    exact (hs.carries_of_advance hbefore hafter h).1.trans
      (hs.carries_of_advance hbefore hafter h').1.symm

theorem not_carries_landed
    (t : ℕ) (i : UploadItem) : ¬ (update threads tid .idle t).Carries i := by
  intro h
  obtain ⟨hne, hcarries⟩ := carries_of_update h (Control.not_carries_of_isGet rfl i)
  exact hne (hs.single t tid i item hcarries hbefore)

theorem land {queue' : KeyQueue}
    (hsuperseded : queue'.superseded = false)
    (hheld : queue'.held = none)
    (hwaiting : ∀ again, queue'.waiting = some again → queue'.inFlight = false ∧
      again.blob = none ∧ queue'.generation = some again.generation) :
    DiskFlights queue' (update threads tid .idle) := by
  refine ⟨hsuperseded, hheld, hs.offDisk_update rfl, hwaiting, ?_, ?_⟩
  · intro t i h
    exact absurd h (hs.not_carries_landed hbefore t i)
  · intro t t' i i' h
    exact absurd h (hs.not_carries_landed hbefore t i)

end

/-- A flight whose store is still the newest ends with nothing left of the key. -/
theorem finish_newest
    (hgen : queue.generation = some item.generation) : queue.finish item = queue.clear := by
  rw [KeyQueue.finish, hs.superseded, hgen]
  simp

theorem finish_older {gen : ℕ}
    (hgen : queue.generation = some gen) (hne : gen ≠ item.generation) :
    queue.finish item =
      queue.queueBack { key := item.key, blob := none, generation := gen } := by
  rw [KeyQueue.finish, hs.superseded, hgen, hs.held]
  simp [hne]

theorem requeue_eq {gen : ℕ}
    (hgen : queue.generation = some gen) (hblob : item.blob = none) :
    ∃ again : UploadItem, queue.requeue item = queue.queueBack again ∧ again.blob = none ∧
      again.generation = gen := by
  rw [KeyQueue.requeue, hs.superseded, hgen, hs.held]
  by_cases hsame : gen = item.generation
  · exact ⟨item, by simp [hsame], hblob, hsame.symm⟩
  · exact ⟨{ item with generation := gen, attempts := 0, blob := none }, by simp [hsame], rfl, rfl⟩

end

end DiskFlights

/-! ## Keys whose puts go through the disk -/

namespace KeyState

variable {s s' : KeyState} {tid t : ℕ} {c : Control}

/-- Some put has its value on disk and has not queued the key. -/
def Unqueued (s : KeyState) : Prop := ∃ tid, s.threads tid = .putDisked true ∧ s.puts tid ≠ none

def NoneWritten (s : KeyState) : Prop := ∀ tid p, s.puts tid = some p → p.written = none

/-- No put is lost, and none gets its value on disk. -/
def PutsKept (s s' : KeyState) : Prop :=
  (s.NoneWritten → s'.NoneWritten) ∧ ∀ tid, s.puts tid ≠ none → s'.puts tid ≠ none

theorem PutsKept.rfl : s.PutsKept s := ⟨id, fun _ => id⟩

theorem putsKept_setPut {p : PutRecord} (hp : s.NoneWritten → p.written = none) :
    s.PutsKept (s.setPut tid p) := by
  have hself : (s.setPut tid p).puts tid = some p := update_self ..
  refine ⟨?_, ?_⟩
  · intro hs t r hr
    by_cases ht : t = tid
    · subst ht
      cases hself.symm.trans hr
      exact hp hs
    · exact hs t r ((update_of_ne ht ..).symm.trans hr)
  · intro t hsome
    by_cases ht : t = tid
    · rw [ht, hself]
      exact some_ne_none p
    · exact fun hnone => hsome ((update_of_ne ht ..).symm.trans hnone)

/-- The value is on disk, or the flight that has it is not the last of the key. -/
def Follows (s : KeyState) (value : Option Str) (item : UploadItem) : Prop :=
  value = s.disk ∨ s.queue.generation ≠ some item.generation ∨ s.Unqueued

/-- What holds of a key whose puts all go through the disk. -/
structure DiskBacked (s : KeyState) : Prop where
  flights : DiskFlights s.queue s.threads
  waiting : s.queue.waiting ≠ none → s.disk ≠ none
  busy : ∀ tid, (s.threads tid).isQuiet = false → s.disk ≠ none
  loaded : ∀ tid item blob, s.threads tid = .loaded item blob → blob ≠ none ∧ s.Follows blob item
  sent : ∀ tid item outcome, s.threads tid = .sent item outcome → outcome ≠ .skipped ∧
    (outcome = .uploaded → s.Follows s.bucket item)
  idle : s.queue.waiting = none → s.queue.inFlight = false → s.uploadsFailed = 0 →
    s.NoneWritten ∨ s.bucket = s.disk ∨ s.Unqueued

theorem DiskBacked.quiet (hs : s.DiskBacked) (hqueue : s'.queue = s.queue)
    (hdisk : s'.disk = s.disk) (hbucket : s'.bucket = s.bucket)
    (hfailed : s.uploadsFailed ≤ s'.uploadsFailed) (hputs : s.PutsKept s')
    (hthreads : ∀ t c, c.isQuiet = false → (s'.threads t = c ↔ s.threads t = c)) :
    s'.DiskBacked := by
  have hunqueued : s.Unqueued → s'.Unqueued := by
    rintro ⟨t, ht, hp⟩
    exact ⟨t, (hthreads t _ rfl).mpr ht, hputs.2 t hp⟩
  have hfollows : ∀ value item, s.Follows value item → s'.Follows value item := by
    intro value item h
    rw [Follows, hqueue, hdisk]
    exact h.imp_right (Or.imp_right hunqueued)
  refine ⟨?_, ?_, ?_, ?_, ?_, ?_⟩
  · rw [hqueue]
    exact hs.flights.quiet (fun t h => (hthreads t _ h).mp rfl)
  · rw [hqueue, hdisk]
    exact hs.waiting
  · intro t h
    rw [hdisk]
    exact hs.busy t (by rwa [(hthreads t _ h).mp rfl])
  · intro t item blob h
    exact (hs.loaded t item blob ((hthreads t _ rfl).mp h)).imp_right (hfollows blob item)
  · intro t item outcome h
    obtain ⟨hne, hsent⟩ := hs.sent t item outcome ((hthreads t _ rfl).mp h)
    exact ⟨hne, fun heq => hbucket ▸ hfollows _ item (hsent heq)⟩
  · rw [hqueue, hdisk, hbucket]
    intro hwaiting hflight hzero
    rcases hs.idle hwaiting hflight (by omega) with h | h | h
    · exact .inl (hputs.1 h)
    · exact .inr (.inl h)
    · exact .inr (.inr (hunqueued h))

theorem threads_quiet {before : Control} (hthread : s.threads tid = before)
    (hbefore : before.isQuiet = true) (hc : c.isQuiet = true) (t : ℕ) (c' : Control)
    (hc' : c'.isQuiet = false) : (s.goto tid c).threads t = c' ↔ s.threads t = c' := by
  rw [threads_goto]
  by_cases ht : t = tid
  · subst ht
    rw [if_pos rfl, hthread]
    constructor
    · rintro rfl
      rw [hc] at hc'
      cases hc'
    · rintro rfl
      rw [hbefore] at hc'
      cases hc'
  · rw [if_neg ht]

theorem DiskBacked.quiet_goto (hs : s.DiskBacked) {u : KeyState} {before : Control}
    (hu : u.queue = s.queue ∧ u.disk = s.disk ∧ u.bucket = s.bucket ∧
      u.uploadsFailed = s.uploadsFailed ∧ u.threads = s.threads)
    (hputs : s.PutsKept u) (hthread : s.threads tid = before)
    (hbefore : before.isQuiet = true) (hc : c.isQuiet = true) : (u.goto tid c).DiskBacked := by
  obtain ⟨hqueue, hdisk, hbucket, hfailed, hthreads⟩ := hu
  refine hs.quiet hqueue hdisk hbucket hfailed.ge hputs (fun t c' hc' => ?_)
  rw [← hthreads]
  exact threads_quiet (hthreads ▸ hthread) hbefore hc t c' hc'

/-- A put writes the disk: what was read or uploaded before may be old, and the key is not
queued yet. -/
theorem DiskBacked.putOnDisk (hs : s.DiskBacked) (tid : ℕ) (p : PutRecord) :
    (({ s with disk := some p.value }.setPut tid { p with written := some s.clock }).goto tid
      (.putDisked true)).DiskBacked := by
  have hunqueued : (({ s with disk := some p.value }.setPut tid
      { p with written := some s.clock }).goto tid (.putDisked true)).Unqueued :=
    ⟨tid, update_self .., by
      rw [show KeyState.puts _ tid = some _ from update_self ..]
      exact some_ne_none _⟩
  refine ⟨hs.flights.move rfl (Control.not_carries_of_isPut rfl), fun _ => some_ne_none _,
    fun _ _ => some_ne_none _, ?_, ?_, fun _ _ _ => .inr (.inr hunqueued)⟩
  · intro t item blob h
    exact ⟨(hs.loaded t item blob (threads_of_goto h (by simp)).2).1, .inr (.inr hunqueued)⟩
  · intro t item outcome h
    exact ⟨(hs.sent t item outcome (threads_of_goto h (by simp)).2).1,
      fun _ => .inr (.inr hunqueued)⟩

/-- The key is queued, or the flight it is on gets a newer count of stores. -/
theorem DiskBacked.queueOnDisk (hs : s.DiskBacked) (hdisk : s.disk ≠ none) (tid : ℕ) (k : Str)
    (p : PutRecord) :
    (((s.accept k none).setPut tid p).goto tid (.putLeaving true)).DiskBacked := by
  refine ⟨(hs.flights.accept k).move rfl (Control.not_carries_of_isPut rfl), fun _ => hdisk,
    fun _ _ => hdisk, ?_, ?_, ?_⟩
  · intro t item blob h
    have hloaded : s.threads t = .loaded item blob := (threads_of_goto h (by simp)).2
    exact ⟨(hs.loaded t item blob hloaded).1,
      .inr (.inl (hs.flights.nextGeneration_ne (.inr (.inl ⟨blob, hloaded⟩))))⟩
  · intro t item outcome h
    have hsent : s.threads t = .sent item outcome := (threads_of_goto h (by simp)).2
    exact ⟨(hs.sent t item outcome hsent).1,
      fun _ => .inr (.inl (hs.flights.nextGeneration_ne (.inr (.inr ⟨_, hsent⟩))))⟩
  · intro hwaiting hflight
    exact absurd hwaiting (KeyQueue.waiting_accept_ne (v := s.queue) hflight k none)

theorem DiskBacked.take (hs : s.DiskBacked) {item : UploadItem}
    (hitem : s.queue.waiting = some item) (tid flightId : ℕ) :
    ({ s with queue := { s.queue.takeOff flightId with waiting := none } }.goto tid
      (.took item)).DiskBacked := by
  have hnone := hs.flights.not_carries hitem
  have hdisk : s.disk ≠ none := hs.waiting (hitem ▸ some_ne_none _)
  refine ⟨hs.flights.take hitem tid flightId, fun _ => hdisk, fun _ _ => hdisk, ?_, ?_, nofun⟩
  · intro t item' blob h
    exact absurd (.inr (.inl ⟨blob, (threads_of_goto h (by simp)).2⟩)) (hnone t item')
  · intro t item' outcome h
    exact absurd (.inr (.inr ⟨_, (threads_of_goto h (by simp)).2⟩)) (hnone t item')

/-- The thread of a flight is not that of a put that has still to queue the key. -/
theorem Unqueued.leave {item : UploadItem} (h : s.Unqueued) (hbefore : (s.threads tid).Carries item)
    (hthreads : s'.threads = update s.threads tid c) (hputs : s'.puts = s.puts) : s'.Unqueued := by
  obtain ⟨t, ht, hp⟩ := h
  refine ⟨t, ?_, hputs ▸ hp⟩
  rw [hthreads, update_of_ne]
  · exact ht
  · rintro rfl
    exact hbefore.not_put.1 true ht

theorem DiskBacked.advance (hs : s.DiskBacked) {item item' : UploadItem} (bucket : Option Str)
    (hbefore : (s.threads tid).Carries item) (hafter : c.Carries item')
    (hgen : item'.generation = item.generation) (hblob : item'.blob = item.blob)
    (hloaded : ∀ blob, c = .loaded item' blob → blob ≠ none ∧ blob = s.disk)
    (hsent : ∀ outcome, c = .sent item' outcome → outcome ≠ .skipped ∧
      (outcome = .uploaded → s.Follows bucket item')) :
    ({ s with bucket }.goto tid c).DiskBacked := by
  have hdisk := hs.busy tid hbefore.offDisk.2
  -- No other thread has a flight.
  have hown : ∀ t i c', c'.Carries i → ({ s with bucket }.goto tid c).threads t = c' →
      i = item' ∧ c = c' := by
    rintro t i c' hi rfl
    obtain ⟨rfl, rfl⟩ := hs.flights.carries_of_advance hbefore hafter hi
    exact ⟨rfl, by rw [threads_goto, if_pos rfl]⟩
  refine ⟨hs.flights.advance hbefore hafter hgen hblob, fun _ => hdisk, fun _ _ => hdisk, ?_, ?_,
    ?_⟩
  · intro t i blob h
    obtain ⟨rfl, hc⟩ := hown t i _ (.inr (.inl ⟨_, rfl⟩)) h
    exact (hloaded blob hc).imp_right .inl
  · intro t i outcome h
    obtain ⟨rfl, hc⟩ := hown t i _ (.inr (.inr ⟨_, rfl⟩)) h
    refine (hsent outcome hc).imp_right (fun h heq => ?_)
    exact (h heq).imp_right (Or.imp_right (·.leave hbefore rfl rfl))
  · intro _ hlanded
    cases (hs.flights.flight tid item hbefore).1.symm.trans hlanded

/-- The thread of a flight ends it: the key is queued again with the count of its newest store,
or nothing is left of it. -/
theorem DiskBacked.landed (hs : s.DiskBacked) {item : UploadItem} {queue : KeyQueue} (failed : ℕ)
    (hbefore : (s.threads tid).Carries item) (hsuperseded : queue.superseded = false)
    (hheld : queue.held = none)
    (hqueue : (∃ again, queue.waiting = some again ∧ queue.inFlight = false ∧
      again.blob = none ∧ queue.generation = some again.generation) ∨ queue.waiting = none ∧
      (failed = 0 → s.bucket = s.disk ∨ s.Unqueued)) :
    ({ s with queue, uploadsFailed := failed }.goto tid .idle).DiskBacked := by
  have hnone := hs.flights.not_carries_landed hbefore
  have hdisk := hs.busy tid hbefore.offDisk.2
  refine ⟨hs.flights.land hbefore hsuperseded hheld ?_, fun _ => hdisk, fun _ _ => hdisk,
    fun t i blob h => absurd (.inr (.inl ⟨blob, h⟩)) (hnone t i),
    fun t i _ h => absurd (.inr (.inr ⟨_, h⟩)) (hnone t i), ?_⟩
  · intro queued hqueued
    have hqueued : queue.waiting = some queued := hqueued
    rcases hqueue with ⟨again, hagain, hland, hblob, hgen⟩ | ⟨hnothing, -⟩
    · cases hagain.symm.trans hqueued
      exact ⟨hland, hblob, hgen⟩
    · rw [hnothing] at hqueued
      cases hqueued
  · intro hwaiting _ hzero
    have hwaiting : queue.waiting = none := hwaiting
    rcases hqueue with ⟨again, hagain, -⟩ | ⟨-, hbucket⟩
    · rw [hagain] at hwaiting
      cases hwaiting
    · exact .inr ((hbucket hzero).imp_right (·.leave hbefore rfl rfl))

theorem DiskBacked.settle (hs : s.DiskBacked) {item : UploadItem} {outcome : UploadOutcome}
    (hc : s.threads tid = .sent item outcome) (houtcome : outcome ≠ .retry) :
    ({ s with
      queue := s.queue.finish item
      uploadsFailed := s.uploadsFailed + (decide (outcome = UploadOutcome.failed)).toNat }.goto
        tid .idle).DiskBacked := by
  have hcarries : (s.threads tid).Carries item := .inr (.inr ⟨outcome, hc⟩)
  obtain ⟨-, -, gen, hgen, -⟩ := hs.flights.flight tid item hcarries
  by_cases hsame : gen = item.generation
  · subst hsame
    rw [hs.flights.finish_newest hgen]
    refine hs.landed _ hcarries rfl rfl
      (.inr ⟨hs.flights.waiting_none hcarries, fun hzero => ?_⟩)
    cases outcome with
    | skipped => exact absurd rfl (hs.sent tid item _ hc).1
    | uploaded =>
      rcases (hs.sent tid item _ hc).2 rfl with h | h | h
      · exact .inl h
      · exact absurd hgen h
      · exact .inr h
    | failed => cases hzero
    | retry => exact absurd rfl houtcome
  · rw [hs.flights.finish_older hgen hsame]
    exact hs.landed _ hcarries hs.flights.superseded hs.flights.held
      (.inl ⟨_, rfl, rfl, rfl, hgen⟩)

theorem DiskBacked.settleRetry (hs : s.DiskBacked) {item : UploadItem}
    (hc : s.threads tid = .sent item .retry) :
    ({ s with queue := s.queue.requeue item }.goto tid .idle).DiskBacked := by
  have hcarries : (s.threads tid).Carries item := .inr (.inr ⟨_, hc⟩)
  obtain ⟨-, hblob, gen, hgen, -⟩ := hs.flights.flight tid item hcarries
  obtain ⟨again, hagain, hnone, hsame⟩ := hs.flights.requeue_eq hgen hblob
  rw [hagain]
  exact hs.landed s.uploadsFailed hcarries hs.flights.superseded hs.flights.held
    (.inl ⟨again, rfl, rfl, hnone, by rw [hsame]; exact hgen⟩)

end KeyState

/-- The disk takes every put, and no get writes what it fetched to it. -/
def DiskTakesPuts (s : Daemon) : DaemonEvent → Prop
  | .putDisk _ ok => ok = true
  | .getBackfill tid _ => s.control tid = .getFetched none
  | _ => True

instance (s : Daemon) (e : DaemonEvent) : Decidable (DiskTakesPuts s e) :=
  match e with
  | .putDisk _ ok => inferInstanceAs (Decidable (ok = true))
  | .getBackfill tid _ => inferInstanceAs (Decidable (s.control tid = .getFetched none))
  | .startPut .. | .putEnqueue _ | .putRetry _ | .putUpload .. | .putFinish _ | .putReply _
  | .take .. | .load _ | .send .. | .settle _ | .startGet .. | .getDisk _ | .getHeld _
  | .getFetch _ | .getJoin _ | .getTimeout _ | .getS3 _ | .getDone _ | .getReply _ =>
    inferInstanceAs (Decidable True)

theorem fetched_eq_none {k : Str} {d : Daemon} {s : KeyState} {tid : ℕ} {ok : Bool}
    {value : Option Str} (hd : d.key k = s) (hc : s.threads tid = .getFetched value)
    (hok : DiskTakesPuts d (.getBackfill tid ok)) : value = none := by
  subst hd
  have hcontrol : d.control tid = .getFetched value := Control.eq_of_onKey hc (by simp)
  exact Control.getFetched.inj (hcontrol.symm.trans hok)

open KeyState in
theorem diskBacked_step {cfg : DaemonConfig} (hdisk : cfg.diskWritable = true)
    (hs3 : cfg.s3Writable = true) {k : Str} {d : Daemon} {s s' : KeyState} {e : DaemonEvent}
    (hd : d.key k = s) (hok : DiskTakesPuts d e) (h : KeyStep cfg k s e s') (hs : s.DiskBacked) :
    s'.DiskBacked := by
  have henabled : cfg.diskEnabled = true := by
    rw [DaemonConfig.diskWritable] at hdisk
    exact (Bool.and_eq_true_iff.mp hdisk).1
  have hoff : ∀ {tid c}, s.threads tid = c → c.offDisk = false := by
    rintro tid c rfl
    exact hs.flights.onDisk tid
  cases h with
  | other _ _ failed _ hfailed =>
    exact hs.quiet rfl rfl rfl hfailed .rfl (fun _ _ _ => Iff.rfl)
  | startPut tid value hc hp =>
    exact hs.quiet_goto ⟨rfl, rfl, rfl, rfl, rfl⟩ (putsKept_setPut (fun _ => rfl)) hc rfl rfl
  | putOnDisk tid p hc hp _ => exact hs.putOnDisk tid p
  | putNoDisk tid ok hc hdisk' =>
    have hok : ok = true := hok
    rw [hdisk, hok] at hdisk'
    cases hdisk'
  | putSkip tid onDisk hc hs3' =>
    rw [hs3] at hs3'
    cases hs3'
  | queueOnDisk tid p hc hp _ => exact hs.queueOnDisk (hs.busy tid (by rw [hc]; rfl)) tid k _
  | queueHeld tid p hc | queueRefused tid p hc | retryOvertaken tid watch hc
  | retrySync tid watch _ hc | retryWatch tid watch hc | retryLost tid watch hc
  | putUpload tid ok p gen hc | putFinish tid gen ok hc => cases hoff hc
  | putReply tid stored p hc hp =>
    refine hs.quiet_goto ⟨rfl, rfl, rfl, rfl, rfl⟩ (putsKept_setPut (fun hnone => ?_)) hc rfl rfl
    exact hnone tid p hp
  | take tid now item flightId hc hp hitem hkey => exact hs.take hitem tid flightId
  | load tid item hc =>
    have hcarries : (s.threads tid).Carries item := .inl hc
    obtain ⟨-, hblob, -⟩ := hs.flights.flight tid item hcarries
    simp only [hblob, henabled, if_true]
    refine hs.advance s.bucket hcarries (.inr (.inl ⟨_, rfl⟩)) rfl rfl ?_ (by simp)
    rintro blob heq
    obtain rfl := (Control.loaded.inj heq).2
    exact ⟨hs.busy tid hcarries.offDisk.2, rfl⟩
  | sendNothing tid now ok item hc => exact absurd rfl (hs.loaded tid item none hc).1
  | sendUploaded tid now item blob hc =>
    have hloaded := (hs.loaded tid item _ hc).2
    refine hs.advance _ (.inr (.inl ⟨_, hc⟩)) (.inr (.inr ⟨_, rfl⟩)) rfl rfl (by simp) ?_
    rintro _ ⟨⟩
    exact ⟨nofun, fun _ => hloaded⟩
  | sendFailed tid now item blob attempts wait outcome houtcome hc =>
    have hafter : (Control.sent { item with attempts, notBefore := wait } outcome).Carries
        { item with attempts, notBefore := wait } := .inr (.inr ⟨_, rfl⟩)
    refine hs.advance s.bucket (.inr (.inl ⟨_, hc⟩)) hafter rfl rfl (by simp) ?_
    rintro _ ⟨⟩
    rcases houtcome with rfl | rfl <;> exact ⟨by simp, by simp⟩
  | settleRetry tid item hc => exact hs.settleRetry hc
  | settle tid item outcome hc houtcome => exact hs.settle hc houtcome
  | getBackfill tid ok value g hc =>
    obtain rfl := fetched_eq_none hd hc hok
    exact hs.quiet_goto ⟨rfl, rfl, rfl, rfl, rfl⟩ .rfl hc rfl rfl
  | getHeldMiss tid hc =>
    exact hs.quiet_goto ⟨rfl, rfl, rfl, rfl, rfl⟩ .rfl hc rfl (by split <;> rfl)
  | _ => exact hs.quiet_goto ⟨rfl, rfl, rfl, rfl, rfl⟩ .rfl (by assumption) rfl rfl

theorem diskBacked_start (journalled : Bool) (maxHeldBytes : ℕ) (disk bucket : Str → Option Str)
    (k : Str) : ((Daemon.start journalled maxHeldBytes disk bucket).key k).DiskBacked := by
  have hidle : ∀ tid, ((Daemon.start journalled maxHeldBytes disk bucket).key k).threads tid =
      .idle := fun tid => Daemon.threads_idle rfl
  have hnone : ∀ tid item, ¬ (((Daemon.start journalled maxHeldBytes disk bucket).key
      k).threads tid).Carries item := by
    intro tid item
    rw [hidle]
    exact Control.not_carries_of_isGet rfl item
  refine ⟨⟨rfl, rfl, fun tid => by rw [hidle]; rfl, nofun,
      fun tid item h => absurd h (hnone tid item),
      fun t _ item _ h => absurd h (hnone t item)⟩, nofun, ?_,
    fun tid item _ h => absurd (.inr (.inl ⟨_, h⟩)) (hnone tid item),
    fun tid item _ h => absurd (.inr (.inr ⟨_, h⟩)) (hnone tid item),
    fun _ _ _ => .inl (fun tid p h => nomatch h)⟩
  intro tid h
  rw [hidle] at h
  cases h

/-- When nothing of a key waits or is in flight and no upload was given up, a key that was put
has the same value in the bucket as on disk, unless a put of it has still to queue it. -/
theorem bucket_eq_disk_of_idle {cfg : DaemonConfig} (hdisk : cfg.diskWritable = true)
    (hs3 : cfg.s3Writable = true) {journalled : Bool} {maxHeldBytes : ℕ}
    {disk bucket : Str → Option Str} {events : List DaemonEvent} {t : Daemon}
    (hrun : StepMachine.Run (Daemon.step cfg) DiskTakesPuts
      (Daemon.start journalled maxHeldBytes disk bucket) events t)
    {k : Str} (hidle : t.uploads.waiting k = none ∧ t.uploads.inFlight k = false)
    (hfailed : t.uploadsFailed = 0)
    (hput : ∃ tid p, t.puts tid = some p ∧ p.key = k ∧ p.written ≠ none)
    (hqueued : ∀ tid p, t.puts tid = some p → p.key = k → t.control tid ≠ .putDisked true) :
    t.bucket k = t.disk k := by
  have hinv : (t.key k).DiskBacked :=
    Daemon.run_key KeyState.DiskBacked
      (fun _ _ _ _ hok _ h hs => diskBacked_step hdisk hs3 rfl hok h hs) hrun (Daemon.start_wf ..)
      (diskBacked_start ..)
  rcases hinv.idle hidle.1 hidle.2 hfailed with hnone | heq | ⟨tid, hthread, hsome⟩
  · obtain ⟨tid, p, hp, rfl, hwritten⟩ := hput
    exact absurd (hnone tid p (Daemon.puts_key_iff.mpr ⟨hp, rfl⟩)) hwritten
  · exact heq
  · obtain ⟨p, hp⟩ := ne_none_iff_exists'.mp hsome
    obtain ⟨hp, hk⟩ := Daemon.puts_key_iff.mp hp
    exact absurd (Control.eq_of_onKey hthread (by simp)) (hqueued tid p hp hk)

/-- A daemon with a disk and a bucket, both writable and empty, after these events. -/
def diskDaemonAfter (events : List DaemonEvent) : Option Daemon :=
  StepMachine.exec (Daemon.step ⟨true, false, true, true⟩) DiskTakesPuts
    (Daemon.start true 0 (fun _ => none) (fun _ => none)) events

def putOnDisk (tid : ℕ) (value : String) : List DaemonEvent :=
  [.startPut tid "k".toList value.toList, .putDisk tid true, .putEnqueue tid, .putReply tid]

def putAndUpload (value : String) : List DaemonEvent :=
  putOnDisk 0 value ++ [.take 1 0, .load 1, .send 1 true 0, .settle 1]

/-- A second put while the first is uploaded. -/
def putDuringUpload : List DaemonEvent :=
  putOnDisk 0 "a" ++ [.take 1 0, .load 1] ++ putOnDisk 2 "b" ++
    [.send 1 true 0, .settle 1, .take 1 0, .load 1, .send 1 true 0, .settle 1]

theorem bucket_eq_disk_after_upload :
    ((diskDaemonAfter putDuringUpload).get rfl).bucket "k".toList =
      ((diskDaemonAfter putDuringUpload).get rfl).disk "k".toList := by
  refine bucket_eq_disk_of_idle rfl rfl (StepMachine.run_of_exec (some_get _).symm)
    ⟨rfl, rfl⟩ rfl ⟨0, _, rfl, rfl, nofun⟩ ?_
  intro tid p hp _
  match tid with
  | 0 => nofun
  | 1 => nofun
  | 2 => nofun
  | tid + 3 => cases hp

/-- A second put has written the disk and has not queued the key: nothing waits, nothing is in
flight, the upload there was succeeded, and the bucket is behind. -/
theorem bucket_behind_disk_before_queued :
    (diskDaemonAfter (putAndUpload "a" ++
      [.startPut 2 "k".toList "b".toList, .putDisk 2 true])).map (fun t =>
        (t.uploads.order, t.uploads.inFlight "k".toList, t.uploadsFailed)) = some ([], false, 0) ∧
    (diskDaemonAfter (putAndUpload "a" ++
      [.startPut 2 "k".toList "b".toList, .putDisk 2 true])).map (fun t =>
        (t.bucket "k".toList, t.disk "k".toList)) = some (some "a".toList, some "b".toList) := by
  decide

/-- Uploads of one key from the disk do not overlap, and no value is held in memory for them. -/
theorem disk_uploads_exclusive {cfg : DaemonConfig} (hdisk : cfg.diskWritable = true)
    (hs3 : cfg.s3Writable = true) {journalled : Bool} {maxHeldBytes : ℕ}
    {disk bucket : Str → Option Str} {events : List DaemonEvent} {t : Daemon}
    (hrun : StepMachine.Run (Daemon.step cfg) DiskTakesPuts
      (Daemon.start journalled maxHeldBytes disk bucket) events t)
    {tid : ℕ} {item : UploadItem} (hitem : (t.control tid).Carries item) :
    t.uploads.inFlight item.key = true ∧ t.uploads.waiting item.key = none ∧
      t.uploads.held item.key = none ∧
      ∀ tid' item', (t.control tid').Carries item' → item'.key = item.key → tid' = tid := by
  have hinv : (t.key item.key).DiskBacked :=
    Daemon.run_key KeyState.DiskBacked
      (fun _ _ _ _ hok _ h hs => diskBacked_step hdisk hs3 rfl hok h hs) hrun (Daemon.start_wf ..)
      (diskBacked_start ..)
  have hon {tid' : ℕ} {item' : UploadItem} (h : (t.control tid').Carries item')
      (hkey : item'.key = item.key) : ((t.key item.key).threads tid').Carries item' := by
    rcases h with h | ⟨blob, h⟩ | ⟨outcome, h⟩ <;>
      simp [Daemon.key, Control.onKey, Control.key?, h, hkey, Control.Carries]
  have hself := hon hitem rfl
  exact ⟨(hinv.flights.flight tid item hself).1, hinv.flights.waiting_none hself,
    hinv.flights.held, fun tid' item' h hkey => hinv.flights.single _ _ _ _ (hon h hkey) hself⟩

/-- A get of another key misses everywhere while the upload is under way. -/
def getDuringUpload : List DaemonEvent :=
  (putAndUpload "a").take 6 ++ [.startGet 3 "j".toList, .getDisk 3, .getHeld 3, .getFetch 3,
    .getS3 3, .getBackfill 3 true, .getDone 3, .getReply 3]

theorem disk_uploads_exclusive_during_upload :
    ((diskDaemonAfter getDuringUpload).get rfl).uploads.inFlight "k".toList = true := by
  have hcarries : (((diskDaemonAfter getDuringUpload).get rfl).control 1).Carries
      ⟨"k".toList, none, 1, 0, 0⟩ := .inr (.inl ⟨_, rfl⟩)
  exact (disk_uploads_exclusive rfl rfl (StepMachine.run_of_exec (some_get _).symm) hcarries).1

end Vcache

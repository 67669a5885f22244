import Vcache.JournalledKeys

/-!
# The upload journal and crashes

A crash ends every thread and loses the queue. The disk, the bucket and the markers
in the pending directory stay, and the next daemon queues the keys of the markers
before it serves anyone. A run here is one of many daemons, each started where the
one before it crashed.
-/

namespace Vcache

open UploadQueue Option Function

def validKey (key : Str) : Bool :=
  !(key.length < 3 || 128 < key.length) &&
    key.all (fun c => ('0' ≤ c && c ≤ '9') || ('a' ≤ c && c ≤ 'f'))

/-- The loop of `RecoverJournal`. -/
def UploadQueue.enqueueAll (q : UploadQueue) (keys : List Str) : UploadQueue :=
  keys.foldl (fun q key => (q.enqueue key none false).2) q

namespace Daemon

/-- `RecoverJournal`, with the names of the files in the pending directory. -/
def recoverJournal (cfg : DaemonConfig) (names : List Str) (q : UploadQueue) : UploadQueue :=
  if !cfg.s3Writable || !cfg.diskEnabled then q
  else q.enqueueAll (names.filter validKey)

/-- A daemon that starts with these markers. No request comes before they are recovered. -/
def startRecovered (cfg : DaemonConfig) (names : List Str) (journalled : Bool)
    (maxHeldBytes : ℕ) (disk bucket : Str → Option Str) (journal : Str → Bool) : Daemon :=
  (start journalled maxHeldBytes disk bucket).setUploads
    (recoverJournal cfg names { journalled, maxHeldBytes, journal })

/-- The daemon that starts after a crash. The records of the puts and gets stay with it, and
their threads are gone. -/
def crash (cfg : DaemonConfig) (s : Daemon) (names : List Str) : Daemon :=
  { startRecovered cfg names s.uploads.journalled s.uploads.maxHeldBytes s.disk s.bucket
      s.uploads.journal with
    puts := s.puts
    gets := s.gets
    control := fun tid => if (s.puts tid).isSome || (s.gets tid).isSome then .done else .idle
    clock := s.clock + 1 }

/-- The upload of the thread has failed for the last time. -/
def GivesUp (s : Daemon) (e : DaemonEvent) : Prop :=
  ∃ tid item, e = .settle tid ∧ s.control tid = .sent item .failed

end Daemon

inductive HostEvent where
  | daemon (e : DaemonEvent)
  | crash (names : List Str)

def hostStep (cfg : DaemonConfig) (s : Daemon) : HostEvent → Option Daemon
  | .daemon e => s.step cfg e
  | .crash names => some (s.crash cfg names)

/-- The names are those of the markers. -/
def ListsMarkers (names : List Str) (journal : Str → Bool) : Prop :=
  ∀ k, k ∈ names ↔ journal k = true

/-- `HandlePut` answers a key that is not valid with an error. -/
def DaemonEvent.KeyAllowed (e : DaemonEvent) : Prop :=
  ∀ tid key value, e = .startPut tid key value → validKey key = true

/-- The disk takes every put, no upload is given up, and what a restart lists is what the
pending directory has. -/
def Journalling (s : Daemon) : HostEvent → Prop
  | .daemon e => DiskTakesPuts s e ∧ e.KeyAllowed ∧ ¬ s.GivesUp e
  | .crash names => ListsMarkers names s.uploads.journal

/-- The put had its value on disk no later than the other. -/
def PutRecord.WrittenUpTo (p q : PutRecord) : Prop :=
  ∃ t t', p.written = some t ∧ q.written = some t' ∧ t ≤ t'

/-- The bucket has the value of this put or of one that wrote the disk after it. -/
def Daemon.BucketHas (s : Daemon) (p : PutRecord) : Prop :=
  ∃ tid q, s.puts tid = some q ∧ q.key = p.key ∧ s.bucket p.key = some q.value ∧ p.WrittenUpTo q

/-! ## Markers -/

namespace UploadQueue

variable {q q' : UploadQueue} {key : Str} {item : UploadItem}

def markers (q : UploadQueue) : Bool × (Str → Bool) := (q.journalled, q.journal)

theorem markers_dropHeld : (q.dropHeld key).markers = q.markers := by
  rw [dropHeld]
  split
  · rfl
  · split <;> rfl

theorem markers_land : (q.land key).markers = q.markers := by
  rw [land, releaseFlightPin]
  split <;> rfl

theorem markers_removeJournal (h : q'.markers = q.markers) :
    (q'.removeJournal key).markers = (q.removeJournal key).markers := by
  have hjournalled : q'.journalled = q.journalled := congrArg Prod.fst h
  have hjournal : q'.journal = q.journal := congrArg Prod.snd h
  rw [removeJournal, removeJournal, hjournalled]
  split
  · simp only [markers, hjournal]
  · exact h

theorem markers_accept (journal : Bool) : (q.accept key none journal).2.markers =
    if journal then (q.createJournal key).markers else q.markers := by
  have hsame : ((q.countStore key).replaceHeld key none).markers = q.markers := markers_dropHeld
  obtain ⟨hjournalled, hjournal⟩ := Prod.mk.inj hsame
  have hqueue : ∀ p : UploadQueue, ∀ gen, (p.queueStore key none gen).markers = p.markers := by
    intro p gen
    rw [queueStore]
    split <;> rfl
  have hmarked : (if journal then ((q.countStore key).replaceHeld key none).createJournal key
      else (q.countStore key).replaceHeld key none).markers =
        if journal then (q.createJournal key).markers else q.markers := by
    cases journal with
    | true =>
      simp only [if_true, createJournal, hjournalled, markers, hjournal]
      split <;> simp [hjournalled, hjournal]
    | false => exact hsame
  rw [accept]
  split
  · exact hmarked
  · exact (hqueue ..).trans hmarked

theorem markers_takeReady {now : ℕ} (h : q.takeReady now = some (item, q')) :
    q'.markers = q.markers := by
  rw [takeReady] at h
  split at h
  · cases h
  · obtain ⟨queued, -, heq⟩ := map_eq_some_iff.mp h
    cases heq
    rw [pin]
    split <;> rfl

theorem markers_finish (hsuperseded : q.superseded item.key = false) {gen : ℕ}
    (hgen : q.generation item.key = some gen) : (q.finish item).2.2.markers =
      if gen = item.generation then (q.removeJournal item.key).markers else q.markers := by
  rw [finish, hsuperseded, hgen]
  by_cases hsame : gen = item.generation
  · have hforget : (((q.land item.key).eraseMarks item.key).dropHeld item.key).markers =
        q.markers := markers_dropHeld.trans markers_land
    simp only [hsame, ne_eq, not_true_eq_false, if_true, if_false, Bool.false_eq_true]
    exact markers_removeJournal hforget
  · have hland : (q.land item.key).markers = q.markers := markers_land
    simp only [hsame, ne_eq, not_false_eq_true, if_true, if_false, Bool.false_eq_true]
    exact hland

theorem markers_requeue (hsuperseded : q.superseded item.key = false) :
    (q.requeue item).2.markers = q.markers := by
  have hland : (q.land item.key).markers = q.markers := markers_land
  rw [requeue, hsuperseded]
  split
  next h => cases h
  next =>
    split
    · exact hland
    · split <;> exact hland

end UploadQueue

namespace Daemon

variable {cfg : DaemonConfig} {s s' : Daemon} {tid : ℕ} {k : Str}

def queues : DaemonEvent → Bool
  | .putEnqueue _ | .putRetry _ | .putFinish _ | .take _ _ | .settle _ => true
  | _ => false

theorem uploads_of_step {e : DaemonEvent} (he : queues e = false) (h : step cfg s e = some s') :
    s'.uploads = s.uploads := by
  cases e with
  | putEnqueue | putRetry | putFinish | take | settle => cases he
  | getJoin tid =>
    simp only [step, getJoin] at h
    split at h
    · obtain ⟨value, -, rfl⟩ := map_eq_some_iff.mp h
      rfl
    · cases h
  | _ =>
    simp only [step, putUpload, send, getBackfill, startPut, startGet, load, putReply, putDisk,
      getDisk, getHeld, getFetch, getTimeout, getS3, getDone, getReply] at h
    repeat' split at h
    all_goals first
      | cases h
        done
      | cases h
        rfl
      | cases h
        simp only [sendFailed]
        split <;> rfl

theorem threads_of_control {c : Control} {p : PutRecord} (hc : s.control tid = c)
    (hput : c.isWorker = false) (hp : s.puts tid = some p) : (s.key p.key).threads tid = c := by
  rw [threads_put hp (by rw [hc]; exact hput), if_pos rfl, hc]

theorem putEnqueue_journal (hs3 : cfg.s3Writable = true)
    (hflights : ∀ k, DiskFlights (s.key k).queue (s.key k).threads)
    (hjournalled : s.uploads.journalled = true) (h : s.putEnqueue cfg tid = some s') :
    s'.uploads.journalled = true ∧
      s'.uploads.journal k = (s.key k).marker (s.uploads.journal k) (.putEnqueue tid) := by
  rw [putEnqueue, hs3] at h
  split at h
  next onDisk p hc hp =>
    cases onDisk with
    | false =>
      have hoff := (hflights p.key).onDisk tid
      rw [threads_of_control hc rfl hp] at hoff
      cases hoff
    | true =>
      cases h
      have hmarkers : (s.enqueueOnDisk tid p).uploads.markers =
          (s.uploads.createJournal p.key).markers := markers_accept true
      rw [createJournal, if_pos hjournalled] at hmarkers
      have hthread := threads_put (k := k) hp (by rw [hc]; rfl)
      refine ⟨(congrArg Prod.fst hmarkers).trans hjournalled,
        (congrFun (congrArg Prod.snd hmarkers) k).trans ?_⟩
      rw [KeyState.marker, hthread, hc]
      by_cases hk : p.key = k
      · simp [markers, hk]
      · simp [markers, hk, Ne.symm hk]
  next => cases h

theorem threads_sent {item : UploadItem} {outcome : UploadOutcome}
    (hc : s.control tid = .sent item outcome) :
    (s.key k).threads tid = if item.key = k then .sent item outcome else .idle := by
  rw [show (s.key k).threads tid = _ from congrArg (fun c => Control.onKey k c _ _) hc]
  exact Control.onKey_sent

theorem settle_journal (hflights : ∀ k, DiskFlights (s.key k).queue (s.key k).threads)
    (hjournalled : s.uploads.journalled = true) (h : s.settle tid = some s') :
    s'.uploads.journalled = true ∧
      s'.uploads.journal k = (s.key k).marker (s.uploads.journal k) (.settle tid) := by
  revert h
  fun_cases Daemon.settle s tid <;> rintro ⟨⟩
  next item hc =>
    have hmarkers : (s.uploads.requeue item).2.markers = s.uploads.markers :=
      markers_requeue (hflights item.key).superseded
    refine ⟨(congrArg Prod.fst hmarkers).trans hjournalled, ?_⟩
    rw [KeyState.marker, threads_sent hc]
    by_cases hk : item.key = k <;> simp [hk] <;> exact congrFun (congrArg Prod.snd hmarkers) k
  next item outcome hretry hc =>
    have hown := threads_sent (k := item.key) hc
    rw [if_pos rfl] at hown
    obtain ⟨-, -, gen, hgen, -⟩ :=
      (hflights item.key).flight tid item (.inr (.inr ⟨outcome, hown⟩))
    have hmarkers : (s.uploads.finish item).2.2.markers = _ :=
      markers_finish (hflights item.key).superseded hgen
    have hgeneration : (s.key item.key).queue.generation = some gen := hgen
    have hretry : outcome ≠ .retry := fun h => hretry (by rw [h])
    have hjournal := congrFun (congrArg Prod.snd hmarkers) k
    refine ⟨(congrArg Prod.fst hmarkers).trans ?_, hjournal.trans ?_⟩
    · split <;> simp [markers, removeJournal, hjournalled]
    · rw [KeyState.marker, threads_sent hc]
      by_cases hk : item.key = k
      · subst hk
        by_cases hsame : gen = item.generation <;>
          simp [hsame, hretry, hgeneration, markers, removeJournal, hjournalled]
      · by_cases hsame : gen = item.generation <;>
          simp [hsame, hk, Ne.symm hk, markers, removeJournal, hjournalled]

theorem take_journal {now : ℕ} (hjournalled : s.uploads.journalled = true)
    (h : s.take tid now = some s') :
    s'.uploads.journalled = true ∧ s'.uploads.journal k = s.uploads.journal k := by
  rw [take] at h
  split at h
  next =>
    obtain ⟨⟨item, uploads⟩, htaken, rfl⟩ := map_eq_some_iff.mp h
    have hmarkers := markers_takeReady htaken
    exact ⟨(congrArg Prod.fst hmarkers).trans hjournalled,
      congrFun (congrArg Prod.snd hmarkers) k⟩
  next => cases h

/-- What a step does to the marker of each key. -/
theorem journal_step (hs3 : cfg.s3Writable = true)
    (hflights : ∀ k, DiskFlights (s.key k).queue (s.key k).threads)
    (hjournalled : s.uploads.journalled = true) {e : DaemonEvent} (h : step cfg s e = some s') :
    s'.uploads.journalled = true ∧
      s'.uploads.journal k = (s.key k).marker (s.uploads.journal k) e := by
  have hquiet : queues e = false → s'.uploads.journalled = true ∧
      s'.uploads.journal k = s.uploads.journal k := by
    intro he
    rw [uploads_of_step he h]
    exact ⟨hjournalled, rfl⟩
  cases e with
  | putEnqueue tid => exact putEnqueue_journal hs3 hflights hjournalled h
  | settle tid => exact settle_journal hflights hjournalled h
  | take tid now => exact take_journal hjournalled h
  | putRetry tid =>
    simp only [step, putRetry] at h
    split at h
    next watch p hc hp =>
      have hoff := (hflights p.key).onDisk tid
      rw [threads_of_control hc rfl hp] at hoff
      cases hoff
    next => cases h
  | putFinish tid =>
    simp only [step, putFinish] at h
    split at h
    next gen ok p hc hp =>
      have hoff := (hflights p.key).onDisk tid
      rw [threads_of_control hc rfl hp] at hoff
      cases hoff
    next => cases h
  | _ => exact hquiet rfl

theorem settle_idle (h : s.settle tid = some s') : (s'.key k).threads tid = .idle := by
  have hidle : s'.control tid = .idle := by
    revert h
    fun_cases Daemon.settle s tid <;> rintro ⟨⟩
    all_goals exact update_self ..
  exact threads_idle hidle

end Daemon

/-! ## Crashes -/

/-- A queue that has had nothing but keys from the journal. -/
structure KeyQueue.Recovered (v : KeyQueue) : Prop where
  superseded : v.superseded = false
  held : v.held = none
  landed : v.inFlight = false
  waiting : ∀ item, v.waiting = some item → item.blob = none ∧
    v.generation = some item.generation

theorem KeyQueue.Recovered.accept {v : KeyQueue} (hv : v.Recovered) (key : Str) :
    (v.accept key none).Recovered ∧ (v.accept key none).waiting ≠ none := by
  have hwaiting : ∃ item, (v.accept key none).waiting = some item ∧ item.blob = none ∧
      item.generation = v.nextGeneration := by
    simp only [KeyQueue.accept, hv.landed, Bool.false_eq_true, if_false]
    split
    · exact ⟨_, rfl, rfl, rfl⟩
    · exact ⟨_, rfl, rfl, rfl⟩
  obtain ⟨item, hitem, hblob, hgen⟩ := hwaiting
  refine ⟨⟨rfl, rfl, hv.landed, ?_⟩, by rw [hitem]; exact some_ne_none _⟩
  intro item' hitem'
  cases hitem.symm.trans hitem'
  exact ⟨hblob, congrArg some hgen.symm⟩

namespace UploadQueue

theorem enqueueAll_view (k : Str) (keys : List Str) (q : UploadQueue)
    (hq : (q.view k).Recovered) : ((q.enqueueAll keys).view k).Recovered ∧
      (((q.enqueueAll keys).view k).waiting ≠ none ↔ (q.view k).waiting ≠ none ∨ k ∈ keys) := by
  induction keys generalizing q with
  | nil => exact ⟨hq, by simp [enqueueAll]⟩
  | cons key keys ih =>
    have hview : (q.enqueue key none false).2.view k =
        if k = key then (q.view k).accept key none else q.view k := view_accept none false
    by_cases hk : k = key
    · rw [if_pos hk] at hview
      obtain ⟨hrec, hwaits⟩ := hq.accept key
      rw [← hview] at hrec hwaits
      obtain ⟨hfold, hiff⟩ := ih _ hrec
      refine ⟨hfold, hiff.trans ⟨fun _ => .inr (hk ▸ List.mem_cons_self), fun _ => .inl hwaits⟩⟩
    · rw [if_neg hk] at hview
      obtain ⟨hfold, hiff⟩ := ih (q.enqueue key none false).2 (hview ▸ hq)
      refine ⟨hfold, hiff.trans ?_⟩
      rw [hview, List.mem_cons]
      simp only [hk, false_or]

theorem enqueueAll_extends (keys : List Str) (q : UploadQueue) (hq : q.KeysMatch) :
    (q.enqueueAll keys).KeysMatch ∧ q.Extends (q.enqueueAll keys) := by
  induction keys generalizing q with
  | nil => exact ⟨hq, extends_of_records rfl⟩
  | cons key keys ih =>
    obtain ⟨hkeys, hext⟩ := ih _ (keysMatch_enqueue hq none false)
    exact ⟨hkeys, (extends_enqueue none false).trans hext⟩

theorem enqueueAll_markers (keys : List Str) (q : UploadQueue) :
    (q.enqueueAll keys).markers = q.markers := by
  induction keys generalizing q with
  | nil => rfl
  | cons key keys ih => exact (ih _).trans (markers_accept false)

end UploadQueue

/-- A daemon that has no thread at work and only recovered keys in its queue. -/
theorem KeyState.Journalled.restart {s : KeyState} {marked : Bool} (hqueue : s.queue.Recovered)
    (hthreads : ∀ tid, s.threads tid = .idle ∨ s.threads tid = .done)
    (hrecords : ∀ tid p, s.puts tid = some p → p.At .idle s.clock)
    (hdisk : s.CoversWritten s.disk) (hactive : s.queue.waiting ≠ none → marked = true)
    (hsettled : marked = false → s.CoversQueued s.bucket) : s.Journalled marked := by
  have hnot : ∀ tid c, s.threads tid = c → c = .idle ∨ c = .done := by
    rintro tid c rfl
    exact hthreads tid
  have hcarries : ∀ tid item, ¬ (s.threads tid).Carries item := by
    rintro tid item (h | ⟨_, h⟩ | ⟨_, h⟩) <;> rcases hnot tid _ h with h | h <;> cases h
  refine ⟨⟨hqueue.superseded, hqueue.held, ?_, ?_, fun tid item h => absurd h (hcarries tid item),
    fun t _ item _ h => absurd h (hcarries t item)⟩, ?_, hdisk,
    fun tid item _ h => absurd (.inr (.inl ⟨_, h⟩)) (hcarries tid item),
    fun tid item _ h => absurd (.inr (.inr ⟨_, h⟩)) (hcarries tid item), ?_, hsettled⟩
  · intro tid
    rcases hthreads tid with h | h <;> rw [h] <;> rfl
  · intro item hitem
    exact ⟨hqueue.landed, hqueue.waiting item hitem⟩
  · intro tid p hp
    refine { hrecords tid p hp with notes := ?_ }
    rcases hthreads tid with h | h <;> rw [h] <;> trivial
  · rintro (h | h)
    · exact hactive h
    · rw [hqueue.landed] at h
      cases h

namespace Daemon

variable {cfg : DaemonConfig} {s s' : Daemon} {k : Str}

section

variable (hdisk : cfg.diskEnabled = true) (hs3 : cfg.s3Writable = true)

include hdisk hs3

theorem recoverJournal_eq
    (names : List Str) (q : UploadQueue) : recoverJournal cfg names q =
      q.enqueueAll (names.filter validKey) := by
  rw [recoverJournal, hdisk, hs3]
  rfl

theorem recoverJournal_view
    (names : List Str) (journalled : Bool) (maxHeldBytes : ℕ) (journal : Str → Bool) (k : Str) :
    ((recoverJournal cfg names { journalled, maxHeldBytes, journal }).view k).Recovered ∧
      (((recoverJournal cfg names { journalled, maxHeldBytes, journal }).view k).waiting ≠ none ↔
        k ∈ names ∧ validKey k = true) := by
  have hfresh : (view { journalled, maxHeldBytes, journal } k).Recovered :=
    ⟨rfl, rfl, rfl, fun _ h => by cases h⟩
  obtain ⟨hrec, hiff⟩ := enqueueAll_view k (names.filter validKey) _ hfresh
  rw [recoverJournal_eq hdisk hs3]
  refine ⟨hrec, hiff.trans ?_⟩
  rw [List.mem_filter]
  exact ⟨fun h => h.resolve_left (fun hne => hne rfl), .inr⟩

theorem recoverJournal_wf
    (names : List Str) {q : UploadQueue} (hq : q.KeysMatch) :
    (recoverJournal cfg names q).KeysMatch ∧ q.Extends (recoverJournal cfg names q) := by
  rw [recoverJournal_eq hdisk hs3]
  exact enqueueAll_extends _ q hq

theorem recoverJournal_markers
    (names : List Str) (q : UploadQueue) : (recoverJournal cfg names q).markers = q.markers := by
  rw [recoverJournal_eq hdisk hs3]
  exact enqueueAll_markers _ q

structure Hosted (s : Daemon) : Prop where
  wf : s.Wf
  journalled : s.uploads.journalled = true
  keys : ∀ k, (s.key k).Journalled (s.uploads.journal k)
  valid : ∀ k tid p, (s.key k).puts tid = some p → validKey k = true

theorem hosted_startRecovered
    (maxHeldBytes : ℕ) (disk bucket : Str → Option Str) {names : List Str} {journal : Str → Bool}
    (hnames : ListsMarkers names journal) :
    (startRecovered cfg names true maxHeldBytes disk bucket journal).Hosted := by
  have hmarkers := recoverJournal_markers hdisk hs3 names
    { journalled := true, maxHeldBytes, journal }
  have hjournal := congrArg Prod.snd hmarkers
  have hempty : UploadQueue.KeysMatch { journalled := true, maxHeldBytes, journal } := by
    intro _ _ h
    cases h
  obtain ⟨hkeys, hext⟩ := recoverJournal_wf hdisk hs3 names hempty
  refine ⟨?_, congrArg Prod.fst hmarkers, ?_, ?_⟩
  · have hfresh : (Daemon.setUploads (start true maxHeldBytes disk bucket)
        { journalled := true, maxHeldBytes, journal }).Wf :=
      (start_wf true maxHeldBytes disk bucket).setUploads hempty
        (extends_of_records rfl)
    exact hfresh.setUploads hkeys hext
  · intro k
    obtain ⟨hrec, hiff⟩ := recoverJournal_view hdisk hs3 names true maxHeldBytes journal k
    refine .restart hrec (fun tid => .inl (threads_idle rfl)) nofun nofun ?_ nofun
    intro hwaits
    exact (congrFun hjournal k).trans ((hnames k).mp (hiff.mp hwaits).1)
  · intro k tid p h
    cases h

omit hdisk hs3 in
theorem crash_control (names : List Str) (tid : ℕ) :
    (s.crash cfg names).control tid = .idle ∧ s.puts tid = none ∧ s.gets tid = none ∨
      (s.crash cfg names).control tid = .done := by
  by_cases h : ((s.puts tid).isSome || (s.gets tid).isSome) = true
  · exact .inr (if_pos h)
  · refine .inl ⟨if_neg h, ?_⟩
    simpa using h

theorem crash_wf
    (names : List Str) : (s.crash cfg names).Wf := by
  have hempty : ∀ (journalled : Bool) (maxHeldBytes : ℕ) (journal : Str → Bool),
      UploadQueue.KeysMatch { journalled, maxHeldBytes, journal } := by
    intro _ _ _ _ _ h
    cases h
  obtain ⟨hkeys, hext⟩ := recoverJournal_wf hdisk hs3 names
    (hempty s.uploads.journalled s.uploads.maxHeldBytes s.uploads.journal)
  refine ⟨hkeys, ?_, fun tid => ?_, nofun, nofun⟩
  · intro id refusal h
    rcases hext.bound id refusal h with h | h
    · exact absurd rfl h
    · exact h
  · have hcontrol : _ ∨ (s.crash cfg names).control tid = .done := crash_control names tid
    rcases hcontrol with ⟨hc, hnone⟩ | hc
    · rw [hc]
      exact .of_own rfl (fun _ => hnone) nofun
    · rw [hc]
      exact .of_own rfl nofun nofun

end

theorem crash_threads (names : List Str) (k : Str) (tid : ℕ) :
    ((s.crash cfg names).key k).threads tid = .idle ∨
      ((s.crash cfg names).key k).threads tid = .done := by
  rcases crash_control names tid with ⟨hc, -⟩ | hc
  · exact .inl (threads_idle hc)
  · by_cases hkey : ((s.crash cfg names).control tid).key? (s.puts tid) (s.gets tid) = some k
    · exact .inr ((if_pos hkey).trans hc)
    · exact .inl (if_neg hkey)

/-- A crash leaves what the next daemon needs: the disk covers what was written, and a key
without a marker is covered by the bucket. -/
theorem Hosted.crash (hs : s.Hosted) (hdisk : cfg.diskEnabled = true)
    (hs3 : cfg.s3Writable = true) {names : List Str}
    (hnames : ListsMarkers names s.uploads.journal) : (s.crash cfg names).Hosted := by
  have hmarkers := recoverJournal_markers hdisk hs3 names
    { journalled := s.uploads.journalled, maxHeldBytes := s.uploads.maxHeldBytes
      journal := s.uploads.journal }
  have hjournal : (s.crash cfg names).uploads.journal = s.uploads.journal :=
    congrArg Prod.snd hmarkers
  refine ⟨crash_wf hdisk hs3 names, (congrArg Prod.fst hmarkers).trans hs.journalled, ?_, hs.valid⟩
  intro k
  have hkey := hs.keys k
  obtain ⟨hrec, hiff⟩ := recoverJournal_view hdisk hs3 names s.uploads.journalled
    s.uploads.maxHeldBytes s.uploads.journal k
  rw [hjournal]
  refine .restart hrec (crash_threads names k)
    (fun tid p hp => { (hkey.records tid p hp).later with notes := trivial }) hkey.disk ?_
    hkey.settled
  intro hwaits
  exact (hnames k).mp (hiff.mp hwaits).1

theorem valid_step {e : DaemonEvent} {u u' : KeyState} (he : e.KeyAllowed)
    (hflights : DiskFlights u.queue u.threads) (h : KeyStep cfg k u e u')
    (hs : ∀ tid p, u.puts tid = some p → validKey k = true) :
    ∀ tid p, u'.puts tid = some p → validKey k = true := by
  have hoff : ∀ {tid c}, u.threads tid = c → c.offDisk = false := by
    rintro tid c rfl
    exact hflights.onDisk tid
  cases h with
  | startPut tid value => exact fun _ _ _ => he tid k value rfl
  | putOnDisk tid p hc hp | queueOnDisk tid p hc hp | putReply tid stored p hc hp =>
    exact fun _ _ _ => hs tid p hp
  | queueHeld tid p hc | queueRefused tid p hc | retryOvertaken tid watch hc
  | retrySync tid watch _ hc | retryWatch tid watch hc | retryLost tid watch hc => cases hoff hc
  | _ => exact hs

theorem Hosted.step (hs : s.Hosted) (hdisk : cfg.diskWritable = true)
    (hs3 : cfg.s3Writable = true) {e : DaemonEvent} (hok : DiskTakesPuts s e)
    (hkey : e.KeyAllowed) (hkept : ¬ s.GivesUp e) (h : step cfg s e = some s') : s'.Hosted := by
  have hflights : ∀ k, DiskFlights (s.key k).queue (s.key k).threads := fun k => (hs.keys k).flights
  have hjournal : ∀ k, _ := fun k => journal_step (k := k) hs3 hflights hs.journalled h
  refine ⟨step_wf hs.wf h, (hjournal []).1, ?_, ?_⟩
  · intro k
    rw [(hjournal k).2]
    refine journalled_step hdisk hs3 rfl hok ?_ ?_ (step_key hs.wf h) (hs.keys k)
    · rintro tid item rfl hfailed
      exact hkept ⟨tid, item, rfl, Control.eq_of_onKey hfailed (by simp)⟩
    · rintro tid rfl
      exact settle_idle h
  · intro k
    exact valid_step hkey (hflights k) (step_key hs.wf h) (hs.valid k)

end Daemon

/-- Wherever a host crashes, a key that a put has replied for and whose value in the bucket is
older than that put's has a marker, and the next daemon queues it. -/
theorem older_bucket_recovered {cfg : DaemonConfig} (hdisk : cfg.diskWritable = true)
    (hs3 : cfg.s3Writable = true) {maxHeldBytes : ℕ} {disk bucket : Str → Option Str}
    {journal : Str → Bool} {names : List Str} (hnames : ListsMarkers names journal)
    {events : List HostEvent} {t : Daemon} (hrun : StepMachine.Run (hostStep cfg) Journalling
      (Daemon.startRecovered cfg names true maxHeldBytes disk bucket journal) events t)
    {tid : ℕ} {p : PutRecord} (hp : t.puts tid = some p) (hreplied : p.replied ≠ none)
    (holder : ¬ t.BucketHas p) :
    t.uploads.journal p.key = true ∧
      ∀ left, ListsMarkers left t.uploads.journal →
        (t.crash cfg left).uploads.waiting p.key ≠ none := by
  have henabled : cfg.diskEnabled = true := by
    rw [DaemonConfig.diskWritable] at hdisk
    exact (Bool.and_eq_true_iff.mp hdisk).1
  have hstep : ∀ s e s', hostStep cfg s e = some s' → Journalling s e → Daemon.Hosted s →
      Daemon.Hosted s' := by
    intro s e s' h hok hs
    cases e with
    | daemon e => exact hs.step hdisk hs3 hok.1 hok.2.1 hok.2.2 h
    | crash left =>
      cases h
      exact hs.crash henabled hs3 hok
  have hinv : t.Hosted := hrun.invariant hstep
    (Daemon.hosted_startRecovered henabled hs3 maxHeldBytes disk bucket hnames)
  have hput : (t.key p.key).puts tid = some p := Daemon.puts_key_iff.mpr ⟨hp, rfl⟩
  have hkey := hinv.keys p.key
  have hmarked : t.uploads.journal p.key = true := by
    by_contra hunmarked
    apply holder
    have hqueued := (hkey.records tid p hput).replied hreplied
    obtain ⟨tid', q, hq, hvalue, hwritten⟩ :=
      hkey.settled (eq_false_of_ne_true hunmarked) tid p hput hqueued
    obtain ⟨hq, hsame⟩ := Daemon.puts_key_iff.mp hq
    exact ⟨tid', q, hq, hsame, hvalue, hwritten⟩
  refine ⟨hmarked, fun left hleft => ?_⟩
  obtain ⟨-, hiff⟩ := Daemon.recoverJournal_view henabled hs3 left t.uploads.journalled
    t.uploads.maxHeldBytes t.uploads.journal p.key
  exact hiff.mpr ⟨(hleft p.key).mpr hmarked, hinv.valid p.key tid p hput⟩

/-- The daemon crashes after its one put has replied, and the next one before it uploads. -/
def crashesBeforeUpload : List HostEvent :=
  [.daemon (.startPut 0 "abc".toList "a".toList), .daemon (.putDisk 0 true),
    .daemon (.putEnqueue 0), .daemon (.putReply 0), .crash ["abc".toList],
    .daemon (.take 1 0), .daemon (.load 1)]

theorem older_bucket_recovered_crashesBeforeUpload :
    ∃ t : Daemon, StepMachine.Run (hostStep ⟨true, false, true, true⟩) Journalling
      (Daemon.startRecovered ⟨true, false, true, true⟩ [] true 0 (fun _ => none) (fun _ => none)
        (fun _ => false)) crashesBeforeUpload t ∧
      t.uploads.waiting "abc".toList = none ∧ t.uploads.journal "abc".toList = true ∧
      ∀ left, ListsMarkers left t.uploads.journal →
        (t.crash ⟨true, false, true, true⟩ left).uploads.waiting "abc".toList ≠ none := by
  have hmove : ∀ (s : Daemon) (e : DaemonEvent), DiskTakesPuts s e → e.KeyAllowed →
      (∀ tid, e ≠ .settle tid) → Journalling s (.daemon e) := by
    intro s e hok hkey hsettle
    refine ⟨hok, hkey, ?_⟩
    rintro ⟨tid, item, he, -⟩
    exact hsettle tid he
  have hput : (DaemonEvent.startPut 0 "abc".toList "a".toList).KeyAllowed := by
    intro tid key value h
    obtain ⟨-, rfl, -⟩ := DaemonEvent.startPut.inj h
    decide
  have hone : ListsMarkers ["abc".toList] (update (fun _ => false) "abc".toList true) := by
    intro k
    by_cases hk : k = "abc".toList
    · subst hk
      simp
    · rw [update_of_ne hk, List.mem_singleton]
      exact ⟨fun h => absurd h hk, fun h => by cases h⟩
  have hnone : ListsMarkers [] (fun _ => false) := by
    intro k
    simp
  have hrun : ∃ t, StepMachine.Run (hostStep ⟨true, false, true, true⟩) Journalling
      (Daemon.startRecovered ⟨true, false, true, true⟩ [] true 0 (fun _ => none) (fun _ => none)
        (fun _ => false)) crashesBeforeUpload t ∧ t.uploads.waiting "abc".toList = none ∧
      t.bucket "abc".toList = none ∧
      t.puts 0 = some ⟨"abc".toList, "a".toList, 0, some 1, some 2, some (3, true)⟩ :=
    ⟨_, .cons rfl (hmove _ _ trivial hput (by simp)) <|
      .cons rfl (hmove _ _ rfl (by rintro _ _ _ h; cases h) (by simp)) <|
      .cons rfl (hmove _ _ trivial (by rintro _ _ _ h; cases h) (by simp)) <|
      .cons rfl (hmove _ _ trivial (by rintro _ _ _ h; cases h) (by simp)) <|
      .cons rfl hone <|
      .cons rfl (hmove _ _ trivial (by rintro _ _ _ h; cases h) (by simp)) <|
      .cons rfl (hmove _ _ trivial (by rintro _ _ _ h; cases h) (by simp)) (.nil _), rfl, rfl, rfl⟩
  obtain ⟨t, hrun, hwaiting, hbucket, hp⟩ := hrun
  refine ⟨t, hrun, hwaiting, ?_⟩
  refine older_bucket_recovered rfl rfl hnone hrun hp (some_ne_none _) ?_
  rintro ⟨_, _, _, _, h, _⟩
  rw [hbucket] at h
  cases h

end Vcache

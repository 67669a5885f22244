import Vcache.DaemonThreads

/-!
# The daemon as one key sees it

The threads of a daemon work on many keys, and what happens to one key depends on
the others only in whether the queue has room for a value. `KeyState` is the part of
a daemon that belongs to one key, and `KeyStep` says what one event can make of it.
Every step of the daemon is such a step for every key.
-/

namespace Vcache

open UploadQueue Option Function

variable {item : UploadItem} {p : PutRecord} {g : GetRecord}

@[ext] structure KeyState where
  queue : KeyQueue
  refusals : ℕ → Option Bool
  nextRefusalId : ℕ
  disk : Option Str
  bucket : Option Str
  fetch : Option ℕ
  fetchResult : ℕ → Option (Option Str)
  uploadsFailed : ℕ
  puts : ℕ → Option PutRecord
  gets : ℕ → Option GetRecord
  threads : ℕ → Control
  clock : ℕ

def Control.key? (c : Control) (put : Option PutRecord) (get : Option GetRecord) : Option Str :=
  match c with
  | .idle => none
  | .took item => some item.key
  | .loaded item _ => some item.key
  | .sent item _ => some item.key
  | _ => put.map (·.key) <|> get.map (·.key)

def Control.onKey (k : Str) (c : Control) (put : Option PutRecord) (get : Option GetRecord) :
    Control :=
  if c.key? put get = some k then c else .idle

def UploadQueue.refusalsOf (q : UploadQueue) (k : Str) (id : ℕ) : Option Bool :=
  ((q.refusals id).filter (fun refusal => refusal.key = k)).map (·.overtaken)

/-- The part of a daemon that belongs to the key. -/
def Daemon.key (s : Daemon) (k : Str) : KeyState where
  queue := s.uploads.view k
  refusals := s.uploads.refusalsOf k
  nextRefusalId := s.uploads.nextRefusalId
  disk := s.disk k
  bucket := s.bucket k
  fetch := s.fetches k
  fetchResult := fun tid => if (s.gets tid).map (·.key) = some k then s.fetchResult tid else none
  uploadsFailed := s.uploadsFailed
  puts := fun tid => (s.puts tid).filter (fun p => p.key = k)
  gets := fun tid => (s.gets tid).filter (fun g => g.key = k)
  threads := fun tid => (s.control tid).onKey k (s.puts tid) (s.gets tid)
  clock := s.clock

namespace KeyState

def goto (s : KeyState) (tid : ℕ) (c : Control) : KeyState :=
  { s with threads := update s.threads tid c, clock := s.clock + 1 }

def setPut (s : KeyState) (tid : ℕ) (p : PutRecord) : KeyState :=
  { s with puts := update s.puts tid (some p) }

def setGet (s : KeyState) (tid : ℕ) (g : GetRecord) : KeyState :=
  { s with gets := update s.gets tid (some g) }

/-- An accepted store overtakes every refusal of the key. -/
def accept (s : KeyState) (k : Str) (blob : Option HeldBlob) : KeyState :=
  { s with
    queue := s.queue.accept k blob
    refusals := fun id => (s.refusals id).map (fun _ => true) }

def addRefusal (s : KeyState) : KeyState :=
  { s with
    refusals := update s.refusals s.nextRefusalId (some false)
    nextRefusalId := s.nextRefusalId + 1 }

/-- A store refused during a flight is the one refusal that is not overtaken. -/
def refuse (s : KeyState) : KeyState :=
  if s.queue.inFlight then
    { s with
      queue := s.queue.refuse
      refusals := fun id => (s.refusals id).map (fun _ => true) }.addRefusal
  else { s with queue := s.queue.refuse }

def takeRefusal (s : KeyState) : Option ℕ → KeyState
  | none => s
  | some id => { s with refusals := update s.refusals id none }

def overtaken (s : KeyState) : Option ℕ → Bool
  | none => false
  | some id => (s.refusals id).getD false

end KeyState

open KeyState in
/-- What one event can make of a key. -/
inductive KeyStep (cfg : DaemonConfig) (k : Str) : KeyState → DaemonEvent → KeyState → Prop where
  /-- A step on another key. -/
  | other {s : KeyState} (e : DaemonEvent) (nextId failed : ℕ) (hid : s.nextRefusalId ≤ nextId)
      (hfailed : s.uploadsFailed ≤ failed) :
      KeyStep cfg k s e
        { s with nextRefusalId := nextId, uploadsFailed := failed, clock := s.clock + 1 }
  | startPut {s : KeyState} (tid : ℕ) (value : Str) (hc : s.threads tid = .idle)
      (hp : s.puts tid = none) :
      KeyStep cfg k s (.startPut tid k value)
        ((s.setPut tid ⟨k, value, s.clock, none, none, none⟩).goto tid .putArrived)
  | putOnDisk {s : KeyState} (tid : ℕ) (p : PutRecord) (hc : s.threads tid = .putArrived)
      (hp : s.puts tid = some p) (hdisk : cfg.diskWritable = true) :
      KeyStep cfg k s (.putDisk tid true)
        (({ s with disk := some p.value }.setPut tid
          { p with written := some s.clock }).goto tid (.putDisked true))
  | putNoDisk {s : KeyState} (tid : ℕ) (ok : Bool) (hc : s.threads tid = .putArrived)
      (hdisk : (cfg.diskWritable && ok) = false) :
      KeyStep cfg k s (.putDisk tid ok) (s.goto tid (.putDisked false))
  | putSkip {s : KeyState} (tid : ℕ) (onDisk : Bool) (hc : s.threads tid = .putDisked onDisk)
      (hs3 : cfg.s3Writable = false) :
      KeyStep cfg k s (.putEnqueue tid) (s.goto tid (.putLeaving onDisk))
  | queueOnDisk {s : KeyState} (tid : ℕ) (p : PutRecord)
      (hc : s.threads tid = .putDisked true) (hp : s.puts tid = some p)
      (hs3 : cfg.s3Writable = true) :
      KeyStep cfg k s (.putEnqueue tid)
        (((s.accept k none).setPut tid { p with queued := some s.clock }).goto tid
          (.putLeaving true))
  | queueHeld {s : KeyState} (tid : ℕ) (p : PutRecord)
      (hc : s.threads tid = .putDisked false) (hp : s.puts tid = some p)
      (hs3 : cfg.s3Writable = true) :
      KeyStep cfg k s (.putEnqueue tid)
        (((s.accept k (some ⟨tid, p.value⟩)).setPut tid
          { p with queued := some s.clock }).goto tid (.putLeaving true))
  | queueRefused {s : KeyState} (tid : ℕ) (p : PutRecord)
      (hc : s.threads tid = .putDisked false) (hp : s.puts tid = some p)
      (hs3 : cfg.s3Writable = true) :
      KeyStep cfg k s (.putEnqueue tid)
        ((s.refuse.setPut tid { p with queued := some s.clock }).goto tid
          (.putRefused (if s.queue.inFlight then some s.nextRefusalId else none)))
  | retryOvertaken {s : KeyState} (tid : ℕ) (watch : Option ℕ)
      (hc : s.threads tid = .putRefused watch) (hover : s.overtaken watch = true) :
      KeyStep cfg k s (.putRetry tid) ((s.takeRefusal watch).goto tid (.putLeaving true))
  | retrySync {s : KeyState} (tid : ℕ) (watch : Option ℕ) (flightId : ℕ)
      (hc : s.threads tid = .putRefused watch) (hover : s.overtaken watch = false)
      (hidle : s.queue.inFlight = false) :
      KeyStep cfg k s (.putRetry tid)
        ({ s.takeRefusal watch with
          queue := { s.queue.takeOff flightId with
            generation := some s.queue.nextGeneration } }.goto tid
              (.putSyncing s.queue.nextGeneration))
  | retryWatch {s : KeyState} (tid : ℕ) (watch : Option ℕ)
      (hc : s.threads tid = .putRefused watch) (hover : s.overtaken watch = false)
      (hflying : s.queue.inFlight = true) (hid : s.queue.inFlightId ≠ none) :
      KeyStep cfg k s (.putRetry tid)
        ((s.takeRefusal watch).addRefusal.goto tid (.putRefused (some s.nextRefusalId)))
  | retryLost {s : KeyState} (tid : ℕ) (watch : Option ℕ)
      (hc : s.threads tid = .putRefused watch) (hover : s.overtaken watch = false)
      (hflying : s.queue.inFlight = true) (hid : s.queue.inFlightId = none) :
      KeyStep cfg k s (.putRetry tid) ((s.takeRefusal watch).goto tid (.putLeaving false))
  | putUpload {s : KeyState} (tid : ℕ) (ok : Bool) (p : PutRecord) (gen : ℕ)
      (hc : s.threads tid = .putSyncing gen) (hp : s.puts tid = some p) :
      KeyStep cfg k s (.putUpload tid ok)
        ({ s with bucket := if ok then some p.value else s.bucket }.goto tid
          (.putSynced gen ok))
  | putFinish {s : KeyState} (tid : ℕ) (gen : ℕ) (ok : Bool)
      (hc : s.threads tid = .putSynced gen ok) :
      KeyStep cfg k s (.putFinish tid)
        ({ s with
          queue := s.queue.finish { key := k, generation := gen }
          uploadsFailed := s.uploadsFailed + (!ok).toNat }.goto tid (.putLeaving ok))
  | putReply {s : KeyState} (tid : ℕ) (stored : Bool) (p : PutRecord)
      (hc : s.threads tid = .putLeaving stored) (hp : s.puts tid = some p) :
      KeyStep cfg k s (.putReply tid)
        ((s.setPut tid { p with replied := some (s.clock, stored) }).goto tid .done)
  | take {s : KeyState} (tid now : ℕ) (item : UploadItem) (flightId : ℕ)
      (hc : s.threads tid = .idle) (hp : s.puts tid = none) (hitem : s.queue.waiting = some item)
      (hkey : item.key = k) :
      KeyStep cfg k s (.take tid now)
        ({ s with queue := { s.queue.takeOff flightId with waiting := none } }.goto tid
          (.took item))
  | load {s : KeyState} (tid : ℕ) (item : UploadItem) (hc : s.threads tid = .took item) :
      KeyStep cfg k s (.load tid)
        (s.goto tid (.loaded item (match item.blob with
          | some blob => some blob.data
          | none => if cfg.diskEnabled then s.disk else none)))
  | sendNothing {s : KeyState} (tid now : ℕ) (ok : Bool) (item : UploadItem)
      (hc : s.threads tid = .loaded item none) :
      KeyStep cfg k s (.send tid ok now) (s.goto tid (.sent item .skipped))
  | sendUploaded {s : KeyState} (tid now : ℕ) (item : UploadItem) (blob : Str)
      (hc : s.threads tid = .loaded item (some blob)) :
      KeyStep cfg k s (.send tid true now)
        ({ s with bucket := some blob }.goto tid (.sent item .uploaded))
  | sendFailed {s : KeyState} (tid now : ℕ) (item : UploadItem) (blob : Str) (attempts wait : ℕ)
      (outcome : UploadOutcome)
      (houtcome : outcome = UploadOutcome.failed ∨ outcome = UploadOutcome.retry)
      (hc : s.threads tid = .loaded item (some blob)) :
      KeyStep cfg k s (.send tid false now)
        (s.goto tid (.sent { item with attempts, notBefore := wait } outcome))
  | settleRetry {s : KeyState} (tid : ℕ) (item : UploadItem)
      (hc : s.threads tid = .sent item .retry) :
      KeyStep cfg k s (.settle tid) ({ s with queue := s.queue.requeue item }.goto tid .idle)
  | settle {s : KeyState} (tid : ℕ) (item : UploadItem) (outcome : UploadOutcome)
      (hc : s.threads tid = .sent item outcome) (houtcome : outcome ≠ .retry) :
      KeyStep cfg k s (.settle tid)
        ({ s with
          queue := s.queue.finish item
          uploadsFailed := s.uploadsFailed + (decide (outcome = UploadOutcome.failed)).toNat }.goto
            tid .idle)
  | startGet {s : KeyState} (tid : ℕ) (hc : s.threads tid = .idle) (hg : s.gets tid = none)
      (hp : s.puts tid = none) :
      KeyStep cfg k s (.startGet tid k)
        ((s.setGet tid ⟨k, s.clock, none, none⟩).goto tid .getArrived)
  | getDiskHit {s : KeyState} (tid : ℕ) (value : Str) (hc : s.threads tid = .getArrived)
      (hdisk : cfg.diskEnabled = true) (hvalue : s.disk = some value) :
      KeyStep cfg k s (.getDisk tid) (s.goto tid (.getAnswered (some value)))
  | getDiskMiss {s : KeyState} (tid : ℕ) (g : GetRecord) (hc : s.threads tid = .getArrived)
      (hg : s.gets tid = some g) (hmiss : cfg.diskEnabled = true → s.disk = none) :
      KeyStep cfg k s (.getDisk tid)
        ((s.setGet tid { g with missed := some s.clock }).goto tid .getMissedDisk)
  | getHeldHit {s : KeyState} (tid : ℕ) (blob : HeldBlob) (hc : s.threads tid = .getMissedDisk)
      (hheld : s.queue.held = some blob) :
      KeyStep cfg k s (.getHeld tid) (s.goto tid (.getAnswered (some blob.data)))
  | getHeldMiss {s : KeyState} (tid : ℕ) (hc : s.threads tid = .getMissedDisk)
      (hheld : s.queue.held = none) :
      KeyStep cfg k s (.getHeld tid)
        (s.goto tid (if cfg.s3Enabled then .getMissed else .getAnswered none))
  | getJoinFetch {s : KeyState} (tid fetch : ℕ) (hc : s.threads tid = .getMissed)
      (hfetch : s.fetch = some fetch) :
      KeyStep cfg k s (.getFetch tid) (s.goto tid (.getJoined fetch))
  | getOpenFetch {s : KeyState} (tid : ℕ) (g : GetRecord) (hc : s.threads tid = .getMissed)
      (hg : s.gets tid = some g) (hfetch : s.fetch = none) :
      KeyStep cfg k s (.getFetch tid) ({ s with fetch := some tid }.goto tid .getFetching)
  | getJoin {s : KeyState} (tid fetch : ℕ) (value : Option Str)
      (hc : s.threads tid = .getJoined fetch) (hvalue : s.fetchResult fetch = some value) :
      KeyStep cfg k s (.getJoin tid) (s.goto tid (.getAnswered value))
  | getTimeout {s : KeyState} (tid fetch : ℕ) (hc : s.threads tid = .getJoined fetch) :
      KeyStep cfg k s (.getTimeout tid) (s.goto tid .getFetching)
  | getS3 {s : KeyState} (tid : ℕ) (hc : s.threads tid = .getFetching) :
      KeyStep cfg k s (.getS3 tid) (s.goto tid (.getFetched s.bucket))
  | getBackfill {s : KeyState} (tid : ℕ) (ok : Bool) (value : Option Str) (g : GetRecord)
      (hc : s.threads tid = .getFetched value) (hg : s.gets tid = some g) :
      KeyStep cfg k s (.getBackfill tid ok)
        ({ s with
          disk := if value.isSome && cfg.diskWritable && ok then value else s.disk }.goto tid
            (.getBackfilled value))
  | getDone {s : KeyState} (tid : ℕ) (value : Option Str) (g : GetRecord)
      (hc : s.threads tid = .getBackfilled value) (hg : s.gets tid = some g) :
      KeyStep cfg k s (.getDone tid)
        ({ s with
          fetchResult := update s.fetchResult tid (some value)
          fetch := if s.fetch = some tid then none else s.fetch }.goto tid (.getAnswered value))
  | getReply {s : KeyState} (tid : ℕ) (value : Option Str) (g : GetRecord)
      (hc : s.threads tid = .getAnswered value) (hg : s.gets tid = some g) :
      KeyStep cfg k s (.getReply tid)
        ((s.setGet tid { g with replied := some (s.clock, value) }).goto tid .done)

/-! ## Threads of a key -/

/-- The thread has the item of a flight. -/
def Control.Carries (c : Control) (item : UploadItem) : Prop :=
  c = .took item ∨ (∃ blob, c = .loaded item blob) ∨ ∃ outcome, c = .sent item outcome

theorem Control.Carries.unique {c : Control} {i j : UploadItem} (hi : c.Carries i)
    (hj : c.Carries j) : i = j := by
  rcases hi with rfl | ⟨_, rfl⟩ | ⟨_, rfl⟩ <;> rcases hj with h | ⟨_, h⟩ | ⟨_, h⟩ <;>
    cases h <;> rfl

theorem Control.Carries.not_put {c : Control} {i : UploadItem} (hi : c.Carries i) :
    (∀ onDisk, c ≠ .putDisked onDisk) ∧ (∀ watch, c ≠ .putRefused watch) ∧
      (∀ gen, c ≠ .putSyncing gen) ∧ ∀ gen ok, c ≠ .putSynced gen ok := by
  rcases hi with rfl | ⟨_, rfl⟩ | ⟨_, rfl⟩ <;> exact ⟨nofun, nofun, nofun, nofun⟩

theorem Control.not_carries_of_isPut {c : Control} (hc : c.isPut = true) (item : UploadItem) :
    ¬ c.Carries item := by
  rintro (rfl | ⟨_, rfl⟩ | ⟨_, rfl⟩) <;> cases hc

theorem Control.not_carries_of_isGet {c : Control} (hc : (c.isGet || c = .done || c = .idle) = true)
    (item : UploadItem) : ¬ c.Carries item := by
  rintro (rfl | ⟨_, rfl⟩ | ⟨_, rfl⟩) <;> cases hc

theorem KeyQueue.waiting_accept {v : KeyQueue} {k : Str} {blob : Option HeldBlob}
    (hv : ∀ queued, v.waiting = some queued → v.inFlight = false)
    (h : (v.accept k blob).waiting = some item) :
    v.inFlight = false ∧ item.generation = v.nextGeneration ∧ item.blob = blob := by
  rw [KeyQueue.accept] at h
  by_cases hflying : v.inFlight = true
  · simp only [hflying, if_true] at h
    have hlanded := hv item h
    rw [hflying] at hlanded
    cases hlanded
  · rw [if_neg hflying] at h
    refine ⟨eq_false_of_ne_true hflying, ?_⟩
    split at h
    next =>
      cases h
      exact ⟨rfl, rfl⟩
    next =>
      cases h
      exact ⟨rfl, rfl⟩

theorem KeyQueue.waiting_accept_ne {v : KeyQueue} (hv : v.inFlight = false) (k : Str)
    (blob : Option HeldBlob) : (v.accept k blob).waiting ≠ none := by
  simp only [KeyQueue.accept, hv, Bool.false_eq_true, if_false]
  split <;> exact some_ne_none _

/-- The put was over before the other came. -/
def PutRecord.Before (p q : PutRecord) : Prop :=
  ∃ t stored, p.replied = some (t, stored) ∧ t < q.started

section Control

variable {c : Control} {k : Str} {put : Option PutRecord} {get : Option GetRecord}

theorem Control.onKey_put (hc : c.isWorker = false) :
    c.onKey k (some p) get = if p.key = k then c else .idle := by
  cases c <;> simp_all [Control.onKey, Control.key?, Control.isWorker]

theorem Control.onKey_get (hc : c.isWorker = false) :
    c.onKey k none (some g) = if g.key = k then c else .idle := by
  cases c <;> simp_all [Control.onKey, Control.key?, Control.isWorker]

theorem Control.onKey_took : (Control.took item).onKey k put get =
    if item.key = k then .took item else .idle := by
  simp [Control.onKey, Control.key?]

theorem Control.onKey_loaded {blob : Option Str} :
    (Control.loaded item blob).onKey k put get =
      if item.key = k then .loaded item blob else .idle := by
  simp [Control.onKey, Control.key?]

theorem Control.onKey_sent {outcome : UploadOutcome} :
    (Control.sent item outcome).onKey k put get =
      if item.key = k then .sent item outcome else .idle := by
  simp [Control.onKey, Control.key?]

theorem Control.eq_of_onKey {c' : Control} (h : c.onKey k put get = c') (hne : c' ≠ .idle) :
    c = c' := by
  rw [Control.onKey] at h
  split at h
  · exact h
  · exact absurd h.symm hne

theorem Control.onKey_idle : Control.idle.onKey k put get = .idle := by
  simp [Control.onKey]

end Control

theorem carries_of_update {threads : ℕ → Control} {tid t : ℕ} {c : Control}
    (h : (update threads tid c t).Carries item) (hc : ¬ c.Carries item) :
    t ≠ tid ∧ (threads t).Carries item := by
  by_cases ht : t = tid
  · rw [ht, update_self] at h
    exact absurd h hc
  · rw [update_of_ne ht] at h
    exact ⟨ht, h⟩

namespace KeyState

variable {s u : KeyState} {tid t : ℕ} {c : Control}

theorem threads_goto : (s.goto tid c).threads t = if t = tid then c else s.threads t :=
  update_apply ..

theorem threads_goto_eq (hthreads : u.threads = s.threads) :
    (u.goto tid c).threads t = if t = tid then c else s.threads t := by
  rw [threads_goto, hthreads]

theorem threads_of_goto {c' : Control} (h : (s.goto tid c).threads t = c') (hne : c' ≠ c) :
    t ≠ tid ∧ s.threads t = c' := by
  rw [threads_goto] at h
  by_cases ht : t = tid
  · rw [if_pos ht] at h
    exact absurd h.symm hne
  · rw [if_neg ht] at h
    exact ⟨ht, h⟩

theorem carries_of_goto (h : ((s.goto tid c).threads t).Carries item)
    (hc : ¬ c.Carries item) : t ≠ tid ∧ (s.threads t).Carries item :=
  carries_of_update h hc

/-- One thread moves: what is to hold of every thread and its put holds of the others as it
did. -/
theorem forall_goto {P : ℕ → Control → Option PutRecord → Prop} (hthreads : u.threads = s.threads)
    (hputs : ∀ t, t ≠ tid → u.puts t = s.puts t) (hself : P tid c (u.puts tid))
    (hother : ∀ t, P t (s.threads t) (s.puts t)) (t : ℕ) :
    P t ((u.goto tid c).threads t) ((u.goto tid c).puts t) := by
  rw [threads_goto_eq hthreads]
  by_cases ht : t = tid
  · subst ht
    rw [if_pos rfl]
    exact hself
  · rw [if_neg ht, show (u.goto tid c).puts t = s.puts t from hputs t ht]
    exact hother t

end KeyState

theorem KeyState.goto_idle {s : KeyState} {tid : ℕ} (h : s.threads tid = .idle) :
    s.goto tid .idle = { s with clock := s.clock + 1 } := by
  rw [KeyState.goto, ← h, update_eq_self]

namespace UploadQueue

variable {q q' : UploadQueue} {j k : Str}

theorem refusalsOf_congr (h : q'.records = q.records) : q'.refusalsOf k = q.refusalsOf k := by
  have hrefusals : q'.refusals = q.refusals := congrArg Prod.fst h
  funext id
  rw [refusalsOf, hrefusals, refusalsOf]

theorem nextRefusalId_congr (h : q'.records = q.records) :
    q'.nextRefusalId = q.nextRefusalId := congrArg Prod.snd h

theorem refusalsOf_overtakeRefusals : (q.overtakeRefusals j).refusalsOf k =
    if j = k then fun id => (q.refusalsOf k id).map (fun _ => true) else q.refusalsOf k := by
  split <;> funext id <;> simp only [refusalsOf, overtakeRefusals] <;>
    cases hrefusal : q.refusals id with
    | none => rfl
    | some refusal => by_cases hkey : refusal.key = j <;> simp_all [Option.filter]

theorem refusalsOf_add {next flightId : ℕ}
    (hq' : q'.refusals = update q.refusals next (some ⟨j, flightId, false⟩))
    (hfresh : q.refusals next = none) :
    q'.refusalsOf k =
      if j = k then update (q.refusalsOf k) next (some false) else q.refusalsOf k := by
  split <;> funext id <;> by_cases hid : id = next <;> simp_all [refusalsOf, Option.filter]

end UploadQueue

namespace Daemon

variable {cfg : DaemonConfig} {s s' : Daemon} {tid : ℕ} {c : Control} {j k : Str}

theorem key_goto : (s.goto tid c).key k =
    (s.key k).goto tid (c.onKey k (s.puts tid) (s.gets tid)) := by
  ext1 <;> try rfl
  funext t
  by_cases ht : t = tid <;> simp [key, goto, KeyState.goto, ht]

theorem key_setUploads {q : UploadQueue} : (s.setUploads q).key k =
    { s.key k with
      queue := q.view k, refusals := q.refusalsOf k, nextRefusalId := q.nextRefusalId } := rfl

theorem key_setBucket {value : Str} : (s.setBucket j value).key k =
    if j = k then { s.key k with bucket := some value } else s.key k := by
  by_cases hj : j = k
  · simp [key, setBucket, hj]
  · simp [key, setBucket, hj, Ne.symm hj]

theorem key_setDisk {value : Str} : (s.setDisk j value).key k =
    if j = k then { s.key k with disk := some value } else s.key k := by
  by_cases hj : j = k
  · simp [key, setDisk, hj]
  · simp [key, setDisk, hj, Ne.symm hj]

theorem key_setPut
    (hp : (s.puts tid).map (·.key) = some p.key ∨ s.puts tid = none ∧ s.control tid = .idle) :
    (s.setPut tid p).key k = if p.key = k then (s.key k).setPut tid p else s.key k := by
  have hthreads : ((s.setPut tid p).key k).threads = (s.key k).threads := by
    funext t
    by_cases ht : t = tid
    · subst ht
      rcases hp with hp | ⟨-, hidle⟩
      · simp only [key, setPut, update_self, Control.onKey, Control.key?, map_some, hp]
      · simp [key, setPut, Control.onKey, Control.key?, hidle]
    · simp [key, setPut, ht]
  have hputs : ((s.setPut tid p).key k).puts =
      update (s.key k).puts tid ((some p).filter (fun p => p.key = k)) := by
    funext t
    by_cases ht : t = tid <;> simp [key, setPut, ht]
  by_cases hk : p.key = k
  · rw [if_pos hk]
    ext1 <;> try rfl
    · rw [hputs]
      simp [KeyState.setPut, Option.filter, hk]
    · exact hthreads
  · rw [if_neg hk]
    have hnone : (s.key k).puts tid = none := by
      rcases hp with hp | ⟨hp, -⟩
      · obtain ⟨q, hq, hkey⟩ := Option.map_eq_some_iff.mp hp
        simp [key, hq, Option.filter, hkey, hk]
      · simp [key, hp]
    ext1 <;> try rfl
    · rw [hputs]
      simp only [Option.filter, hk, decide_false, Bool.false_eq_true, if_false]
      rw [← hnone, update_eq_self]
    · exact hthreads

theorem key_setGet (hresult : s.gets tid = none → s.fetchResult tid = none)
    (hg : (s.gets tid).map (·.key) = some g.key ∧ s.puts tid = none ∨
      s.gets tid = none ∧ s.control tid = .idle) :
    (s.setGet tid g).key k = if g.key = k then (s.key k).setGet tid g else s.key k := by
  have hthreads : ((s.setGet tid g).key k).threads = (s.key k).threads := by
    funext t
    by_cases ht : t = tid
    · subst ht
      rcases hg with ⟨hg, hput⟩ | ⟨-, hidle⟩
      · simp only [key, setGet, update_self, Control.onKey, Control.key?, map_some, hg]
      · simp [key, setGet, Control.onKey, Control.key?, hidle]
    · simp [key, setGet, ht]
  have hgets : ((s.setGet tid g).key k).gets =
      update (s.key k).gets tid ((some g).filter (fun g => g.key = k)) := by
    funext t
    by_cases ht : t = tid <;> simp [key, setGet, ht]
  have hfetch : ((s.setGet tid g).key k).fetchResult = (s.key k).fetchResult := by
    funext t
    by_cases ht : t = tid
    · subst ht
      rcases hg with ⟨hg, -⟩ | ⟨hnone, -⟩
      · simp only [key, setGet, update_self, map_some, hg]
      · simp [key, setGet, hnone, hresult hnone]
    · simp [key, setGet, ht]
  by_cases hk : g.key = k
  · rw [if_pos hk]
    ext1 <;> try rfl
    · exact hfetch
    · rw [hgets]
      simp [KeyState.setGet, Option.filter, hk]
    · exact hthreads
  · rw [if_neg hk]
    have hnone : (s.key k).gets tid = none := by
      rcases hg with ⟨hg, -⟩ | ⟨hg, -⟩
      · obtain ⟨q, hq, hkey⟩ := Option.map_eq_some_iff.mp hg
        simp [key, hq, Option.filter, hkey, hk]
      · simp [key, hg]
    ext1 <;> try rfl
    · exact hfetch
    · rw [hgets]
      simp only [Option.filter, hk, decide_false, Bool.false_eq_true, if_false]
      rw [← hnone, update_eq_self]
    · exact hthreads

theorem threads_put (hp : s.puts tid = some p) (hc : (s.control tid).isWorker = false) :
    (s.key k).threads tid = if p.key = k then s.control tid else .idle := by
  rw [← Control.onKey_put hc, ← hp]
  rfl

theorem puts_key_iff : (s.key k).puts tid = some p ↔ s.puts tid = some p ∧ p.key = k := by
  simp [key, filter_eq_some_iff]

theorem threads_get (hp : s.puts tid = none) (hg : s.gets tid = some g)
    (hc : (s.control tid).isWorker = false) :
    (s.key k).threads tid = if g.key = k then s.control tid else .idle := by
  rw [← Control.onKey_get hc, ← hp, ← hg]
  rfl

theorem gets_key_iff : (s.key k).gets tid = some g ↔ s.gets tid = some g ∧ g.key = k := by
  simp [key, filter_eq_some_iff]

theorem threads_idle (hc : s.control tid = .idle) : (s.key k).threads tid = .idle := by
  simp [key, hc, Control.onKey_idle]

theorem key_goto_put (hp : s.puts tid = some p) (hc : c.isWorker = false) :
    (s.goto tid c).key k = (s.key k).goto tid (if p.key = k then c else .idle) := by
  rw [key_goto, hp, Control.onKey_put hc]

theorem key_goto_get (hp : s.puts tid = none) (hg : s.gets tid = some g) (hc : c.isWorker = false) :
    (s.goto tid c).key k = (s.key k).goto tid (if g.key = k then c else .idle) := by
  rw [key_goto, hp, hg, Control.onKey_get hc]

theorem key_goto_worker (hc : c.Carries item) :
    (s.goto tid c).key k = (s.key k).goto tid (if item.key = k then c else .idle) := by
  rw [key_goto]
  rcases hc with rfl | ⟨blob, rfl⟩ | ⟨outcome, rfl⟩
  · rw [Control.onKey_took]
  · rw [Control.onKey_loaded]
  · rw [Control.onKey_sent]

/-! ### The queue -/

theorem key_setUploads_view {q : UploadQueue} (hrecords : q.records = s.uploads.records) :
    (s.setUploads q).key k = { s.key k with queue := q.view k } := by
  rw [key_setUploads, refusalsOf_congr hrecords, nextRefusalId_congr hrecords]
  rfl

theorem key_accept (blob : Option HeldBlob) (journal : Bool) :
    (s.setUploads (s.uploads.accept j blob journal).2).key k =
      if j = k then (s.key k).accept j blob else s.key k := by
  have hrecords : (s.uploads.accept j blob journal).2.records =
      (s.uploads.overtakeRefusals j).records := records_accept blob journal
  rw [key_setUploads, view_accept, refusalsOf_congr hrecords,
    nextRefusalId_congr hrecords, refusalsOf_overtakeRefusals]
  by_cases hj : j = k
  · simp only [hj, if_true]
    rfl
  · simp only [hj, Ne.symm hj, if_false]
    rfl

theorem key_refuse (hs : s.Wf) : (s.setUploads (s.uploads.refuse j).2).key k =
    if j = k then (s.key k).refuse
    else { s.key k with nextRefusalId := (s.uploads.refuse j).2.nextRefusalId } := by
  have hrecords : (s.uploads.refuse j).2.records = _ := records_refuse
  rw [key_setUploads, view_refuse]
  by_cases hflying : s.uploads.inFlight j = true
  · rw [if_pos hflying] at hrecords
    have hrefusals : (s.uploads.refuse j).2.refusals =
        update (s.uploads.overtakeRefusals j).refusals s.uploads.nextRefusalId
          (some ⟨j, (s.uploads.inFlightId j).getD 0, false⟩) :=
      congrArg Prod.fst hrecords
    have hover : (s.uploads.overtakeRefusals j).refusals s.uploads.nextRefusalId = none := by
      simp [overtakeRefusals, hs.fresh]
    rw [refusalsOf_add hrefusals hover, refusalsOf_overtakeRefusals]
    by_cases hj : j = k
    · subst hj
      have hid : (s.uploads.refuse j).2.nextRefusalId = s.uploads.nextRefusalId + 1 :=
        congrArg Prod.snd hrecords
      have hflight : (s.key j).queue.inFlight = true := hflying
      simp only [hid]
      rw [KeyState.refuse, if_pos hflight]
      rfl
    · simp only [if_neg hj, if_neg (Ne.symm hj)]
      rfl
  · rw [if_neg hflying] at hrecords
    rw [refusalsOf_congr hrecords]
    by_cases hj : j = k
    · subst hj
      have hflight : ¬ (s.key j).queue.inFlight = true := hflying
      rw [if_pos rfl, if_pos rfl, nextRefusalId_congr hrecords, KeyState.refuse, if_neg hflight]
      rfl
    · rw [if_neg hj, if_neg (Ne.symm hj)]
      rfl

theorem key_addRefusal {flightId : ℕ} (hfresh : s.uploads.refusals s.uploads.nextRefusalId = none) :
    (s.setUploads (s.uploads.addRefusal j flightId)).key k =
      if j = k then (s.key k).addRefusal
      else { s.key k with nextRefusalId := s.uploads.nextRefusalId + 1 } := by
  have hrefusals : (s.uploads.addRefusal j flightId).refusals =
      update s.uploads.refusals s.uploads.nextRefusalId
          (some ⟨j, flightId, false⟩) := rfl
  rw [key_setUploads, refusalsOf_add hrefusals hfresh]
  by_cases hj : j = k <;> simp only [hj, if_true, if_false] <;> rfl

theorem key_finish (failed : Bool) (item : UploadItem) :
    ((s.countFailed failed).setUploads (s.uploads.finish item).2.2).key k =
      { s.key k with
        queue := if item.key = k then (s.key k).queue.finish item else (s.key k).queue
        uploadsFailed := s.uploadsFailed + failed.toNat } := by
  have hset : ((s.countFailed failed).setUploads (s.uploads.finish item).2.2).key k =
      { (s.countFailed failed).key k with queue := (s.uploads.finish item).2.2.view k } :=
    key_setUploads_view (s := s.countFailed failed) records_finish
  rw [hset, view_finish]
  by_cases hk : item.key = k
  · rw [if_pos hk, if_pos hk.symm]
    rfl
  · rw [if_neg hk, if_neg (Ne.symm hk)]
    rfl

theorem nextRefusalId_refuse :
    s.uploads.nextRefusalId ≤ (s.uploads.refuse j).2.nextRefusalId := by
  have hrecords : (s.uploads.refuse j).2.records = _ := records_refuse
  split at hrecords
  · have hid : (s.uploads.refuse j).2.nextRefusalId = s.uploads.nextRefusalId + 1 :=
      congrArg Prod.snd hrecords
    omega
  · rw [nextRefusalId_congr hrecords]

theorem takeWatched_key (hs : s.Wf) {watch : Option ℕ}
    (hc : s.control tid = .putRefused watch) (hp : s.puts tid = some p) :
    (p.key = k → (takeWatched s.uploads watch).1 = (s.key k).overtaken watch) ∧
    (s.setUploads (takeWatched s.uploads watch).2).key k =
      if p.key = k then (s.key k).takeRefusal watch else s.key k := by
  cases watch with
  | none => exact ⟨fun _ => rfl, by split <;> rfl⟩
  | some id =>
    have hown := (hs.threads tid).watch id p hc hp
    have hrefusals : ∀ i, ((s.setUploads (takeWatched s.uploads (some id)).2).key k).refusals i =
        if i = id then none else (s.key k).refusals i := by
      intro i
      by_cases hi : i = id <;> simp [key, setUploads, takeWatched, takeRefusal, refusalsOf, hi]
    refine ⟨?_, ?_⟩
    · rintro rfl
      simp only [takeWatched, takeRefusal, refusalOvertaken, KeyState.overtaken, key, refusalsOf]
      cases hrefusal : s.uploads.refusals id with
      | none => rfl
      | some refusal => simp [Option.filter, hown refusal hrefusal]
    · have hnone : p.key ≠ k → (s.key k).refusals id = none := by
        intro hk
        simp only [key, refusalsOf]
        cases hrefusal : s.uploads.refusals id with
        | none => rfl
        | some refusal => simp [Option.filter, hown refusal hrefusal, hk]
      split <;> ext1 <;> try rfl
      all_goals
        funext i
        rw [hrefusals i]
        by_cases hi : i = id <;> simp_all [KeyState.takeRefusal]

end Daemon

end Vcache

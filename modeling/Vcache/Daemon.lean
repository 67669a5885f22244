import Vcache.StepMachine
import Vcache.UploadQueue

/-!
# The daemon's request threads and upload workers

`daemon/server`: `HandlePut`, `HandleGet` with `FetchKey`, and `UploadWorker`. Each
thread is where it last let go of the daemon's lock or came back from the disk or
from S3, and an event is one thread's next such step, so a run is an interleaving of
all of them. A put or get has a record of what it asked for and of when it did what,
which no step reads.

A refused put that waits for a flight goes on when the flight is over or at its
deadline, so it can go on at any time. A disk or S3 operation takes effect in one
step. Compile leases are not part of this.
-/

namespace Vcache

open Function

structure DaemonConfig where
  diskEnabled : Bool
  readOnly : Bool
  s3Enabled : Bool
  s3Writable : Bool

def DaemonConfig.diskWritable (cfg : DaemonConfig) : Bool := cfg.diskEnabled && !cfg.readOnly

def kMaxUploadAttempts : ℕ := 3

/-- A put and its times: when it came, when its value was on disk, when it was offered to the
queue, and when it replied with what `stored`. -/
structure PutRecord where
  key : Str
  value : Str
  started : ℕ
  written : Option ℕ := none
  queued : Option ℕ := none
  replied : Option (ℕ × Bool) := none
deriving DecidableEq

/-- A get and its times: when it came, when it had missed on disk, and when it replied with
what. -/
structure GetRecord where
  key : Str
  started : ℕ
  missed : Option ℕ := none
  replied : Option (ℕ × Option Str) := none
deriving DecidableEq

inductive UploadOutcome where
  | skipped
  | uploaded
  | failed
  | retry
deriving DecidableEq

/-- Where a thread is. A thread without a request is a worker between two uploads. -/
inductive Control where
  | idle
  | putArrived
  | putDisked (onDisk : Bool)
  | putRefused (watch : Option ℕ)
  | putSyncing (generation : ℕ)
  | putSynced (generation : ℕ) (uploaded : Bool)
  | putLeaving (stored : Bool)
  | took (item : UploadItem)
  | loaded (item : UploadItem) (blob : Option Str)
  | sent (item : UploadItem) (outcome : UploadOutcome)
  | getArrived
  | getMissedDisk
  | getMissed
  | getJoined (fetch : ℕ)
  | getFetching
  | getFetched (value : Option Str)
  | getBackfilled (value : Option Str)
  | getAnswered (value : Option Str)
  | done
deriving DecidableEq

structure Daemon where
  disk : Str → Option Str
  bucket : Str → Option Str
  uploads : UploadQueue
  fetches : Str → Option ℕ := fun _ => none
  fetchResult : ℕ → Option (Option Str) := fun _ => none
  uploadsFailed : ℕ := 0
  puts : ℕ → Option PutRecord := fun _ => none
  gets : ℕ → Option GetRecord := fun _ => none
  control : ℕ → Control := fun _ => .idle
  clock : ℕ := 0

inductive DaemonEvent where
  | startPut (tid : ℕ) (key value : Str)
  | putDisk (tid : ℕ) (ok : Bool)
  | putEnqueue (tid : ℕ)
  | putRetry (tid : ℕ)
  | putUpload (tid : ℕ) (ok : Bool)
  | putFinish (tid : ℕ)
  | putReply (tid : ℕ)
  | take (tid : ℕ) (now : ℕ)
  | load (tid : ℕ)
  | send (tid : ℕ) (ok : Bool) (now : ℕ)
  | settle (tid : ℕ)
  | startGet (tid : ℕ) (key : Str)
  | getDisk (tid : ℕ)
  | getHeld (tid : ℕ)
  | getFetch (tid : ℕ)
  | getJoin (tid : ℕ)
  | getTimeout (tid : ℕ)
  | getS3 (tid : ℕ)
  | getBackfill (tid : ℕ) (ok : Bool)
  | getDone (tid : ℕ)
  | getReply (tid : ℕ)
deriving DecidableEq

def DaemonEvent.s3Fails : DaemonEvent → Bool
  | .putUpload _ ok => !ok
  | .send _ ok _ => !ok
  | _ => false

namespace Daemon

def goto (s : Daemon) (tid : ℕ) (c : Control) : Daemon :=
  { s with control := update s.control tid c, clock := s.clock + 1 }

def setPut (s : Daemon) (tid : ℕ) (p : PutRecord) : Daemon :=
  { s with puts := update s.puts tid (some p) }

def setGet (s : Daemon) (tid : ℕ) (g : GetRecord) : Daemon :=
  { s with gets := update s.gets tid (some g) }

def setBucket (s : Daemon) (key value : Str) : Daemon :=
  { s with bucket := update s.bucket key (some value) }

def setDisk (s : Daemon) (key value : Str) : Daemon :=
  { s with disk := update s.disk key (some value) }

def setUploads (s : Daemon) (uploads : UploadQueue) : Daemon := { s with uploads }

def countFailed (s : Daemon) (failed : Bool) : Daemon :=
  { s with uploadsFailed := s.uploadsFailed + failed.toNat }

/-! ## `HandlePut` -/

def startPut (s : Daemon) (tid : ℕ) (key value : Str) : Option Daemon :=
  match s.control tid with
  | .idle => some ((s.setPut tid ⟨key, value, s.clock, none, none, none⟩).goto tid .putArrived)
  | _ => none

def putDisk (cfg : DaemonConfig) (s : Daemon) (tid : ℕ) (ok : Bool) : Option Daemon :=
  match s.control tid, s.puts tid with
  | .putArrived, some p =>
    if cfg.diskWritable && ok then
      some (((s.setDisk p.key p.value).setPut tid { p with written := some s.clock }).goto tid
        (.putDisked true))
    else some (s.goto tid (.putDisked false))
  | _, _ => none

def enqueueOnDisk (s : Daemon) (tid : ℕ) (p : PutRecord) : Daemon :=
  ((s.setPut tid { p with queued := some s.clock }).setUploads
    (s.uploads.enqueue p.key none true).2).goto tid (.putLeaving true)

def enqueueHeld (s : Daemon) (tid : ℕ) (p : PutRecord) : Daemon :=
  let result := s.uploads.enqueue p.key (some ⟨tid, p.value⟩) false
  ((s.setPut tid { p with queued := some s.clock }).setUploads result.2).goto tid
    (if result.1.accepted then .putLeaving true
      else .putRefused (if result.1.inFlight then some result.1.refusalId else none))

def putEnqueue (cfg : DaemonConfig) (s : Daemon) (tid : ℕ) : Option Daemon :=
  match s.control tid, s.puts tid with
  | .putDisked onDisk, some p =>
    if !cfg.s3Writable then some (s.goto tid (.putLeaving onDisk))
    else if onDisk then some (s.enqueueOnDisk tid p)
    else some (s.enqueueHeld tid p)
  | _, _ => none

/-- The watched refusal is taken, whether or not it was overtaken. -/
def takeWatched (q : UploadQueue) : Option ℕ → Bool × UploadQueue
  | none => (false, q)
  | some id => q.takeRefusal id

/-- The turn of the loop of a refused put under the lock. -/
def retry (s : Daemon) (tid : ℕ) (p : PutRecord) (watch : Option ℕ) : Daemon :=
  let taken := takeWatched s.uploads watch
  if taken.1 then (s.setUploads taken.2).goto tid (.putLeaving true)
  else match taken.2.beginSync p.key with
    | some (gen, uploads) => (s.setUploads uploads).goto tid (.putSyncing gen)
    | none =>
      match taken.2.watchFlight p.key with
      | some (id, uploads) => (s.setUploads uploads).goto tid (.putRefused (some id))
      | none =>
        match taken.2.beginSync p.key with
        | some (gen, uploads) => (s.setUploads uploads).goto tid (.putSyncing gen)
        | none => (s.setUploads taken.2).goto tid (.putLeaving false)

def putRetry (s : Daemon) (tid : ℕ) : Option Daemon :=
  match s.control tid, s.puts tid with
  | .putRefused watch, some p => some (s.retry tid p watch)
  | _, _ => none

def putUpload (s : Daemon) (tid : ℕ) (ok : Bool) : Option Daemon :=
  match s.control tid, s.puts tid with
  | .putSyncing gen, some p =>
    some ((if ok then s.setBucket p.key p.value else s).goto tid (.putSynced gen ok))
  | _, _ => none

def putFinish (s : Daemon) (tid : ℕ) : Option Daemon :=
  match s.control tid, s.puts tid with
  | .putSynced gen ok, some p =>
    some (((s.countFailed !ok).setUploads
      (s.uploads.finish { key := p.key, generation := gen }).2.2).goto tid (.putLeaving ok))
  | _, _ => none

def putReply (s : Daemon) (tid : ℕ) : Option Daemon :=
  match s.control tid, s.puts tid with
  | .putLeaving stored, some p =>
    some ((s.setPut tid { p with replied := some (s.clock, stored) }).goto tid .done)
  | _, _ => none

/-! ## `UploadWorker` -/

def take (s : Daemon) (tid : ℕ) (now : ℕ) : Option Daemon :=
  match s.control tid with
  | .idle => (s.uploads.takeReady now).map (fun taken =>
      (s.setUploads taken.2).goto tid (.took taken.1))
  | _ => none

def loadBlob (cfg : DaemonConfig) (s : Daemon) (item : UploadItem) : Option Str :=
  match item.blob with
  | some blob => some blob.data
  | none => if cfg.diskEnabled then s.disk item.key else none

def load (cfg : DaemonConfig) (s : Daemon) (tid : ℕ) : Option Daemon :=
  match s.control tid with
  | .took item => some (s.goto tid (.loaded item (s.loadBlob cfg item)))
  | _ => none

def sendFailed (s : Daemon) (tid : ℕ) (item : UploadItem) (now : ℕ) : Daemon :=
  let tried := { item with attempts := item.attempts + 1 }
  if tried.attempts < kMaxUploadAttempts then
    s.goto tid (.sent { tried with notBefore := now + 2 ^ tried.attempts } .retry)
  else s.goto tid (.sent tried .failed)

def send (s : Daemon) (tid : ℕ) (ok : Bool) (now : ℕ) : Option Daemon :=
  match s.control tid with
  | .loaded item none => some (s.goto tid (.sent item .skipped))
  | .loaded item (some blob) =>
    if ok then some ((s.setBucket item.key blob).goto tid (.sent item .uploaded))
    else some (s.sendFailed tid item now)
  | _ => none

def settle (s : Daemon) (tid : ℕ) : Option Daemon :=
  match s.control tid with
  | .sent item .retry => some ((s.setUploads (s.uploads.requeue item).2).goto tid .idle)
  | .sent item outcome =>
    some (((s.countFailed (outcome = .failed)).setUploads (s.uploads.finish item).2.2).goto tid
      .idle)
  | _ => none

/-! ## `HandleGet` -/

def startGet (s : Daemon) (tid : ℕ) (key : Str) : Option Daemon :=
  match s.control tid with
  | .idle => some ((s.setGet tid ⟨key, s.clock, none, none⟩).goto tid .getArrived)
  | _ => none

def getDisk (cfg : DaemonConfig) (s : Daemon) (tid : ℕ) : Option Daemon :=
  match s.control tid, s.gets tid with
  | .getArrived, some g =>
    match if cfg.diskEnabled then s.disk g.key else none with
    | some value => some (s.goto tid (.getAnswered (some value)))
    | none => some ((s.setGet tid { g with missed := some s.clock }).goto tid .getMissedDisk)
  | _, _ => none

def getHeld (cfg : DaemonConfig) (s : Daemon) (tid : ℕ) : Option Daemon :=
  match s.control tid, s.gets tid with
  | .getMissedDisk, some g =>
    match s.uploads.held g.key with
    | some blob => some (s.goto tid (.getAnswered (some blob.data)))
    | none => some (s.goto tid (if cfg.s3Enabled then .getMissed else .getAnswered none))
  | _, _ => none

def getFetch (s : Daemon) (tid : ℕ) : Option Daemon :=
  match s.control tid, s.gets tid with
  | .getMissed, some g =>
    match s.fetches g.key with
    | some fetch => some (s.goto tid (.getJoined fetch))
    | none =>
      some ({ s with fetches := update s.fetches g.key (some tid) }.goto tid .getFetching)
  | _, _ => none

def getJoin (s : Daemon) (tid : ℕ) : Option Daemon :=
  match s.control tid with
  | .getJoined fetch =>
    (s.fetchResult fetch).map (fun value => s.goto tid (.getAnswered value))
  | _ => none

/-- An expired wait makes a fetch of its own. -/
def getTimeout (s : Daemon) (tid : ℕ) : Option Daemon :=
  match s.control tid with
  | .getJoined fetch =>
    if s.fetchResult fetch = none then some (s.goto tid .getFetching) else none
  | _ => none

def getS3 (s : Daemon) (tid : ℕ) : Option Daemon :=
  match s.control tid, s.gets tid with
  | .getFetching, some g => some (s.goto tid (.getFetched (s.bucket g.key)))
  | _, _ => none

def getBackfill (cfg : DaemonConfig) (s : Daemon) (tid : ℕ) (ok : Bool) : Option Daemon :=
  match s.control tid, s.gets tid with
  | .getFetched none, some _ => some (s.goto tid (.getBackfilled none))
  | .getFetched (some value), some g =>
    some ((if cfg.diskWritable && ok then s.setDisk g.key value else s).goto tid
      (.getBackfilled (some value)))
  | _, _ => none

def getDone (s : Daemon) (tid : ℕ) : Option Daemon :=
  match s.control tid, s.gets tid with
  | .getBackfilled value, some g =>
    some ({ s with
      fetchResult := update s.fetchResult tid (some value)
      fetches :=
        if s.fetches g.key = some tid then update s.fetches g.key none else s.fetches }.goto tid
          (.getAnswered value))
  | _, _ => none

def getReply (s : Daemon) (tid : ℕ) : Option Daemon :=
  match s.control tid, s.gets tid with
  | .getAnswered value, some g =>
    some ((s.setGet tid { g with replied := some (s.clock, value) }).goto tid .done)
  | _, _ => none

def step (cfg : DaemonConfig) (s : Daemon) : DaemonEvent → Option Daemon
  | .startPut tid key value => s.startPut tid key value
  | .putDisk tid ok => s.putDisk cfg tid ok
  | .putEnqueue tid => s.putEnqueue cfg tid
  | .putRetry tid => s.putRetry tid
  | .putUpload tid ok => s.putUpload tid ok
  | .putFinish tid => s.putFinish tid
  | .putReply tid => s.putReply tid
  | .take tid now => s.take tid now
  | .load tid => s.load cfg tid
  | .send tid ok now => s.send tid ok now
  | .settle tid => s.settle tid
  | .startGet tid key => s.startGet tid key
  | .getDisk tid => s.getDisk cfg tid
  | .getHeld tid => s.getHeld cfg tid
  | .getFetch tid => s.getFetch tid
  | .getJoin tid => s.getJoin tid
  | .getTimeout tid => s.getTimeout tid
  | .getS3 tid => s.getS3 tid
  | .getBackfill tid ok => s.getBackfill cfg tid ok
  | .getDone tid => s.getDone tid
  | .getReply tid => s.getReply tid

def start (journalled : Bool) (maxHeldBytes : ℕ) (disk bucket : Str → Option Str) : Daemon :=
  { disk, bucket, uploads := { journalled, maxHeldBytes } }

end Daemon

end Vcache

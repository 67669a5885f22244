import Vcache.Daemon

/-!
# What the daemon's threads own

A thread that has a request has its record and no other; a fetch that others join
belongs to a get of the same key; a refused put watches a record of its own key.
These hold in every state a daemon reaches, and so what a thread does concerns its
own key.
-/

namespace Vcache

open UploadQueue Option Function

variable {p : PutRecord} {ok : Bool}

def Control.isWorker : Control → Bool
  | .idle | .took _ | .loaded _ _ | .sent _ _ => true
  | _ => false

def Control.isGet : Control → Bool
  | .getArrived | .getMissedDisk | .getMissed | .getJoined _ | .getFetching | .getFetched _
  | .getBackfilled _ | .getAnswered _ => true
  | _ => false

def Control.isPut : Control → Bool
  | .putArrived | .putDisked _ | .putRefused _ | .putSyncing _ | .putSynced _ _ | .putLeaving _ =>
    true
  | _ => false

/-- The thread refers to no record but its own. -/
def Control.isOwn : Control → Bool
  | .putRefused (some _) | .getJoined _ => false
  | _ => true

/-- Where a thread may go with the request it has. -/
def Control.mayGo (before after : Control) : Bool :=
  after.isOwn && (before.isWorker || !after.isWorker) && (before.isGet || !after.isGet)

namespace UploadQueue

variable {q q' : UploadQueue} {key : Str} {item : UploadItem}

/-- Queued items have the key they are queued under. -/
def KeysMatch (q : UploadQueue) : Prop := ∀ k item, q.waiting k = some item → item.key = k

/-- What an operation does to the refusals: it may end some and add some with fresh ids. -/
structure Extends (q q' : UploadQueue) : Prop where
  next : q.nextRefusalId ≤ q'.nextRefusalId
  id : ∀ id refusal, q'.refusals id = some refusal → id < q.nextRefusalId →
    ∃ before, q.refusals id = some before ∧ refusal.key = before.key
  bound : ∀ id refusal, q'.refusals id = some refusal →
    q.refusals id ≠ none ∨ id < q'.nextRefusalId

theorem extends_of_records (h : q'.records = q.records) : q.Extends q' := by
  have hrefusals : q'.refusals = q.refusals := congrArg Prod.fst h
  have hnext : q'.nextRefusalId = q.nextRefusalId := congrArg Prod.snd h
  refine ⟨hnext.ge, ?_, ?_⟩
  · intro id refusal hid _
    rw [hrefusals] at hid
    exact ⟨refusal, hid, rfl⟩
  · intro id refusal hid
    rw [hrefusals] at hid
    exact .inl (by rw [hid]; exact some_ne_none _)

theorem extends_overtake (h : q'.records = (q.overtakeRefusals key).records) : q.Extends q' := by
  have hrefusals : q'.refusals = (q.overtakeRefusals key).refusals := congrArg Prod.fst h
  have hnext : q'.nextRefusalId = q.nextRefusalId := congrArg Prod.snd h
  have hover : ∀ id refusal, q'.refusals id = some refusal →
      ∃ before, q.refusals id = some before ∧ refusal.key = before.key := by
    intro id refusal hid
    rw [hrefusals] at hid
    obtain ⟨before, hbefore, rfl⟩ := map_eq_some_iff.mp hid
    exact ⟨before, hbefore, by split <;> rfl⟩
  refine ⟨hnext.ge, fun id refusal hid _ => hover id refusal hid, fun id refusal hid => ?_⟩
  obtain ⟨before, hbefore, -⟩ := hover id refusal hid
  exact .inl (by rw [hbefore]; exact some_ne_none _)

theorem extends_add {flightId : ℕ} : q.Extends (q.addRefusal key flightId) := by
  have hrefusals : (q.addRefusal key flightId).refusals =
      update q.refusals q.nextRefusalId (some ⟨key, flightId, false⟩) := rfl
  have hnext : (q.addRefusal key flightId).nextRefusalId = q.nextRefusalId + 1 := rfl
  refine ⟨by omega, ?_, ?_⟩
  · intro id refusal hid hlt
    rw [hrefusals, update_of_ne hlt.ne] at hid
    exact ⟨refusal, hid, rfl⟩
  · intro id refusal hid
    by_cases heq : id = q.nextRefusalId
    · exact .inr (by omega)
    · rw [hrefusals, update_of_ne heq] at hid
      exact .inl (by rw [hid]; exact some_ne_none _)

theorem extends_takeRefusal {id : ℕ} : q.Extends (q.takeRefusal id).2 := by
  have hsame : ∀ i refusal, (q.takeRefusal id).2.refusals i = some refusal →
      q.refusals i = some refusal := by
    intro i refusal hi
    have hi : update q.refusals id none i = some refusal := hi
    by_cases heq : i = id
    · rw [heq, update_self] at hi
      cases hi
    · rwa [update_of_ne heq] at hi
  refine ⟨le_rfl, ?_, ?_⟩
  · intro i refusal hi _
    exact ⟨refusal, hsame i refusal hi, rfl⟩
  · intro i refusal hi
    exact .inl (by rw [hsame i refusal hi]; exact some_ne_none _)

theorem Extends.trans {q'' : UploadQueue} (h : q.Extends q') (h' : q'.Extends q'') :
    q.Extends q'' := by
  refine ⟨h.next.trans h'.next, ?_, ?_⟩
  · intro id refusal hid hlt
    obtain ⟨between, hbetween, hkey⟩ := h'.id id refusal hid (hlt.trans_le h.next)
    obtain ⟨before, hbefore, hkey'⟩ := h.id id between hbetween hlt
    exact ⟨before, hbefore, hkey.trans hkey'⟩
  · intro id refusal hid
    rcases h'.bound id refusal hid with hold | hlt
    · obtain ⟨between, hbetween⟩ := ne_none_iff_exists'.mp hold
      rcases h.bound id between hbetween with hold | hlt
      · exact .inl hold
      · exact .inr (hlt.trans_le h'.next)
    · exact .inr hlt

theorem extends_refuse : q.Extends (q.refuse key).2 := by
  have hrecords : (q.refuse key).2.records = _ := records_refuse
  by_cases hflying : q.inFlight key = true
  · rw [if_pos hflying] at hrecords
    have hadd : (q.refuse key).2.records =
        ((q.overtakeRefusals key).addRefusal key ((q.inFlightId key).getD 0)).records := hrecords
    have hover : q.Extends (q.overtakeRefusals key) := extends_overtake rfl
    exact (hover.trans extends_add).trans (extends_of_records hadd)
  · rw [if_neg hflying] at hrecords
    exact extends_of_records hrecords

theorem extends_enqueue (blob : Option HeldBlob) (journal : Bool) :
    q.Extends (q.enqueue key blob journal).2 := by
  rw [enqueue]
  split
  · exact extends_overtake (records_accept blob journal)
  · exact extends_refuse

theorem keysMatch_of_view (hq : q.KeysMatch)
    (hkey : ∀ item, (q'.view key).waiting = some item → item.key = key)
    (hother : ∀ k, k ≠ key → q'.view k = q.view k) : q'.KeysMatch := by
  intro k item hitem
  have hitem : (q'.view k).waiting = some item := hitem
  by_cases hk : k = key
  · subst hk
    exact hkey item hitem
  · rw [hother k hk] at hitem
    exact hq k item hitem

theorem keysMatch_enqueue (hq : q.KeysMatch) (blob : Option HeldBlob) (journal : Bool) :
    (q.enqueue key blob journal).2.KeysMatch := by
  rw [enqueue]
  split
  · refine keysMatch_of_view hq ?_ (fun k hk => by rw [view_accept, if_neg hk])
    intro item hitem
    rw [view_accept, if_pos rfl, KeyQueue.accept] at hitem
    split at hitem
    · exact hq key item hitem
    · split at hitem <;> cases hitem
      next before hbefore => exact hq key before hbefore
      next => rfl
  · refine keysMatch_of_view hq ?_ (fun k hk => by rw [view_refuse, if_neg hk])
    intro item
    rw [view_refuse, if_pos rfl]
    fun_cases KeyQueue.refuse (q.view key) <;> intro hitem
    case case2 => cases hitem
    all_goals exact hq key item hitem

theorem keysMatch_finish (hq : q.KeysMatch) : (q.finish item).2.2.KeysMatch := by
  refine keysMatch_of_view hq ?_ (fun k hk => by rw [view_finish, if_neg hk])
  intro queued
  rw [view_finish, if_pos rfl]
  fun_cases KeyQueue.finish (q.view item.key) item <;> intro hqueued
  case case3 => cases hqueued; rfl
  all_goals exact hq _ queued hqueued

theorem keysMatch_requeue (hq : q.KeysMatch) : (q.requeue item).2.KeysMatch := by
  refine keysMatch_of_view hq ?_ (fun k hk => by rw [view_requeue, if_neg hk])
  intro queued
  rw [view_requeue, if_pos rfl]
  fun_cases KeyQueue.requeue (q.view item.key) item <;> intro hqueued
  case case1 => exact hq _ queued hqueued
  all_goals cases hqueued; rfl

theorem keysMatch_takeReady (hq : q.KeysMatch) {now : ℕ}
    (h : q.takeReady now = some (item, q')) : q'.KeysMatch := by
  obtain ⟨-, hviews⟩ := view_takeReady hq h
  refine keysMatch_of_view hq ?_ (fun k hk => by rw [hviews, if_neg hk])
  intro queued hqueued
  rw [hviews, if_pos rfl] at hqueued
  cases hqueued

theorem keysMatch_beginSync (hq : q.KeysMatch) {gen : ℕ}
    (h : q.beginSync key = some (gen, q')) : q'.KeysMatch := by
  obtain ⟨-, -, hviews⟩ := view_beginSync h
  refine keysMatch_of_view hq ?_ (fun k hk => by rw [hviews, if_neg hk])
  intro queued hqueued
  rw [hviews, if_pos rfl] at hqueued
  exact hq key queued hqueued

end UploadQueue

namespace Daemon

/-- What a thread has at a control point: no record of a request that is not its own, and the shared
records that it waits for, which are those of its key. -/
structure Owns (q : UploadQueue) (gets : ℕ → Option GetRecord) (put : Option PutRecord)
    (get : Option GetRecord) (c : Control) : Prop where
  watchId : ∀ id, c = .putRefused (some id) → id < q.nextRefusalId
  watch : ∀ id p, c = .putRefused (some id) → put = some p →
    ∀ refusal, q.refusals id = some refusal → refusal.key = p.key
  worker : c.isWorker = true → put = none ∧ get = none
  getter : c.isGet = true → put = none ∧ ∃ g, get = some g
  joined : ∀ fetch g, c = .getJoined fetch → get = some g → (gets fetch).map (·.key) = some g.key

/-- What the threads of a daemon own, and whose the shared records are. -/
structure Wf (s : Daemon) : Prop where
  waitingKey : s.uploads.KeysMatch
  refusalId : ∀ id refusal, s.uploads.refusals id = some refusal → id < s.uploads.nextRefusalId
  threads : ∀ tid, Owns s.uploads s.gets (s.puts tid) (s.gets tid) (s.control tid)
  fetch : ∀ j fetch, s.fetches j = some fetch → (s.gets fetch).map (·.key) = some j
  result : ∀ tid value, s.fetchResult tid = some value → s.gets tid ≠ none

theorem start_wf (journalled : Bool) (maxHeldBytes : ℕ) (disk bucket : Str → Option Str) :
    (start journalled maxHeldBytes disk bucket).Wf where
  waitingKey := nofun
  refusalId := nofun
  threads := fun _ => ⟨nofun, nofun, fun _ => ⟨rfl, rfl⟩, nofun, nofun⟩
  fetch := nofun
  result := nofun

variable {cfg : DaemonConfig} {s s' : Daemon} {tid : ℕ} {c : Control} {j : Str}

theorem Wf.fresh (hs : s.Wf) : s.uploads.refusals s.uploads.nextRefusalId = none := by
  by_contra hsome
  obtain ⟨refusal, hrefusal⟩ := ne_none_iff_exists'.mp hsome
  exact lt_irrefl _ (hs.refusalId _ refusal hrefusal)

theorem Owns.of_own {q : UploadQueue} {gets : ℕ → Option GetRecord} {put : Option PutRecord}
    {get : Option GetRecord} (hown : c.isOwn = true)
    (hworker : c.isWorker = true → put = none ∧ get = none)
    (hget : c.isGet = true → put = none ∧ ∃ g, get = some g) : Owns q gets put get c := by
  refine ⟨?_, ?_, hworker, hget, ?_⟩
  · rintro id rfl
    cases hown
  · rintro id p rfl
    cases hown
  · rintro fetch g rfl
    cases hown

theorem Owns.of_watch {q : UploadQueue} {gets : ℕ → Option GetRecord} {put : Option PutRecord}
    {get : Option GetRecord} {watch : Option ℕ}
    (h : ∀ id, watch = some id → id < q.nextRefusalId ∧ ∀ p, put = some p →
      ∀ refusal, q.refusals id = some refusal → refusal.key = p.key) :
    Owns q gets put get (.putRefused watch) := by
  refine ⟨?_, ?_, nofun, nofun, nofun⟩
  · rintro id ⟨⟩
    exact (h id rfl).1
  · rintro id p ⟨⟩
    exact (h id rfl).2 p

/-- A thread may go where it has the record that it needs there. -/
theorem Wf.goto (hs : s.Wf) (h : Owns s.uploads s.gets (s.puts tid) (s.gets tid) c) :
    (s.goto tid c).Wf := by
  refine ⟨hs.waitingKey, hs.refusalId, fun t => ?_, hs.fetch, hs.result⟩
  by_cases heq : t = tid
  · subst heq
    rw [show (s.goto t c).control t = c from update_self ..]
    exact h
  · rw [show (s.goto tid c).control t = s.control t from update_of_ne heq ..]
    exact hs.threads t

theorem Wf.goto_own (hs : s.Wf) {before : Control} (hc : s.control tid = before)
    (h : before.mayGo c = true) : (s.goto tid c).Wf := by
  simp only [Control.mayGo, Bool.and_eq_true, Bool.or_eq_true, Bool.not_eq_true', ← hc] at h
  obtain ⟨⟨hown, hworker⟩, hget⟩ := h
  refine hs.goto (.of_own hown (fun h => (hs.threads tid).worker ?_)
    (fun h => (hs.threads tid).getter ?_))
  · exact hworker.resolve_right (by rw [h]; simp)
  · exact hget.resolve_right (by rw [h]; simp)

theorem Wf.setPut (hs : s.Wf) (hworker : (s.control tid).isWorker = false)
    (hget : (s.control tid).isGet = false)
    (hkey : (s.puts tid).map (·.key) = some p.key ∨ ∀ id, s.control tid ≠ .putRefused (some id)) :
    (s.setPut tid p).Wf := by
  refine ⟨hs.waitingKey, hs.refusalId, fun t => ?_, hs.fetch, hs.result⟩
  by_cases heq : t = tid
  · subst heq
    rw [show (s.setPut t p).puts t = some p from update_self ..]
    refine ⟨(hs.threads t).watchId, ?_, fun ht => absurd (hworker.symm.trans ht) Bool.false_ne_true,
      fun ht => absurd (hget.symm.trans ht) Bool.false_ne_true, (hs.threads t).joined⟩
    rintro id _ ht ⟨⟩ refusal hrefusal
    rcases hkey with hkey | hkey
    · obtain ⟨before, hbefore, hsame⟩ := map_eq_some_iff.mp hkey
      rw [← hsame]
      exact (hs.threads t).watch id before ht hbefore refusal hrefusal
    · exact absurd ht (hkey id)
  · rw [show (s.setPut tid p).puts t = s.puts t from update_of_ne heq ..]
    exact hs.threads t

/-- A get notes something in its record, or a thread without a request takes one. -/
theorem Wf.setGet_goto (hs : s.Wf) {g : GetRecord} (hput : s.puts tid = none)
    (hkey : (s.gets tid).map (·.key) = some g.key ∨ s.gets tid = none)
    (hworker : c.isWorker = false) (hown : c.isOwn = true) :
    ((s.setGet tid g).goto tid c).Wf := by
  have hgets : ∀ t, t ≠ tid → (s.setGet tid g).gets t = s.gets t := fun t ht => update_of_ne ht ..
  have hself : (s.setGet tid g).gets tid = some g := update_self ..
  have hkeys : ∀ t j, (s.gets t).map (·.key) = some j →
      ((s.setGet tid g).gets t).map (·.key) = some j := by
    intro t j ht
    by_cases heq : t = tid
    · subst heq
      rcases hkey with hkey | hkey
      · rw [hself, ← ht, hkey]
        rfl
      · rw [hkey] at ht
        cases ht
    · rw [hgets t heq]
      exact ht
  have hset : (s.setGet tid g).gets = ((s.setGet tid g).goto tid c).gets := rfl
  refine ⟨hs.waitingKey, hs.refusalId, fun t => ?_, fun j t ht => hkeys t j (hs.fetch j t ht), ?_⟩
  · by_cases heq : t = tid
    · subst heq
      rw [← hset, hself, show ((s.setGet t g).goto t c).control t = c from update_self ..]
      exact .of_own hown (fun ht => absurd (hworker.symm.trans ht) Bool.false_ne_true)
        (fun _ => ⟨hput, g, rfl⟩)
    · rw [← hset, hgets t heq,
        show ((s.setGet tid g).goto tid c).control t = s.control t from update_of_ne heq ..]
      exact { hs.threads t with
        joined := fun fetch r ht hr => hkeys fetch r.key ((hs.threads t).joined fetch r ht hr) }
  · intro t value hvalue
    by_cases heq : t = tid
    · subst heq
      exact fun hnone => some_ne_none g (hself.symm.trans hnone)
    · exact fun hnone => hs.result t value hvalue ((hgets t heq).symm.trans hnone)

theorem Wf.setUploads (hs : s.Wf) {q : UploadQueue} (hkeys : q.KeysMatch)
    (h : s.uploads.Extends q) : (s.setUploads q).Wf := by
  refine ⟨hkeys, ?_, fun t => { hs.threads t with watchId := ?_, watch := ?_ }, hs.fetch, hs.result⟩
  · intro id refusal hid
    rcases h.bound id refusal hid with hold | hlt
    · obtain ⟨before, hbefore⟩ := ne_none_iff_exists'.mp hold
      exact (hs.refusalId id before hbefore).trans_le h.next
    · exact hlt
  · intro id ht
    exact ((hs.threads t).watchId id ht).trans_le h.next
  · intro id p ht hp refusal hrefusal
    obtain ⟨before, hbefore, hkey⟩ := h.id id refusal hrefusal ((hs.threads t).watchId id ht)
    exact hkey.trans ((hs.threads t).watch id p ht hp before hbefore)

theorem Wf.enqueue (hs : s.Wf) (hc : (s.control tid).isWorker = false)
    (hget : (s.control tid).isGet = false) (hp : s.puts tid = some p) (blob : Option HeldBlob)
    (journal : Bool) :
    ((s.setPut tid { p with queued := some s.clock }).setUploads
      (s.uploads.enqueue p.key blob journal).2).Wf := by
  have hput : (s.setPut tid { p with queued := some s.clock }).Wf :=
    hs.setPut hc hget (.inl (by rw [hp]; rfl))
  exact hput.setUploads (keysMatch_enqueue hs.waitingKey blob journal)
    (extends_enqueue blob journal)

theorem Wf.enqueueHeld (hs : s.Wf) (hc : s.control tid = .putDisked false)
    (hp : s.puts tid = some p) : (s.enqueueHeld tid p).Wf := by
  have hqueued := hs.enqueue (by rw [hc]; rfl) (by rw [hc]; rfl) hp
    (some ⟨tid, p.value⟩) false
  rw [Daemon.enqueueHeld]
  by_cases hfits : (s.uploads.enqueue p.key (some ⟨tid, p.value⟩) false).1.accepted = true
  · rw [if_pos hfits]
    exact hqueued.goto_own hc rfl
  · have hrefused := enqueue_refused (eq_false_of_ne_true hfits)
    rw [if_neg hfits]
    rw [hrefused] at hqueued ⊢
    refine hqueued.goto (.of_watch fun id hid => ?_)
    have hid : (if (s.uploads.refuse p.key).1.inFlight then
        some (s.uploads.refuse p.key).1.refusalId else none) = some id := hid
    obtain ⟨hflying, rfl⟩ : s.uploads.inFlight p.key = true ∧ id = s.uploads.nextRefusalId := by
      revert hid
      fun_cases refuse s.uploads p.key <;> intro hid
      next hflying => exact ⟨hflying, (some.inj hid).symm⟩
      all_goals cases hid
    have hrecords : (s.uploads.refuse p.key).2.records = _ := records_refuse
    rw [if_pos hflying] at hrecords
    have hrefusals : (s.uploads.refuse p.key).2.refusals =
        update (s.uploads.overtakeRefusals p.key).refusals s.uploads.nextRefusalId
          (some ⟨p.key, (s.uploads.inFlightId p.key).getD 0, false⟩) := congrArg Prod.fst hrecords
    have hnext : (s.uploads.refuse p.key).2.nextRefusalId = s.uploads.nextRefusalId + 1 :=
      congrArg Prod.snd hrecords
    refine ⟨?_, ?_⟩
    · change s.uploads.nextRefusalId < (s.uploads.refuse p.key).2.nextRefusalId
      omega
    · intro r hr refusal hrefusal
      have hself : ((s.setPut tid { p with queued := some s.clock }).setUploads
        (s.uploads.refuse p.key).2).puts tid = some { p with queued := some s.clock } :=
        update_self ..
      have hrefusal : (s.uploads.refuse p.key).2.refusals s.uploads.nextRefusalId =
        some refusal := hrefusal
      cases hself.symm.trans hr
      rw [hrefusals, update_self] at hrefusal
      cases hrefusal
      rfl

theorem extends_takeWatched (watch : Option ℕ) :
    s.uploads.Extends (takeWatched s.uploads watch).2 := by
  cases watch with
  | none => exact extends_of_records rfl
  | some id => exact extends_takeRefusal

theorem Wf.retry (hs : s.Wf) {watch : Option ℕ} (hc : s.control tid = .putRefused watch)
    (hp : s.puts tid = some p) :
    (s.retry tid p watch).Wf := by
  have hkeys : (takeWatched s.uploads watch).2.KeysMatch := by
    cases watch with
    | none | some id => exact hs.waitingKey
  have hextends := extends_takeWatched (s := s) watch
  have hput : ∀ q : UploadQueue, (s.setUploads q).puts tid = some p := fun _ => hp
  rw [Daemon.retry]
  generalize takeWatched s.uploads watch = taken at hkeys hextends
  have hsync : ∀ gen uploads, taken.2.beginSync p.key = some (gen, uploads) →
      ((s.setUploads uploads).goto tid (.putSyncing gen)).Wf := by
    intro gen uploads hsync
    have hrecords := records_beginSync hsync
    exact (hs.setUploads (keysMatch_beginSync hkeys hsync)
      (hextends.trans (extends_of_records hrecords))).goto_own hc rfl
  split
  next => exact (hs.setUploads hkeys hextends).goto_own hc rfl
  next =>
    split
    next gen uploads hbegin => exact hsync gen uploads hbegin
    next hbegin =>
      split
      next id uploads hwatch =>
        obtain ⟨flightId, hflight, heq⟩ := map_eq_some_iff.mp hwatch
        cases heq
        have hadd : (s.setUploads (taken.2.addRefusal p.key flightId)).Wf :=
          hs.setUploads hkeys (hextends.trans extends_add)
        refine hadd.goto (.of_watch fun id hid => ?_)
        cases hid
        refine ⟨Nat.lt_succ_self _, ?_⟩
        intro r hr refusal hrefusal
        obtain rfl := some.inj ((hput _).symm.trans hr)
        have hself : (taken.2.addRefusal p.key flightId).refusals taken.2.nextRefusalId =
          some ⟨p.key, flightId, false⟩ := update_self ..
        cases hself.symm.trans hrefusal
        rfl
      next =>
        split
        next hagain => cases hagain
        next => exact (hs.setUploads hkeys hextends).goto_own hc rfl

theorem Wf.countFailed (hs : s.Wf) (failed : Bool) : (s.countFailed failed).Wf :=
  ⟨hs.waitingKey, hs.refusalId, hs.threads, hs.fetch, hs.result⟩

theorem Wf.setBucket (hs : s.Wf) (value : Str) : (s.setBucket j value).Wf :=
  ⟨hs.waitingKey, hs.refusalId, hs.threads, hs.fetch, hs.result⟩

theorem Wf.setDisk (hs : s.Wf) (value : Str) : (s.setDisk j value).Wf :=
  ⟨hs.waitingKey, hs.refusalId, hs.threads, hs.fetch, hs.result⟩

theorem Wf.finish (hs : s.Wf) (failed : Bool) (item : UploadItem) :
    ((s.countFailed failed).setUploads (s.uploads.finish item).2.2).Wf :=
  (hs.countFailed failed).setUploads (keysMatch_finish hs.waitingKey)
    (extends_of_records records_finish)

/-! ## Every step keeps it -/

theorem startPut_wf (hs : s.Wf) {key value : Str} : s.startPut tid key value = some s' → s'.Wf := by
  fun_cases startPut s tid key value <;> rintro ⟨⟩
  next hc =>
    have harrived : (s.goto tid .putArrived).Wf := hs.goto_own hc rfl
    have hcontrol : (s.goto tid .putArrived).control tid = .putArrived := update_self ..
    exact harrived.setPut (by rw [hcontrol]; rfl) (by rw [hcontrol]; rfl)
      (.inr (fun _ heq => nomatch hcontrol.symm.trans heq))

theorem putDisk_wf (hs : s.Wf) : s.putDisk cfg tid ok = some s' → s'.Wf := by
  fun_cases putDisk cfg s tid ok <;> rintro ⟨⟩
  next p hp hc _ =>
    have hworker : (s.control tid).isWorker = false := by rw [hc]; rfl
    have hget : (s.control tid).isGet = false := by rw [hc]; rfl
    have hkey : (s.puts tid).map (·.key) = some p.key := by rw [hp]; rfl
    have hput : ((s.setDisk p.key p.value).setPut tid { p with written := some s.clock }).Wf :=
      (hs.setDisk p.value).setPut hworker hget (.inl hkey)
    exact hput.goto_own hc rfl
  next _ hc _ => exact hs.goto_own hc rfl

theorem putUpload_wf (hs : s.Wf) : s.putUpload tid ok = some s' → s'.Wf := by
  fun_cases putUpload s tid ok <;> rintro ⟨⟩
  next p hp hc =>
    split
    · exact (hs.setBucket p.value).goto_own hc rfl
    · exact hs.goto_own hc rfl

theorem putFinish_wf (hs : s.Wf) : s.putFinish tid = some s' → s'.Wf := by
  fun_cases putFinish s tid <;> rintro ⟨⟩
  next hc => exact (hs.finish _ _).goto_own hc rfl

theorem putReply_wf (hs : s.Wf) : s.putReply tid = some s' → s'.Wf := by
  fun_cases putReply s tid <;> rintro ⟨⟩
  next hp hc =>
    exact (hs.setPut (by rw [hc]; rfl) (by rw [hc]; rfl) (.inl (by rw [hp]; rfl))).goto_own hc rfl

theorem putEnqueue_wf (hs : s.Wf) : s.putEnqueue cfg tid = some s' → s'.Wf := by
  fun_cases putEnqueue cfg s tid <;> rintro ⟨⟩
  next _ hc _ => exact hs.goto_own hc rfl
  next hp _ hc =>
    exact (hs.enqueue (by rw [hc]; rfl) (by rw [hc]; rfl) hp none true).goto_own hc rfl
  next hp hc _ hdisk => exact hs.enqueueHeld (by rw [hc, eq_false_of_ne_true hdisk]) hp

theorem putRetry_wf (hs : s.Wf) : s.putRetry tid = some s' → s'.Wf := by
  fun_cases putRetry s tid <;> rintro ⟨⟩
  next hp hc => exact hs.retry hc hp

theorem take_wf (hs : s.Wf) {now : ℕ} : s.take tid now = some s' → s'.Wf := by
  fun_cases take s tid now <;> intro h
  next hc =>
    obtain ⟨⟨item, q⟩, htaken, rfl⟩ := map_eq_some_iff.mp h
    have hq : (s.setUploads q).Wf :=
      hs.setUploads (keysMatch_takeReady hs.waitingKey htaken)
        (extends_of_records (records_takeReady htaken))
    exact hq.goto_own hc rfl
  next => cases h

theorem load_wf (hs : s.Wf) : s.load cfg tid = some s' → s'.Wf := by
  fun_cases load cfg s tid <;> rintro ⟨⟩
  next hc => exact hs.goto_own hc rfl

theorem send_wf (hs : s.Wf) {now : ℕ} : s.send tid ok now = some s' → s'.Wf := by
  fun_cases send s tid ok now <;> rintro ⟨⟩
  next hc => exact hs.goto_own hc rfl
  next blob hc _ => exact (hs.setBucket blob).goto_own hc rfl
  next hc _ =>
    rw [sendFailed]
    split
    · exact hs.goto_own hc rfl
    · exact hs.goto_own hc rfl

theorem settle_wf (hs : s.Wf) : s.settle tid = some s' → s'.Wf := by
  fun_cases settle s tid <;> rintro ⟨⟩
  next item hc =>
    have hq : (s.setUploads (s.uploads.requeue item).2).Wf :=
      hs.setUploads (keysMatch_requeue hs.waitingKey)
        (extends_of_records records_requeue)
    exact hq.goto_own hc rfl
  next hc => exact (hs.finish _ _).goto_own hc rfl

theorem startGet_wf (hs : s.Wf) {key : Str} : s.startGet tid key = some s' → s'.Wf := by
  fun_cases startGet s tid key <;> rintro ⟨⟩
  next hc =>
    obtain ⟨hput, hget⟩ := (hs.threads tid).worker (by rw [hc]; rfl)
    exact hs.setGet_goto hput (.inr hget) rfl rfl

theorem getDisk_wf (hs : s.Wf) : s.getDisk cfg tid = some s' → s'.Wf := by
  fun_cases getDisk cfg s tid <;> rintro ⟨⟩
  next hc _ _ => exact hs.goto_own hc rfl
  next hg hc _ =>
    have hget : (s.control tid).isGet = true := by rw [hc]; rfl
    exact hs.setGet_goto ((hs.threads tid).getter hget).1 (.inl (by rw [hg]; rfl)) rfl rfl

theorem getHeld_wf (hs : s.Wf) : s.getHeld cfg tid = some s' → s'.Wf := by
  fun_cases getHeld cfg s tid <;> rintro ⟨⟩
  next hc _ _ => exact hs.goto_own hc rfl
  next hc _ =>
    split
    · exact hs.goto_own hc rfl
    · exact hs.goto_own hc rfl

theorem getJoin_wf (hs : s.Wf) : s.getJoin tid = some s' → s'.Wf := by
  fun_cases getJoin s tid <;> intro h
  next hc =>
    obtain ⟨value, -, rfl⟩ := map_eq_some_iff.mp h
    exact hs.goto_own hc rfl
  next => cases h

theorem getTimeout_wf (hs : s.Wf) : s.getTimeout tid = some s' → s'.Wf := by
  fun_cases getTimeout s tid <;> rintro ⟨⟩
  next hc _ => exact hs.goto_own hc rfl

theorem getS3_wf (hs : s.Wf) : s.getS3 tid = some s' → s'.Wf := by
  fun_cases getS3 s tid <;> rintro ⟨⟩
  next hc => exact hs.goto_own hc rfl

theorem getBackfill_wf (hs : s.Wf) : s.getBackfill cfg tid ok = some s' → s'.Wf := by
  fun_cases getBackfill cfg s tid ok <;> rintro ⟨⟩
  next hc => exact hs.goto_own hc rfl
  next value _ _ hc =>
    split
    · exact (hs.setDisk value).goto_own hc rfl
    · exact hs.goto_own hc rfl

theorem getReply_wf (hs : s.Wf) : s.getReply tid = some s' → s'.Wf := by
  fun_cases getReply s tid <;> rintro ⟨⟩
  next hg hc =>
    exact hs.setGet_goto ((hs.threads tid).getter (by rw [hc]; rfl)).1 (.inl (by rw [hg]; rfl)) rfl
      rfl

theorem getFetch_wf (hs : s.Wf) : s.getFetch tid = some s' → s'.Wf := by
  fun_cases getFetch s tid <;> rintro ⟨⟩
  next hg hc fetch hfetch =>
    have hget : (s.control tid).isGet = true := by rw [hc]; rfl
    refine hs.goto ⟨nofun, nofun, nofun, fun _ => (hs.threads tid).getter hget, ?_⟩
    rintro _ r ⟨⟩ hr
    cases hg.symm.trans hr
    exact hs.fetch _ _ hfetch
  next g hg hc hfetch =>
    have hset : ({ s with fetches := update s.fetches g.key (some tid) } : Daemon).Wf := by
      refine ⟨hs.waitingKey, hs.refusalId, hs.threads, ?_, hs.result⟩
      intro j fetch hj
      by_cases heq : j = g.key
      · subst heq
        have hself : update s.fetches g.key (some tid) g.key = some tid := update_self ..
        cases hself.symm.trans hj
        exact congrArg (Option.map (·.key)) hg
      · exact hs.fetch j fetch ((update_of_ne heq ..).symm.trans hj)
    exact hset.goto_own hc rfl

theorem getDone_wf (hs : s.Wf) : s.getDone tid = some s' → s'.Wf := by
  fun_cases getDone s tid <;> rintro ⟨⟩
  next value g hg hc =>
    have hset : ({ s with
        fetchResult := update s.fetchResult tid (some value)
        fetches := if s.fetches g.key = some tid then update s.fetches g.key none
          else s.fetches } : Daemon).Wf := by
      refine ⟨hs.waitingKey, hs.refusalId, hs.threads, ?_, ?_⟩
      · intro j fetch hj
        by_cases hown : s.fetches g.key = some tid
        · simp only [hown, if_true] at hj
          by_cases heq : j = g.key
          · rw [heq, update_self] at hj
            cases hj
          · rw [update_of_ne heq] at hj
            exact hs.fetch j fetch hj
        · simp only [hown, if_false] at hj
          exact hs.fetch j fetch hj
      · intro t result ht
        by_cases heq : t = tid
        · rw [heq]
          exact fun hnone => some_ne_none g (hg.symm.trans hnone)
        · exact hs.result t result ((update_of_ne heq ..).symm.trans ht)
    exact hset.goto_own hc rfl

theorem step_wf (hs : s.Wf) {e : DaemonEvent} (h : step cfg s e = some s') : s'.Wf := by
  cases e with
  | startPut tid key value => exact startPut_wf hs h
  | putDisk tid ok => exact putDisk_wf hs h
  | putEnqueue tid => exact putEnqueue_wf hs h
  | putRetry tid => exact putRetry_wf hs h
  | putUpload tid ok => exact putUpload_wf hs h
  | putFinish tid => exact putFinish_wf hs h
  | putReply tid => exact putReply_wf hs h
  | take tid now => exact take_wf hs h
  | load tid => exact load_wf hs h
  | send tid ok now => exact send_wf hs h
  | settle tid => exact settle_wf hs h
  | startGet tid key => exact startGet_wf hs h
  | getDisk tid => exact getDisk_wf hs h
  | getHeld tid => exact getHeld_wf hs h
  | getFetch tid => exact getFetch_wf hs h
  | getJoin tid => exact getJoin_wf hs h
  | getTimeout tid => exact getTimeout_wf hs h
  | getS3 tid => exact getS3_wf hs h
  | getBackfill tid ok => exact getBackfill_wf hs h
  | getDone tid => exact getDone_wf hs h
  | getReply tid => exact getReply_wf hs h

end Daemon

end Vcache

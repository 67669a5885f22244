import Vcache.KeyDaemon

/-!
# Every step of the daemon is a step for every key

`step_key`, one handler at a time: the thread's own key takes the step of the same
name, every other key at most sees the counters that the keys share.
-/

namespace Vcache

open UploadQueue Option Function

/-- Only the counters that the keys share may have grown. -/
def KeyState.Counted (s u : KeyState) : Prop :=
  ∃ nextId failed, s.nextRefusalId ≤ nextId ∧ s.uploadsFailed ≤ failed ∧
    u = { s with nextRefusalId := nextId, uploadsFailed := failed }

theorem KeyState.Counted.refl (s : KeyState) : s.Counted s := ⟨_, _, le_rfl, le_rfl, rfl⟩

namespace Daemon

variable {cfg : DaemonConfig} {s s' u : Daemon} {tid : ℕ} {j k : Str} {c before : Control}
  {e : DaemonEvent} {p p' : PutRecord} {g g' : GetRecord} {item : UploadItem}

theorem counted_of_set {v : KeyState} (hset : u.key k = if j = k then v else s.key k) (hj : j ≠ k) :
    (s.key k).Counted (u.key k) := by
  rw [hset, if_neg hj]
  exact .refl _

theorem threadStep_key (hc : s.control tid = before)
    (hbefore : (s.key k).threads tid = if j = k then s.control tid else .idle)
    (hafter : (u.goto tid c).key k = (u.key k).goto tid (if j = k then c else .idle))
    (hown : j = k → (s.key k).threads tid = before →
      KeyStep cfg k (s.key k) e ((u.key k).goto tid c))
    (hother : j ≠ k → (s.key k).Counted (u.key k)) :
    KeyStep cfg k (s.key k) e ((u.goto tid c).key k) := by
  rw [hafter]
  by_cases hj : j = k
  · rw [if_pos hj] at hbefore ⊢
    exact hown hj (hbefore.trans hc)
  · rw [if_neg hj] at hbefore ⊢
    obtain ⟨nextId, failed, hid, hfailed, hu⟩ := hother hj
    have hidle : (u.key k).threads tid = .idle := by
      rw [hu]
      exact hbefore
    rw [KeyState.goto_idle hidle, hu]
    exact .other _ _ _ hid hfailed

theorem putStep_key (hc : s.control tid = before) (hbefore : before.isWorker = false)
    (hp : s.puts tid = some p) (hu : u.puts tid = some p') (hkey : p'.key = p.key)
    (hafter : c.isWorker = false)
    (hown : p.key = k → (s.key k).threads tid = before → (s.key k).puts tid = some p →
      KeyStep cfg k (s.key k) e ((u.key k).goto tid c))
    (hother : p.key ≠ k → (s.key k).Counted (u.key k)) :
    KeyStep cfg k (s.key k) e ((u.goto tid c).key k) := by
  refine threadStep_key hc (threads_put hp (hc ▸ hbefore)) (hkey ▸ key_goto_put hu hafter)
    (fun hk hthread => hown hk hthread ?_) hother
  exact puts_key_iff.mpr ⟨hp, hk⟩

theorem getStep_key (hs : s.Wf) (hc : s.control tid = before)
    (hbefore : before.isGet = true) (hg : s.gets tid = some g)
    (hput : u.puts tid = s.puts tid) (hu : u.gets tid = some g') (hkey : g'.key = g.key)
    (hafter : c.isWorker = false)
    (hown : g.key = k → (s.key k).threads tid = before → (s.key k).gets tid = some g →
      KeyStep cfg k (s.key k) e ((u.key k).goto tid c))
    (hother : g.key ≠ k → (s.key k).Counted (u.key k)) :
    KeyStep cfg k (s.key k) e ((u.goto tid c).key k) := by
  have hnone := ((hs.threads tid).getter (hc ▸ hbefore)).1
  have hworker : before.isWorker = false := by
    cases before <;> first | rfl | cases hbefore
  refine threadStep_key hc (threads_get hnone hg (hc ▸ hworker))
    (hkey ▸ key_goto_get (hput.trans hnone) hu hafter) (fun hk hthread => hown hk hthread ?_) hother
  exact gets_key_iff.mpr ⟨hg, hk⟩

theorem threads_worker (hc : (s.control tid).Carries item) :
    (s.key k).threads tid = if item.key = k then s.control tid else .idle := by
  simp only [key]
  rcases hc with hc | ⟨blob, hc⟩ | ⟨outcome, hc⟩
  · rw [hc, Control.onKey_took]
  · rw [hc, Control.onKey_loaded]
  · rw [hc, Control.onKey_sent]

theorem workerStep_key (hc : s.control tid = before) (hbefore : before.Carries item)
    (hafter : c = .idle ∨ ∃ item', c.Carries item' ∧ item'.key = item.key)
    (hown : item.key = k → (s.key k).threads tid = before →
      KeyStep cfg k (s.key k) e ((u.key k).goto tid c))
    (hother : item.key ≠ k → (s.key k).Counted (u.key k)) :
    KeyStep cfg k (s.key k) e ((u.goto tid c).key k) := by
  refine threadStep_key hc (threads_worker (hc ▸ hbefore)) ?_ hown hother
  rcases hafter with rfl | ⟨item', hcarries, hkey⟩
  · rw [key_goto, Control.onKey_idle, ite_self]
  · rw [← hkey]
    exact key_goto_worker hcarries

/-! ## Puts -/

theorem startPut_key (hs : s.Wf) {key value : Str} :
    s.startPut tid key value = some s' →
      KeyStep cfg k (s.key k) (.startPut tid key value) (s'.key k) := by
  fun_cases startPut s tid key value <;> rintro ⟨⟩
  next hc =>
    have hnone := ((hs.threads tid).worker (by rw [hc]; rfl)).1
    have hthread : (s.key k).threads tid = .idle := threads_idle hc
    rw [key_goto_put (update_self ..) rfl, key_setPut (.inr ⟨hnone, hc⟩)]
    by_cases hk : key = k
    · subst hk
      rw [if_pos rfl, if_pos rfl]
      exact .startPut tid value hthread (by simp [Daemon.key, hnone])
    · rw [if_neg hk, if_neg hk, KeyState.goto_idle hthread]
      exact .other _ _ _ le_rfl le_rfl

theorem putDisk_key {ok : Bool} :
    s.putDisk cfg tid ok = some s' → KeyStep cfg k (s.key k) (.putDisk tid ok) (s'.key k) := by
  fun_cases putDisk cfg s tid ok <;> rintro ⟨⟩
  next p hp hc hdisk =>
    obtain ⟨hwritable, rfl⟩ : cfg.diskWritable = true ∧ ok = true := by simpa using hdisk
    have hset : ((s.setDisk p.key p.value).setPut tid { p with written := some s.clock }).key k =
        _ := key_setPut (.inl (congrArg (Option.map PutRecord.key) hp))
    refine putStep_key hc rfl hp (update_self ..) rfl rfl (fun hk hthread hput => ?_)
      (fun hk => ?_)
    · rw [hset, if_pos hk, key_setDisk, if_pos hk]
      exact .putOnDisk tid p hthread hput hwritable
    · rw [hset, if_neg hk, key_setDisk, if_neg hk]
      exact .refl _
  next hp hc hdisk =>
    refine putStep_key hc rfl hp hp rfl rfl (fun _ hthread _ => ?_) (fun _ => .refl _)
    exact .putNoDisk tid ok hthread (by simpa using hdisk)

theorem key_setQueued {q : UploadQueue} (hp : s.puts tid = some p) {queued : Option ℕ} :
    ((s.setPut tid { p with queued }).setUploads q).key k =
      if p.key = k then ((s.setUploads q).key k).setPut tid { p with queued }
      else (s.setUploads q).key k :=
  key_setPut (s := s.setUploads q) (.inl (congrArg (Option.map PutRecord.key) hp))

theorem enqueueOnDisk_key (hc : s.control tid = .putDisked true)
    (hp : s.puts tid = some p) (hs3 : cfg.s3Writable = true) :
    KeyStep cfg k (s.key k) (.putEnqueue tid) ((s.enqueueOnDisk tid p).key k) := by
  have haccept : (s.uploads.enqueue p.key none true).2 = (s.uploads.accept p.key none true).2 := rfl
  rw [enqueueOnDisk, haccept]
  refine putStep_key hc rfl hp (update_self ..) rfl rfl (fun hk hthread hput => ?_) (fun hk => ?_)
  · subst hk
    rw [key_setQueued hp, if_pos rfl, key_accept, if_pos rfl]
    exact .queueOnDisk tid p hthread hput hs3
  · rw [key_setQueued hp, if_neg hk, key_accept, if_neg hk]
    exact .refl _

theorem watch_refuse (s : Daemon) (j : Str) :
    (if (s.uploads.refuse j).1.inFlight then some (s.uploads.refuse j).1.refusalId else none) =
      if (s.key j).queue.inFlight then some (s.key j).nextRefusalId else none := by
  have hview : (s.key j).queue.inFlight = s.uploads.inFlight j := rfl
  rw [hview]
  fun_cases refuse s.uploads j <;> simp_all
  rfl

theorem enqueueHeld_key (hs : s.Wf) (hc : s.control tid = .putDisked false)
    (hp : s.puts tid = some p) (hs3 : cfg.s3Writable = true) :
    KeyStep cfg k (s.key k) (.putEnqueue tid) ((s.enqueueHeld tid p).key k) := by
  rw [enqueueHeld]
  by_cases hfits : (s.uploads.enqueue p.key (some ⟨tid, p.value⟩) false).1.accepted = true
  · rw [if_pos hfits, enqueue_accepted hfits]
    refine putStep_key hc rfl hp (update_self ..) rfl rfl (fun hk hthread hput => ?_) (fun hk => ?_)
    · subst hk
      rw [key_setQueued hp, if_pos rfl, key_accept, if_pos rfl]
      exact .queueHeld tid p hthread hput hs3
    · rw [key_setQueued hp, if_neg hk, key_accept, if_neg hk]
      exact .refl _
  · rw [if_neg hfits, enqueue_refused (eq_false_of_ne_true hfits), watch_refuse]
    refine putStep_key hc rfl hp (update_self ..) rfl rfl (fun hk hthread hput => ?_) (fun hk => ?_)
    · subst hk
      rw [key_setQueued hp, if_pos rfl, key_refuse hs, if_pos rfl]
      exact .queueRefused tid p hthread hput hs3
    · rw [key_setQueued hp, if_neg hk, key_refuse hs, if_neg hk]
      exact ⟨_, _, nextRefusalId_refuse, le_rfl, rfl⟩

theorem putEnqueue_key (hs : s.Wf) :
    s.putEnqueue cfg tid = some s' → KeyStep cfg k (s.key k) (.putEnqueue tid) (s'.key k) := by
  fun_cases putEnqueue cfg s tid <;> rintro ⟨⟩
  next onDisk p hp hc hs3 =>
    refine putStep_key hc rfl hp hp rfl rfl (fun _ hthread _ => ?_) (fun _ => .refl _)
    exact .putSkip tid onDisk hthread (by simpa using hs3)
  next hp hs3 hc => exact enqueueOnDisk_key hc hp (by simpa using hs3)
  next hp hc hs3 hdisk =>
    exact enqueueHeld_key hs (by rw [hc, eq_false_of_ne_true hdisk]) hp (by simpa using hs3)

theorem takeWatched_same (hfresh : s.uploads.refusals s.uploads.nextRefusalId = none)
    (watch : Option ℕ) :
    (takeWatched s.uploads watch).2.view k = s.uploads.view k ∧
      (takeWatched s.uploads watch).2.nextRefusalId = s.uploads.nextRefusalId ∧
      (takeWatched s.uploads watch).2.refusals s.uploads.nextRefusalId = none := by
  cases watch with
  | none => exact ⟨rfl, rfl, hfresh⟩
  | some id =>
    refine ⟨rfl, rfl, ?_⟩
    change update s.uploads.refusals id none s.uploads.nextRefusalId = none
    by_cases hid : s.uploads.nextRefusalId = id
    · rw [hid, update_self]
    · rw [update_of_ne hid, hfresh]

/-- A turn of a refused put. `watchFlight` fails only on a flight that has no id. -/
theorem retry_key (hs : s.Wf) {watch : Option ℕ} (hc : s.control tid = .putRefused watch)
    (hp : s.puts tid = some p) :
    KeyStep cfg k (s.key k) (.putRetry tid) ((s.retry tid p watch).key k) := by
  obtain ⟨hover, hkey⟩ := takeWatched_key (k := k) hs hc hp
  obtain ⟨hview, hnext, hfresh⟩ := takeWatched_same (k := k) hs.fresh watch
  obtain ⟨hown, -⟩ := takeWatched_same (k := p.key) hs.fresh watch
  have hinFlight : (takeWatched s.uploads watch).2.inFlight p.key = s.uploads.inFlight p.key :=
    congrArg KeyQueue.inFlight hown
  have hids : (takeWatched s.uploads watch).2.inFlightId p.key = s.uploads.inFlightId p.key :=
    congrArg KeyQueue.inFlightId hown
  rw [retry]
  generalize takeWatched s.uploads watch = taken at hover hkey hinFlight hids hview hnext hfresh
  split
  next htaken =>
    refine putStep_key hc rfl hp hp rfl rfl (fun hk hthread _ => ?_) (counted_of_set hkey)
    rw [hkey, if_pos hk]
    exact .retryOvertaken tid watch hthread ((hover hk).symm.trans htaken)
  next htaken =>
    have hnot : p.key = k → (s.key k).overtaken watch = false := by
      intro hk
      rw [← hover hk]
      exact eq_false_of_ne_true htaken
    split
    next gen uploads hsync =>
      obtain ⟨hlanded, rfl, hviews⟩ := view_beginSync hsync
      have hset : (s.setUploads uploads).key k =
          { (s.setUploads taken.2).key k with queue := uploads.view k } :=
        key_setUploads_view (s := s.setUploads taken.2) (records_beginSync hsync)
      refine putStep_key hc rfl hp hp rfl rfl (fun hk hthread _ => ?_) (fun hk => ?_)
      · subst hk
        rw [hset, hkey, if_pos rfl, hviews, if_pos rfl, hview]
        exact .retrySync tid watch _ hthread (hnot rfl) (hinFlight.symm.trans hlanded)
      · rw [hset, hkey, if_neg hk, hviews, if_neg (Ne.symm hk), hview]
        exact .refl _
    next hsync =>
      have hflying : s.uploads.inFlight p.key = true := by
        rw [← hinFlight]
        by_contra hlanded
        simp [beginSync, hlanded] at hsync
      split
      next id uploads hwatch =>
        obtain ⟨flightId, hflight, heq⟩ := map_eq_some_iff.mp hwatch
        cases heq
        have hset : (s.setUploads (taken.2.addRefusal p.key flightId)).key k =
            if p.key = k then ((s.setUploads taken.2).key k).addRefusal
            else { (s.setUploads taken.2).key k with nextRefusalId := taken.2.nextRefusalId + 1 } :=
          key_addRefusal (s := s.setUploads taken.2) (hnext ▸ hfresh)
        have hsome : s.uploads.inFlightId p.key ≠ none := by
          rw [← hids, hflight]
          exact some_ne_none _
        rw [hnext]
        refine putStep_key hc rfl hp hp rfl rfl (fun hk hthread _ => ?_) (fun hk => ?_)
        · subst hk
          rw [hset, if_pos rfl, hkey, if_pos rfl]
          exact .retryWatch tid watch hthread (hnot rfl) hflying hsome
        · rw [hset, if_neg hk, hkey, if_neg hk, hnext]
          exact ⟨_, _, Nat.le_succ _, le_rfl, rfl⟩
      next hwatch =>
        have hnone : s.uploads.inFlightId p.key = none := by
          rw [← hids]
          exact map_eq_none_iff.mp hwatch
        refine putStep_key (u := s.setUploads taken.2) hc rfl hp hp rfl rfl
          (fun hk hthread _ => ?_) (counted_of_set hkey)
        subst hk
        rw [hkey, if_pos rfl]
        exact .retryLost tid watch hthread (hnot rfl) hflying hnone

theorem putRetry_key (hs : s.Wf) :
    s.putRetry tid = some s' → KeyStep cfg k (s.key k) (.putRetry tid) (s'.key k) := by
  fun_cases putRetry s tid <;> rintro ⟨⟩
  next watch p hp hc =>
    exact retry_key hs hc hp

theorem putUpload_key {ok : Bool} :
    s.putUpload tid ok = some s' → KeyStep cfg k (s.key k) (.putUpload tid ok) (s'.key k) := by
  fun_cases putUpload s tid ok <;> rintro ⟨⟩
  next gen p hp hc =>
    have hbucket : (if ok then s.setBucket p.key p.value else s).key k =
        if p.key = k then { s.key k with bucket := if ok then some p.value else (s.key k).bucket }
        else s.key k := by
      cases ok with
      | true => exact key_setBucket
      | false => exact (ite_self _).symm
    refine putStep_key hc rfl hp (by split <;> exact hp) rfl rfl (fun hk hthread hput => ?_)
      (counted_of_set hbucket)
    rw [hbucket, if_pos hk]
    exact .putUpload tid ok p gen hthread hput

theorem putFinish_key :
    s.putFinish tid = some s' → KeyStep cfg k (s.key k) (.putFinish tid) (s'.key k) := by
  fun_cases putFinish s tid <;> rintro ⟨⟩
  next gen ok p hp hc =>
    refine putStep_key hc rfl hp hp rfl rfl (fun hk hthread _ => ?_) (fun hk => ?_)
    · subst hk
      rw [key_finish, if_pos rfl]
      exact .putFinish tid gen ok hthread
    · rw [key_finish, if_neg hk]
      exact ⟨_, _, le_rfl, Nat.le_add_right .., rfl⟩

theorem putReply_key :
    s.putReply tid = some s' → KeyStep cfg k (s.key k) (.putReply tid) (s'.key k) := by
  fun_cases putReply s tid <;> rintro ⟨⟩
  next stored p hp hc =>
    have hset : (s.setPut tid { p with replied := some (s.clock, stored) }).key k = _ :=
      key_setPut (.inl (congrArg (Option.map PutRecord.key) hp))
    refine putStep_key hc rfl hp (update_self ..) rfl rfl (fun hk hthread hput => ?_)
      (counted_of_set hset)
    rw [hset, if_pos hk]
    exact .putReply tid stored p hthread hput

/-! ## Workers -/

theorem take_key (hs : s.Wf) {now : ℕ} :
    s.take tid now = some s' → KeyStep cfg k (s.key k) (.take tid now) (s'.key k) := by
  fun_cases take s tid now <;> intro h
  next hc =>
    obtain ⟨⟨item, q⟩, htaken, rfl⟩ := map_eq_some_iff.mp h
    obtain ⟨hwaiting, hviews⟩ := view_takeReady hs.waitingKey htaken
    have hthread : (s.key k).threads tid = .idle := threads_idle hc
    have hset := key_setUploads_view (k := k) (records_takeReady htaken)
    refine threadStep_key hc (by rw [hthread, hc, ite_self]) (key_goto_worker (.inl rfl))
      (fun hk _ => ?_) (fun hk => ?_)
    · subst hk
      rw [hset, hviews, if_pos rfl]
      exact .take tid now item _ hthread
        (by simp [Daemon.key, ((hs.threads tid).worker (by rw [hc]; rfl)).1]) hwaiting rfl
    · rw [hset, hviews, if_neg (Ne.symm hk)]
      exact .refl _
  next => cases h

theorem load_key :
    s.load cfg tid = some s' → KeyStep cfg k (s.key k) (.load tid) (s'.key k) := by
  fun_cases load cfg s tid <;> rintro ⟨⟩
  next item hc =>
    refine workerStep_key hc (.inl rfl) (.inr ⟨_, .inr (.inl ⟨_, rfl⟩), rfl⟩) (fun hk hthread => ?_)
      (fun _ => .refl _)
    subst hk
    exact .load tid item hthread

theorem sendFailed_key {blob : Str} {now : ℕ} (hc : s.control tid = .loaded item (some blob)) :
    KeyStep cfg k (s.key k) (.send tid false now) ((s.sendFailed tid item now).key k) := by
  obtain ⟨attempts, wait, outcome, houtcome, heq⟩ : ∃ attempts wait outcome,
      (outcome = UploadOutcome.failed ∨ outcome = UploadOutcome.retry) ∧
      s.sendFailed tid item now =
        s.goto tid (.sent { item with attempts, notBefore := wait } outcome) := by
    rw [sendFailed]
    split
    · exact ⟨_, _, _, .inr rfl, rfl⟩
    · exact ⟨_, _, _, .inl rfl, rfl⟩
  rw [heq]
  refine workerStep_key hc (.inr (.inl ⟨_, rfl⟩)) (.inr ⟨_, .inr (.inr ⟨_, rfl⟩), rfl⟩)
    (fun _ hthread => ?_) (fun _ => .refl _)
  exact .sendFailed tid now item blob attempts wait outcome houtcome hthread

theorem send_key {ok : Bool} {now : ℕ} :
    s.send tid ok now = some s' → KeyStep cfg k (s.key k) (.send tid ok now) (s'.key k) := by
  fun_cases send s tid ok now <;> rintro ⟨⟩
  next item hc =>
    exact workerStep_key hc (.inr (.inl ⟨_, rfl⟩)) (.inr ⟨_, .inr (.inr ⟨_, rfl⟩), rfl⟩)
      (fun _ hthread => .sendNothing tid now ok item hthread) (fun _ => .refl _)
  next item blob hc hok =>
    subst hok
    refine workerStep_key hc (.inr (.inl ⟨_, rfl⟩)) (.inr ⟨_, .inr (.inr ⟨_, rfl⟩), rfl⟩)
      (fun hk hthread => ?_) (counted_of_set key_setBucket)
    rw [key_setBucket, if_pos hk]
    exact .sendUploaded tid now item blob hthread
  next hc hok =>
    rw [eq_false_of_ne_true hok]
    exact sendFailed_key hc

theorem settle_key :
    s.settle tid = some s' → KeyStep cfg k (s.key k) (.settle tid) (s'.key k) := by
  fun_cases settle s tid <;> rintro ⟨⟩
  next item hc =>
    have hset := key_setUploads_view (k := k)
      (show (s.uploads.requeue item).2.records = s.uploads.records from records_requeue)
    refine workerStep_key hc (.inr (.inr ⟨_, rfl⟩)) (.inl rfl) (fun hk hthread => ?_) (fun hk => ?_)
    · subst hk
      rw [hset, view_requeue, if_pos rfl]
      exact .settleRetry tid item hthread
    · rw [hset, view_requeue, if_neg (Ne.symm hk)]
      exact .refl _
  next item outcome houtcome hc =>
    refine workerStep_key hc (.inr (.inr ⟨_, rfl⟩)) (.inl rfl) (fun hk hthread => ?_) (fun hk => ?_)
    · subst hk
      rw [key_finish, if_pos rfl]
      exact .settle tid item outcome hthread houtcome
    · rw [key_finish, if_neg hk]
      exact ⟨_, _, le_rfl, Nat.le_add_right .., rfl⟩

/-! ## Gets -/

section

variable (hs : s.Wf)

include hs

theorem startGet_key {key : Str} :
    s.startGet tid key = some s' → KeyStep cfg k (s.key k) (.startGet tid key) (s'.key k) := by
  fun_cases startGet s tid key <;> rintro ⟨⟩
  next hc =>
    obtain ⟨hput, hget⟩ := (hs.threads tid).worker (by rw [hc]; rfl)
    have hthread : (s.key k).threads tid = .idle := threads_idle hc
    have hresult : s.gets tid = none → s.fetchResult tid = none := by
      intro hnone
      by_contra hsome
      obtain ⟨value, hvalue⟩ := ne_none_iff_exists'.mp hsome
      exact hs.result tid value hvalue hnone
    rw [key_goto_get (s := s.setGet tid ⟨key, s.clock, none, none⟩) hput (update_self ..) rfl,
      key_setGet hresult (.inr ⟨hget, hc⟩)]
    by_cases hk : key = k
    · subst hk
      simp only [if_true]
      exact .startGet tid hthread (by simp [Daemon.key, hget]) (by simp [Daemon.key, hput])
    · simp only [if_neg hk]
      rw [KeyState.goto_idle hthread]
      exact .other _ _ _ le_rfl le_rfl

theorem key_setGet_noted (g' : GetRecord) (hc : s.control tid = before)
    (hbefore : before.isGet = true) (hg : s.gets tid = some g) (hkey : g'.key = g.key) :
    (s.setGet tid g').key k = if g.key = k then (s.key k).setGet tid g' else s.key k := by
  have hput := ((hs.threads tid).getter (hc ▸ hbefore)).1
  have hsame : (s.gets tid).map (·.key) = some g'.key := by
    rw [hg, hkey]
    rfl
  have hresult : s.gets tid = none → s.fetchResult tid = none := by
    intro hnone
    rw [hg] at hnone
    cases hnone
  rw [key_setGet hresult (.inl ⟨hsame, hput⟩), hkey]

theorem getDisk_key :
    s.getDisk cfg tid = some s' → KeyStep cfg k (s.key k) (.getDisk tid) (s'.key k) := by
  fun_cases getDisk cfg s tid <;> rintro ⟨⟩
  next g hg hc value hvalue =>
    refine getStep_key hs hc rfl hg rfl hg rfl rfl (fun hk hthread _ => ?_) (fun _ => .refl _)
    subst hk
    by_cases hdisk : cfg.diskEnabled = true
    · rw [if_pos hdisk] at hvalue
      exact .getDiskHit tid value hthread hdisk hvalue
    · rw [if_neg hdisk] at hvalue
      cases hvalue
  next g hg hc hvalue =>
    have hset := key_setGet_noted (k := k) hs { g with missed := some s.clock } hc rfl hg rfl
    refine getStep_key hs hc rfl hg rfl (update_self ..) rfl rfl (fun hk hthread hrecord => ?_)
      (counted_of_set hset)
    subst hk
    rw [hset, if_pos rfl]
    refine .getDiskMiss tid g hthread hrecord (fun hdisk => ?_)
    rw [if_pos hdisk] at hvalue
    exact hvalue

theorem getHeld_key :
    s.getHeld cfg tid = some s' → KeyStep cfg k (s.key k) (.getHeld tid) (s'.key k) := by
  fun_cases getHeld cfg s tid <;> rintro ⟨⟩
  next g hg hc blob hheld =>
    refine getStep_key hs hc rfl hg rfl hg rfl rfl (fun hk hthread _ => ?_) (fun _ => .refl _)
    subst hk
    exact .getHeldHit tid blob hthread hheld
  next g hg hc hheld =>
    refine getStep_key hs hc rfl hg rfl hg rfl (by split <;> rfl) (fun hk hthread _ => ?_)
      (fun _ => .refl _)
    subst hk
    exact .getHeldMiss tid hthread hheld

theorem getFetch_key :
    s.getFetch tid = some s' → KeyStep cfg k (s.key k) (.getFetch tid) (s'.key k) := by
  fun_cases getFetch s tid <;> rintro ⟨⟩
  next g hg hc fetch hfetch =>
    refine getStep_key hs hc rfl hg rfl hg rfl rfl (fun hk hthread _ => ?_) (fun _ => .refl _)
    subst hk
    exact .getJoinFetch tid fetch hthread hfetch
  next g hg hc hfetch =>
    refine getStep_key hs hc rfl hg (by exact rfl) (by exact hg) rfl rfl
      (fun hk hthread hrecord => ?_) (fun hk => ?_)
    · subst hk
      have hset : ({ s with fetches := update s.fetches g.key (some tid) } : Daemon).key g.key =
          { s.key g.key with fetch := some tid } := by
        simp [key]
      rw [hset]
      exact .getOpenFetch tid g hthread hrecord hfetch
    · have hset : ({ s with fetches := update s.fetches g.key (some tid) } : Daemon).key k =
          s.key k := by
        simp [key, Ne.symm hk]
      rw [hset]
      exact .refl _

theorem getJoin_key :
    s.getJoin tid = some s' → KeyStep cfg k (s.key k) (.getJoin tid) (s'.key k) := by
  fun_cases getJoin s tid <;> intro h
  next fetch hc =>
    obtain ⟨-, g, hg⟩ := (hs.threads tid).getter (by rw [hc]; rfl)
    obtain ⟨value, hvalue, rfl⟩ := map_eq_some_iff.mp h
    refine getStep_key hs hc rfl hg rfl hg rfl rfl (fun hk hthread _ => ?_) (fun _ => .refl _)
    subst hk
    have hjoined := (hs.threads tid).joined fetch g hc hg
    exact .getJoin tid fetch value hthread (by simp only [key, if_pos hjoined, hvalue])
  next => cases h

theorem getTimeout_key :
    s.getTimeout tid = some s' → KeyStep cfg k (s.key k) (.getTimeout tid) (s'.key k) := by
  fun_cases getTimeout s tid <;> rintro ⟨⟩
  next fetch hc _ =>
    obtain ⟨-, g, hg⟩ := (hs.threads tid).getter (by rw [hc]; rfl)
    exact getStep_key hs hc rfl hg rfl hg rfl rfl
      (fun _ hthread _ => .getTimeout tid fetch hthread) (fun _ => .refl _)

theorem getS3_key :
    s.getS3 tid = some s' → KeyStep cfg k (s.key k) (.getS3 tid) (s'.key k) := by
  fun_cases getS3 s tid <;> rintro ⟨⟩
  next g hg hc =>
    refine getStep_key hs hc rfl hg rfl hg rfl rfl (fun hk hthread _ => ?_) (fun _ => .refl _)
    subst hk
    exact .getS3 tid hthread

theorem getBackfill_key {ok : Bool} :
    s.getBackfill cfg tid ok = some s' →
      KeyStep cfg k (s.key k) (.getBackfill tid ok) (s'.key k) := by
  fun_cases getBackfill cfg s tid ok <;> rintro ⟨⟩
  next g hg hc =>
    exact getStep_key hs hc rfl hg rfl hg rfl rfl
      (fun _ hthread hrecord => .getBackfill tid ok none g hthread hrecord) (fun _ => .refl _)
  next value g hg hc =>
    have hbackfilled : (if cfg.diskWritable && ok then s.setDisk g.key value else s).key k =
        if g.key = k then { s.key k with
          disk := if (some value).isSome && cfg.diskWritable && ok then some value
            else (s.key k).disk }
        else s.key k := by
      by_cases hdisk : (cfg.diskWritable && ok) = true
      · simp only [hdisk, if_true, key_setDisk, isSome_some, Bool.true_and]
      · simp only [hdisk, isSome_some, Bool.true_and]
        exact (ite_self _).symm
    refine getStep_key hs hc rfl hg (by split <;> rfl) (by split <;> exact hg) rfl rfl
      (fun hk hthread hrecord => ?_) (counted_of_set hbackfilled)
    rw [hbackfilled, if_pos hk]
    exact .getBackfill tid ok (some value) g hthread hrecord

end

theorem key_setFetched (hg : s.gets tid = some g) (value : Option Str) :
    ({ s with
      fetchResult := update s.fetchResult tid (some value)
      fetches := if s.fetches g.key = some tid then update s.fetches g.key none
        else s.fetches } : Daemon).key k =
      if g.key = k then
        { s.key k with
          fetchResult := update (s.key k).fetchResult tid (some value)
          fetch := if (s.key k).fetch = some tid then none else (s.key k).fetch }
      else s.key k := by
  have hfetch : (s.key k).fetch = s.fetches k := rfl
  by_cases hk : g.key = k
  · subst hk
    rw [if_pos rfl]
    ext1 <;> try rfl
    · rw [hfetch]
      simp only [key]
      split
      · rw [update_self]
      · rfl
    · funext t
      by_cases ht : t = tid <;> simp [key, hg, ht]
  · rw [if_neg hk]
    ext1 <;> try rfl
    · simp only [key]
      split
      · rw [update_of_ne (Ne.symm hk)]
      · rfl
    · funext t
      by_cases ht : t = tid <;> simp [key, hg, hk, ht]

theorem getDone_key (hs : s.Wf) :
    s.getDone tid = some s' → KeyStep cfg k (s.key k) (.getDone tid) (s'.key k) := by
  fun_cases getDone s tid <;> rintro ⟨⟩
  next value g hg hc =>
    refine getStep_key hs hc rfl hg (by exact rfl) (by exact hg) rfl rfl
      (fun hk hthread hrecord => ?_) (counted_of_set (key_setFetched hg value))
    rw [key_setFetched hg, if_pos hk]
    exact .getDone tid value g hthread hrecord

theorem getReply_key (hs : s.Wf) :
    s.getReply tid = some s' → KeyStep cfg k (s.key k) (.getReply tid) (s'.key k) := by
  fun_cases getReply s tid <;> rintro ⟨⟩
  next value g hg hc =>
    have hset := key_setGet_noted (k := k) hs { g with replied := some (s.clock, value) } hc rfl
      hg rfl
    refine getStep_key hs hc rfl hg rfl (update_self ..) rfl rfl (fun hk hthread hrecord => ?_)
      (counted_of_set hset)
    rw [hset, if_pos hk]
    exact .getReply tid value g hthread hrecord

theorem step_key (hs : s.Wf) {e : DaemonEvent} (h : step cfg s e = some s') :
    KeyStep cfg k (s.key k) e (s'.key k) := by
  cases e with
  | startPut tid key value => exact startPut_key hs h
  | putDisk tid ok => exact putDisk_key h
  | putEnqueue tid => exact putEnqueue_key hs h
  | putRetry tid => exact putRetry_key hs h
  | putUpload tid ok => exact putUpload_key h
  | putFinish tid => exact putFinish_key h
  | putReply tid => exact putReply_key h
  | take tid now => exact take_key hs h
  | load tid => exact load_key h
  | send tid ok now => exact send_key h
  | settle tid => exact settle_key h
  | startGet tid key => exact startGet_key hs h
  | getDisk tid => exact getDisk_key hs h
  | getHeld tid => exact getHeld_key hs h
  | getFetch tid => exact getFetch_key hs h
  | getJoin tid => exact getJoin_key hs h
  | getTimeout tid => exact getTimeout_key hs h
  | getS3 tid => exact getS3_key hs h
  | getBackfill tid ok => exact getBackfill_key hs h
  | getDone tid => exact getDone_key hs h
  | getReply tid => exact getReply_key hs h

/-- What the steps of a key preserve holds of the key at the end of a run. -/
theorem run_key {ok : Daemon → DaemonEvent → Prop} (Inv : KeyState → Prop)
    (hstep : ∀ s e s', s.Wf → ok s e → step cfg s e = some s' →
      KeyStep cfg k (s.key k) e (s'.key k) → Inv (s.key k) → Inv (s'.key k))
    {t : Daemon} {events : List DaemonEvent} (h : StepMachine.Run (step cfg) ok s events t)
    (hs : s.Wf) (hinv : Inv (s.key k)) : Inv (t.key k) := by
  have hboth : t.Wf ∧ Inv (t.key k) := by
    refine @StepMachine.Run.invariant _ _ _ _ (fun s : Daemon => s.Wf ∧ Inv (s.key k)) ?_ _ _ _ h
      ⟨hs, hinv⟩
    rintro s e s' he hok ⟨hwf, hkey⟩
    exact ⟨step_wf hwf he, hstep s e s' hwf hok he (step_key hwf he) hkey⟩
  exact hboth.2

end Daemon

end Vcache

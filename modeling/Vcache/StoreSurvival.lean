import Vcache.BucketOrder

/-!
# What a failing upload leaves behind

A daemon without a disk has the values it is to upload in memory. An upload that
fails and is tried again leaves the flights of a key in order, and so does one that is
given up when a newer store has taken its place. When the newest is given up, the
queue forgets the key, and with it every store that this one had taken the place of.
-/

namespace Vcache

open Option Function

namespace Daemon

def isNewest (s : Daemon) (key : Str) (generation : ℕ) : Bool :=
  !s.uploads.superseded key && s.uploads.generation key = some generation

/-- The event ends the last upload of the key's newest store, and S3 does not have it. -/
def abandonsNewest (k : Str) (s : Daemon) : DaemonEvent → Bool
  | .settle tid | .putFinish tid =>
    match (s.key k).threads tid with
    | .sent item .failed => s.isNewest k item.generation
    | .putSynced gen false => s.isNewest k gen
    | _ => false
  | _ => false

def keyBesideWaiting (k : Str) (s : Daemon) : DaemonEvent → Bool
  | .putRetry tid => (s.key k).threads tid ≠ .idle && s.syncsBesideWaiting tid
  | _ => false

/-- No refused put of the key uploads beside a value that waits, and the newest store of the key is
not given up. -/
def KeepsNewest (k : Str) (s : Daemon) (e : DaemonEvent) : Prop :=
  s.keyBesideWaiting k e = false ∧ s.abandonsNewest k e = false

instance (k : Str) (s : Daemon) (e : DaemonEvent) : Decidable (KeepsNewest k s e) :=
  inferInstanceAs (Decidable (_ ∧ _))

variable {cfg : DaemonConfig} {s : Daemon} {tid : ℕ} {k : Str}

theorem outdated_of_not_newest {gen : ℕ} (h : s.isNewest k gen = false) :
    KeyState.Outdated (s.key k).queue gen := by
  rw [isNewest, Bool.and_eq_false_iff] at h
  rcases h with h | h
  · exact .inl (Bool.not_eq_eq_eq_not.mp h)
  · exact .inr (of_decide_eq_false h)

theorem ordered_run (hdisk : cfg.diskEnabled = false) (hs3 : cfg.s3Writable = true)
    {journalled : Bool} {maxHeldBytes : ℕ} {disk bucket : Str → Option Str}
    {events : List DaemonEvent} {t : Daemon}
    (hrun : StepMachine.Run (step cfg) (KeepsNewest k) (start journalled maxHeldBytes disk bucket)
      events t) : (t.key k).PutThreads ∧ (t.key k).Ordered := by
  have hwritable : cfg.diskWritable = false := by
    rw [DaemonConfig.diskWritable, hdisk]
    rfl
  refine run_key (fun s => s.PutThreads ∧ s.Ordered) ?_ hrun (start_wf ..) (ordered_start ..)
  intro d e d' hwf hok _ h hs
  refine ordered_step hwritable hs3 ?_ ?_ ?_ h hs
  · rintro tid watch rfl hc hover hland
    have hbeside := hok.1
    simp only [keyBesideWaiting, hc, ne_eq, reduceCtorEq, not_false_eq_true, decide_true,
      Bool.true_and] at hbeside
    exact waiting_of_not_beside hwf hbeside hc ((hs.1 tid).owned (by rw [hc]; rfl)) hover hland
  · rintro tid item rfl hc
    have hnewest := hok.2
    simp only [abandonsNewest, hc] at hnewest
    exact outdated_of_not_newest hnewest
  · rintro tid gen rfl hc
    have hnewest := hok.2
    simp only [abandonsNewest, hc] at hnewest
    exact outdated_of_not_newest hnewest

/-- Once nothing of its key waits or is in flight and no refused put of the key has its upload
before it, a stored value is in the bucket or that of a put that was not over before it came. -/
theorem stored_survives_failures (hdisk : cfg.diskEnabled = false) (hs3 : cfg.s3Writable = true)
    {journalled : Bool} {maxHeldBytes : ℕ} {disk bucket : Str → Option Str}
    {events : List DaemonEvent} {t : Daemon} {p : PutRecord} {time : ℕ}
    (hrun : StepMachine.Run (step cfg) (KeepsNewest p.key)
      (start journalled maxHeldBytes disk bucket) events t) (hp : t.puts tid = some p)
    (hstored : p.replied = some (time, true))
    (hidle : t.uploads.waiting p.key = none ∧ t.uploads.inFlight p.key = false)
    (hrefused : ∀ tid' q watch, t.puts tid' = some q → q.key = p.key →
      t.control tid' ≠ .putRefused watch) :
    ∃ tid' q, t.puts tid' = some q ∧ q.key = p.key ∧ t.bucket p.key = some q.value ∧
      ¬ q.Before p := by
  obtain ⟨hputs, hordered⟩ := ordered_run hdisk hs3 hrun
  have hput : (t.key p.key).puts tid = some p := puts_key_iff.mpr ⟨hp, rfl⟩
  have hpending : ¬ (t.key p.key).Pending := by
    rintro ⟨tid', watch, hc, -⟩
    obtain ⟨q, hq⟩ := ne_none_iff_exists'.mp ((hputs tid').owned (by rw [hc]; rfl))
    obtain ⟨hq, hqk⟩ := puts_key_iff.mp hq
    exact hrefused tid' q watch hq hqk (Control.eq_of_onKey hc (by simp))
  -- A put that has replied was offered.
  have hqueued : p.queued ≠ none := by
    refine ((hputs tid).recorded p hput).queued ?_
    rw [hstored]
    exact some_ne_none _
  rcases hordered.idle hidle.1 hidle.2 hpending with hnone | ⟨value, hvalue, hfresh⟩
  · exact absurd (hnone tid p hput) hqueued
  · obtain ⟨tid', q, hq, rfl, hlast⟩ := hfresh
    obtain ⟨hq, hqk⟩ := puts_key_iff.mp hq
    exact ⟨tid', q, hq, hqk, hvalue, hlast tid p hput hqueued⟩

/-- The first attempt at `B` fails. `NNNN` is refused during the second and waits; `B` is
uploaded, then `NNNN`. -/
def retriedAndRefused : List DaemonEvent :=
  offerPut 0 "B" ++ [.putReply 0, .take 10 0, .load 10, .send 10 false 0, .settle 10,
    .take 10 9, .load 10] ++ offerPut 1 "NNNN" ++ [.send 10 true 9, .settle 10, .putRetry 1,
    .putUpload 1 true, .putFinish 1, .putReply 1]

theorem stored_survives_failures_retriedAndRefused : ∃ t,
    StepMachine.Run (step ⟨false, false, true, true⟩) (KeepsNewest "k".toList) memoryDaemon
      retriedAndRefused t ∧
    ∃ tid' q, t.puts tid' = some q ∧ q.key = "k".toList ∧ t.bucket "k".toList = some q.value ∧
      ¬ q.Before ⟨"k".toList, "B".toList, 0, none, some 2, some (3, true)⟩ := by
  have hrun : StepMachine.Run (step ⟨false, false, true, true⟩) (KeepsNewest "k".toList)
      memoryDaemon retriedAndRefused _ := StepMachine.run_of_exec (some_get rfl).symm
  refine ⟨_, hrun, stored_survives_failures
    (p := ⟨"k".toList, "B".toList, 0, none, some 2, some (3, true)⟩) rfl rfl hrun
    (show puts _ 0 = _ from rfl) rfl ⟨rfl, rfl⟩ ?_⟩
  intro tid q watch hq _
  match tid with
  | 0 => nofun
  | 1 => nofun
  | tid + 2 => cases hq

/-- `B` is accepted and replies. `NNNN` does not fit: the queue drops `B`, and S3 refuses
`NNNN`. -/
def droppedThenFailed : List DaemonEvent :=
  offerPut 0 "B" ++ [.putReply 0] ++ offerPut 1 "NNNN" ++ [.putRetry 1, .putUpload 1 false,
    .putFinish 1, .putReply 1]

/-- Nothing waits or is in flight and both puts have replied, that of `B` with `stored`. No upload
of `B` was tried, and the bucket is empty. -/
theorem stored_lost_to_failed_put :
    (StepMachine.exec (step ⟨false, false, true, true⟩) (fun _ _ => True) memoryDaemon
      droppedThenFailed).map (fun t => (t.uploads.order, t.uploads.inFlight "k".toList,
        t.bucket "k".toList)) = some ([], false, none) ∧
    (StepMachine.exec (step ⟨false, false, true, true⟩) (fun _ _ => True) memoryDaemon
      droppedThenFailed).map (fun t => ((t.puts 0).map (·.replied), (t.puts 1).map (·.replied))) =
        some (some (some (3, true)), some (some (10, false))) := by
  decide

end Daemon

end Vcache

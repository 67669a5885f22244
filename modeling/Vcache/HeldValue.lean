import Vcache.GetKnowledge

/-!
# The value a key holds in memory

Without a disk an accepted store is held until its upload is over. As long as none is
refused, what is held is the newest value, and when nothing is held the bucket has
it. An upload under way is never older than what the bucket has.
-/

namespace Vcache

open Function

namespace KeyState

variable {s s' : KeyState} {tid a : ℕ} {c : Control}

/-- What holds of the threads that carry an item, when no value is refused. -/
structure Flights (s : KeyState) : Prop where
  well : ∀ tid item outcome, s.threads tid = .sent item outcome → outcome = .uploaded
  loaded : ∀ tid item blob, s.threads tid = .loaded item blob → item.blob.map (·.data) = blob
  sent : ∀ tid item outcome, s.threads tid = .sent item outcome →
    s.bucket = item.blob.map (·.data)
  single : ∀ t t' item item', (s.threads t).Carries item → (s.threads t').Carries item' → t = t'

/-- What holds of a key whose values wait in memory, when none is refused. -/
structure Held (s : KeyState) : Prop extends s.Flights where
  superseded : s.queue.superseded = false
  waiting : ∀ item, s.queue.waiting = some item → s.queue.inFlight = false ∧
    s.queue.generation = some item.generation ∧
    ∃ blob, item.blob = some blob ∧ s.queue.held = some blob
  flight : ∀ tid item, (s.threads tid).Carries item → s.queue.inFlight = true ∧
    ∃ blob held gen, item.blob = some blob ∧ s.queue.held = some held ∧
      s.queue.generation = some gen ∧ item.generation ≤ gen ∧
      (gen = item.generation → held = blob)
  held : ∀ blob, s.queue.held = some blob → s.Current false blob.data
  bucket : s.queue.held = none →
    s.NoneStamped false ∨ ∃ value, s.bucket = some value ∧ s.Current false value

/-- What has landed stays so: an upload under way has the bucket's value or a newer one. -/
theorem Landed.step (hs : s.Stamped false) (hgrow : Grows false s s')
    (hbucket : s'.bucket = s.bucket ∨ ∃ t item, (s.threads t).Carries item ∧
      s'.bucket = item.blob.map (·.data))
    (hcarries : ∀ t item, (s'.threads t).Carries item → (∃ t', (s.threads t').Carries item) ∨
      ∃ blob, item.blob = some blob ∧ s.Current false blob.data)
    {p : PutRecord} (hp : s.puts tid = some p) (ha : p.stamp false = some a)
    (h : s.Landed false a) : s'.Landed false a := by
  obtain ⟨⟨value, hvalue, hcovers⟩, hflights⟩ := h
  refine ⟨?_, ?_⟩
  · rcases hbucket with hbucket | ⟨t, item, hitem, hbucket⟩
    · exact ⟨value, hbucket.trans hvalue, hcovers.grow hs hgrow⟩
    · obtain ⟨blob, hblob, hblobCovers⟩ := hflights t item hitem
      exact ⟨blob.data, by rw [hbucket, hblob]; rfl, hblobCovers.grow hs hgrow⟩
  · intro t item hitem
    rcases hcarries t item hitem with ⟨t', hbefore⟩ | ⟨blob, hblob, hcurrent⟩
    · obtain ⟨blob, hblob, hblobCovers⟩ := hflights t' item hbefore
      exact ⟨blob, hblob, hblobCovers.grow hs hgrow⟩
    · exact ⟨blob, hblob, (hcurrent tid p a hp ha).grow hs hgrow⟩

section Workers

variable (hworkers : ∀ t c item, c.Carries item → s'.threads t = c → s.threads t = c)

include hworkers

theorem carries_of_workers {t : ℕ} {item : UploadItem} (h : (s'.threads t).Carries item) :
    (s.threads t).Carries item := by
  rw [hworkers t _ item h rfl]
  exact h

theorem Flights.keep (hs : s.Flights) (hbucket : s'.bucket = s.bucket) : s'.Flights where
  well t item outcome h := hs.well t item outcome (hworkers t _ item (.inr (.inr ⟨_, rfl⟩)) h)
  loaded t item blob h := hs.loaded t item blob (hworkers t _ item (.inr (.inl ⟨_, rfl⟩)) h)
  sent t item outcome h := by
    rw [hbucket]
    exact hs.sent t item outcome (hworkers t _ item (.inr (.inr ⟨_, rfl⟩)) h)
  single t t' item item' h h' := hs.single t t' item item' (carries_of_workers hworkers h)
    (carries_of_workers hworkers h')

theorem Held.quiet (hs : s.Held) (hqueue : s'.queue = s.queue) (hbucket : s'.bucket = s.bucket)
    (hcurrent : ∀ value, s.Current false value → s'.Current false value)
    (hnone : s.NoneStamped false → s'.NoneStamped false) : s'.Held := by
  refine ⟨hs.toFlights.keep hworkers hbucket, hqueue ▸ hs.superseded, hqueue ▸ hs.waiting, ?_, ?_,
    ?_⟩
  · intro t item h
    rw [hqueue]
    exact hs.flight t item (carries_of_workers hworkers h)
  · intro blob hheld
    rw [hqueue] at hheld
    exact hcurrent _ (hs.held blob hheld)
  · intro hheld
    rw [hqueue] at hheld
    rw [hbucket]
    rcases hs.bucket hheld with h | ⟨value, hvalue, h⟩
    · exact .inl (hnone h)
    · exact .inr ⟨value, hvalue, hcurrent _ h⟩

/-- An accepted store is held, and is newer than every other. -/
theorem Held.accept (hs : s.Held) {k : Str} {blob : HeldBlob}
    (hqueue : s'.queue = s.queue.accept k (some blob)) (hbucket : s'.bucket = s.bucket)
    (hcurrent : s'.Current false blob.data) : s'.Held := by
  have hheld : s'.queue.held = some blob := by rw [hqueue]; rfl
  have hgen : s'.queue.generation = some s.queue.nextGeneration := by rw [hqueue]; rfl
  have hinFlight : s'.queue.inFlight = s.queue.inFlight := by rw [hqueue]; rfl
  refine ⟨hs.toFlights.keep hworkers hbucket, by rw [hqueue]; rfl, ?_, ?_, ?_, ?_⟩
  · intro item hitem
    rw [hinFlight, hgen, hheld]
    obtain ⟨hland, hgeneration, hblob⟩ :=
      KeyQueue.waiting_accept (fun queued h => (hs.waiting queued h).1) (hqueue ▸ hitem)
    exact ⟨hland, congrArg some hgeneration.symm, blob, hblob, rfl⟩
  · intro t item h
    obtain ⟨hflying, before, -, gen, hbefore, -, hgeneration, hle, -⟩ :=
      hs.flight t item (carries_of_workers hworkers h)
    have hnext : s.queue.nextGeneration = gen + 1 := by
      rw [KeyQueue.nextGeneration, hgeneration]
      rfl
    exact ⟨hinFlight.trans hflying, before, blob, _, hbefore, hheld, hgen, by omega,
      fun heq => by omega⟩
  · intro now hnow
    cases hheld.symm.trans hnow
    exact hcurrent
  · intro hnow
    rw [hheld] at hnow
    cases hnow

end Workers

/-- One thread carries one item. -/
theorem Flights.of_own {item : UploadItem}
    (hown : ∀ t i, (s.threads t).Carries i → t = tid ∧ i = item)
    (hwell : ∀ outcome, s.threads tid = .sent item outcome → outcome = .uploaded)
    (hloaded : ∀ blob, s.threads tid = .loaded item blob → item.blob.map (·.data) = blob)
    (hsent : ∀ outcome, s.threads tid = .sent item outcome →
      s.bucket = item.blob.map (·.data)) : s.Flights := by
  refine ⟨fun t i outcome h => ?_, fun t i blob h => ?_, fun t i outcome h => ?_, ?_⟩
  · obtain ⟨rfl, rfl⟩ := hown t i (.inr (.inr ⟨_, h⟩))
    exact hwell outcome h
  · obtain ⟨rfl, rfl⟩ := hown t i (.inr (.inl ⟨_, h⟩))
    exact hloaded blob h
  · obtain ⟨rfl, rfl⟩ := hown t i (.inr (.inr ⟨_, h⟩))
    exact hsent outcome h
  · intro t t' i i' h h'
    exact (hown t i h).1.trans (hown t' i' h').1.symm

theorem Flights.of_none (hnone : ∀ t i, ¬ (s.threads t).Carries i) : s.Flights where
  well t i _ h := absurd (.inr (.inr ⟨_, h⟩)) (hnone t i)
  loaded t i _ h := absurd (.inr (.inl ⟨_, h⟩)) (hnone t i)
  sent t i _ h := absurd (.inr (.inr ⟨_, h⟩)) (hnone t i)
  single t _ i _ h := absurd h (hnone t i)

theorem Held.take (hs : s.Held) {item : UploadItem} (hitem : s.queue.waiting = some item)
    (tid flightId : ℕ) :
    ({ s with queue := { s.queue.takeOff flightId with waiting := none } }.goto tid
      (.took item)).Held := by
  obtain ⟨hland, hgen, blob, hblob, hheld⟩ := hs.waiting item hitem
  have hnone : ∀ t i, ¬ (s.threads t).Carries i := by
    intro t i h
    have hflying := (hs.flight t i h).1
    rw [hland] at hflying
    cases hflying
  have hown : ∀ t i, (({ s with queue := { s.queue.takeOff flightId with waiting := none } }.goto
      tid (.took item)).threads t).Carries i → t = tid ∧ i = item := by
    intro t i h
    rw [threads_goto] at h
    by_cases ht : t = tid
    · rw [if_pos ht] at h
      exact ⟨ht, h.unique (.inl rfl)⟩
    · rw [if_neg ht] at h
      exact absurd h (hnone t i)
  have hself : ({ s with queue := { s.queue.takeOff flightId with waiting := none } }.goto tid
      (.took item)).threads tid = .took item := update_self ..
  refine ⟨.of_own hown ?_ ?_ ?_, hs.superseded, nofun, ?_, hs.held, hs.bucket⟩
  · simp [hself]
  · simp [hself]
  · simp [hself]
  · intro t i h
    obtain ⟨-, rfl⟩ := hown t i h
    exact ⟨rfl, blob, blob, _, hblob, hheld, hgen, le_rfl, fun _ => rfl⟩

theorem Held.advance (hs : s.Held) {item : UploadItem} (bucket : Option Str)
    (hbefore : (s.threads tid).Carries item) (hafter : c.Carries item)
    (hwell : ∀ outcome, c = .sent item outcome → outcome = .uploaded)
    (hloaded : ∀ blob, c = .loaded item blob → item.blob.map (·.data) = blob)
    (hsent : ∀ outcome, c = .sent item outcome → bucket = item.blob.map (·.data)) :
    ({ s with bucket }.goto tid c).Held := by
  have hown : ∀ t i, (({ s with bucket }.goto tid c).threads t).Carries i → t = tid ∧ i = item := by
    intro t i h
    rw [threads_goto] at h
    by_cases ht : t = tid
    · rw [if_pos ht] at h
      exact ⟨ht, h.unique hafter⟩
    · rw [if_neg ht] at h
      exact absurd (hs.single t tid i item h hbefore) ht
  have hself : ({ s with bucket }.goto tid c).threads tid = c := update_self ..
  obtain ⟨hflying, blob, held, gen, hblob, hheld, hgen, hle, hsame⟩ := hs.flight tid item hbefore
  refine ⟨.of_own hown (fun o h => hwell o (hself.symm.trans h))
    (fun b h => hloaded b (hself.symm.trans h)) (fun o h => hsent o (hself.symm.trans h)),
    hs.superseded, hs.waiting, ?_, hs.held, ?_⟩
  · intro t i h
    obtain ⟨rfl, rfl⟩ := hown t i h
    exact ⟨hflying, blob, held, gen, hblob, hheld, hgen, hle, hsame⟩
  · intro hnone
    have hnone : s.queue.held = none := hnone
    rw [hheld] at hnone
    cases hnone

/-- The flight is over: what is held waits for the next, or the bucket has it. -/
theorem Held.settle (hs : s.Held) {item : UploadItem} {outcome : UploadOutcome} (failed : ℕ)
    (hc : s.threads tid = .sent item outcome) :
    ({ s with queue := s.queue.finish item, uploadsFailed := failed }.goto tid .idle).Held := by
  have hcarries : (s.threads tid).Carries item := .inr (.inr ⟨_, hc⟩)
  obtain ⟨hflying, blob, held, gen, hblob, hheld, hgen, -, hsame⟩ := hs.flight tid item hcarries
  have hnone : ∀ queue t i, ¬ (({ s with queue, uploadsFailed := failed }.goto tid
      .idle).threads t).Carries i := by
    intro queue t i h
    obtain ⟨hne, hother⟩ := carries_of_goto h (Control.not_carries_of_isGet rfl i)
    exact hne (hs.single t tid i item hother hcarries)
  have hfinish : s.queue.finish item = if gen ≠ item.generation then
      s.queue.queueBack { key := item.key, blob := s.queue.held, generation := gen }
      else s.queue.clear := by
    rw [KeyQueue.finish, hs.superseded, hgen]
    rfl
  rw [hfinish]
  split
  next hnewer =>
    refine ⟨.of_none (hnone _), hs.superseded, ?_, fun t i h => absurd h (hnone _ t i), hs.held, ?_⟩
    · intro queued hqueued
      cases hqueued
      exact ⟨rfl, hgen, held, hheld, hheld⟩
    · intro hempty
      cases hheld.symm.trans hempty
  next hlast =>
    refine ⟨.of_none (hnone _), rfl, ?_, fun t i h => absurd h (hnone _ t i),
      fun _ h => (by cases h), ?_⟩
    · intro queued hqueued
      cases hflying.symm.trans (hs.waiting queued hqueued).1
    · intro _
      obtain rfl := hsame (not_not.mp hlast)
      refine .inr ⟨held.data, ?_, hs.held held hheld⟩
      exact (hs.sent tid item outcome hc).trans (by rw [hblob]; rfl)

end KeyState

end Vcache

import Vcache.HeldValue

/-!
# Lookups do not go back in time

A lookup that comes after a put was stored is to answer with that put's value or a
newer one. With a disk the newest value is on disk, unless a get that missed before
the put comes back from S3 and writes the old value over it. Without a disk the newest
value is held until the bucket has it, unless the queue has no room for a store and
drops what it holds; and a get may join the fetch of one that read the bucket before
the put was uploaded.
-/

namespace Vcache

open Option Function

namespace KeyState

variable {onDisk : Bool} {s s' u : KeyState} {tid : ℕ} {c : Control}

structure GetsKnow (onDisk : Bool) (s : KeyState) : Prop where
  knows : ∀ tid g, s.gets tid = some g → s.Knows onDisk g (s.threads tid)
  replied : ∀ tid g time answer, s.gets tid = some g → g.replied = some (time, answer) →
    s.Good g answer
  result : ∀ fetch answer, s.fetchResult fetch = some answer → ∃ owner m,
    s.gets fetch = some owner ∧ owner.missed = some m ∧ s.CoversBefore onDisk answer m
  owner : ∀ fetch, s.fetch = some fetch → ∃ owner m,
    s.gets fetch = some owner ∧ owner.missed = some m

/-- What has landed stays, in a step of a key without a disk. -/
def KeepsLanded (onDisk : Bool) (s s' : KeyState) : Prop :=
  onDisk = false → ∀ tid p a, s.puts tid = some p → p.stamp onDisk = some a →
    s.Landed onDisk a → s'.Landed onDisk a

theorem GetsKnow.step (hs : s.Stamped onDisk) (hgrow : Grows onDisk s s')
    (hlanded : KeepsLanded onDisk s s') (h : s.GetsKnow onDisk) (tid : ℕ)
    (hother : ∀ t, t ≠ tid → s'.threads t = s.threads t ∧ s'.gets t = s.gets t)
    (hmover : ∀ g, s'.gets tid = some g → s'.Knows onDisk g (s'.threads tid))
    (hreplied : ∀ g time answer, s'.gets tid = some g → g.replied = some (time, answer) →
      s'.Good g answer)
    (hresult : ∀ fetch answer, s'.fetchResult fetch = some answer →
      s.fetchResult fetch = some answer ∨ ∃ owner m,
        s'.gets fetch = some owner ∧ owner.missed = some m ∧ s'.CoversBefore onDisk answer m)
    (howner : ∀ fetch, s'.fetch = some fetch → s.fetch = some fetch ∨ ∃ owner m,
      s'.gets fetch = some owner ∧ owner.missed = some m) : s'.GetsKnow onDisk := by
  refine ⟨?_, ?_, ?_, ?_⟩
  · intro t g hg
    by_cases ht : t = tid
    · subst ht
      exact hmover g hg
    · obtain ⟨hthread, hget⟩ := hother t ht
      rw [hget] at hg
      rw [hthread]
      exact (h.knows t g hg).grow hs hgrow hg hlanded rfl rfl
  · intro t g time answer hg hr
    by_cases ht : t = tid
    · subst ht
      exact hreplied g time answer hg hr
    · rw [(hother t ht).2] at hg
      exact Good.grow hs hgrow (hs.get t g hg).1 rfl (h.replied t g time answer hg hr)
  · intro fetch answer hanswer
    rcases hresult fetch answer hanswer with hold | hnew
    · obtain ⟨owner, m, howned, hm, hcovers⟩ := h.result fetch answer hold
      obtain ⟨owner', howned', -, hmissed⟩ := hgrow.get fetch owner howned
      have hpast := ((hs.get fetch owner howned).2 m hm).2
      exact ⟨owner', m, howned', hmissed m hm, hcovers.grow hs hgrow hpast.le⟩
    · exact hnew
  · intro fetch hfetch
    rcases howner fetch hfetch with hold | hnew
    · obtain ⟨owner, m, howned, hm⟩ := h.owner fetch hold
      obtain ⟨owner', howned', -, hmissed⟩ := hgrow.get fetch owner howned
      exact ⟨owner', m, howned', hmissed m hm⟩
    · exact hnew

theorem GetsKnow.goto_other (hs : s.Stamped onDisk) (hgrow : Grows onDisk s (u.goto tid c))
    (h : s.GetsKnow onDisk) (hu : u.threads = s.threads ∧ u.gets = s.gets ∧ u.fetch = s.fetch ∧
      u.fetchResult = s.fetchResult) (hlanded : KeepsLanded onDisk s (u.goto tid c))
    (hc : ∀ g, (u.goto tid c).Knows onDisk g c) : (u.goto tid c).GetsKnow onDisk := by
  obtain ⟨hthreads, hgets, hfetch, hresult⟩ := hu
  have hgets' : (u.goto tid c).gets = s.gets := hgets
  have hfetch' : (u.goto tid c).fetch = s.fetch := hfetch
  have hresult' : (u.goto tid c).fetchResult = s.fetchResult := hresult
  refine h.step hs hgrow hlanded tid ?_ ?_ ?_ ?_ ?_
  · intro t ht
    rw [threads_goto_eq hthreads, if_neg ht, hgets']
    exact ⟨rfl, rfl⟩
  · intro g _
    rw [threads_goto_eq hthreads, if_pos rfl]
    exact hc g
  · intro g time answer hg hr
    rw [hgets'] at hg
    exact Good.grow hs hgrow (hs.get tid g hg).1 rfl (h.replied tid g time answer hg hr)
  · intro fetch answer hanswer
    exact .inl (hresult' ▸ hanswer)
  · intro fetch howned
    exact .inl (hfetch' ▸ howned)

theorem GetsKnow.goto_get (hs : s.Stamped onDisk) (hgrow : Grows onDisk s (u.goto tid c))
    (h : s.GetsKnow onDisk) (hu : u.threads = s.threads ∧ u.gets = s.gets)
    (hlanded : KeepsLanded onDisk s (u.goto tid c))
    (hc : ∀ g, s.gets tid = some g → s.Knows onDisk g c)
    (hresult : ∀ fetch answer, u.fetchResult fetch = some answer →
      s.fetchResult fetch = some answer ∨ ∃ owner m,
        s.gets fetch = some owner ∧ owner.missed = some m ∧ s.CoversBefore onDisk answer m)
    (howner : ∀ fetch, u.fetch = some fetch → s.fetch = some fetch ∨ ∃ owner m,
      s.gets fetch = some owner ∧ owner.missed = some m) : (u.goto tid c).GetsKnow onDisk := by
  obtain ⟨hthreads, hgets⟩ := hu
  have hgets' : (u.goto tid c).gets = s.gets := hgets
  refine h.step hs hgrow hlanded tid ?_ ?_ ?_ ?_ ?_
  · intro t ht
    rw [threads_goto_eq hthreads, if_neg ht, hgets']
    exact ⟨rfl, rfl⟩
  · intro g hg
    rw [hgets'] at hg
    rw [threads_goto_eq hthreads, if_pos rfl]
    exact (hc g hg).grow hs hgrow hg hlanded rfl rfl
  · intro g time answer hg hr
    rw [hgets'] at hg
    exact Good.grow hs hgrow (hs.get tid g hg).1 rfl (h.replied tid g time answer hg hr)
  · intro fetch answer hanswer
    rcases hresult fetch answer hanswer with hold | ⟨owner, m, hg, hm, hcovers⟩
    · exact .inl hold
    · have hpast := ((hs.get fetch owner hg).2 m hm).2
      exact .inr ⟨owner, m, hgets' ▸ hg, hm, hcovers.grow hs hgrow hpast.le⟩
  · intro fetch howned
    rcases howner fetch howned with hold | ⟨owner, m, hg, hm⟩
    · exact .inl hold
    · exact .inr ⟨owner, m, hgets' ▸ hg, hm⟩

end KeyState

/-! ## Every step keeps it -/

structure InOrder (cfg : DaemonConfig) (s : KeyState) : Prop where
  stamped : s.Stamped cfg.diskWritable
  disk : cfg.diskWritable = true →
    s.NoneStamped true ∨ ∃ value, s.disk = some value ∧ s.Current true value
  held : cfg.diskWritable = false → s.Held
  s3 : cfg.diskWritable = false → cfg.s3Writable = false → s.NoneStamped false
  gets : s.GetsKnow cfg.diskWritable

namespace InOrder

open KeyState

variable {cfg : DaemonConfig} {s s' u : KeyState} {tid : ℕ} {c : Control}

/-- With a disk, a step that leaves the disk and the stamps as they are. -/
theorem of_disk (h : InOrder cfg s) (hmode : cfg.diskWritable = true)
    (hst : s'.Stamped cfg.diskWritable ∧ Grows cfg.diskWritable s s')
    (hsame : SameStamps cfg.diskWritable s s') (hdisk : s'.disk = s.disk)
    (hgets : KeepsLanded cfg.diskWritable s s' → s'.GetsKnow cfg.diskWritable) :
    InOrder cfg s' := by
  have hmemory : cfg.diskWritable ≠ false := by
    rw [hmode]
    simp
  refine ⟨hst.1, ?_, fun h => absurd h hmemory, fun h => absurd h hmemory,
    hgets (fun h => absurd h hmemory)⟩
  intro _
  have hstamped := h.stamped
  rw [hmode] at hstamped hst hsame
  rw [hdisk]
  rcases h.disk hmode with hnone | ⟨value, hvalue, hcurrent⟩
  · exact .inl (hnone.keep hsame)
  · exact .inr ⟨value, hvalue, hcurrent.keep hstamped hst.2 hsame⟩

/-- Without a disk, a step of the queue or of a worker. -/
theorem of_memory (h : InOrder cfg s) (hmode : cfg.diskWritable = false)
    (hst : s'.Stamped cfg.diskWritable ∧ Grows cfg.diskWritable s s') (hheld : s'.Held)
    (hs3 : cfg.s3Writable = false → s'.NoneStamped false)
    (hbucket : s'.bucket = s.bucket ∨ ∃ t item, (s.threads t).Carries item ∧
      s'.bucket = item.blob.map (·.data))
    (hcarries : ∀ t item, (s'.threads t).Carries item → (∃ t', (s.threads t').Carries item) ∨
      ∃ blob, item.blob = some blob ∧ s.Current false blob.data)
    (hgets : KeepsLanded cfg.diskWritable s s' → s'.GetsKnow cfg.diskWritable) :
    InOrder cfg s' := by
  have hkeeps : KeepsLanded cfg.diskWritable s s' := by
    have hstamped := h.stamped
    rw [hmode] at hstamped hst ⊢
    intro _ t p a hp ha hlanded
    exact hlanded.step hstamped hst.2 hbucket hcarries hp ha
  refine ⟨hst.1, fun hdisk => ?_, fun _ => hheld, fun _ => hs3, hgets hkeeps⟩
  rw [hmode] at hdisk
  cases hdisk

/-- A step that leaves the disk, the queue, the bucket, the uploads and the stamps as they
are. -/
theorem of_quiet (h : InOrder cfg s)
    (hst : s'.Stamped cfg.diskWritable ∧ Grows cfg.diskWritable s s')
    (hsame : SameStamps cfg.diskWritable s s')
    (hlayers : s'.disk = s.disk ∧ s'.queue = s.queue ∧ s'.bucket = s.bucket)
    (hworkers : ∀ t c item, c.Carries item → s'.threads t = c → s.threads t = c)
    (hgets : KeepsLanded cfg.diskWritable s s' → s'.GetsKnow cfg.diskWritable) :
    InOrder cfg s' := by
  obtain ⟨hdisk, hqueue, hbucket⟩ := hlayers
  cases hmode : cfg.diskWritable with
  | true => exact h.of_disk hmode hst hsame hdisk hgets
  | false =>
    refine h.of_memory hmode hst ?_ (fun hs3 => (h.s3 hmode hs3).keep (hmode ▸ hsame))
      (.inl hbucket) (fun t item hitem => .inl ⟨t, ?_⟩) hgets
    · have hstamped := h.stamped
      rw [hmode] at hstamped hst hsame
      exact (h.held hmode).quiet hworkers hqueue hbucket (fun _ hc => hc.keep hstamped hst.2 hsame)
        (fun hn => hn.keep hsame)
    · rw [hworkers t _ item hitem rfl]
      exact hitem

end InOrder

namespace KeyState

variable {s u : KeyState} {tid : ℕ} {c : Control}

theorem workers_goto (hthreads : u.threads = s.threads) (hc : ∀ item, ¬ c.Carries item) (t : ℕ)
    (c' : Control) (item : UploadItem) (hitem : c'.Carries item)
    (h : (u.goto tid c).threads t = c') : s.threads t = c' := by
  have hne : c' ≠ c := by
    rintro rfl
    exact hc item hitem
  rw [← hthreads]
  exact (threads_of_goto h hne).2

theorem carries_goto {item : UploadItem} (hthreads : u.threads = s.threads)
    (hbefore : (s.threads tid).Carries item) (hafter : c.Carries item) (t : ℕ) (i : UploadItem)
    (hi : ((u.goto tid c).threads t).Carries i) : (∃ t', (s.threads t').Carries i) ∨
      ∃ blob, i.blob = some blob ∧ s.Current false blob.data := by
  rw [threads_goto_eq hthreads] at hi
  by_cases ht : t = tid
  · rw [if_pos ht] at hi
    exact .inl ⟨tid, hi.unique hafter ▸ hbefore⟩
  · rw [if_neg ht] at hi
    exact .inl ⟨t, hi⟩

end KeyState

namespace InOrder

open KeyState

variable {cfg : DaemonConfig} {s u : KeyState} {tid m : ℕ} {c : Control} {g : GetRecord}

section

variable (h : InOrder cfg s)

include h

theorem of_get
    (hst : (u.goto tid c).Stamped cfg.diskWritable ∧ Grows cfg.diskWritable s (u.goto tid c))
    (hu : u.threads = s.threads ∧ u.gets = s.gets ∧ u.puts = s.puts)
    (hlayers : u.disk = s.disk ∧ u.queue = s.queue ∧ u.bucket = s.bucket)
    (hget : c.isGet = true) (hc : ∀ g, s.gets tid = some g → s.Knows cfg.diskWritable g c)
    (hresult : ∀ fetch answer, u.fetchResult fetch = some answer →
      s.fetchResult fetch = some answer ∨ ∃ owner m, s.gets fetch = some owner ∧
        owner.missed = some m ∧ s.CoversBefore cfg.diskWritable answer m)
    (howner : ∀ fetch, u.fetch = some fetch → s.fetch = some fetch ∨ ∃ owner m,
      s.gets fetch = some owner ∧ owner.missed = some m) : InOrder cfg (u.goto tid c) := by
  have hcarry : ∀ item, ¬ c.Carries item :=
    Control.not_carries_of_isGet (by rw [hget]; rfl)
  refine h.of_quiet hst (.of_puts hu.2.2) hlayers (workers_goto hu.1 hcarry) (fun hk => ?_)
  exact h.gets.goto_get h.stamped hst.2 ⟨hu.1, hu.2.1⟩ hk hc hresult howner

theorem gets_other
    (hst : (u.goto tid c).Stamped cfg.diskWritable ∧ Grows cfg.diskWritable s (u.goto tid c))
    (hu : u.threads = s.threads ∧ u.gets = s.gets ∧ u.fetch = s.fetch ∧
      u.fetchResult = s.fetchResult) (hc : ∀ g, (u.goto tid c).Knows cfg.diskWritable g c)
    (hk : KeepsLanded cfg.diskWritable s (u.goto tid c)) :
    (u.goto tid c).GetsKnow cfg.diskWritable :=
  h.gets.goto_other h.stamped hst.2 hu hk hc

/-- A step of a worker. -/
theorem of_worker
    (hst : (u.goto tid c).Stamped cfg.diskWritable ∧ Grows cfg.diskWritable s (u.goto tid c))
    (hsame : u.puts = s.puts ∧ u.disk = s.disk)
    (hu : u.threads = s.threads ∧ u.gets = s.gets ∧ u.fetch = s.fetch ∧
      u.fetchResult = s.fetchResult) (hc : ∀ g, (u.goto tid c).Knows cfg.diskWritable g c)
    (hmemory : s.Held → (u.goto tid c).Held ∧ (u.bucket = s.bucket ∨
        ∃ t item, (s.threads t).Carries item ∧ u.bucket = item.blob.map (·.data)) ∧
      ∀ t item, ((u.goto tid c).threads t).Carries item → (∃ t', (s.threads t').Carries item) ∨
        ∃ blob, item.blob = some blob ∧ s.Current false blob.data) :
    InOrder cfg (u.goto tid c) := by
  have hgets := h.gets_other hst hu hc
  cases hmode : cfg.diskWritable with
  | true => exact h.of_disk hmode hst (.of_puts hsame.1) hsame.2 hgets
  | false =>
    obtain ⟨hheld, hbucket, hcarries⟩ := hmemory (h.held hmode)
    exact h.of_memory hmode hst hheld (fun hs3 => (h.s3 hmode hs3).keep (.of_puts hsame.1)) hbucket
      hcarries hgets

theorem of_goto {before : Control} (hbefore : s.threads tid = before)
    (hst : (s.goto tid c).Stamped cfg.diskWritable ∧ Grows cfg.diskWritable s (s.goto tid c))
    (hget : c.isGet = true) (hc : ∀ g, s.gets tid = some g → s.Knows cfg.diskWritable g before →
      s.Knows cfg.diskWritable g c) : InOrder cfg (s.goto tid c) :=
  h.of_get hst ⟨rfl, rfl, rfl⟩ ⟨rfl, rfl, rfl⟩ hget
    (fun g hg => hc g hg (hbefore ▸ h.gets.knows tid g hg)) (fun _ _ => .inl) (fun _ => .inl)

theorem of_setGet {g' : GetRecord}
    (hst : ((s.setGet tid g').goto tid c).Stamped cfg.diskWritable ∧
      Grows cfg.diskWritable s ((s.setGet tid g').goto tid c))
    (hget : (c.isGet || c = .done || c = .idle) = true)
    (hknows : ((s.setGet tid g').goto tid c).Knows cfg.diskWritable g' c)
    (hreplied : ∀ time answer, g'.replied = some (time, answer) →
      ((s.setGet tid g').goto tid c).Good g' answer) :
    InOrder cfg ((s.setGet tid g').goto tid c) := by
  refine h.of_quiet hst (.of_puts rfl) ⟨rfl, rfl, rfl⟩
    (workers_goto rfl (Control.not_carries_of_isGet hget)) (fun hk => ?_)
  have hself : ((s.setGet tid g').goto tid c).gets tid = some g' := update_self ..
  refine h.gets.step h.stamped hst.2 hk tid (fun t ht => ⟨?_, update_of_ne ht ..⟩) ?_ ?_
    (fun _ _ => .inl) (fun _ => .inl)
  · rw [threads_goto, if_neg ht]
    rfl
  · intro g hg
    cases hself.symm.trans hg
    rw [threads_goto, if_pos rfl]
    exact hknows
  · intro g time answer hg hr
    cases hself.symm.trans hg
    exact hreplied time answer hr

/-- Where nothing was stored, every answer will do. -/
theorem good_of_noneStamped {answer : Option Str}
    (hnone : s.NoneStamped cfg.diskWritable) : s.Good g answer := by
  refine good_of_covers h.stamped (fun t p r a hp _ _ ha => ?_)
  rw [hnone t p hp] at ha
  cases ha

theorem good_of_disk (hmode : cfg.diskWritable = true) {value : Str}
    (hvalue : s.disk = some value) : s.Good g (some value) := by
  rcases h.disk hmode with hnone | ⟨newest, hnewest, hcurrent⟩
  · exact h.good_of_noneStamped (hmode ▸ hnone)
  · cases hvalue.symm.trans hnewest
    exact good_of_current (hmode ▸ h.stamped) hcurrent

theorem missed_of_disk
    (hmiss : cfg.diskWritable = true → s.disk = none) {p : PutRecord} {t a : ℕ}
    (hmode : cfg.diskWritable = true) (hp : s.puts t = some p) :
    p.stamp cfg.diskWritable ≠ some a := by
  rw [hmode]
  rcases h.disk hmode with hnone | ⟨newest, hnewest, -⟩
  · rw [hnone t p hp]
    simp
  · rw [hmiss hmode] at hnewest
    cases hnewest

theorem good_of_held (hg : s.gets tid = some g)
    (hm : s.Missed cfg.diskWritable g m) {blob : HeldBlob} (hheld : s.queue.held = some blob) :
    s.Good g (some blob.data) := by
  cases hmode : cfg.diskWritable with
  | true => exact good_of_missed h.stamped hmode hg hm
  | false => exact good_of_current (hmode ▸ h.stamped) ((h.held hmode).held blob hheld)

/-- When nothing is held, the bucket has what was stored. -/
theorem landedBefore_of_held (hm : s.Missed cfg.diskWritable g m)
    (hheld : s.queue.held = none) : s.LandedBefore cfg.diskWritable m := by
  cases hmode : cfg.diskWritable with
  | true => exact hmode ▸ hm.landedBefore hmode
  | false =>
    intro t p a hp ha _
    rcases (h.held hmode).bucket hheld with hnone | ⟨value, hvalue, hcurrent⟩
    · rw [hnone t p hp] at ha
      cases ha
    · refine ⟨⟨value, hvalue, hcurrent t p a hp ha⟩, fun t' item hitem => ?_⟩
      obtain ⟨-, _, held, _, -, hsome, -⟩ := (h.held hmode).flight t' item hitem
      rw [hheld] at hsome
      cases hsome

theorem good_of_no_s3 (hg : s.gets tid = some g)
    (hm : s.Missed cfg.diskWritable g m) (hs3 : cfg.s3Writable = false) : s.Good g none := by
  cases hmode : cfg.diskWritable with
  | true => exact good_of_missed h.stamped hmode hg hm
  | false => exact h.good_of_noneStamped (hmode ▸ h.s3 hmode hs3)

theorem good_of_join (hg : s.gets tid = some g)
    (hm : s.Missed cfg.diskWritable g m) {fetch : ℕ} {answer : Option Str}
    (hjoins : s.JoinsCovering cfg.diskWritable g fetch)
    (hanswer : s.fetchResult fetch = some answer) : s.Good g answer := by
  cases hmode : cfg.diskWritable with
  | true => exact good_of_missed h.stamped hmode hg hm
  | false =>
    obtain ⟨owner, m, howner, hmissed, hbefore⟩ := hjoins hmode
    obtain ⟨owner', m', howner', hmissed', hcovers⟩ := h.gets.result fetch answer hanswer
    cases howner.symm.trans howner'
    cases hmissed.symm.trans hmissed'
    refine good_of_covers h.stamped (fun t p r a hp hr hlt ha => ?_)
    obtain ⟨a', ha', hlt'⟩ := hbefore t p r hp hr hlt
    cases ha.symm.trans ha'
    exact hcovers t p a hp ha hlt'

end

end InOrder

/-- The layers work, no store is refused, no fetched value is written to disk when a put has been
stored since its get missed, and without a disk no fetch is joined that is as old. -/
structure Allowed (cfg : DaemonConfig) (s : KeyState) (e : DaemonEvent) (s' : KeyState) :
    Prop where
  disk : ∀ tid ok, e = .putDisk tid ok → ok = true
  s3 : e.s3Fails = false
  accepted : ∀ tid watch, e = .putEnqueue tid → s'.threads tid ≠ .putRefused watch
  backfill : ∀ tid ok value g m, e = .getBackfill tid ok → cfg.diskWritable = true →
    s.threads tid = .getFetched (some value) → s.gets tid = some g → g.missed = some m →
    ∀ t p a, s.puts t = some p → p.stamp true = some a → a < m
  join : ∀ tid g fetch owner m, e = .getFetch tid → cfg.diskWritable = false →
    s.gets tid = some g → s.fetch = some fetch → s.gets fetch = some owner → owner.missed = some m →
    ∀ t p a, s.puts t = some p → p.stamp false = some a → a < m

open KeyState in
theorem inOrder_step {cfg : DaemonConfig} (hs3 : cfg.s3Writable = true → cfg.s3Enabled = true)
    (hreadOnly : cfg.readOnly = true → cfg.s3Writable = false) {k : Str} {s s' : KeyState}
    {e : DaemonEvent} (hallowed : Allowed cfg s e s') (h : KeyStep cfg k s e s')
    (hs : InOrder cfg s) : InOrder cfg s' := by
  have hst := stamped_step hallowed.disk hallowed.accepted h hs.stamped
  cases h with
  | other =>
    refine hs.of_quiet hst (.of_puts rfl) ⟨rfl, rfl, rfl⟩ (fun _ _ _ _ h => h) (fun hk => ?_)
    refine hs.gets.step hs.stamped hst.2 hk s.clock (fun _ _ => ⟨rfl, rfl⟩) ?_ ?_
      (fun _ _ => .inl) (fun _ => .inl)
    · intro g hg
      exact (hs.gets.knows _ g hg).grow hs.stamped hst.2 hg hk rfl rfl
    · intro g time answer hg hr
      exact Good.grow hs.stamped hst.2 (hs.stamped.get _ g hg).1 rfl
        (hs.gets.replied _ g time answer hg hr)
  | startPut tid value hc hp =>
    refine hs.of_quiet hst (.of_setPut rfl (fun a ha => ?_)) ⟨rfl, rfl, rfl⟩
      (workers_goto rfl (Control.not_carries_of_isPut rfl))
      (hs.gets_other hst ⟨rfl, rfl, rfl, rfl⟩ (fun _ => trivial))
    rw [show (⟨k, value, s.clock, none, none, none⟩ : PutRecord).stamp cfg.diskWritable = none
      from ite_self _] at ha
    cases ha
  | putOnDisk tid p hc hp hwritable =>
    have hmemory : cfg.diskWritable ≠ false := by
      rw [hwritable]
      simp
    refine ⟨hst.1, fun _ => .inr ⟨p.value, rfl, ?_⟩, fun h => absurd h hmemory,
      fun h => absurd h hmemory, ?_⟩
    · rw [hwritable] at hst
      exact current_of_now (p := { p with written := some s.clock }) hst.1 hst.2 (update_self ..)
        rfl
    · exact hs.gets_other hst ⟨rfl, rfl, rfl, rfl⟩ (fun _ => trivial) (fun h => absurd h hmemory)
  | putNoDisk tid ok hc hno | putSkip tid onDisk hc _ =>
    exact hs.of_quiet hst (.of_puts rfl) ⟨rfl, rfl, rfl⟩
      (workers_goto rfl (Control.not_carries_of_isPut rfl))
      (hs.gets_other hst ⟨rfl, rfl, rfl, rfl⟩ (fun _ => trivial))
  | queueOnDisk tid p hc hp _ =>
    obtain ⟨-, hdisk, -⟩ := hs.stamped.fits hc p hp
    refine hs.of_disk hdisk.symm hst (.of_setPut rfl (fun a ha => ⟨p, hp, ?_⟩)) rfl
      (hs.gets_other hst ⟨rfl, rfl, rfl, rfl⟩ (fun _ => trivial))
    rw [← hdisk] at ha ⊢
    exact ha
  | queueHeld tid p hc hp hwritable =>
    obtain ⟨-, hmemory, -⟩ := hs.stamped.fits hc p hp
    have hworkers : ∀ t c item, c.Carries item →
        (((s.accept k (some ⟨tid, p.value⟩)).setPut tid { p with queued := some s.clock }).goto tid
          (.putLeaving true)).threads t = c → s.threads t = c :=
      workers_goto rfl (Control.not_carries_of_isPut rfl)
    refine hs.of_memory hmemory.symm hst ?_ (fun h => ?_) (.inl rfl) ?_
      (hs.gets_other hst ⟨rfl, rfl, rfl, rfl⟩ (fun _ => trivial))
    · rw [← hmemory] at hst
      exact (hs.held hmemory.symm).accept hworkers rfl rfl
        (current_of_now (p := { p with queued := some s.clock }) hst.1 hst.2 (update_self ..) rfl)
    · rw [hwritable] at h
      cases h
    · intro t item hitem
      exact .inl ⟨t, by rw [hworkers t _ item hitem rfl]; exact hitem⟩
  | queueRefused tid p hc hp _ => exact absurd (update_self ..) (hallowed.accepted tid _ rfl)
  | retryOvertaken _ _ hc | retrySync _ _ _ hc | retryWatch _ _ hc | retryLost _ _ hc
  | putUpload _ _ _ _ hc | putFinish _ _ _ hc => exact (hs.stamped.fits hc).elim
  | putReply tid stored p hc hp =>
    exact hs.of_quiet hst (.of_setPut rfl (fun a ha => ⟨p, hp, ha⟩)) ⟨rfl, rfl, rfl⟩
      (workers_goto rfl (Control.not_carries_of_isGet rfl))
      (hs.gets_other hst ⟨rfl, rfl, rfl, rfl⟩ (fun _ => trivial))
  | take tid now item flightId hc hp hitem hkey =>
    refine hs.of_worker hst ⟨rfl, rfl⟩ ⟨rfl, rfl, rfl, rfl⟩ (fun _ => trivial)
      (fun hheld => ⟨hheld.take hitem tid flightId, .inl rfl, fun t i hi => ?_⟩)
    by_cases ht : t = tid
    · rw [threads_goto, if_pos ht] at hi
      obtain rfl := hi.unique (.inl rfl)
      obtain ⟨-, -, blob, hblob, hsome⟩ := hheld.waiting i hitem
      exact .inr ⟨blob, hblob, hheld.held blob hsome⟩
    · rw [threads_goto, if_neg ht] at hi
      exact .inl ⟨t, hi⟩
  | load tid item hc =>
    refine hs.of_worker hst ⟨rfl, rfl⟩ ⟨rfl, rfl, rfl, rfl⟩ (fun _ => trivial) (fun hheld => ?_)
    have hcarries : (s.threads tid).Carries item := .inl hc
    obtain ⟨-, blob, -, -, hblob, -⟩ := hheld.flight tid item hcarries
    refine ⟨hheld.advance s.bucket hcarries (.inr (.inl ⟨_, rfl⟩)) (by simp) ?_ (by simp), .inl rfl,
      carries_goto rfl hcarries (.inr (.inl ⟨_, rfl⟩))⟩
    intro loaded hloaded
    obtain rfl := (Control.loaded.inj hloaded).2
    rw [hblob]
    rfl
  | sendNothing tid now ok item hc =>
    refine hs.of_worker hst ⟨rfl, rfl⟩ ⟨rfl, rfl, rfl, rfl⟩ (fun _ => trivial) (fun hheld => ?_)
    obtain ⟨-, blob, -, -, hblob, -⟩ := hheld.flight tid item (.inr (.inl ⟨_, hc⟩))
    have hnone := hheld.loaded tid item none hc
    rw [hblob] at hnone
    cases hnone
  | sendUploaded tid now item blob hc =>
    refine hs.of_worker hst ⟨rfl, rfl⟩ ⟨rfl, rfl, rfl, rfl⟩ (fun _ => trivial) (fun hheld => ?_)
    have hcarries : (s.threads tid).Carries item := .inr (.inl ⟨_, hc⟩)
    have hblob := hheld.loaded tid item _ hc
    refine ⟨hheld.advance _ hcarries (.inr (.inr ⟨_, rfl⟩)) ?_ (by simp) (fun _ _ => hblob.symm),
      .inr ⟨tid, item, hcarries, hblob.symm⟩, carries_goto rfl hcarries (.inr (.inr ⟨_, rfl⟩))⟩
    intro outcome houtcome
    exact (Control.sent.inj houtcome).2.symm
  | sendFailed tid now item blob attempts wait outcome houtcome hc => cases hallowed.s3
  | settleRetry tid item hc =>
    refine hs.of_worker hst ⟨rfl, rfl⟩ ⟨rfl, rfl, rfl, rfl⟩ (fun _ => trivial) (fun hheld => ?_)
    cases hheld.well tid item _ hc
  | settle tid item outcome hc houtcome =>
    refine hs.of_worker hst ⟨rfl, rfl⟩ ⟨rfl, rfl, rfl, rfl⟩ (fun _ => trivial)
      (fun hheld => ⟨hheld.settle _ hc, .inl rfl, fun t i hi => .inl ⟨t, ?_⟩⟩)
    exact (carries_of_goto hi (Control.not_carries_of_isGet rfl i)).2
  | startGet tid hc hg hp => exact hs.of_setGet hst rfl trivial (by simp)
  | getDiskHit tid value hc hdisk hvalue =>
    refine hs.of_goto hc hst rfl (fun g hg _ => ?_)
    cases hmode : cfg.diskWritable with
    | true => exact hs.good_of_disk hmode hvalue
    | false =>
      have hread : cfg.readOnly = true := by
        rw [DaemonConfig.diskWritable, hdisk, Bool.true_and] at hmode
        exact Bool.not_eq_eq_eq_not.mp hmode
      exact hs.good_of_noneStamped (hmode ▸ hs.s3 hmode (hreadOnly hread))
  | getDiskMiss tid g hc hg hmiss =>
    refine hs.of_setGet hst rfl ⟨s.clock, rfl, fun hdisk t p a hp ha => ?_⟩ ?_
    · exact absurd ha (hs.missed_of_disk (fun h => hmiss (Bool.and_eq_true_iff.mp h).1) hdisk hp)
    · intro time answer hr
      exact Good.grow hs.stamped hst.2 (hs.stamped.get tid g hg).1 rfl
        (hs.gets.replied tid g time answer hg hr)
  | getHeldHit tid blob hc hheld =>
    refine hs.of_goto hc hst rfl (fun g hg ⟨m, hm⟩ => ?_)
    exact hs.good_of_held hg hm hheld
  | getHeldMiss tid hc hheld =>
    refine hs.of_goto hc hst (by split <;> rfl) (fun g hg ⟨m, hm⟩ => ?_)
    split
    next => exact ⟨m, hm, hs.landedBefore_of_held hm hheld⟩
    next hno => exact hs.good_of_no_s3 hg hm (eq_false_of_ne_true (fun h => hno (hs3 h)))
  | getJoinFetch tid fetch hc hfetch =>
    refine hs.of_goto hc hst rfl (fun g hg hknows => ⟨hknows, fun hmemory => ?_⟩)
    obtain ⟨owner, m, howner, hm⟩ := hs.gets.owner fetch hfetch
    refine ⟨owner, m, howner, hm, fun t p r hp hr _ => ?_⟩
    obtain ⟨-, -, hstored⟩ := (hs.stamped.put t p hp).2.2 r true hr
    obtain ⟨a, ha⟩ := ne_none_iff_exists'.mp (hstored rfl)
    refine ⟨a, ha, ?_⟩
    rw [hmemory] at ha
    exact hallowed.join tid g fetch owner m rfl hmemory hg hfetch howner hm t p a hp ha
  | getOpenFetch tid g hc hg hfetch =>
    have hknows := hs.gets.knows tid g hg
    rw [hc] at hknows
    refine hs.of_get hst ⟨rfl, rfl, rfl⟩ ⟨rfl, rfl, rfl⟩ rfl (fun g' hg' => ?_) (fun _ _ => .inl)
      (fun fetch howner => .inr ?_)
    · cases hg.symm.trans hg'
      exact hknows
    · cases howner
      obtain ⟨m, hm, -⟩ := hknows
      exact ⟨g, m, hg, hm.1⟩
  | getJoin tid fetch value hc hvalue =>
    refine hs.of_goto hc hst rfl (fun g hg ⟨⟨m, hm, _⟩, hjoins⟩ => ?_)
    exact hs.good_of_join hg hm hjoins hvalue
  | getTimeout tid fetch hc =>
    exact hs.of_goto hc hst rfl (fun g hg hknows => hknows.1)
  | getS3 tid hc =>
    refine hs.of_goto hc hst rfl (fun g hg ⟨m, hm, hlanded⟩ => ?_)
    exact ⟨m, hm, fun t p a hp ha hlt => (hlanded t p a hp ha hlt).1⟩
  | getBackfill tid ok value g hc hg =>
    have hknows := hs.gets.knows tid g hg
    rw [hc] at hknows
    by_cases hwrites : (value.isSome && cfg.diskWritable && ok) = true
    · -- Every stamp would be both before and after the get missed.
      rw [Bool.and_eq_true, Bool.and_eq_true] at hwrites
      obtain ⟨⟨hsome, hdisk⟩, -⟩ := hwrites
      obtain ⟨fetched, rfl⟩ := isSome_iff_exists.mp hsome
      obtain ⟨m, hm, -⟩ := hknows
      have hnone : s.NoneStamped true := by
        intro t p hp
        by_contra hsome
        obtain ⟨a, ha⟩ := ne_none_iff_exists'.mp hsome
        have hbefore := hallowed.backfill tid ok fetched g m rfl hdisk hc hg hm.1 t p a hp ha
        have hafter := hm.2 hdisk t p a hp (hdisk ▸ ha)
        omega
      have hmemory : cfg.diskWritable ≠ false := by
        rw [hdisk]
        simp
      refine ⟨hst.1, fun _ => .inl (hnone.keep (.of_puts rfl)), fun h => absurd h hmemory,
        fun h => absurd h hmemory, ?_⟩
      refine hs.gets.goto_get hs.stamped hst.2 ⟨rfl, rfl⟩ (fun h => absurd h hmemory)
        (fun g' hg' => ?_) (fun _ _ => .inl) (fun _ => .inl)
      have hknows := hs.gets.knows tid g' hg'
      rw [hc] at hknows
      exact hknows
    · refine hs.of_get hst ⟨rfl, rfl, rfl⟩ ⟨if_neg hwrites, rfl, rfl⟩ rfl (fun g' hg' => ?_)
        (fun _ _ => .inl) (fun _ => .inl)
      cases hg.symm.trans hg'
      exact hknows
  | getDone tid value g hc hg =>
    have hknows := hs.gets.knows tid g hg
    rw [hc] at hknows
    obtain ⟨m, hm, hcovers⟩ := hknows
    refine hs.of_get hst ⟨rfl, rfl, rfl⟩ ⟨rfl, rfl, rfl⟩ rfl (fun g' hg' => ?_)
      (fun fetch answer hanswer => ?_) (fun fetch howner => .inl ?_)
    · cases hg.symm.trans hg'
      exact good_of_coversBefore hs.stamped hg hm.1 hcovers
    · change update s.fetchResult tid (some value) fetch = some answer at hanswer
      by_cases hself : fetch = tid
      · subst hself
        rw [update_self] at hanswer
        cases hanswer
        exact .inr ⟨g, m, hg, hm.1, hcovers⟩
      · rw [update_of_ne hself] at hanswer
        exact .inl hanswer
    · change (if s.fetch = some tid then none else s.fetch) = some fetch at howner
      split at howner
      next => cases howner
      next => exact howner
  | getReply tid value g hc hg =>
    have hknows := hs.gets.knows tid g hg
    rw [hc] at hknows
    refine hs.of_setGet hst rfl trivial (fun time answer hr => ?_)
    cases hr
    exact Good.grow hs.stamped hst.2 (hs.stamped.get tid g hg).1 rfl hknows

theorem inOrder_start (cfg : DaemonConfig) (journalled : Bool) (maxHeldBytes : ℕ)
    (disk bucket : Str → Option Str) (k : Str) :
    InOrder cfg ((Daemon.start journalled maxHeldBytes disk bucket).key k) := by
  have hidle : ∀ tid, ((Daemon.start journalled maxHeldBytes disk bucket).key k).threads tid =
      .idle := fun tid => Daemon.threads_idle rfl
  have hnone : ∀ onDisk, ((Daemon.start journalled maxHeldBytes disk bucket).key k).NoneStamped
      onDisk := nofun
  have hcarries : ∀ tid item, ¬ (((Daemon.start journalled maxHeldBytes disk bucket).key
      k).threads tid).Carries item := by
    intro tid item
    rw [hidle]
    exact Control.not_carries_of_isGet rfl item
  refine ⟨⟨nofun, nofun, ?_⟩, fun _ => .inl (hnone _), fun _ => ?_, fun _ _ => hnone _,
    ⟨nofun, nofun, nofun, nofun⟩⟩
  · intro tid
    rw [hidle]
    trivial
  · exact ⟨.of_none hcarries, rfl, nofun, fun tid item h => absurd h (hcarries tid item), nofun,
      fun _ => .inl (hnone _)⟩

def DaemonEvent.layersWork : DaemonEvent → Bool
  | .putDisk _ ok | .putUpload _ ok | .send _ ok _ | .getBackfill _ ok => ok
  | _ => true

namespace Daemon

/-- Every put of the key that is stored was so before that time. -/
def StoredBefore (onDisk : Bool) (s : Daemon) (k : Str) (time : ℕ) : Prop :=
  ∀ tid p a, s.puts tid = some p → p.key = k → p.stamp onDisk = some a → a < time

/-- The queue has room for what it is to hold, and no put was stored between a get's miss and its
write of what it fetched to disk, or, without a disk, before another get joins its fetch. -/
def looksForward (cfg : DaemonConfig) (s : Daemon) : DaemonEvent → Prop
  | .putEnqueue tid => cfg.s3Writable = true → s.control tid = .putDisked false →
    ∀ p, s.puts tid = some p → s.uploads.fits p.key (some ⟨tid, p.value⟩) = true
  | .getBackfill tid _ => cfg.diskWritable = true → ∀ value g m,
    s.control tid = .getFetched (some value) → s.gets tid = some g → g.missed = some m →
    s.StoredBefore true g.key m
  | .getFetch tid => cfg.diskWritable = false → ∀ g fetch owner m, s.gets tid = some g →
    s.fetches g.key = some fetch → s.gets fetch = some owner → owner.missed = some m →
    s.StoredBefore false g.key m
  | _ => True

def LooksForward (cfg : DaemonConfig) (s : Daemon) (e : DaemonEvent) : Prop :=
  e.layersWork = true ∧ s.looksForward cfg e

variable {cfg : DaemonConfig} {s s' : Daemon} {e : DaemonEvent} {k : Str}

theorem StoredBefore.key {onDisk : Bool} {m : ℕ} (h : s.StoredBefore onDisk k m) :
    ∀ t p a, (s.key k).puts t = some p → p.stamp onDisk = some a → a < m := by
  intro t p a hp ha
  obtain ⟨hp, hk⟩ := puts_key_iff.mp hp
  exact h t p a hp hk ha

theorem control_goto {tid : ℕ} {c : Control} : (s.goto tid c).control tid = c :=
  update_self ..

theorem accepted_of_fits {tid : ℕ} {watch : Option ℕ}
    (hfits : s.looksForward cfg (.putEnqueue tid)) (he : s.putEnqueue cfg tid = some s') :
    s'.control tid ≠ .putRefused watch := by
  revert he
  fun_cases putEnqueue cfg s tid <;> rintro ⟨⟩
  next =>
    rw [control_goto]
    simp
  next =>
    rw [enqueueOnDisk, control_goto]
    simp
  next p hp hc hwritable hmemory =>
    have hroom := hfits (by simpa using hwritable) (by rw [hc, eq_false_of_ne_true hmemory]) p hp
    have haccept : (s.uploads.enqueue p.key (some ⟨tid, p.value⟩) false).1.accepted = true := by
      rw [UploadQueue.enqueue, if_pos hroom]
      rfl
    rw [enqueueHeld, control_goto, if_pos haccept]
    simp

theorem allowed_of_looksForward (hok : LooksForward cfg s e)
    (he : step cfg s e = some s') : Allowed cfg (s.key k) e (s'.key k) := by
  obtain ⟨hlayers, hforward⟩ := hok
  refine ⟨?_, ?_, ?_, ?_, ?_⟩
  · rintro tid ok rfl
    exact hlayers
  · cases e <;> simp_all [DaemonEvent.layersWork, DaemonEvent.s3Fails]
  · rintro tid watch rfl hrefused
    exact accepted_of_fits hforward he (Control.eq_of_onKey hrefused (by simp))
  · rintro tid ok value g m rfl hmode hc hg hm
    obtain ⟨hsome, rfl⟩ := gets_key_iff.mp hg
    exact (hforward hmode value g m (Control.eq_of_onKey hc (by simp)) hsome hm).key
  · rintro tid g fetch owner m rfl hmode hg hfetch howner hm
    obtain ⟨hsome, rfl⟩ := gets_key_iff.mp hg
    have howned := (gets_key_iff.mp howner).1
    exact (hforward hmode g fetch owner m hsome hfetch howned hm).key

/-- A get that comes after a put of its key was stored answers with that put's value or with that
of one that was not over before the put came. -/
theorem get_not_older (hs3 : cfg.s3Writable = true → cfg.s3Enabled = true)
    (hreadOnly : cfg.readOnly = true → cfg.s3Writable = false) {journalled : Bool}
    {maxHeldBytes : ℕ} {disk bucket : Str → Option Str} {events : List DaemonEvent} {t : Daemon}
    (hrun : StepMachine.Run (step cfg) (LooksForward cfg)
      (start journalled maxHeldBytes disk bucket) events t)
    (tid getter : ℕ) {r time : ℕ} {g : GetRecord} {p : PutRecord} {answer : Option Str}
    (hg : t.gets getter = some g) (hanswer : g.replied = some (time, answer))
    (hp : t.puts tid = some p) (hkey : p.key = g.key) (hstored : p.replied = some (r, true))
    (hbefore : r < g.started) :
    ∃ tid' q, t.puts tid' = some q ∧ q.key = g.key ∧ answer = some q.value ∧ ¬ q.Before p := by
  have hinv : InOrder cfg (t.key g.key) :=
    run_key (InOrder cfg) (fun _ _ _ _ hok he h hs =>
      inOrder_step hs3 hreadOnly (allowed_of_looksForward hok he) h hs) hrun (start_wf ..)
      (inOrder_start ..)
  have hgood := hinv.gets.replied getter g time answer (gets_key_iff.mpr ⟨hg, rfl⟩) hanswer
  obtain ⟨tid', q, hq, hvalue, hlater⟩ :=
    hgood tid p r (puts_key_iff.mpr ⟨hp, hkey⟩) hstored hbefore
  obtain ⟨hsome, hk⟩ := puts_key_iff.mp hq
  exact ⟨tid', q, hsome, hk, hvalue, hlater⟩

/-- The bucket has an older value of the key, and the disk is empty. -/
def daemonBehindBucket : Daemon :=
  start true 0 (fun _ => none) (fun key => if key = "k".toList then some "old".toList else none)

def storeThenRead : List DaemonEvent :=
  [.startPut 0 "k".toList "new".toList, .putDisk 0 true, .putEnqueue 0, .putReply 0,
    .startGet 1 "k".toList, .getDisk 1, .getReply 1]

theorem get_not_older_after_store : ∃ t, StepMachine.Run (step ⟨true, false, true, true⟩)
      (LooksForward ⟨true, false, true, true⟩) daemonBehindBucket storeThenRead t ∧
    ∃ tid q, t.puts tid = some q ∧ q.key = "k".toList ∧ some "new".toList = some q.value ∧
      ¬ q.Before ⟨"k".toList, "new".toList, 0, some 1, some 2, some (3, true)⟩ := by
  have hrun : StepMachine.Run (step ⟨true, false, true, true⟩)
      (LooksForward ⟨true, false, true, true⟩) daemonBehindBucket storeThenRead _ :=
    .cons rfl ⟨rfl, trivial⟩ <| .cons rfl ⟨rfl, trivial⟩ <| .cons rfl ⟨rfl, nofun⟩ <|
      .cons rfl ⟨rfl, trivial⟩ <| .cons rfl ⟨rfl, trivial⟩ <| .cons rfl ⟨rfl, trivial⟩ <|
      .cons rfl ⟨rfl, trivial⟩ <| .nil _
  exact ⟨_, hrun, get_not_older (fun _ => rfl) (fun h => by cases h) hrun 0 1 rfl rfl rfl rfl rfl
    (by decide)⟩

/-- A get misses on disk and reads the bucket. The put is stored and replies, the get writes what
it read to the disk, and a second get comes. -/
def staleBackfill : List DaemonEvent :=
  [.startGet 0 "k".toList, .getDisk 0, .getHeld 0, .getFetch 0, .getS3 0,
    .startPut 1 "k".toList "new".toList, .putDisk 1 true, .putEnqueue 1, .putReply 1,
    .getBackfill 0 true, .startGet 2 "k".toList, .getDisk 2, .getReply 2]

/-- The put replied at 8, before the second get came at 10, and that get has the value the bucket
had before there was any put. -/
theorem get_older_after_backfill :
    (StepMachine.exec (step ⟨true, false, true, true⟩) (fun _ e => e.layersWork = true)
      daemonBehindBucket staleBackfill).map (fun t => (t.puts 1).map (fun p =>
        (p.value, p.replied))) = some (some ("new".toList, some (8, true))) ∧
    (StepMachine.exec (step ⟨true, false, true, true⟩) (fun _ e => e.layersWork = true)
      daemonBehindBucket staleBackfill).map (fun t => (t.gets 2).map (fun g =>
        (g.started, g.replied))) = some (some (10, some (12, some "old".toList))) :=
  ⟨rfl, rfl⟩

end Daemon

end Vcache

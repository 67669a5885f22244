import Vcache.GetRecords

/-!
# What a get knows on its way

A get that answers is to know that no put stored before it came is newer than the
answer. `Knows` says how much of that it has at each point, and `Knows.grow` that it
keeps it while other threads move.
-/

namespace Vcache

open Option Function

variable {p : PutRecord} {g' : GetRecord}

namespace KeyState

variable {onDisk : Bool} {s s' u : KeyState} {tid t a m : ℕ} {c : Control} {value : Str}
  {answer : Option Str} {g : GetRecord}

/-- The value is of a put stamped no earlier. -/
def Covers (onDisk : Bool) (s : KeyState) (value : Str) (a : ℕ) : Prop :=
  ∃ tid q b, s.puts tid = some q ∧ q.value = value ∧ q.stamp onDisk = some b ∧ a ≤ b

/-- No put has a later stamp than the value. -/
def Current (onDisk : Bool) (s : KeyState) (value : Str) : Prop :=
  ∀ tid p a, s.puts tid = some p → p.stamp onDisk = some a → s.Covers onDisk value a

def NoneStamped (onDisk : Bool) (s : KeyState) : Prop :=
  ∀ tid p, s.puts tid = some p → p.stamp onDisk = none

/-- The answer is not older than any put stored before the get came. -/
def Good (s : KeyState) (g : GetRecord) (answer : Option Str) : Prop :=
  ∀ tid p r, s.puts tid = some p → p.replied = some (r, true) → r < g.started →
    ∃ tid' q, s.puts tid' = some q ∧ answer = some q.value ∧ ¬ q.Before p

def CoversBefore (onDisk : Bool) (s : KeyState) (answer : Option Str) (m : ℕ) : Prop :=
  ∀ tid p a, s.puts tid = some p → p.stamp onDisk = some a → a < m →
    ∃ value, answer = some value ∧ s.Covers onDisk value a

/-- The bucket has the put stamped then or a newer one, and no upload under way is older. -/
def Landed (onDisk : Bool) (s : KeyState) (a : ℕ) : Prop :=
  (∃ value, s.bucket = some value ∧ s.Covers onDisk value a) ∧
    ∀ tid item, (s.threads tid).Carries item →
      ∃ blob, item.blob = some blob ∧ s.Covers onDisk blob.data a

def LandedBefore (onDisk : Bool) (s : KeyState) (m : ℕ) : Prop :=
  ∀ tid p a, s.puts tid = some p → p.stamp onDisk = some a → a < m → s.Landed onDisk a

/-- The get missed on disk then; with a disk, no put had been stored. -/
def Missed (onDisk : Bool) (s : KeyState) (g : GetRecord) (m : ℕ) : Prop :=
  g.missed = some m ∧
    (onDisk = true → ∀ tid p a, s.puts tid = some p → p.stamp onDisk = some a → m ≤ a)

/-- Without a disk, the fetch that is joined has every put stored before the get came. -/
def JoinsCovering (onDisk : Bool) (s : KeyState) (g : GetRecord) (fetch : ℕ) : Prop :=
  onDisk = false → ∃ owner m, s.gets fetch = some owner ∧ owner.missed = some m ∧
    ∀ tid p r, s.puts tid = some p → p.replied = some (r, true) → r < g.started →
      ∃ a, p.stamp onDisk = some a ∧ a < m

def Knows (onDisk : Bool) (s : KeyState) (g : GetRecord) : Control → Prop
  | .getMissedDisk => ∃ m, s.Missed onDisk g m
  | .getMissed | .getFetching => ∃ m, s.Missed onDisk g m ∧ s.LandedBefore onDisk m
  | .getJoined fetch =>
    (∃ m, s.Missed onDisk g m ∧ s.LandedBefore onDisk m) ∧ s.JoinsCovering onDisk g fetch
  | .getFetched value | .getBackfilled value =>
    ∃ m, s.Missed onDisk g m ∧ s.CoversBefore onDisk value m
  | .getAnswered value => s.Good g value
  | _ => True

/-! ## What follows from the stamps -/

/-- A put with a later stamp was not over before the other came. -/
theorem not_before_of_stamp (hs : s.Stamped onDisk) {q : PutRecord} {b : ℕ}
    (hp : s.puts tid = some p) (hq : s.puts t = some q) (ha : p.stamp onDisk = some a)
    (hb : q.stamp onDisk = some b) (hle : a ≤ b) : ¬ q.Before p := by
  rintro ⟨r, stored, hr, hlt⟩
  have hstarted := ((hs.put tid p hp).2.1 a ha).1
  have hreplied := ((hs.put t q hq).2.2 r stored hr).2.1 b hb
  omega

theorem good_of_covers (hs : s.Stamped onDisk)
    (h : ∀ tid p r a, s.puts tid = some p → p.replied = some (r, true) → r < g.started →
      p.stamp onDisk = some a → ∃ value, answer = some value ∧ s.Covers onDisk value a) :
    s.Good g answer := by
  intro tid p r hp hr hlt
  obtain ⟨-, -, hstamp⟩ := (hs.put tid p hp).2.2 r true hr
  obtain ⟨a, ha⟩ := ne_none_iff_exists'.mp (hstamp rfl)
  obtain ⟨value, rfl, t, q, b, hq, rfl, hb, hle⟩ := h tid p r a hp hr hlt ha
  exact ⟨t, q, hq, rfl, not_before_of_stamp hs hp hq ha hb hle⟩

theorem good_of_current (hs : s.Stamped onDisk) (h : s.Current onDisk value) :
    s.Good g (some value) :=
  good_of_covers hs (fun tid p _ a hp _ _ ha => ⟨value, rfl, h tid p a hp ha⟩)

/-- A put stored before a get came is stamped before the get missed. -/
theorem stamp_lt_of_missed (hs : s.Stamped onDisk) {r : ℕ}
    (hg : s.gets t = some g) (hm : g.missed = some m) (hp : s.puts tid = some p)
    (hr : p.replied = some (r, true)) (hlt : r < g.started) (ha : p.stamp onDisk = some a) :
    a < m := by
  have hbefore := ((hs.put tid p hp).2.2 r true hr).2.1 a ha
  have hmissed := ((hs.get t g hg).2 m hm).1
  omega

theorem good_of_coversBefore (hs : s.Stamped onDisk) (hg : s.gets t = some g)
    (hm : g.missed = some m) (h : s.CoversBefore onDisk answer m) : s.Good g answer :=
  good_of_covers hs (fun tid p _ a hp hr hlt ha =>
    h tid p a hp ha (stamp_lt_of_missed hs hg hm hp hr hlt ha))

/-- With a disk, nothing was stored before a get came that missed. -/
theorem good_of_missed (hs : s.Stamped onDisk) (hmode : onDisk = true) (hg : s.gets t = some g)
    (h : s.Missed onDisk g m) : s.Good g answer := by
  refine good_of_covers hs (fun tid p r a hp hr hlt ha => ?_)
  have hbefore := stamp_lt_of_missed hs hg h.1 hp hr hlt ha
  have hafter := h.2 hmode tid p a hp ha
  omega

/-! ## What stays -/

theorem Grows.old_stamp (h : Grows onDisk s s') {p' : PutRecord} (hp' : s'.puts tid = some p')
    (ha : p'.stamp onDisk = some a) (hlt : a < s.clock) :
    ∃ p, s.puts tid = some p ∧ p.stamp onDisk = some a := by
  cases hp : s.puts tid with
  | none =>
    rw [(h.newPut tid p' hp' hp).2.1] at ha
    cases ha
  | some p =>
    obtain ⟨q, hq, -, -, -, hstamp, -⟩ := h.put tid p hp
    cases hq.symm.trans hp'
    rcases hstamp with hstamp | hstamp
    · exact ⟨p, rfl, hstamp ▸ ha⟩
    · rw [hstamp] at ha
      have := some.inj ha
      omega

theorem Covers.grow (hs : s.Stamped onDisk) (hgrow : Grows onDisk s s')
    (h : s.Covers onDisk value a) : s'.Covers onDisk value a := by
  obtain ⟨tid, q, b, hq, rfl, hb, hle⟩ := h
  obtain ⟨q', hq', hvalue, -, -, hstamp, -⟩ := hgrow.put tid q hq
  rcases hstamp with hstamp | hstamp
  · exact ⟨tid, q', b, hq', hvalue, hstamp.trans hb, hle⟩
  · have hlt := ((hs.put tid q hq).2.1 b hb).2
    exact ⟨tid, q', s.clock, hq', hvalue, hstamp, by omega⟩

/-- A put that replies now was not stored before the get came, and is not over before any put
there is came. -/
theorem Good.grow (hs : s.Stamped onDisk) (hgrow : Grows onDisk s s') (hg : g.started < s.clock)
    (hg' : g'.started = g.started) (h : s.Good g answer) :
    s'.Good g' answer := by
  intro tid p' r hp' hr hlt
  have hold : ∃ p, s.puts tid = some p ∧ p'.started = p.started ∧ p.replied = some (r, true) := by
    cases hp : s.puts tid with
    | none =>
      rw [(hgrow.newPut tid p' hp' hp).2.2] at hr
      cases hr
    | some p =>
      obtain ⟨q, hq, -, hstarted, -, -, hreplied⟩ := hgrow.put tid p hp
      cases hq.symm.trans hp'
      rcases hreplied with hreplied | ⟨stored, hreplied⟩
      · exact ⟨p, rfl, hstarted, hreplied ▸ hr⟩
      · rw [hreplied] at hr
        have htime : s.clock = r := congrArg Prod.fst (some.inj hr)
        omega
  obtain ⟨p, hp, hstarted, hreplied⟩ := hold
  obtain ⟨t, q, hq, rfl, hbefore⟩ := h tid p r hp hreplied (hg' ▸ hlt)
  obtain ⟨q', hq', hvalue, -, -, -, hreply⟩ := hgrow.put t q hq
  refine ⟨t, q', hq', by rw [hvalue], ?_⟩
  rintro ⟨r', stored, hr', hlt'⟩
  rcases hreply with hreply | ⟨flag, hreply⟩
  · exact hbefore ⟨r', stored, hreply ▸ hr', hstarted ▸ hlt'⟩
  · rw [hreply] at hr'
    have htime : s.clock = r' := congrArg Prod.fst (some.inj hr')
    have hpast := (hs.put tid p hp).1
    omega

theorem CoversBefore.grow (hs : s.Stamped onDisk) (hgrow : Grows onDisk s s') (hm : m ≤ s.clock)
    (h : s.CoversBefore onDisk answer m) : s'.CoversBefore onDisk answer m := by
  intro tid p' a hp' ha hlt
  obtain ⟨p, hp, hstamp⟩ := hgrow.old_stamp hp' ha (by omega)
  obtain ⟨value, hvalue, hcovers⟩ := h tid p a hp hstamp hlt
  exact ⟨value, hvalue, hcovers.grow hs hgrow⟩

theorem Missed.grow (hgrow : Grows onDisk s s') (hm : m ≤ s.clock)
    (hg' : g'.missed = g.missed) (h : s.Missed onDisk g m) : s'.Missed onDisk g' m := by
  refine ⟨hg'.trans h.1, fun hmode tid p' a hp' ha => ?_⟩
  by_contra hlt
  obtain ⟨p, hp, hstamp⟩ := hgrow.old_stamp hp' ha (by omega)
  exact hlt (h.2 hmode tid p a hp hstamp)

theorem Missed.landedBefore (hmode : onDisk = true) (h : s.Missed onDisk g m) :
    s.LandedBefore onDisk m := by
  intro tid p a hp ha hlt
  have := h.2 hmode tid p a hp ha
  omega

theorem LandedBefore.grow (hgrow : Grows onDisk s s') (hm : m ≤ s.clock)
    (hlanded : ∀ tid p a, s.puts tid = some p → p.stamp onDisk = some a → s.Landed onDisk a →
      s'.Landed onDisk a) (h : s.LandedBefore onDisk m) : s'.LandedBefore onDisk m := by
  intro tid p' a hp' ha hlt
  obtain ⟨p, hp, hstamp⟩ := hgrow.old_stamp hp' ha (by omega)
  exact hlanded tid p a hp hstamp (h tid p a hp hstamp hlt)

theorem JoinsCovering.grow (hgrow : Grows onDisk s s') (hg : g.started < s.clock)
    (hg' : g'.started = g.started) {fetch : ℕ}
    (h : s.JoinsCovering onDisk g fetch) : s'.JoinsCovering onDisk g' fetch := by
  intro hmode
  obtain ⟨owner, m, howner, hm, hcovers⟩ := h hmode
  obtain ⟨owner', howner', -, hmissed⟩ := hgrow.get fetch owner howner
  refine ⟨owner', m, howner', hmissed m hm, ?_⟩
  intro tid p' r hp' hr hlt
  cases hp : s.puts tid with
  | none =>
    rw [(hgrow.newPut tid p' hp' hp).2.2] at hr
    cases hr
  | some p =>
    obtain ⟨q, hq, -, -, hfrozen, -, hreplied⟩ := hgrow.put tid p hp
    obtain rfl := some.inj (hq.symm.trans hp')
    rcases hreplied with hreplied | ⟨stored, hreplied⟩
    · have hr' : p.replied = some (r, true) := hreplied ▸ hr
      obtain rfl := hfrozen (by rw [hr']; exact some_ne_none _)
      exact hcovers tid q r hp hr' (hg' ▸ hlt)
    · rw [hreplied] at hr
      have htime : s.clock = r := congrArg Prod.fst (some.inj hr)
      omega

/-- What a get knows stays, as long as what has landed does. -/
theorem Knows.grow (hs : s.Stamped onDisk) (hgrow : Grows onDisk s s') (hg : s.gets t = some g)
    (hlanded : onDisk = false → ∀ tid p a, s.puts tid = some p → p.stamp onDisk = some a →
      s.Landed onDisk a → s'.Landed onDisk a)
    (hstarted : g'.started = g.started) (hmissed : g'.missed = g.missed)
    (h : s.Knows onDisk g c) : s'.Knows onDisk g' c := by
  have hpast := (hs.get t g hg).1
  have hbound : ∀ m, s.Missed onDisk g m → m ≤ s.clock := by
    intro m hm
    exact ((hs.get t g hg).2 m hm.1).2.le
  have hlandedBefore : ∀ m, s.Missed onDisk g m ∧ s.LandedBefore onDisk m →
      s'.Missed onDisk g' m ∧ s'.LandedBefore onDisk m := by
    rintro m ⟨hm, hl⟩
    have hm' := hm.grow hgrow (hbound m hm) hmissed
    refine ⟨hm', ?_⟩
    cases hmode : onDisk with
    | true => exact hmode ▸ hm'.landedBefore hmode
    | false => exact hmode ▸ hl.grow hgrow (hbound m hm) (hlanded hmode)
  have hcovers : ∀ m value, s.Missed onDisk g m ∧ s.CoversBefore onDisk value m →
      s'.Missed onDisk g' m ∧ s'.CoversBefore onDisk value m := by
    rintro m value ⟨hm, hc⟩
    exact ⟨hm.grow hgrow (hbound m hm) hmissed, hc.grow hs hgrow (hbound m hm)⟩
  cases c with
  | getMissedDisk =>
    obtain ⟨m, hm⟩ := h
    exact ⟨m, hm.grow hgrow (hbound m hm) hmissed⟩
  | getMissed | getFetching =>
    obtain ⟨m, hm⟩ := h
    exact ⟨m, hlandedBefore m hm⟩
  | getJoined fetch =>
    obtain ⟨⟨m, hm⟩, hjoin⟩ := h
    exact ⟨⟨m, hlandedBefore m hm⟩, hjoin.grow hgrow hpast hstarted⟩
  | getFetched value | getBackfilled value =>
    obtain ⟨m, hm⟩ := h
    exact ⟨m, hcovers m value hm⟩
  | getAnswered value => exact Good.grow hs hgrow hpast hstarted h
  | _ => trivial

/-! ## Stamps that a step leaves as they are -/

def SameStamps (onDisk : Bool) (s s' : KeyState) : Prop :=
  ∀ tid p' a, s'.puts tid = some p' → p'.stamp onDisk = some a →
    ∃ p, s.puts tid = some p ∧ p.stamp onDisk = some a

theorem SameStamps.of_puts (h : s'.puts = s.puts) : SameStamps onDisk s s' := by
  intro tid p' a hp' ha
  exact ⟨p', h ▸ hp', ha⟩

theorem SameStamps.of_setPut (hputs : s'.puts = update s.puts tid (some p))
    (hp : ∀ a, p.stamp onDisk = some a → ∃ q, s.puts tid = some q ∧ q.stamp onDisk = some a) :
    SameStamps onDisk s s' := by
  intro t p' a hp' ha
  by_cases ht : t = tid
  · subst ht
    rw [hputs, update_self] at hp'
    obtain rfl := some.inj hp'
    exact hp a ha
  · rw [hputs, update_of_ne ht] at hp'
    exact ⟨p', hp', ha⟩

theorem Current.keep (hs : s.Stamped onDisk) (hgrow : Grows onDisk s s')
    (hsame : SameStamps onDisk s s') (h : s.Current onDisk value) : s'.Current onDisk value := by
  intro tid p' a hp' ha
  obtain ⟨p, hp, hstamp⟩ := hsame tid p' a hp' ha
  exact (h tid p a hp hstamp).grow hs hgrow

theorem NoneStamped.keep (hsame : SameStamps onDisk s s') (h : s.NoneStamped onDisk) :
    s'.NoneStamped onDisk := by
  intro tid p' hp'
  by_contra hsome
  obtain ⟨a, ha⟩ := ne_none_iff_exists'.mp hsome
  obtain ⟨p, hp, hstamp⟩ := hsame tid p' a hp' ha
  rw [h tid p hp] at hstamp
  cases hstamp

theorem current_of_now (hs : s'.Stamped onDisk) (hgrow : Grows onDisk s s')
    (hp : s'.puts tid = some p) (hstamp : p.stamp onDisk = some s.clock) :
    s'.Current onDisk p.value := by
  intro t q a hq ha
  have hlt := ((hs.put t q hq).2.1 a ha).2
  have hclock := hgrow.clock
  exact ⟨tid, p, s.clock, hp, rfl, hstamp, by omega⟩

end KeyState

end Vcache

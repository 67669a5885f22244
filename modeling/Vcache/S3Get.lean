import Mathlib.Data.Nat.Basic
import Mathlib.Data.Bool.Basic

/-!
# Errors of a lookup in S3

`S3Storage::Get` clears the error text, and every attempt of `Request` may set it again.
An attempt that sees a throttle or a server error is tried again, and nothing takes back
the error it left: a later attempt that finds the object, or finds it missing, returns with
the error of an earlier one. Only the refresh of an old entry clears it. What the attempts
see is a parameter.
-/

namespace Vcache

/-- What libcurl reports of an attempt: `CURLE_OK`, the status and the `Last-Modified` time. -/
structure Attempt where
  ok : Bool
  status : ℤ
  lastModified : ℤ := 0

structure S3Lookup where
  ttlDays : ℤ
  refreshDays : ℤ
  readOnly : Bool
  assumeNoListBucket : Bool
  now : ℤ

/-- `last_error_`, if it is not empty, and `last_status_`. -/
structure S3Status where
  failed : Bool
  lastStatus : ℤ

def isTransientStatus (status : ℤ) : Bool :=
  status = 429 || status = 500 || status = 502 || status = 503 || status = 504

def kMaxAttempts : ℕ := 3

/-- `RequestOnce` behind `easy_perform`. -/
def requestOnce (seen : Attempt) (s : S3Status) : Bool × S3Status :=
  if seen.ok = false then (false, ⟨true, seen.status⟩)
  else if seen.status = 404 ∨ seen.status = 403 then (false, ⟨s.failed, seen.status⟩)
  else if seen.status < 200 ∨ 300 ≤ seen.status then (false, ⟨true, seen.status⟩)
  else (true, ⟨s.failed, seen.status⟩)

/-- The loop of `Request` at an attempt that `left` others may follow, with the last one. -/
def requestFrom (seen : ℕ → Attempt) : (left attempt : ℕ) → S3Status → Bool × ℕ × S3Status
  | 0, attempt, s =>
    let (done, s) := requestOnce (seen attempt) s
    (done, attempt, s)
  | left + 1, attempt, s =>
    let (done, s) := requestOnce (seen attempt) s
    if done then (true, attempt, s)
    else if isTransientStatus s.lastStatus then requestFrom seen left (attempt + 1) s
    else (false, attempt, s)

def S3Lookup.refreshes (cfg : S3Lookup) (lastModified : ℤ) : Bool :=
  let age := cfg.now - lastModified
  let refresh := cfg.refreshDays * 24 * 60 * 60
  0 < lastModified && !(0 < cfg.ttlDays && cfg.ttlDays * 24 * 60 * 60 < age) && 0 < refresh &&
    refresh ≤ age && !cfg.readOnly

/-- `Get` behind its request; what the requests of `DiagnoseDenial` and `Refresh` leave is a
parameter. -/
def S3Lookup.answer (cfg : S3Lookup) (diagnose refresh : S3Status → S3Status)
    (seen : ℕ → Attempt) : Bool × ℕ × S3Status → ℕ × S3Status
  | (false, last, s) =>
    (last, if s.lastStatus = 403 ∧ cfg.assumeNoListBucket = false then diagnose s else s)
  | (true, last, s) =>
    (last, if cfg.refreshes (seen last).lastModified then { refresh s with failed := false } else s)

/-- `Get`: the number of its last attempt, and the error state it leaves. -/
def S3Lookup.get (cfg : S3Lookup) (diagnose refresh : S3Status → S3Status) (seen : ℕ → Attempt)
    (s : S3Status) : ℕ × S3Status :=
  cfg.answer diagnose refresh seen (requestFrom seen (kMaxAttempts - 1) 1 ⟨false, s.lastStatus⟩)

/-! ## The attempts -/

def Attempt.Succeeds (a : Attempt) : Prop := a.ok = true ∧ 200 ≤ a.status ∧ a.status < 300

def Attempt.Errs (a : Attempt) : Prop :=
  ¬ a.Succeeds ∧ ¬ (a.ok = true ∧ (a.status = 404 ∨ a.status = 403))

variable {seen : ℕ → Attempt}

theorem errs_of_transient {a : Attempt} (h : isTransientStatus a.status = true) : a.Errs := by
  simp only [isTransientStatus, Bool.or_eq_true, decide_eq_true_eq] at h
  constructor
  · rintro ⟨-, hlow, hhigh⟩
    omega
  · rintro ⟨-, hmiss⟩
    omega

theorem requestOnce_spec (a : Attempt) (s : S3Status) :
    ((requestOnce a s).1 = true ↔ a.Succeeds) ∧ (requestOnce a s).2.lastStatus = a.status ∧
      ((requestOnce a s).2.failed = true ↔ s.failed = true ∨ a.Errs) := by
  unfold requestOnce Attempt.Errs Attempt.Succeeds
  cases hok : a.ok with
  | false => simp
  | true =>
    simp only [Bool.true_eq_false, if_false, true_and]
    split_ifs with hmiss hrange
    · refine ⟨by simp; omega, rfl, ?_⟩
      simp [hmiss]
    · refine ⟨by simp; omega, rfl, ?_⟩
      simp [hmiss]
      omega
    · refine ⟨by simp; omega, rfl, ?_⟩
      have : 200 ≤ a.status ∧ a.status < 300 := by omega
      simp [this]

theorem requestFrom_succ (left attempt : ℕ) (s : S3Status) :
    requestFrom seen (left + 1) attempt s = if isTransientStatus (seen attempt).status then
      requestFrom seen left (attempt + 1) ⟨true, (seen attempt).status⟩
      else ((requestOnce (seen attempt) s).1, attempt, (requestOnce (seen attempt) s).2) := by
  obtain ⟨hdone, hstatus, hfailed⟩ := requestOnce_spec (seen attempt) s
  rw [requestFrom]
  generalize requestOnce (seen attempt) s = once at *
  obtain ⟨done, failed, status⟩ := once
  obtain rfl : status = (seen attempt).status := hstatus
  by_cases htransient : isTransientStatus (seen attempt).status = true
  · have herrs := errs_of_transient htransient
    obtain rfl : failed = true := hfailed.mpr (.inr herrs)
    obtain rfl : done = false := by
      by_contra hne
      exact herrs.1 (hdone.mp (by simpa using hne))
    simp [htransient]
  · cases done <;> simp [htransient]

/-! ## The lookup -/

def lastSeen (seen : ℕ → Attempt) : Attempt :=
  if isTransientStatus (seen 1).status then
    if isTransientStatus (seen 2).status then seen 3 else seen 2
  else seen 1

/-- The error of the first attempt stays. -/
theorem request_eq (seen : ℕ → Attempt) (status : ℤ) : ∃ last before, seen last = lastSeen seen ∧
    before.failed = isTransientStatus (seen 1).status ∧
    requestFrom seen (kMaxAttempts - 1) 1 ⟨false, status⟩ =
      ((requestOnce (lastSeen seen) before).1, last, (requestOnce (lastSeen seen) before).2) := by
  change ∃ last before, _ ∧ _ ∧ requestFrom seen 2 1 ⟨false, status⟩ = _
  rw [requestFrom_succ, requestFrom_succ, lastSeen]
  cases isTransientStatus (seen 1).status with
  | false => exact ⟨1, ⟨false, status⟩, by simp⟩
  | true =>
    cases isTransientStatus (seen 2).status with
    | false => exact ⟨2, ⟨true, (seen 1).status⟩, by simp⟩
    | true => exact ⟨3, ⟨true, (seen 2).status⟩, by simp [requestFrom]⟩

/-- The error state says how the last attempt ended, except behind an attempt that saw a transient
status, unless the last attempt errs too or the entry it found is refreshed. -/
theorem get_failed_iff (cfg : S3Lookup) (hlist : cfg.assumeNoListBucket = true)
    (diagnose refresh : S3Status → S3Status) (seen : ℕ → Attempt) (s : S3Status) :
    let run := cfg.get diagnose refresh seen s
    (run.2.failed = true ↔ (seen run.1).Errs) ↔
      isTransientStatus (seen 1).status = false ∨ (lastSeen seen).Errs ∨
        (lastSeen seen).Succeeds ∧ cfg.refreshes (lastSeen seen).lastModified = true := by
  obtain ⟨last, before, hlast, hbefore, hrun⟩ := request_eq seen s.lastStatus
  obtain ⟨hdone, -, hfailed⟩ := requestOnce_spec (lastSeen seen) before
  rw [hbefore] at hfailed
  simp only [S3Lookup.get, hrun]
  generalize requestOnce (lastSeen seen) before = once at hdone hfailed
  obtain ⟨done, status⟩ := once
  cases done with
  | false =>
    have hnot : ¬ (lastSeen seen).Succeeds := fun h => by simpa using hdone.mpr h
    simp only [S3Lookup.answer, hlist, reduceCtorEq, and_false, if_false, hlast, hfailed, hnot,
      false_and, or_false]
    cases isTransientStatus (seen 1).status <;> simp
  | true =>
    have hfound := hdone.mp rfl
    have herrs : ¬ (lastSeen seen).Errs := fun h => h.1 hfound
    cases hrefresh : cfg.refreshes (lastSeen seen).lastModified <;>
      simp [S3Lookup.answer, hlast, hrefresh, herrs, hfound, hfailed]

/-- One attempt that finds nothing. -/
theorem get_failed_iff_miss :
    (S3Lookup.get ⟨30, 15, false, true, 0⟩ id id (fun _ => ⟨true, 404, 0⟩) ⟨true, 0⟩).2.failed =
      true ↔ (⟨true, 404, 0⟩ : Attempt).Errs :=
  (get_failed_iff ⟨30, 15, false, true, 0⟩ rfl id id (fun _ => ⟨true, 404, 0⟩) ⟨true, 0⟩).mpr
    (.inl rfl)

/-- A throttled attempt and then a miss. -/
theorem get_failed_after_throttle :
    let seen : ℕ → Attempt := fun i => ⟨true, if i = 1 then 503 else 404, 0⟩
    let run := S3Lookup.get ⟨30, 15, false, true, 0⟩ id id seen ⟨false, 0⟩
    run.2.failed = true ∧ run.1 = 2 ∧ (seen 2).status = 404 := by
  decide

end Vcache

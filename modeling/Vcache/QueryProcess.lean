import Mathlib.Data.List.Basic

/-!
# Adaptive query processes

A process asks questions one at a time, each chosen from the answers so far, and
then gives a result. A world answers every question. The log of a run determines
the rest of it: worlds that agree on what was asked give the same log and result,
and a change the process can notice is met at a first question.
-/

namespace QueryProcess

variable {Q A R : Type*}

inductive Process (Q A R : Type*) where
  | done (result : R)
  | ask (question : Q) (next : A → Process Q A R)

namespace Process

/-- The questions asked in a world, with their answers, in order. -/
def log (world : Q → A) : Process Q A R → List (Q × A)
  | done _ => []
  | ask q next => (q, world q) :: log world (next (world q))

def result (world : Q → A) : Process Q A R → R
  | done r => r
  | ask q next => result world (next (world q))

def asked (world : Q → A) (p : Process Q A R) : List Q := (p.log world).map Prod.fst

@[simp] theorem asked_done (world : Q → A) (r : R) : (done r : Process Q A R).asked world = [] :=
  rfl

@[simp] theorem asked_ask (world : Q → A) (q : Q) (next : A → Process Q A R) :
    (ask q next).asked world = q :: (next (world q)).asked world := rfl

theorem mem_log_iff {world : Q → A} {p : Process Q A R} {x : Q × A} :
    x ∈ p.log world ↔ x.1 ∈ p.asked world ∧ x.2 = world x.1 := by
  induction p with
  | done r => simp [log]
  | ask q next ih =>
    obtain ⟨q', a⟩ := x
    simp only [log, asked_ask, List.mem_cons, Prod.mk.injEq, ih]
    grind

/-- Worlds that agree on every question of a run give the same log and result. -/
theorem run_eq_of_agree (p : Process Q A R) (world world' : Q → A)
    (h : ∀ q ∈ p.asked world, world' q = world q) :
    p.log world' = p.log world ∧ p.result world' = p.result world := by
  induction p with
  | done r => exact ⟨rfl, rfl⟩
  | ask q next ih =>
    have hq : world' q = world q := h q (by simp)
    obtain ⟨hlog, hresult⟩ := ih (world q) (fun q' hq' => h q' (by simp [hq']))
    exact ⟨by rw [log, log, hq, hlog], by rw [result, result, hq, hresult]⟩

theorem asked_of_agree_off (p : Process Q A R) (world world' : Q → A) (changed : Q → Prop)
    (hagree : ∀ q, ¬ changed q → world' q = world q)
    (h : ∃ q ∈ p.asked world, changed q) : ∃ q ∈ p.asked world', changed q := by
  induction p with
  | done r => simp at h
  | ask q next ih =>
    by_cases hq : changed q
    · exact ⟨q, by simp, hq⟩
    · obtain ⟨q', hmem, hq'⟩ := h
      have htail : q' ∈ (next (world q)).asked world := by
        rcases List.mem_cons.mp hmem with rfl | hmem
        · exact absurd hq' hq
        · exact hmem
      obtain ⟨q'', hmem'', hq''⟩ := ih (world q) ⟨q', htail, hq'⟩
      exact ⟨q'', by simp [hagree q hq, hmem''], hq''⟩

/-- Run a second process after the first. -/
def andThen {S : Type*} (p : Process Q A R) (next : R → Process Q A S) : Process Q A S :=
  match p with
  | done r => next r
  | ask q k => ask q (fun a => (k a).andThen next)

@[simp] theorem result_andThen {S : Type*} (world : Q → A) (p : Process Q A R)
    (next : R → Process Q A S) :
    (p.andThen next).result world = (next (p.result world)).result world := by
  induction p with
  | done r => rfl
  | ask q k ih => exact ih (world q)

@[simp] theorem asked_andThen {S : Type*} (world : Q → A) (p : Process Q A R)
    (next : R → Process Q A S) :
    (p.andThen next).asked world = p.asked world ++ (next (p.result world)).asked world := by
  induction p with
  | done r => rfl
  | ask q k ih => rw [andThen, asked_ask, asked_ask, ih, result, List.cons_append]

end Process

end QueryProcess

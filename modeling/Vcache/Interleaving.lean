import Vcache.QueryProcess

/-!
# Processes in a changing world

A process under way takes its answers from a world that others change between
its questions. A schedule says who moves: the process asks its next question, or
a change happens. What one move preserves, every schedule preserves, and with a
condition on the changes every schedule whose changes meet it. A run in which no
subject is changed between two questions about it is the run in a world that does
not change.
-/

namespace QueryProcess

open List

variable {Q A R S W E : Type*}

/-- How a world answers, and what a change makes of it. -/
structure Setting (Q A W E : Type*) where
  answer : W → Q → A
  change : E → W → W

/-- What is left of a process, the world as it is, and the answers so far. -/
structure Running (Q A R W : Type*) where
  rest : Process Q A R
  world : W
  log : List (Q × A)

inductive Event (E : Type*) where
  | advance
  | change (edit : E)

namespace Running

def start (p : Process Q A R) (w : W) : Running Q A R W := ⟨p, w, []⟩

def step (env : Setting Q A W E) (s : Running Q A R W) : Event E → Running Q A R W
  | .advance => match s.rest with
    | .done _ => s
    | .ask q next =>
      ⟨next (env.answer s.world q), s.world, s.log ++ [(q, env.answer s.world q)]⟩
  | .change edit => { s with world := env.change edit s.world }

def run (env : Setting Q A W E) (s : Running Q A R W) (events : List (Event E)) :
    Running Q A R W := events.foldl (step env) s

def result? (s : Running Q A R W) : Option R :=
  match s.rest with
  | .done r => some r
  | .ask _ _ => none

theorem result?_eq_some {s : Running Q A R W} {r : R} : s.result? = some r ↔ s.rest = .done r := by
  cases h : s.rest with
  | done r' | ask q next => simp [result?, h]

/-- Every change of the schedule is allowed where it happens. -/
def Admits (env : Setting Q A W E) (ok : Running Q A R W → E → Prop) :
    Running Q A R W → List (Event E) → Prop
  | _, [] => True
  | s, .advance :: events => Admits env ok (s.step env .advance) events
  | s, .change edit :: events => ok s edit ∧ Admits env ok (s.step env (.change edit)) events

variable {env : Setting Q A W E} {ok : Running Q A R W → E → Prop}

theorem admits_of_forall (h : ∀ s edit, ok s edit) (s : Running Q A R W)
    (events : List (Event E)) : Admits env ok s events := by
  induction events generalizing s with
  | nil => trivial
  | cons event events ih =>
    cases event with
    | advance => exact ih _
    | change edit => exact ⟨h s edit, ih _⟩

theorem step_advance {s : Running Q A R W} {q : Q} {next : A → Process Q A R}
    (h : s.rest = .ask q next) :
    s.step env .advance =
      ⟨next (env.answer s.world q), s.world, s.log ++ [(q, env.answer s.world q)]⟩ := by
  simp only [step, h]

/-- What every question and every allowed change preserves holds after every schedule
whose changes are allowed. -/
theorem run_invariant {P : Running Q A R W → Prop}
    (hadvance : ∀ s q next, s.rest = .ask q next → P s →
      P ⟨next (env.answer s.world q), s.world, s.log ++ [(q, env.answer s.world q)]⟩)
    (hchange : ∀ s edit, ok s edit → P s → P { s with world := env.change edit s.world })
    {s : Running Q A R W} (hs : P s) {events : List (Event E)} (h : Admits env ok s events) :
    P (s.run env events) := by
  induction events generalizing s with
  | nil => exact hs
  | cons event events ih =>
    cases event with
    | advance =>
      refine ih ?_ h
      cases hrest : s.rest with
      | done r =>
        have hsame : s.step env .advance = s := by simp only [step, hrest]
        rwa [hsame]
      | ask q next =>
        rw [step_advance hrest]
        exact hadvance s q next hrest hs
    | change edit => exact ih (hchange s edit h.1 hs) h.2

end Running

/-! ## Logs of a process -/

/-- The process can be brought to `rest` by the answers of the log. -/
inductive Leads : Process Q A R → List (Q × A) → Process Q A R → Prop where
  | refl (p : Process Q A R) : Leads p [] p
  | ask {q : Q} {next : A → Process Q A R} {a : A} {log : List (Q × A)} {rest : Process Q A R}
      (h : Leads (next a) log rest) : Leads (.ask q next) ((q, a) :: log) rest

theorem Leads.snoc {p rest : Process Q A R} {log : List (Q × A)} (h : Leads p log rest) {q : Q}
    {next : A → Process Q A R} (hrest : rest = .ask q next) (a : A) :
    Leads p (log ++ [(q, a)]) (next a) := by
  induction h with
  | refl p =>
    subst hrest
    exact .ask (.refl _)
  | ask _ ih => exact .ask (ih hrest)

theorem Leads.of_run {env : Setting Q A W E} (p : Process Q A R) (w : W) (events : List (Event E)) :
    Leads p ((Running.start p w).run env events).log ((Running.start p w).run env events).rest := by
  have hadmits : Running.Admits env (fun _ _ => True) (Running.start p w) events :=
    Running.admits_of_forall (fun _ _ => trivial) _ _
  refine Running.run_invariant (P := fun s => Leads p s.log s.rest) ?_ ?_ (.refl p) hadmits
  · intro s q next hrest h
    exact h.snoc hrest _
  · intro s edit _ h
    exact h

/-- A process that is answered as by a world that does not change does what it does there. -/
theorem Leads.eq_log {world : Q → A} {p : Process Q A R} {log : List (Q × A)} {r : R}
    (h : Leads p log (.done r)) (hworld : ∀ x ∈ log, x.2 = world x.1) :
    log = p.log world ∧ r = p.result world := by
  induction p generalizing log with
  | done r' =>
    cases h
    exact ⟨rfl, rfl⟩
  | ask q next ih =>
    cases h with
    | @ask _ _ a log _ h =>
      obtain rfl : a = world q := hworld _ mem_cons_self
      obtain ⟨hlog, hresult⟩ := ih _ h (fun x hx => hworld x (mem_cons_of_mem _ hx))
      exact ⟨by rw [Process.log, ← hlog], hresult⟩

def Process.Avoids (bad : Q → Prop) : Process Q A R → Prop
  | .done _ => True
  | .ask q next => ¬ bad q ∧ ∀ a, (next a).Avoids bad

/-! ## Answers about one subject -/

section Agreement

variable {P : Type*} (env : Setting Q A W E) (subject : Q → P) (target : E → P)

/-- A change of a subject comes between a question about it and one that may follow. -/
def Straddles (s : Running Q A R W) (edit : E) : Prop :=
  ∃ x ∈ s.log, subject x.1 = target edit ∧ ¬ s.rest.Avoids (fun q => subject q = target edit)

variable {env subject target}

theorem not_straddles_of_unasked {s : Running Q A R W} {edit : E}
    (h : ∀ x ∈ s.log, subject x.1 ≠ target edit) : ¬ Straddles subject target s edit := by
  rintro ⟨x, hx, hsubject, -⟩
  exact h x hx hsubject

/-- Without such a change, the answers about one subject agree. -/
theorem answers_agree {contents : W → P → A}
    (hanswer : ∀ w q, env.answer w q = contents w (subject q))
    (hframe : ∀ edit w p, p ≠ target edit → contents (env.change edit w) p = contents w p)
    (p : Process Q A R) (w : W) {events : List (Event E)}
    (h : Running.Admits env (fun s edit => ¬ Straddles subject target s edit)
      (Running.start p w) events) :
    ∀ x ∈ ((Running.start p w).run env events).log,
      ∀ y ∈ ((Running.start p w).run env events).log, subject x.1 = subject y.1 → x.2 = y.2 := by
  -- While another question about it may still come, the subject is as it was answered.
  let Pending (s : Running Q A R W) : Prop := ∀ x ∈ s.log,
    s.rest.Avoids (fun q => subject q = subject x.1) ∨ contents s.world (subject x.1) = x.2
  let Agree (s : Running Q A R W) : Prop := ∀ x ∈ s.log, ∀ y ∈ s.log,
    subject x.1 = subject y.1 → x.2 = y.2
  have hinv : Pending ((Running.start p w).run env events) ∧
      Agree ((Running.start p w).run env events) := by
    refine Running.run_invariant (P := fun s => Pending s ∧ Agree s) ?_ ?_ ?_ h
    · rintro s q next hrest ⟨hpending, hagree⟩
      have hold : ∀ x ∈ s.log, subject x.1 = subject q → x.2 = env.answer s.world q := by
        intro x hx hsame
        rcases hpending x hx with havoids | heq
        · rw [hrest] at havoids
          exact absurd hsame.symm havoids.1
        · rw [← heq, hanswer, hsame]
      refine ⟨?_, ?_⟩
      · intro x hx
        rcases mem_append.mp hx with hx | hx
        · refine (hpending x hx).imp_left (fun havoids => ?_)
          rw [hrest] at havoids
          exact havoids.2 _
        · rw [mem_singleton.mp hx]
          exact .inr (hanswer s.world q).symm
      · intro x hx y hy hsame
        rcases mem_append.mp hx with hx | hx <;> rcases mem_append.mp hy with hy | hy
        · exact hagree x hx y hy hsame
        · rw [mem_singleton.mp hy] at hsame ⊢
          exact hold x hx hsame
        · rw [mem_singleton.mp hx] at hsame ⊢
          exact (hold y hy hsame.symm).symm
        · rw [mem_singleton.mp hx, mem_singleton.mp hy]
    · rintro s edit hquiet ⟨hpending, hagree⟩
      refine ⟨fun x hx => ?_, hagree⟩
      by_cases htarget : subject x.1 = target edit
      · left
        by_contra havoids
        rw [htarget] at havoids
        exact hquiet ⟨x, hx, htarget, havoids⟩
      · rw [hframe edit s.world _ htarget]
        exact hpending x hx
    · exact ⟨by simp [Pending, Running.start], by simp [Agree, Running.start]⟩
  exact hinv.2

/-- Without such a change, a run to the end is one in a world that does not change. -/
theorem exists_static (subject : Q → P) (target : E → P) (contents : W → P → A)
    (hanswer : ∀ w q, env.answer w q = contents w (subject q))
    (hframe : ∀ edit w p, p ≠ target edit → contents (env.change edit w) p = contents w p)
    (p : Process Q A R) (w : W) {events : List (Event E)}
    (h : Running.Admits env (fun s edit => ¬ Straddles subject target s edit)
      (Running.start p w) events) {r : R}
    (hdone : ((Running.start p w).run env events).result? = some r) :
    ∃ static : P → A,
      ((Running.start p w).run env events).log = p.log (fun q => static (subject q)) ∧
      r = p.result (fun q => static (subject q)) := by
  classical
  have hagree := answers_agree hanswer hframe p w h
  have hleads : Leads p ((Running.start p w).run env events).log
      ((Running.start p w).run env events).rest := Leads.of_run p w events
  rw [Running.result?_eq_some.mp hdone] at hleads
  generalize ((Running.start p w).run env events).log = log at hagree hleads ⊢
  refine ⟨fun subj => if hasked : ∃ y ∈ log, subject y.1 = subj then hasked.choose.2
    else contents w subj, hleads.eq_log (fun x hx => ?_)⟩
  have hasked : ∃ y ∈ log, subject y.1 = subject x.1 := ⟨x, hx, rfl⟩
  dsimp only
  rw [dif_pos hasked]
  exact hagree x hx _ hasked.choose_spec.1 hasked.choose_spec.2.symm

end Agreement

end QueryProcess

import Mathlib.Data.Option.Basic

/-!
# Runs of a machine

A machine takes one event at a time, and an event is not possible in every state.
Threads that take turns are such a machine: an event says who moves and how. What a
move preserves a run preserves; with a condition on the moves, a run whose moves meet
it where they come.
-/

namespace StepMachine

variable {σ ε : Type*} {step : σ → ε → Option σ} {ok : σ → ε → Prop}

/-- The events lead from the first state to the last, each is possible where it comes and
`ok` there. -/
inductive Run (step : σ → ε → Option σ) (ok : σ → ε → Prop) : σ → List ε → σ → Prop where
  | nil (s : σ) : Run step ok s [] s
  | cons {s s' t : σ} {e : ε} {events : List ε} (hstep : step s e = some s') (hok : ok s e)
      (hrest : Run step ok s' events t) : Run step ok s (e :: events) t

theorem Run.invariant {Inv : σ → Prop}
    (hstep : ∀ s e s', step s e = some s' → ok s e → Inv s → Inv s') {s t : σ}
    {events : List ε} (h : Run step ok s events t) (hs : Inv s) : Inv t := by
  induction h with
  | nil s => exact hs
  | cons he hok _ ih => exact ih (hstep _ _ _ he hok hs)

theorem Run.imp {ok' : σ → ε → Prop} {s t : σ} {events : List ε} (h : Run step ok s events t)
    (hok : ∀ e ∈ events, ∀ s, ok s e → ok' s e) : Run step ok' s events t := by
  induction h with
  | nil s => exact .nil s
  | cons he hfirst _ ih =>
    exact .cons he (hok _ List.mem_cons_self _ hfirst)
      (ih (fun e hmem => hok e (List.mem_cons_of_mem _ hmem)))

theorem Run.append {s t : σ} {events more : List ε} (h : Run step ok s (events ++ more) t) :
    ∃ u, Run step ok s events u ∧ Run step ok u more t := by
  induction events generalizing s with
  | nil => exact ⟨s, .nil s, h⟩
  | cons e events ih =>
    cases h with
    | cons hstep hok hrest =>
      obtain ⟨u, hfirst, hlast⟩ := ih hrest
      exact ⟨u, .cons hstep hok hfirst, hlast⟩

def exec (step : σ → ε → Option σ) (ok : σ → ε → Prop) [∀ s e, Decidable (ok s e)] :
    σ → List ε → Option σ
  | s, [] => some s
  | s, e :: events => if ok s e then (step s e).bind (exec step ok · events) else none

theorem run_of_exec [∀ s e, Decidable (ok s e)] {s t : σ} {events : List ε}
    (h : exec step ok s events = some t) : Run step ok s events t := by
  induction events generalizing s with
  | nil =>
    obtain rfl := Option.some.inj h
    exact .nil s
  | cons e events ih =>
    rw [exec] at h
    split at h
    next hok =>
      obtain ⟨s', hs', hrest⟩ := Option.bind_eq_some_iff.mp h
      exact .cons hs' hok (ih hrest)
    next => cases h

/-- The run that `exec` finds, with what is seen of its end. -/
theorem exists_run_of_exec [∀ s e, Decidable (ok s e)] {s : σ} {events : List ε} {α : Type*}
    {see : σ → α} {seen : α} (h : (exec step ok s events).map see = some seen) :
    ∃ t, Run step ok s events t ∧ see t = seen := by
  obtain ⟨t, ht, hseen⟩ := Option.map_eq_some_iff.mp h
  exact ⟨t, run_of_exec ht, hseen⟩

end StepMachine

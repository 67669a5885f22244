import Mathlib.Logic.Basic

/-!
# Actions on a state and their triples

An action reads and changes a state and returns a value. A triple says what holds of
the value and the state behind an action, whatever state with the precondition it starts
from. There is one rule for each way to build an action.
-/

namespace Triples

universe u v

variable {σ : Type u} {α β : Type v}

def Action (σ : Type u) (α : Type v) := σ → α × σ

namespace Action

protected def pure (a : α) : Action σ α := fun s => (a, s)

protected def bind (m : Action σ α) (f : α → Action σ β) : Action σ β := fun s =>
  f (m s).1 (m s).2

def read (f : σ → α) : Action σ α := fun s => (f s, s)

def update (f : σ → σ) : Action σ Unit := fun s => ((), f s)

end Action

instance : Monad (Action σ) where
  pure := Action.pure
  bind := Action.bind

def Triple (pre : σ → Prop) (m : Action σ α) (post : α → σ → Prop) : Prop :=
  ∀ s, pre s → post (m s).1 (m s).2

namespace Triple

variable {pre : σ → Prop} {m : Action σ α} {post : α → σ → Prop}

theorem pure {a : α} (h : ∀ s, pre s → post a s) : Triple pre (Pure.pure a) post := h

theorem bind {f : α → Action σ β} {R : α → σ → Prop} {post : β → σ → Prop}
    (hm : Triple pre m R) (hf : ∀ a, Triple (R a) (f a) post) : Triple pre (m >>= f) post :=
  fun s hs => hf _ _ (hm s hs)

theorem read {f : σ → α} (h : ∀ s, pre s → post (f s) s) : Triple pre (Action.read f) post := h

theorem readKept {f : σ → α} : Triple pre (Action.read f) (fun _ => pre) := fun _ h => h

theorem update {f : σ → σ} {post : Unit → σ → Prop} (h : ∀ s, pre s → post () (f s)) :
    Triple pre (Action.update f) post := h

theorem mono {pre' : σ → Prop} {post' : α → σ → Prop} (h : Triple pre m post)
    (hpre : ∀ s, pre' s → pre s) (hpost : ∀ a s, post a s → post' a s) : Triple pre' m post' :=
  fun s hs => hpost _ _ (h s (hpre s hs))

theorem of_pre {c : Prop} (hc : ∀ s, pre s → c) (h : c → Triple pre m post) :
    Triple pre m post :=
  fun s hs => h (hc s hs) s hs

theorem of_and {c : Prop} (h : c → Triple pre m post) : Triple (fun s => c ∧ pre s) m post :=
  fun s hs => h hs.1 s hs.2

theorem of_exists {ι : Sort*} {pre : ι → σ → Prop} (h : ∀ i, Triple (pre i) m post) :
    Triple (fun s => ∃ i, pre i s) m post :=
  fun s ⟨i, hs⟩ => h i s hs

theorem ite {c : Prop} [Decidable c] {m m' : Action σ α} (hm : c → Triple pre m post)
    (hm' : ¬ c → Triple pre m' post) : Triple pre (if c then m else m') post := by
  by_cases hc : c
  · rw [if_pos hc]
    exact hm hc
  · rw [if_neg hc]
    exact hm' hc

end Triple

end Triples

import Mathlib.Data.Finset.Card

/-!
# Merging the states of a manifest

A manifest remembers several states of the files a command reads, newest first. The
templates of `core/manifest.h` merge such lists: one state of each identity, the
fresh one in front, and at most `kMaxManifestStates` of them. The identity is a
parameter, as it is there: the recorded inputs of a C/C++ state, the key of a Rust
one.
-/

namespace Vcache

open List

def kMaxManifestStates : ℕ := 8

section Merge

variable {State ι : Type} [DecidableEq ι] (identity : State → ι)

def hasIdentity (states : List State) (state : State) : Bool :=
  states.any (fun seen => identity seen = identity state)

def appendState (states : List State) (state : State) : List State :=
  if hasIdentity identity states state then states else states ++ [state]

def appendManifestStates (states more : List State) : List State :=
  more.foldl (appendState identity) states

/-- The loop of `PrependManifestState`: states with the identity of `fresh` are skipped, and a
full list ends it. -/
def prependOlder (fresh : State) : List State → List State → List State
  | updated, [] => updated
  | updated, state :: older =>
    if identity state = identity fresh then prependOlder fresh updated older
    else if kMaxManifestStates ≤ updated.length then updated
    else prependOlder fresh (updated ++ [state]) older

def prependManifestState (fresh : State) (older : List State) : List State :=
  prependOlder identity fresh [fresh] older

def mergeManifestStates (fresh : State) (reread loaded : List State) : List State :=
  prependManifestState identity fresh (loaded.foldl (fun reread state =>
    if identity state = identity fresh then reread else appendState identity reread state) reread)

def identities (states : List State) : Finset ι := (states.map identity).toFinset

variable {identity}

variable {states : List State}

theorem mem_identities {i : ι} :
    i ∈ identities identity states ↔ ∃ state ∈ states, identity state = i := by
  rw [identities, mem_toFinset, mem_map]

@[simp] theorem identities_nil : identities identity [] = ∅ := rfl

@[simp] theorem identities_cons (state : State) (states : List State) :
    identities identity (state :: states) =
      insert (identity state) (identities identity states) := by
  rw [identities, map_cons, toFinset_cons, identities]

@[simp] theorem identities_append (states more : List State) :
    identities identity (states ++ more) =
      identities identity states ∪ identities identity more := by
  rw [identities, map_append, toFinset_append, identities, identities]

theorem hasIdentity_iff {state : State} :
    hasIdentity identity states state = true ↔ identity state ∈ identities identity states := by
  simp [hasIdentity, mem_identities]

theorem identities_appendState (states : List State) (state : State) :
    identities identity (appendState identity states state) =
      insert (identity state) (identities identity states) := by
  rw [appendState]
  split
  next h => rw [Finset.insert_eq_of_mem (hasIdentity_iff.mp h)]
  next h =>
    rw [identities_append, identities_cons, identities_nil, Finset.union_insert, Finset.union_empty]

theorem nodup_appendState (h : (states.map identity).Nodup)
    (state : State) : ((appendState identity states state).map identity).Nodup := by
  rw [appendState]
  split
  next => exact h
  next hnew =>
    rw [hasIdentity_iff, identities, mem_toFinset] at hnew
    rw [map_append, map_singleton, nodup_append]
    refine ⟨h, nodup_singleton _, ?_⟩
    intro i hi j hj heq
    rw [mem_singleton] at hj
    exact hnew (hj ▸ heq ▸ hi)

theorem identities_appendManifestStates (states more : List State) :
    identities identity (appendManifestStates identity states more) =
      identities identity states ∪ identities identity more := by
  induction more generalizing states with
  | nil => simp [appendManifestStates]
  | cons state more ih =>
    rw [appendManifestStates, foldl_cons, ← appendManifestStates, ih,
      identities_appendState, identities_cons, Finset.insert_union, Finset.union_insert]

theorem nodup_appendManifestStates (h : (states.map identity).Nodup)
    (more : List State) :
    ((appendManifestStates identity states more).map identity).Nodup := by
  induction more generalizing states with
  | nil => exact h
  | cons state more ih => exact ih (nodup_appendState h state)

theorem mergeManifestStates_eq (fresh : State) (reread loaded : List State) :
    mergeManifestStates identity fresh reread loaded =
      prependManifestState identity fresh (appendManifestStates identity reread
        (loaded.filter (fun state => identity state ≠ identity fresh))) := by
  rw [mergeManifestStates, appendManifestStates, foldl_filter]
  simp only [ne_eq, decide_not, Bool.not_eq_true', decide_eq_false_iff_not, ite_not]

theorem identities_filter_ne (states : List State) (i : ι) :
    identities identity (states.filter (fun state => identity state ≠ i)) =
      (identities identity states).erase i := by
  ext j
  rw [Finset.mem_erase, mem_identities, mem_identities]
  constructor
  · rintro ⟨state, hstate, rfl⟩
    rw [mem_filter, decide_eq_true_eq] at hstate
    exact ⟨hstate.2, state, hstate.1, rfl⟩
  · rintro ⟨hne, state, hstate, rfl⟩
    exact ⟨state, mem_filter.mpr ⟨hstate, decide_eq_true hne⟩, rfl⟩

theorem prependOlder_eq (fresh : State) {updated : List State}
    (h : updated.length ≤ kMaxManifestStates) (older : List State) :
    prependOlder identity fresh updated older =
      updated ++ (older.filter (fun state => identity state ≠ identity fresh)).take
        (kMaxManifestStates - updated.length) := by
  induction older generalizing updated with
  | nil => rw [prependOlder, filter_nil, take_nil, append_nil]
  | cons state older ih =>
    rw [prependOlder]
    split
    next hsame =>
      rw [ih h, filter_cons_of_neg (by simpa using hsame)]
    next hother =>
      rw [filter_cons_of_pos (by simpa using hother)]
      split
      next hfull =>
        rw [Nat.sub_eq_zero_of_le hfull, take_zero, append_nil]
      next hroom =>
        have hlength : (updated ++ [state]).length = updated.length + 1 := by simp
        rw [ih (by omega), append_assoc, hlength, singleton_append,
          ← take_succ_cons]
        congr 2
        omega

theorem prependManifestState_eq (fresh : State) (older : List State) :
    prependManifestState identity fresh older =
      fresh :: (older.filter (fun state => identity state ≠ identity fresh)).take
        (kMaxManifestStates - 1) :=
  prependOlder_eq fresh (by simp [kMaxManifestStates]) older

theorem insert_erase_same (i : ι) (s : Finset ι) : insert i (s.erase i) = insert i s := by
  ext j
  by_cases h : j = i <;> simp [h]

theorem identities_prependManifestState_subset (fresh : State) (older : List State) :
    identities identity (prependManifestState identity fresh older) ⊆
      insert (identity fresh) (identities identity older) := by
  rw [prependManifestState_eq, identities_cons]
  refine Finset.insert_subset_insert _ ?_
  intro i hi
  obtain ⟨state, hstate, rfl⟩ := mem_identities.mp hi
  exact mem_identities.mpr ⟨state, (mem_filter.mp (mem_of_mem_take hstate)).1, rfl⟩

theorem identities_prependManifestState {fresh : State} {older : List State}
    (hnodup : (older.map identity).Nodup)
    (hfits : (insert (identity fresh) (identities identity older)).card ≤ kMaxManifestStates) :
    identities identity (prependManifestState identity fresh older) =
      insert (identity fresh) (identities identity older) := by
  have hkept : (older.filter (fun state => identity state ≠ identity fresh)).length ≤
      kMaxManifestStates - 1 := by
    have hlength := toFinset_card_of_nodup (hnodup.sublist
      ((filter_sublist (p := fun state => identity state ≠ identity fresh)).map identity))
    rw [length_map] at hlength
    have hcard : (identities identity
        (older.filter (fun state => identity state ≠ identity fresh))).card + 1 ≤
        kMaxManifestStates := by
      rw [identities_filter_ne, ← Finset.card_insert_of_notMem (Finset.notMem_erase _ _)]
      rwa [insert_erase_same]
    rw [identities, hlength] at hcard
    omega
  rw [prependManifestState_eq, take_of_length_le hkept, identities_cons, identities_filter_ne,
    insert_erase_same]

theorem nodup_prependManifestState (fresh : State) {older : List State}
    (h : (older.map identity).Nodup) :
    ((prependManifestState identity fresh older).map identity).Nodup := by
  rw [prependManifestState_eq, map_cons, nodup_cons]
  constructor
  · intro hmem
    obtain ⟨state, hstate, heq⟩ := mem_map.mp hmem
    have hne := (mem_filter.mp (mem_of_mem_take hstate)).2
    rw [decide_eq_true_eq] at hne
    exact hne heq
  · exact h.sublist (((take_sublist _ _).trans filter_sublist).map identity)

theorem nodup_mergeManifestStates (fresh : State) {reread : List State}
    (h : (reread.map identity).Nodup) (loaded : List State) :
    ((mergeManifestStates identity fresh reread loaded).map identity).Nodup := by
  rw [mergeManifestStates_eq]
  exact nodup_prependManifestState fresh (nodup_appendManifestStates h _)

theorem identities_merged (fresh : State) (reread loaded : List State) :
    insert (identity fresh) (identities identity (appendManifestStates identity reread
      (loaded.filter (fun state => identity state ≠ identity fresh)))) =
      insert (identity fresh) (identities identity reread ∪ identities identity loaded) := by
  rw [identities_appendManifestStates, identities_filter_ne, ← Finset.union_insert,
    insert_erase_same, Finset.union_insert]

theorem identities_mergeManifestStates_subset (fresh : State) (reread loaded : List State) :
    identities identity (mergeManifestStates identity fresh reread loaded) ⊆
      insert (identity fresh) (identities identity reread ∪ identities identity loaded) := by
  rw [mergeManifestStates_eq, ← identities_merged]
  exact identities_prependManifestState_subset _ _

theorem identities_mergeManifestStates {fresh : State} {reread loaded : List State}
    (hnodup : (reread.map identity).Nodup) (hfits : (insert (identity fresh)
      (identities identity reread ∪ identities identity loaded)).card ≤ kMaxManifestStates) :
    identities identity (mergeManifestStates identity fresh reread loaded) =
      insert (identity fresh) (identities identity reread ∪ identities identity loaded) := by
  rw [mergeManifestStates_eq, ← identities_merged]
  rw [← identities_merged] at hfits
  exact identities_prependManifestState (nodup_appendManifestStates hnodup _) hfits

/-! ## Any sequence of merges -/

variable (identity) in
/-- A list that merges lead to, from the empty one. Each merge re-reads such a list, not
necessarily the latest, and may have loaded any list before. -/
inductive Merged : List State → Prop where
  | empty : Merged []
  | merge {reread : List State} (h : Merged reread) (fresh : State) (loaded : List State) :
      Merged (mergeManifestStates identity fresh reread loaded)

variable (identity) in
/-- The states whose identity is not in `seen` and was not met before in the list. -/
def newStates (seen : List ι) : List State → List State
  | [] => []
  | state :: states =>
    if identity state ∈ seen then newStates seen states
    else state :: newStates (identity state :: seen) states

theorem newStates_congr {seen seen' : List ι} (h : ∀ i, i ∈ seen ↔ i ∈ seen')
    (states : List State) : newStates identity seen states = newStates identity seen' states := by
  induction states generalizing seen seen' with
  | nil => rfl
  | cons state states ih =>
    rw [newStates, newStates]
    simp only [h (identity state)]
    split
    next => exact ih h
    next =>
      have hcons : ∀ i, i ∈ identity state :: seen ↔ i ∈ identity state :: seen' := by
        intro i
        rw [mem_cons, mem_cons, h i]
      rw [ih hcons]

theorem newStates_sublist (seen : List ι) (states : List State) :
    (newStates identity seen states).Sublist states := by
  induction states generalizing seen with
  | nil => exact .slnil
  | cons state states ih =>
    rw [newStates]
    split
    next => exact (ih seen).cons state
    next => exact (ih _).cons_cons state

theorem newStates_of_nodup (seen : List ι) (h : (states.map identity).Nodup) :
    newStates identity seen states = states.filter (fun state => identity state ∉ seen) := by
  induction states generalizing seen with
  | nil => rfl
  | cons state states ih =>
    obtain ⟨hnew, hnodup⟩ := nodup_cons.mp h
    rw [newStates]
    split
    next hseen => rw [ih seen hnodup, filter_cons_of_neg (by simpa using hseen)]
    next hseen =>
      rw [ih _ hnodup, filter_cons_of_pos (by simpa using hseen)]
      congr 1
      apply filter_congr
      intro other hother
      have hne : identity other ≠ identity state := fun heq =>
        hnew (heq ▸ mem_map_of_mem hother)
      simp [hne]

theorem appendManifestStates_eq (states more : List State) :
    appendManifestStates identity states more =
      states ++ newStates identity (states.map identity) more := by
  induction more generalizing states with
  | nil => rw [newStates, append_nil, appendManifestStates, foldl_nil]
  | cons state more ih =>
    have hhas : hasIdentity identity states state = true ↔
        identity state ∈ states.map identity := by
      rw [hasIdentity_iff, identities, mem_toFinset]
    rw [appendManifestStates, foldl_cons, ← appendManifestStates, ih, newStates, appendState]
    by_cases hseen : identity state ∈ states.map identity
    · rw [if_pos hseen, if_pos (hhas.mpr hseen)]
    · rw [if_neg hseen, if_neg (fun h => hseen (hhas.mp h)), append_assoc, singleton_append]
      congr 2
      apply newStates_congr
      intro i
      simp [or_comm]

theorem filter_newStates (i : ι) (seen : List ι) (states : List State) :
    (newStates identity seen states).filter (fun state => identity state ≠ i) =
      newStates identity (i :: seen) states := by
  induction states generalizing seen with
  | nil => rfl
  | cons state states ih =>
    rw [newStates, newStates]
    by_cases hi : identity state = i
    · have hcons : identity state ∈ i :: seen := by
        rw [hi]
        exact mem_cons_self
      rw [if_pos hcons]
      split
      next => exact ih seen
      next =>
        rw [filter_cons_of_neg (by simpa using hi), ih, hi]
        exact newStates_congr (fun j => by simp) states
    · by_cases hseen : identity state ∈ seen
      · rw [if_pos hseen, if_pos (mem_cons_of_mem _ hseen), ih]
      · rw [if_neg hseen, if_neg (by simp [hi, hseen]),
          filter_cons_of_pos (by simpa using hi), ih]
        congr 1
        exact newStates_congr (fun j => by simp [or_left_comm]) states

theorem newStates_filter {i : ι} {seen : List ι} (h : i ∈ seen) (states : List State) :
    newStates identity seen (states.filter (fun state => identity state ≠ i)) =
      newStates identity seen states := by
  induction states generalizing seen with
  | nil => rfl
  | cons state states ih =>
    by_cases hi : identity state = i
    · rw [filter_cons_of_neg (by simpa using hi), ih h, newStates, if_pos (hi ▸ h)]
    · rw [filter_cons_of_pos (by simpa using hi), newStates, newStates, ih h,
        ih (mem_cons_of_mem _ h)]

theorem mergeManifestStates_eq_take (fresh : State) (reread loaded : List State) :
    mergeManifestStates identity fresh reread loaded =
      (fresh :: (reread ++ newStates identity (reread.map identity) loaded).filter
        (fun state => identity state ≠ identity fresh)).take kMaxManifestStates := by
  rw [mergeManifestStates_eq, appendManifestStates_eq, prependManifestState_eq, filter_append,
    filter_append, filter_newStates, filter_newStates, newStates_filter mem_cons_self]
  rfl

theorem length_mergeManifestStates (fresh : State) (reread loaded : List State) :
    (mergeManifestStates identity fresh reread loaded).length ≤ kMaxManifestStates := by
  rw [mergeManifestStates_eq_take]
  exact length_take_le _ _

/-- What any sequence of merges leads to, and what one more merge does with it. -/
theorem merged_states (State ι : Type) [DecidableEq ι] (identity : State → ι)
    {states : List State} (h : Merged identity states) :
    states.length ≤ kMaxManifestStates ∧ (states.map identity).Nodup ∧
      ∀ (fresh : State) (loaded : List State),
        let onlyLoaded := newStates identity (states.map identity) loaded
        let whole := fresh :: (states ++ onlyLoaded).filter
          (fun state => identity state ≠ identity fresh)
        mergeManifestStates identity fresh states loaded = whole.take kMaxManifestStates ∧
          ((loaded.map identity).Nodup → onlyLoaded =
            loaded.filter (fun state => identity state ∉ states.map identity)) ∧
          ∀ state ∈ states ++ onlyLoaded,
            state ∉ mergeManifestStates identity fresh states loaded →
              identity state = identity fresh ∨ state ∈ whole.drop kMaxManifestStates := by
  have hlist : states.length ≤ kMaxManifestStates ∧ (states.map identity).Nodup := by
    induction h with
    | empty => exact ⟨Nat.zero_le _, nodup_nil⟩
    | merge _ fresh loaded ih =>
      exact ⟨length_mergeManifestStates _ _ _, nodup_mergeManifestStates fresh ih.2 loaded⟩
  refine ⟨hlist.1, hlist.2, ?_⟩
  intro fresh loaded onlyLoaded whole
  have hmerge : mergeManifestStates identity fresh states loaded =
      whole.take kMaxManifestStates := mergeManifestStates_eq_take fresh states loaded
  refine ⟨hmerge, newStates_of_nodup _, ?_⟩
  intro state hstate hgone
  by_cases hfresh : identity state = identity fresh
  · exact .inl hfresh
  · right
    have hwhole : state ∈ whole := mem_cons_of_mem _
      (mem_filter.mpr ⟨hstate, decide_eq_true hfresh⟩)
    rw [← take_append_drop kMaxManifestStates whole, ← hmerge] at hwhole
    exact (mem_append.mp hwhole).resolve_left hgone

/-- Three merges by the first digit; the last one loaded a list that has a state of its own. -/
theorem merged_states_threeMerges :
    let identity : ℕ → ℕ := (· / 10)
    Merged identity [11, 20] ∧
      mergeManifestStates identity 12 [11, 20] [11, 30, 20] = [12, 20, 30] := by
  intro identity
  have hlist : Merged identity [11, 20] := .merge (.merge .empty 20 []) 11 []
  have hmerge := ((merged_states ℕ ℕ identity hlist).2.2 12 [11, 30, 20]).1
  exact ⟨hlist, hmerge.trans (by decide)⟩

end Merge

end Vcache

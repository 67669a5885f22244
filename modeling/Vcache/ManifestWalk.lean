import Vcache.ManifestLayers

/-!
# The walk through the copies of a manifest

`try_manifest_hit` walks a list of states that grows while it is walked: when every state
so far is ruled out, the copy in the next slower layer is fetched and those of its states
are appended whose recorded inputs are new. The walk here logs what it checks;
`tryStates` is the same loop taken copy by copy.
-/

namespace Vcache

open ManifestLayer List Option

variable {State ι : Type} {identity : State → ι}

/-! ## Layers in front and behind -/

section Layers

variable {chain : CacheChain identity}

theorem firstCopy_cases (layers : List (ManifestLayer identity)) :
    (firstCopy layers = none ∧ layers.flatMap ManifestLayer.states = []) ∨
      ∃ front layer slower copy, layers = front ++ layer :: slower ∧ layer.copy = some copy ∧
        front.flatMap ManifestLayer.states = [] ∧ firstCopy layers = some ⟨layer.name, copy⟩ := by
  induction layers with
  | nil => exact .inl ⟨rfl, rfl⟩
  | cons layer layers ih =>
    cases hcopy : layer.copy with
    | some copy =>
      refine .inr ⟨[], layer, layers, copy, rfl, hcopy, rfl, ?_⟩
      rw [firstCopy, findSome?_cons, hcopy, map_some]
    | none =>
      have hstates : layer.states = [] := by rw [states, hcopy]
      have hfirst : firstCopy (layer :: layers) = firstCopy layers := by
        rw [firstCopy, findSome?_cons, hcopy, map_none, firstCopy]
      rcases ih with ⟨hnone, hempty⟩ | ⟨front, found, slower, copy, rfl, hfound, hfront, hsome⟩
      · exact .inl ⟨hfirst.trans hnone, by rw [flatMap_cons, hstates, hempty]; rfl⟩
      · refine .inr ⟨layer :: front, found, slower, copy, rfl, hfound, ?_, hfirst.trans hsome⟩
        rw [flatMap_cons, hstates, hfront]
        rfl

/-- With distinct names, what is slower than a layer is what stands behind it. -/
theorem getAfter_layer {front slower : List (ManifestLayer identity)}
    {layer : ManifestLayer identity} (hlayers : chain.layers = front ++ layer :: slower)
    (hnames : (chain.layers.map ManifestLayer.name).Nodup) :
    chain.layers.takeWhile (fun other => other.name ≠ layer.name) = front ∧
      chain.layers.dropWhile (fun other => other.name ≠ layer.name) = layer :: slower := by
  rw [hlayers, map_append, nodup_append] at hnames
  have hfront : ∀ other ∈ front, decide (other.name ≠ layer.name) = true := by
    intro other hother
    exact decide_eq_true (hnames.2.2 _ (mem_map_of_mem hother) _ (by simp))
  rw [hlayers]
  constructor
  · rw [takeWhile_append_of_pos hfront, takeWhile_cons_of_neg (by simp),
      append_nil]
  · rw [dropWhile_append_of_pos hfront, dropWhile_cons_of_neg (by simp)]

theorem nextManifestCopy_layer {front slower : List (ManifestLayer identity)}
    {layer : ManifestLayer identity} (hlayers : chain.layers = front ++ layer :: slower)
    (hnames : (chain.layers.map ManifestLayer.name).Nodup) (hname : layer.name ≠ [])
    (copy : ManifestCopy identity) :
    nextManifestCopy chain (some ⟨layer.name, copy⟩) = firstCopy slower := by
  rw [nextManifestCopy]
  simp only
  rw [if_neg hname, CacheChain.getAfter, (getAfter_layer hlayers hnames).2, tail_cons]

theorem ManifestLayer.name_put (layer : ManifestLayer identity) (value : ManifestCopy identity) :
    (layer.put value).name = layer.name := by
  rw [put]
  split <;> rfl

/-- `Get` finds the fastest copy and fills the layers in front of it. -/
theorem getLayers_cases (layers : List (ManifestLayer identity)) :
    (getLayers layers = (none, layers) ∧ layers.flatMap ManifestLayer.states = []) ∨
      ∃ front layer slower copy, layers = front ++ layer :: slower ∧ layer.copy = some copy ∧
        front.flatMap ManifestLayer.states = [] ∧
        getLayers layers =
          (some ⟨layer.name, copy⟩, front.map (·.put copy) ++ layer :: slower) := by
  induction layers with
  | nil => exact .inl ⟨rfl, rfl⟩
  | cons layer layers ih =>
    rw [getLayers]
    cases hcopy : layer.copy with
    | some copy => exact .inr ⟨[], layer, layers, copy, rfl, hcopy, rfl, rfl⟩
    | none =>
      have hstates : layer.states = [] := by rw [states, hcopy]
      rcases ih with ⟨hget, hempty⟩ | ⟨front, found, slower, copy, rfl, hfound, hfront, hget⟩
      · refine .inl ⟨?_, by rw [flatMap_cons, hstates, hempty]; rfl⟩
        simp only [hget, backfill]
      · refine .inr ⟨layer :: front, found, slower, copy, rfl, hfound, ?_, ?_⟩
        · rw [flatMap_cons, hstates, hfront]
          rfl
        · simp only [hget, backfill, map_cons, cons_append]

/-- The layer stays, or it is writable and has another copy. -/
def ManifestLayer.WrittenTo (layer layer' : ManifestLayer identity) : Prop :=
  layer' = layer ∨ (layer.writable = true ∧ ∃ copy, layer' = { layer with copy := some copy })

theorem ManifestLayer.WrittenTo.put {layer layer' : ManifestLayer identity}
    (h : layer.WrittenTo layer') (value : ManifestCopy identity) :
    layer.WrittenTo (layer'.put value) := by
  rw [ManifestLayer.put]
  split
  next hwritable =>
    rcases h with rfl | ⟨hlayer, copy, rfl⟩
    · exact .inr ⟨hwritable, value, rfl⟩
    · exact .inr ⟨hlayer, value, rfl⟩
  next => exact h

theorem forall₂_writtenTo_put {layers layers' : List (ManifestLayer identity)}
    (h : List.Forall₂ ManifestLayer.WrittenTo layers layers') (value : ManifestCopy identity) :
    List.Forall₂ ManifestLayer.WrittenTo layers (layers'.map (·.put value)) := by
  induction h with
  | nil => exact .nil
  | cons hlayer _ ih => exact .cons (hlayer.put value) ih

theorem forall₂_writtenTo_refl (layers : List (ManifestLayer identity)) :
    List.Forall₂ ManifestLayer.WrittenTo layers layers :=
  forall₂_same.mpr (fun _ _ => .inl rfl)

theorem putBefore_layer {front slower : List (ManifestLayer identity)}
    {layer : ManifestLayer identity} (hlayers : chain.layers = front ++ layer :: slower)
    (hnames : (chain.layers.map ManifestLayer.name).Nodup) (value : ManifestCopy identity) :
    (chain.putBefore value layer.name).layers = front.map (·.put value) ++ layer :: slower := by
  have hknown : chain.layers.any (fun other => other.name = layer.name) = true := by
    rw [hlayers]
    simp
  rw [CacheChain.putBefore, if_pos hknown, (getAfter_layer hlayers hnames).1,
    (getAfter_layer hlayers hnames).2]

end Layers

/-! ## The walk -/

variable [DecidableEq ι]

/-- The locals of `try_manifest_hit`, and the states checked so far. -/
structure ManifestWalk {State ι : Type} (identity : State → ι) where
  states : List State
  got : Option (ManifestGot identity)
  i : ℕ
  checked : List State

/-- `serves` says that a state holds and its entry is served. A turn fetches a copy or checks a
state. -/
def tryManifestHit (chain : CacheChain identity) (serves : State → Bool) :
    ℕ → ManifestWalk identity → Option (ManifestLookup identity × List State)
  | 0, _ => none
  | turns + 1, w =>
    match w.states[w.i]? with
    | none =>
      match nextManifestCopy chain w.got with
      | none => some (⟨w.states, w.got, none⟩, w.checked)
      | some next => tryManifestHit chain serves turns
          { w with
            states := appendManifestStates identity w.states next.copy.states
            got := some next }
    | some state =>
      if serves state then some (⟨w.states, w.got, some (w.i, state)⟩, w.checked ++ [state])
      else tryManifestHit chain serves turns
        { w with
          i := w.i + 1
          checked := w.checked ++ [state] }

def CacheChain.startWalk (chain : CacheChain identity) : ManifestWalk identity :=
  ⟨(manifestStates chain.get.1).states, chain.get.1, 0, []⟩

/-- After some number of turns the walk is over, with this result and log. -/
def Walks (chain : CacheChain identity) (serves : State → Bool) (w : ManifestWalk identity)
    (result : ManifestLookup identity × List State) : Prop :=
  ∃ turns, tryManifestHit chain serves turns w = some result

/-- What is checked of a list of states: all up to the first that serves. -/
def checkedIn (serves : State → Bool) (states : List State) : List State :=
  states.takeWhile (fun state => !serves state) ++ (states.find? serves).toList

section Walk

variable {chain : CacheChain identity} {serves : State → Bool} {states checked : List State}
  {got : Option (ManifestGot identity)} {i : ℕ} {result : ManifestLookup identity × List State}

theorem walks_over (hi : states[i]? = none) (hnext : nextManifestCopy chain got = none) :
    Walks chain serves ⟨states, got, i, checked⟩ (⟨states, got, none⟩, checked) :=
  ⟨1, by simp only [tryManifestHit, hi, hnext]⟩

theorem walks_fetch (hi : states[i]? = none) {next : ManifestGot identity}
    (hnext : nextManifestCopy chain got = some next) (h : Walks chain serves
      ⟨appendManifestStates identity states next.copy.states, some next, i, checked⟩ result) :
    Walks chain serves ⟨states, got, i, checked⟩ result := by
  obtain ⟨turns, hturns⟩ := h
  exact ⟨turns + 1, by simp only [tryManifestHit, hi, hnext, hturns]⟩

variable {state : State} {check : State → StateCheck} {front : List State} {copies : ℕ}

theorem walks_hit (hi : states[i]? = some state) (hserves : serves state = true) :
    Walks chain serves ⟨states, got, i, checked⟩
      (⟨states, got, some (i, state)⟩, checked ++ [state]) :=
  ⟨1, by simp only [tryManifestHit, hi, hserves, if_true]⟩

theorem walks_skip (hi : states[i]? = some state) (hserves : serves state = false)
    (h : Walks chain serves ⟨states, got, i + 1, checked ++ [state]⟩ result) :
    Walks chain serves ⟨states, got, i, checked⟩ result := by
  obtain ⟨turns, hturns⟩ := h
  refine ⟨turns + 1, ?_⟩
  simp only [tryManifestHit, hi, hserves, hturns, Bool.false_eq_true, if_false]

theorem firstStop_cons (serves : State → Bool) (i : ℕ) (state : State) (states : List State) :
    firstStop (ManifestTool.cxx serves).check i (state :: states) =
      if serves state then some (i, state)
      else firstStop (ManifestTool.cxx serves).check (i + 1) states := by
  rw [firstStop, ManifestTool.check]
  cases serves state <;> simp

theorem firstStop_find (serves : State → Bool) (i : ℕ) (states : List State) :
    (firstStop (ManifestTool.cxx serves).check i states).map Prod.snd = states.find? serves := by
  induction states generalizing i with
  | nil => rfl
  | cons state states ih =>
    rw [firstStop_cons, find?_cons]
    cases serves state with
    | true => rfl
    | false => simpa using ih (i + 1)

theorem walks_states {rest : List State} (hle : i ≤ states.length) (hrest : states.drop i = rest)
    (hover : rest.find? serves = none →
      Walks chain serves ⟨states, got, states.length, checked ++ rest⟩ result)
    (hstop : ∀ stop, firstStop (ManifestTool.cxx serves).check i rest = some stop →
      result = (⟨states, got, some stop⟩, checked ++ checkedIn serves rest)) :
    Walks chain serves ⟨states, got, i, checked⟩ result := by
  induction rest generalizing i checked with
  | nil =>
    have hend := hover rfl
    rw [append_nil] at hend
    rwa [Nat.le_antisymm hle (drop_eq_nil_iff.mp hrest)]
  | cons state rest ih =>
    have hi : states[i]? = some state := by
      rw [← head?_drop, hrest, head?_cons]
    have hdrop : states.drop (i + 1) = rest := by
      rw [← List.tail_drop, hrest, List.tail_cons]
    have hlt : i < states.length := (List.getElem?_eq_some_iff.mp hi).1
    cases hserves : serves state with
    | true =>
      have hresult := hstop (i, state) (by rw [firstStop_cons, hserves, if_pos rfl])
      rw [hresult, checkedIn, List.takeWhile_cons_of_neg (by simp [hserves]),
        List.find?_cons_of_pos hserves]
      exact walks_hit hi hserves
    | false =>
      refine walks_skip hi hserves (ih hlt hdrop ?_ ?_)
      · intro hnone
        have hend := hover (by rw [find?_cons_of_neg (by simp [hserves]), hnone])
        rwa [append_assoc, singleton_append]
      · intro stop hstop'
        have hresult := hstop stop (by rw [firstStop_cons, hserves]; simpa using hstop')
        rw [hresult, checkedIn, checkedIn, takeWhile_cons_of_pos (by simp [hserves]),
          find?_cons_of_neg (by simp [hserves]), append_assoc]
        rfl

theorem firstStop_append
    (h : firstStop check i front = none) (back : List State) :
    firstStop check i (front ++ back) = firstStop check (i + front.length) back := by
  induction front generalizing i with
  | nil => rfl
  | cons state front ih =>
    rw [firstStop] at h
    split at h
    next hout =>
      rw [cons_append, firstStop, if_pos hout, ih h, length_cons]
      congr 1
      omega
    next => cases h

theorem firstStop_drop {all : List State} (hle : i ≤ states.length)
    (hfront : states <+: all) (h : firstStop check i (states.drop i) = none) :
    firstStop check i (all.drop i) = firstStop check states.length (all.drop states.length) := by
  obtain ⟨more, rfl⟩ := hfront
  rw [drop_append_of_le_length hle, firstStop_append h, length_drop,
    Nat.add_sub_cancel' hle, drop_left]

theorem prefix_appendManifestStates (states more : List State) :
    states <+: appendManifestStates identity states more := by
  rw [appendManifestStates_eq]
  exact prefix_append _ _

/-! ## Copy by copy -/

/-- What the result of a lookup says about the states it has seen. -/
theorem tryStates_found {found : ManifestLookup identity}
    (h : tryStates chain check copies i states got = some found) (hle : i ≤ states.length) :
    states <+: found.states ∧ found.stop = firstStop check i (found.states.drop i) := by
  induction copies generalizing i states got with
  | zero => cases h
  | succ copies ih =>
    rw [tryStates] at h
    cases hstop : firstStop check i (states.drop i) with
    | some stop =>
      rw [hstop] at h
      cases h
      exact ⟨prefix_rfl, hstop.symm⟩
    | none =>
      rw [hstop] at h
      cases hnext : nextManifestCopy chain got with
      | none =>
        rw [hnext] at h
        cases h
        exact ⟨prefix_rfl, hstop.symm⟩
      | some next =>
        rw [hnext] at h
        have hgrows : states <+: appendManifestStates identity states next.copy.states :=
          prefix_appendManifestStates states next.copy.states
        obtain ⟨hfront, hfound⟩ := ih h hgrows.length_le
        exact ⟨hgrows.trans hfront,
          hfound.trans (firstStop_drop hle (hgrows.trans hfront) hstop).symm⟩

theorem checkedIn_append (h : front.find? serves = none)
    (back : List State) : checkedIn serves (front ++ back) = front ++ checkedIn serves back := by
  have hall : ∀ state ∈ front, (!serves state) = true := by
    intro state hstate
    simpa using find?_eq_none.mp h state hstate
  rw [checkedIn, checkedIn, takeWhile_append_of_pos hall, find?_append, h, none_or, append_assoc]

theorem checkedIn_of_none (h : states.find? serves = none) : checkedIn serves states = states := by
  have happend := checkedIn_append h []
  have hnil : checkedIn serves [] = [] := rfl
  rwa [append_nil, hnil, append_nil] at happend

theorem walks_of_tryStates {found : ManifestLookup identity} (hle : i ≤ states.length)
    (h : tryStates chain (ManifestTool.cxx serves).check copies i states got = some found)
    (checked : List State) :
    Walks chain serves ⟨states, got, i, checked⟩
      (found, checked ++ checkedIn serves (found.states.drop i)) := by
  induction copies generalizing i states got checked with
  | zero => cases h
  | succ copies ih =>
    rw [tryStates] at h
    have hfind := firstStop_find serves i (states.drop i)
    have hend : states[states.length]? = none := getElem?_eq_none le_rfl
    cases hstop : firstStop (ManifestTool.cxx serves).check i (states.drop i) with
    | some stop =>
      rw [hstop] at h hfind
      cases h
      refine walks_states hle rfl ?_ ?_
      · intro hnone
        rw [hnone] at hfind
        cases hfind
      · intro stop' hstop'
        rw [hstop] at hstop'
        rw [some.inj hstop']
    | none =>
      rw [hstop] at h hfind
      refine walks_states hle rfl (fun hnone => ?_) (fun stop' hstop' => ?_)
      · cases hnext : nextManifestCopy chain got with
        | none =>
          rw [hnext] at h
          cases h
          rw [checkedIn_of_none hnone]
          exact walks_over hend hnext
        | some next =>
          rw [hnext] at h
          have hgrows : states <+: appendManifestStates identity states next.copy.states :=
          prefix_appendManifestStates states next.copy.states
          obtain ⟨hfront, -⟩ := tryStates_found h hgrows.length_le
          obtain ⟨more, hmore⟩ := hgrows.trans hfront
          have hwalk := ih hgrows.length_le h (checked ++ states.drop i)
          rw [← hmore, drop_left] at hwalk
          rw [← hmore, drop_append_of_le_length hle, checkedIn_append hnone, ← append_assoc]
          exact walks_fetch hend hnext hwalk
      · rw [hstop] at hstop'
        cases hstop'

/-! ## Layer by layer -/

/-- The lookup from a layer's copy on ends, having seen the slower layers as far as needed. -/
theorem exists_tryStates (check : State → StateCheck)
    (hnames : (chain.layers.map ManifestLayer.name).Nodup)
    (hnonempty : ∀ layer ∈ chain.layers, layer.name ≠ [])
    {front slower : List (ManifestLayer identity)} {layer : ManifestLayer identity}
    (hlayers : chain.layers = front ++ layer :: slower) (copy : ManifestCopy identity)
    (hcopies : slower.length < copies) (i : ℕ) (states : List State) :
    ∃ found, tryStates chain check copies i states (some ⟨layer.name, copy⟩) = some found ∧
      (∃ last ∈ layer :: slower, found.got.map ManifestGot.layer = some last.name) ∧
      found.states <+:
        appendManifestStates identity states (slower.flatMap ManifestLayer.states) ∧
      (found.stop = none → found.states =
        appendManifestStates identity states (slower.flatMap ManifestLayer.states)) := by
  induction copies generalizing front slower layer copy i states with
  | zero => omega
  | succ copies ih =>
    have hnext := nextManifestCopy_layer hlayers hnames
      (hnonempty layer (by rw [hlayers]; simp)) copy
    rw [tryStates]
    cases hstop : firstStop check i (states.drop i) with
    | some stop =>
      refine ⟨_, rfl, ⟨layer, mem_cons_self, rfl⟩, prefix_appendManifestStates _ _, ?_⟩
      intro hnone
      cases hnone
    | none =>
      rw [hnext]
      rcases firstCopy_cases slower with ⟨hnone, hempty⟩ |
        ⟨skipped, next, behind, copy', rfl, hcopy, hskipped, hsome⟩
      · rw [hnone, hempty]
        exact ⟨_, rfl, ⟨layer, mem_cons_self, rfl⟩, prefix_rfl, fun _ => rfl⟩
      · have hstates : next.states = copy'.states := by rw [ManifestLayer.states, hcopy]
        have hall : appendManifestStates identity states
            ((skipped ++ next :: behind).flatMap ManifestLayer.states) =
            appendManifestStates identity
              (appendManifestStates identity states copy'.states)
              (behind.flatMap ManifestLayer.states) := by
          rw [flatMap_append, hskipped, nil_append, flatMap_cons, hstates,
            appendManifestStates, foldl_append]
          rfl
        have hlayers' : chain.layers = (front ++ layer :: skipped) ++ next :: behind := by
          rw [hlayers, append_assoc, cons_append]
        have hbehind : behind.length < copies := by
          simp at hcopies
          omega
        obtain ⟨found, hfound, ⟨last, hlast, hgot⟩, hseen⟩ := ih hlayers' copy' hbehind
          states.length (appendManifestStates identity states copy'.states)
        rw [hsome, hall]
        refine ⟨found, hfound, ⟨last, ?_, hgot⟩, hseen⟩
        simp only [mem_cons, mem_append] at hlast ⊢
        exact .inr (.inr hlast)

theorem find_append_of_some
    (h : front.find? serves = some state) (back : List State) :
    (front ++ back).find? serves = some state ∧
      checkedIn serves (front ++ back) = checkedIn serves front := by
  have hfind : (front ++ back).find? serves = some state := by
    rw [find?_append, h, some_or]
  refine ⟨hfind, ?_⟩
  rw [checkedIn, checkedIn, hfind, h]
  congr 1
  induction front with
  | nil => cases h
  | cons first front ih =>
    cases hserves : serves first with
    | true =>
      rw [cons_append, takeWhile_cons_of_neg (by simp [hserves]),
        takeWhile_cons_of_neg (by simp [hserves])]
    | false =>
      rw [find?_cons_of_neg (by simp [hserves])] at h
      rw [cons_append, find?_cons_of_neg (by simp [hserves])] at hfind
      rw [cons_append, takeWhile_cons_of_pos (by simp [hserves]),
        takeWhile_cons_of_pos (by simp [hserves]), ih h hfind]

/-- The states a lookup can check: the first of each identity, in the order of the layers. -/
def CacheChain.candidates (chain : CacheChain identity) : List State :=
  newStates identity [] chain.states

theorem newStates_nil_seen (states : List State) :
    newStates identity [] states = appendManifestStates identity [] states := by
  rw [appendManifestStates_eq, nil_append, map_nil]

theorem candidates_eq {front slower : List (ManifestLayer identity)}
    {layer : ManifestLayer identity} {copy : ManifestCopy identity}
    (hlayers : chain.layers = front ++ layer :: slower) (hcopy : layer.copy = some copy)
    (hfront : front.flatMap ManifestLayer.states = []) :
    chain.candidates =
      appendManifestStates identity copy.states (slower.flatMap ManifestLayer.states) := by
  have hstates : layer.states = copy.states := by rw [states, hcopy]
  have hfirst : appendManifestStates identity [] copy.states = copy.states := by
    rw [← newStates_nil_seen, newStates_of_nodup [] copy.nodup]
    simp
  rw [CacheChain.candidates, newStates_nil_seen, CacheChain.states, hlayers, flatMap_append,
    hfront, nil_append, flatMap_cons, hstates, appendManifestStates, foldl_append,
    ← appendManifestStates, ← appendManifestStates, hfirst]

theorem nodup_candidates (chain : CacheChain identity) :
    (chain.candidates.map identity).Nodup := by
  rw [CacheChain.candidates, newStates_nil_seen]
  exact nodup_appendManifestStates (by simp) _

/-- `last` is a layer behind the one of the first copy, and `Get` has filled layers in front of
it at most. -/
def BehindFirst (chain : CacheChain identity) (last : Str) : Prop :=
  ∃ front filled layer slower, chain.layers = front ++ layer :: slower ∧
    layer.name = last ∧ chain.get.2.layers = filled ++ layer :: slower ∧
    List.Forall₂ ManifestLayer.WrittenTo front filled

theorem exists_lookup (chain : CacheChain identity)
    (hnames : (chain.layers.map ManifestLayer.name).Nodup)
    (hnonempty : ∀ layer ∈ chain.layers, layer.name ≠ []) (serves : State → Bool) :
    (chain.get.2.layers.map ManifestLayer.name).Nodup ∧
    ∃ found, Walks chain.get.2 serves chain.startWalk (found, checkedIn serves chain.candidates) ∧
      found.stop.map Prod.snd = chain.candidates.find? serves ∧
      (found.got.map ManifestGot.layer ≠ chain.get.1.map ManifestGot.layer →
        ∃ last, found.got.map ManifestGot.layer = some last ∧ BehindFirst chain last) := by
  rcases getLayers_cases chain.layers with ⟨hget, hempty⟩ |
    ⟨front, layer, slower, copy, hlayers, hcopy, hfront, hget⟩
  · have hchain : chain.get = (none, chain) := by rw [CacheChain.get, hget]
    have hcandidates : chain.candidates = [] := by
      rw [CacheChain.candidates, CacheChain.states, hempty]
      rfl
    rw [CacheChain.startWalk, hchain, hcandidates]
    refine ⟨hnames, ⟨[], none, none⟩, walks_over rfl rfl, rfl, ?_⟩
    intro hother
    exact absurd rfl hother
  · have hchain : chain.get = (some ⟨layer.name, copy⟩,
        ⟨front.map (·.put copy) ++ layer :: slower⟩) := by rw [CacheChain.get, hget]
    have hsame : chain.get.2.layers.map name =
        chain.layers.map name := by
      rw [hchain, hlayers, List.map_append, List.map_append, List.map_map]
      congr 1
      apply List.map_congr_left
      intro other _
      exact name_put other copy
    have hnames' : (chain.get.2.layers.map name).Nodup := hsame.symm ▸ hnames
    have hnonempty' : ∀ other ∈ chain.get.2.layers, other.name ≠ [] := by
      intro other hother
      have hmem : other.name ∈ chain.layers.map name :=
        hsame ▸ List.mem_map_of_mem hother
      obtain ⟨original, horiginal, heq⟩ := mem_map.mp hmem
      exact heq ▸ hnonempty original horiginal
    have hlayers' : chain.get.2.layers = front.map (·.put copy) ++ layer :: slower := by
      rw [hchain]
    refine ⟨hnames', ?_⟩
    obtain ⟨found, hfound, ⟨last, hlast, hgot⟩, hseen, hall⟩ :=
      exists_tryStates (ManifestTool.cxx serves).check hnames' hnonempty' hlayers' copy
        (Nat.lt_succ_self slower.length) 0 copy.states
    rw [← candidates_eq hlayers hcopy hfront] at hseen hall
    have hwalk := walks_of_tryStates (Nat.zero_le _) hfound []
    have hstop := (tryStates_found hfound (Nat.zero_le _)).2
    rw [drop_zero] at hwalk hstop
    have hfind := firstStop_find serves 0 found.states
    rw [← hstop] at hfind
    have hresult : found.stop.map Prod.snd = chain.candidates.find? serves ∧
        checkedIn serves found.states = checkedIn serves chain.candidates := by
      cases hserved : found.states.find? serves with
      | none =>
        rw [hserved, map_eq_none_iff] at hfind
        rw [hfind, ← hall hfind, hserved]
        exact ⟨rfl, rfl⟩
      | some state =>
        obtain ⟨more, hmore⟩ := hseen
        obtain ⟨hsome, hchecked⟩ := find_append_of_some hserved more
        rw [hfind, ← hmore, hsome, hchecked]
        exact ⟨hserved, rfl⟩
    refine ⟨found, ?_, hresult.1, ?_⟩
    · rw [← hresult.2, CacheChain.startWalk, hchain]
      rw [hchain] at hwalk
      exact hwalk
    · intro hother
      refine ⟨last.name, hgot, ?_⟩
      rw [hchain, hgot] at hother
      have hbehind : last ∈ slower := by
        refine (mem_cons.mp hlast).resolve_left ?_
        rintro rfl
        exact hother rfl
      obtain ⟨between, behind, rfl⟩ := mem_iff_append.mp hbehind
      refine ⟨front ++ layer :: between, front.map (·.put copy) ++ layer :: between, last, behind,
        ?_, rfl, ?_, ?_⟩
      · rw [hlayers, append_assoc, cons_append]
      · rw [hlayers', append_assoc, cons_append]
      · exact rel_append (forall₂_writtenTo_put (forall₂_writtenTo_refl front) copy)
          (forall₂_writtenTo_refl _)

end Walk

/-! ## C/C++ manifests -/

def servesBy (holds : CxxManifestState → Bool) (entryServes : Str → Bool)
    (state : CxxManifestState) : Bool := holds state && entryServes state.resultKey

/-- `try_manifest_hit` ends, checks the first state of each identity in the order of the layers
up to the first that serves, and writes at most in front of a slower copy it matched in. It
misses nothing if no two layers disagree on the result key of one set of recorded inputs. -/
theorem tryManifestHit_exhaustive (chain : CacheChain cxxManifestRecordedInputs)
    (hnames : (chain.layers.map ManifestLayer.name).Nodup)
    (hnonempty : ∀ layer ∈ chain.layers, layer.name ≠ [])
    (holds : CxxManifestState → Bool) (entryServes : Str → Bool)
    (recorded : Option CxxManifestState) (readOnly : Bool) :
    let serves := servesBy holds entryServes
    let run : ManifestRun CxxManifestState := ⟨.cxx serves, recorded, readOnly⟩
    (chain.candidates.map cxxManifestRecordedInputs).Nodup ∧
    ∃ found, Walks chain.get.2 serves chain.startWalk (found, checkedIn serves chain.candidates) ∧
      found.stop.map Prod.snd = chain.candidates.find? serves ∧
      ((∀ state ∈ chain.states, ∀ other ∈ chain.states,
          cxxManifestRecordedInputs state = cxxManifestRecordedInputs other →
            state.resultKey = other.resultKey) →
        found.stop = none → ∀ state ∈ chain.states, serves state = false) ∧
      ∀ i state, found.stop = some (i, state) →
        found.got.map ManifestGot.layer ≠ chain.get.1.map ManifestGot.layer →
        ∃ front layer slower written, chain.layers = front ++ layer :: slower ∧
          found.got.map ManifestGot.layer = some layer.name ∧
          (run.onHit chain.get.1 chain.get.2 found i state).chain.layers =
            written ++ layer :: slower ∧
          List.Forall₂ ManifestLayer.WrittenTo front written := by
  intro serves run
  obtain ⟨hnames', found, hwalk, hfind, hbehind⟩ := exists_lookup chain hnames hnonempty serves
  refine ⟨nodup_candidates chain, found, hwalk, hfind, ?_, ?_⟩
  · intro hagree hnone state hstate
    rw [hnone, map_none, eq_comm, find?_eq_none] at hfind
    have hid : cxxManifestRecordedInputs state ∈
        identities cxxManifestRecordedInputs chain.candidates := by
      rw [CacheChain.candidates, newStates_nil_seen, identities_appendManifestStates,
        identities_nil, Finset.empty_union]
      exact mem_identities.mpr ⟨state, hstate, rfl⟩
    obtain ⟨known, hknown, hsame⟩ := mem_identities.mp hid
    have hmem : known ∈ chain.states := (newStates_sublist _ _).subset hknown
    obtain rfl : known = state := by
      have hkey := hagree known hmem state hstate hsame
      obtain ⟨key, files, absent⟩ := known
      obtain ⟨key', files', absent'⟩ := state
      cases hsame
      obtain rfl : key = key' := hkey
      rfl
    simpa using hfind known hknown
  · intro i state hstop hother
    obtain ⟨last, hgot, front, filled, layer, slower, hlayers, hname, hfilled, hwritten⟩ :=
      hbehind hother
    subst hname
    refine ⟨front, layer, slower, ?_⟩
    by_cases hreadOnly : run.readOnly = true
    · refine ⟨filled, hlayers, hgot, ?_, hwritten⟩
      rw [ManifestRun.onHit, if_pos hreadOnly, hfilled]
    · refine ⟨_, hlayers, hgot, ?_, forall₂_writtenTo_put hwritten
        (mergeCopies state (manifestStates chain.get.2.getLocal) found.states)⟩
      have hlayer : (found.got.map (·.layer)).getD [] = layer.name :=
        (congrArg (getD · []) hgot).trans rfl
      rw [ManifestRun.onHit, if_neg hreadOnly, if_pos hother, hlayer]
      exact putBefore_layer hfilled hnames' _

/-- One header of the digest `1`, under two result keys. -/
def keyedState (key : String) : CxxManifestState :=
  ⟨key.toList, [("/w/b.h".toList, "1".toList)], []⟩

def keyedCopy (key : String) : ManifestCopy cxxManifestRecordedInputs :=
  ⟨[keyedState key], List.nodup_singleton _⟩

/-- The disk's state is stale and S3's serves. -/
theorem tryManifestHit_exhaustive_slowerCopy :
    let chain := twoLayers true true (some bakedCopy) (some (keyedCopy "k"))
    let serves := servesBy (fun state => state = keyedState "k") (fun _ => true)
    ∃ found, Walks chain.get.2 serves chain.startWalk
        (found, [headerState "1", headerState "2", keyedState "k"]) ∧
      found.stop.map Prod.snd = some (keyedState "k") := by
  intro chain serves
  have hnames : (chain.layers.map name).Nodup := by decide
  have hnonempty : ∀ layer ∈ chain.layers, layer.name ≠ [] := by
    intro layer hlayer
    have hname : layer.name ∈ chain.layers.map ManifestLayer.name := mem_map_of_mem hlayer
    have hall : ∀ name ∈ chain.layers.map ManifestLayer.name, name ≠ [] := by decide
    exact hall _ hname
  obtain ⟨-, found, hwalk, hfind, -⟩ := tryManifestHit_exhaustive chain hnames hnonempty
    (fun state => state = keyedState "k") (fun _ => true) none false
  have hchecked : checkedIn serves chain.candidates =
      [headerState "1", headerState "2", keyedState "k"] := by decide +kernel
  have hserved : chain.candidates.find? serves = some (keyedState "k") := by decide +kernel
  exact ⟨found, hchecked ▸ hwalk, hfind.trans hserved⟩

/-- Both layers remember the same header, under the keys `old` and `new`. The entry of `new`
serves; only `old` is tried. -/
theorem tryManifestHit_skips_other_key :
    let chain := twoLayers true true (some (keyedCopy "old")) (some (keyedCopy "new"))
    let serves := servesBy (fun _ => true) (fun key => key = "new".toList)
    (chain.layers.map ManifestLayer.name).Nodup ∧ keyedState "new" ∈ chain.states ∧
      serves (keyedState "new") = true ∧
      ∃ found checked, Walks chain.get.2 serves chain.startWalk (found, checked) ∧
        found.stop = none := by
  intro chain serves
  refine ⟨by decide, by decide, by decide, ⟨[keyedState "old"], some ⟨"s3".toList,
    keyedCopy "new"⟩, none⟩, [keyedState "old"], ⟨4, ?_⟩, rfl⟩
  rfl

end Vcache

import Vcache.ManifestMerge
import Vcache.Strings

/-!
# Manifest copies in a chain of layers

Every layer of a cache chain can hold a copy of one manifest, and the copies need not
agree. A lookup reads the fastest copy and moves on to a slower one only when it has
ruled out every state so far; a hit or a store then writes a merged list back
(`try_manifest_hit` and `StoreCxxManifest` for C/C++, `RunRustCompile` and
`StoreManifest` for Rust). What a state's check comes to is a parameter of the run: its
files, its absent paths, its entry and whether that can be placed.
-/

namespace Vcache

open List

/-- One layer's copy of a manifest; a text that does not parse is a copy without states. -/
structure ManifestCopy {State ι : Type} (identity : State → ι) where
  states : List State
  nodup : (states.map identity).Nodup

structure ManifestLayer {State ι : Type} (identity : State → ι) where
  name : Str
  remote : Bool
  writable : Bool
  copy : Option (ManifestCopy identity)

structure ManifestGot {State ι : Type} (identity : State → ι) where
  layer : Str
  copy : ManifestCopy identity

structure CacheChain {State ι : Type} (identity : State → ι) where
  layers : List (ManifestLayer identity)

variable {State ι : Type} {identity : State → ι}

/-- `CxxManifestStates` and `ManifestStates`. -/
def manifestStates (got : Option (ManifestGot identity)) : ManifestCopy identity :=
  match got with
  | none => ⟨[], List.nodup_nil⟩
  | some got => got.copy

namespace ManifestLayer

def states (layer : ManifestLayer identity) : List State :=
  match layer.copy with
  | none => []
  | some copy => copy.states

def put (layer : ManifestLayer identity) (value : ManifestCopy identity) :
    ManifestLayer identity :=
  if layer.writable then { layer with copy := some value } else layer

/-- What a lookup that passed through the layer leaves in it. -/
def backfill (layer : ManifestLayer identity) (got : Option (ManifestGot identity)) :
    ManifestLayer identity :=
  match got with
  | none => layer
  | some got => layer.put got.copy

end ManifestLayer

/-! ## The chain -/

def getLayers : List (ManifestLayer identity) →
    Option (ManifestGot identity) × List (ManifestLayer identity)
  | [] => (none, [])
  | layer :: slower =>
    match layer.copy with
    | some copy => (some ⟨layer.name, copy⟩, layer :: slower)
    | none => ((getLayers slower).1, layer.backfill (getLayers slower).1 :: (getLayers slower).2)

def firstCopy (layers : List (ManifestLayer identity)) : Option (ManifestGot identity) :=
  layers.findSome? (fun layer => layer.copy.map (⟨layer.name, ·⟩))

namespace CacheChain

def states (chain : CacheChain identity) : List State :=
  chain.layers.flatMap ManifestLayer.states

def get (chain : CacheChain identity) : Option (ManifestGot identity) × CacheChain identity :=
  ((getLayers chain.layers).1, ⟨(getLayers chain.layers).2⟩)

def getLocal (chain : CacheChain identity) : Option (ManifestGot identity) :=
  firstCopy (chain.layers.filter (fun layer => !layer.remote))

def getAfter (chain : CacheChain identity) (after : Str) : Option (ManifestGot identity) :=
  firstCopy (chain.layers.dropWhile (fun layer => layer.name ≠ after)).tail

/-- Writes to the layers faster than `name`, and nowhere when no layer has that name. -/
def putBefore (chain : CacheChain identity) (value : ManifestCopy identity) (name : Str) :
    CacheChain identity :=
  if chain.layers.any (fun layer => layer.name = name) then
    ⟨(chain.layers.takeWhile (fun layer => layer.name ≠ name)).map (·.put value) ++
      chain.layers.dropWhile (fun layer => layer.name ≠ name)⟩
  else chain

def put (chain : CacheChain identity) (value : ManifestCopy identity) : CacheChain identity :=
  ⟨chain.layers.map (·.put value)⟩

end CacheChain

theorem mem_chain_states {chain : CacheChain identity} {state : State} :
    state ∈ chain.states ↔ ∃ layer ∈ chain.layers, state ∈ layer.states := by
  rw [CacheChain.states, mem_flatMap]

theorem ManifestLayer.states_put (layer : ManifestLayer identity) (value : ManifestCopy identity) :
    (layer.put value).states = if layer.writable then value.states else layer.states := by
  rw [ManifestLayer.put]
  split
  · rfl
  · rfl

def nextManifestCopy (chain : CacheChain identity) (got : Option (ManifestGot identity)) :
    Option (ManifestGot identity) :=
  match got with
  | none => none
  | some got => if got.layer = [] then none else chain.getAfter got.layer

/-! ## The lookup -/

/-- What the check of one state comes to. -/
inductive StateCheck where
  | ruledOut
  | partiallyPlaced
  | served
deriving DecidableEq

/-- The first state that is not ruled out, with its place; `i` is the place of the first of
`states`. -/
def firstStop (check : State → StateCheck) : ℕ → List State → Option (ℕ × State)
  | _, [] => none
  | i, state :: states =>
    if check state = .ruledOut then firstStop check (i + 1) states else some (i, state)

structure ManifestLookup {State ι : Type} (identity : State → ι) where
  states : List State
  got : Option (ManifestGot identity)
  stop : Option (ℕ × State)

/-- Whose manifest it is. A C/C++ entry either serves or does not; a Rust entry can also fail
after placing some of its files. -/
inductive ManifestTool (State : Type) where
  | cxx (serves : State → Bool)
  | rust (outcome : State → StateCheck)

namespace ManifestTool

def check : ManifestTool State → State → StateCheck
  | cxx serves, state => if serves state then .served else .ruledOut
  | rust outcome, state => outcome state

/-- The re-read before a store: from the whole chain for C/C++, from the local layers for
Rust. -/
def reread : ManifestTool State → CacheChain identity →
    Option (ManifestGot identity) × CacheChain identity
  | cxx _, chain => chain.get
  | rust _, chain => (chain.getLocal, chain)

end ManifestTool

section TwoLayers

def twoLayers (diskWritable s3Writable : Bool) (disk s3 : Option (ManifestCopy identity)) :
    CacheChain identity :=
  ⟨[⟨"disk".toList, false, diskWritable, disk⟩, ⟨"s3".toList, true, s3Writable, s3⟩]⟩

variable {diskWritable s3Writable : Bool} {d s : ManifestCopy identity}
  {disk s3 : Option (ManifestCopy identity)}

theorem get_disk : (twoLayers diskWritable s3Writable (some d) s3).get =
    (some ⟨"disk".toList, d⟩, twoLayers diskWritable s3Writable (some d) s3) := rfl

theorem get_s3 : (twoLayers diskWritable s3Writable none (some s)).get =
    (some ⟨"s3".toList, s⟩,
      twoLayers diskWritable s3Writable (if diskWritable then some s else none) (some s)) := by
  cases diskWritable <;> rfl

theorem reread_disk (tool : ManifestTool State) :
    tool.reread (twoLayers diskWritable s3Writable (some d) s3) =
      (some ⟨"disk".toList, d⟩, twoLayers diskWritable s3Writable (some d) s3) := by
  cases tool <;> rfl

theorem next_of_disk :
    nextManifestCopy (twoLayers diskWritable s3Writable disk s3) (some ⟨"disk".toList, d⟩) =
      s3.map (⟨"s3".toList, ·⟩) := by
  cases s3 <;> rfl

theorem next_of_s3 :
    nextManifestCopy (twoLayers diskWritable s3Writable disk s3) (some ⟨"s3".toList, s⟩) =
      none := rfl

end TwoLayers

variable [DecidableEq ι]

def mergeCopies (fresh : State) (reread : ManifestCopy identity) (loaded : List State) :
    ManifestCopy identity :=
  ⟨mergeManifestStates identity fresh reread.states loaded,
    nodup_mergeManifestStates fresh reread.nodup loaded⟩

/-- The loop of a lookup from place `i` on. It takes at most as many copies as there are
layers when their names are different. -/
def tryStates (chain : CacheChain identity) (check : State → StateCheck) :
    ℕ → ℕ → List State → Option (ManifestGot identity) → Option (ManifestLookup identity)
  | 0, _, _, _ => none
  | copies + 1, i, states, got =>
    match firstStop check i (states.drop i) with
    | some stop => some ⟨states, got, some stop⟩
    | none =>
      match nextManifestCopy chain got with
      | none => some ⟨states, got, none⟩
      | some next =>
        tryStates chain check copies states.length
          (appendManifestStates identity states next.copy.states) (some next)

/-! ## Runs -/

/-- A run without `recache`. `recorded` is the state it stores when the manifest does not
answer, if it stores one. -/
structure ManifestRun (State : Type) where
  tool : ManifestTool State
  recorded : Option State
  readOnly : Bool

/-- The chain after a run, and the state that a written list has in front. -/
structure ManifestOutcome {State ι : Type} (identity : State → ι) where
  chain : CacheChain identity
  written : Option State

namespace ManifestRun

/-- `StoreCxxManifest` and `StoreManifest`. -/
def store (run : ManifestRun State) (chain : CacheChain identity) (fresh : State)
    (loaded : List State) : ManifestOutcome identity :=
  ⟨(run.tool.reread chain).2.put
    (mergeCopies fresh (manifestStates (run.tool.reread chain).1) loaded), some fresh⟩

def onHit (run : ManifestRun State) (first : Option (ManifestGot identity))
    (chain : CacheChain identity) (found : ManifestLookup identity) (i : ℕ) (state : State) :
    ManifestOutcome identity :=
  if run.readOnly then ⟨chain, none⟩
  else if found.got.map (·.layer) ≠ first.map (·.layer) then
    ⟨chain.putBefore (mergeCopies state (manifestStates chain.getLocal) found.states)
      ((found.got.map (·.layer)).getD []), some state⟩
  else if 0 < i then run.store chain state found.states
  else ⟨chain, none⟩

def onMiss (run : ManifestRun State) (chain : CacheChain identity) (loaded : List State) :
    ManifestOutcome identity :=
  match run.recorded with
  | none => ⟨chain, none⟩
  | some fresh => if run.readOnly then ⟨chain, none⟩ else run.store chain fresh loaded

def finish (run : ManifestRun State) (first : Option (ManifestGot identity))
    (chain : CacheChain identity) (found : ManifestLookup identity) : ManifestOutcome identity :=
  match found.stop with
  | none => run.onMiss chain found.states
  | some (i, state) =>
    if run.tool.check state = .served then run.onHit first chain found i state
    else run.onMiss chain found.states

def exec (run : ManifestRun State) (chain : CacheChain identity) :
    Option (ManifestOutcome identity) :=
  (tryStates chain.get.2 run.tool.check (chain.layers.length + 1) 0
    (manifestStates chain.get.1).states chain.get.1).map (run.finish chain.get.1 chain.get.2)

end ManifestRun

/-! ## What a run keeps -/

/-- Every state of `before` is in some copy afterwards, itself or one that supersedes it,
unless the merged list would be too long. -/
def Kept (before : List State) (outcome : ManifestOutcome identity) : Prop :=
  kMaxManifestStates < (identities identity (outcome.written.toList ++ before)).card ∨
    ∀ state ∈ before, ∃ kept ∈ outcome.chain.states, identity kept = identity state

theorem kept_iff {before : List State} {outcome : ManifestOutcome identity} :
    Kept before outcome ↔
      (identities identity (outcome.written.toList ++ before)).card ≤ kMaxManifestStates →
        identities identity before ⊆ identities identity outcome.chain.states := by
  rw [Kept, ← not_lt, ← or_iff_not_imp_left]
  refine or_congr Iff.rfl ⟨?_, ?_⟩
  · intro h i hi
    obtain ⟨state, hstate, rfl⟩ := mem_identities.mp hi
    exact mem_identities.mpr (h state hstate)
  · intro h state hstate
    exact mem_identities.mp (h (mem_identities.mpr ⟨state, hstate, rfl⟩))

theorem identities_layer_subset {chain : CacheChain identity} {layer : ManifestLayer identity}
    (h : layer ∈ chain.layers) :
    identities identity layer.states ⊆ identities identity chain.states := by
  intro i hi
  obtain ⟨state, hstate, rfl⟩ := mem_identities.mp hi
  exact mem_identities.mpr ⟨state, mem_chain_states.mpr ⟨layer, h, hstate⟩, rfl⟩

/-- A chain whose layers are kept or overwritten with a list that has the identities of the
layer loses none. -/
theorem identities_subset_of_writes {chain after : CacheChain identity}
    {value : ManifestCopy identity} (hvalue : ∀ layer ∈ chain.layers, layer.writable = true →
      identities identity layer.states ⊆ identities identity value.states)
    (hafter : ∀ layer ∈ chain.layers, layer ∈ after.layers ∨ layer.put value ∈ after.layers) :
    identities identity chain.states ⊆ identities identity after.states := by
  intro i hi
  obtain ⟨state, hstate, rfl⟩ := mem_identities.mp hi
  obtain ⟨layer, hlayer, hmem⟩ := mem_chain_states.mp hstate
  have hid : identity state ∈ identities identity layer.states :=
    mem_identities.mpr ⟨state, hmem, rfl⟩
  rcases hafter layer hlayer with hkept | hput
  · exact identities_layer_subset hkept hid
  · refine identities_layer_subset hput ?_
    rw [ManifestLayer.states_put]
    split
    next hwritable => exact hvalue layer hlayer hwritable hid
    next => exact hid

theorem identities_getLayers (layers : List (ManifestLayer identity)) :
    identities identity ((getLayers layers).2.flatMap ManifestLayer.states) =
        identities identity (layers.flatMap ManifestLayer.states) ∧
      identities identity (manifestStates (getLayers layers).1).states ⊆
        identities identity (layers.flatMap ManifestLayer.states) := by
  induction layers with
  | nil => exact ⟨rfl, Finset.Subset.refl _⟩
  | cons layer slower ih =>
    obtain ⟨hsame, hgot⟩ := ih
    rw [getLayers]
    cases hcopy : layer.copy with
    | some copy =>
      have hstates : layer.states = copy.states := by rw [ManifestLayer.states, hcopy]
      refine ⟨rfl, ?_⟩
      rw [flatMap_cons, identities_append, hstates]
      exact Finset.subset_union_left
    | none =>
      have hstates : layer.states = [] := by rw [ManifestLayer.states, hcopy]
      simp only [flatMap_cons, hstates, nil_append, identities_append, hsame]
      refine ⟨Finset.union_eq_right.mpr ?_, hgot⟩
      cases hfirst : (getLayers slower).1 with
      | none =>
        rw [ManifestLayer.backfill, hstates]
        exact Finset.empty_subset _
      | some got =>
        rw [hfirst, manifestStates] at hgot
        rw [ManifestLayer.backfill, ManifestLayer.states_put]
        split
        · exact hgot
        · rw [hstates]
          exact Finset.empty_subset _

theorem identities_firstCopy (layers : List (ManifestLayer identity)) :
    identities identity (manifestStates (firstCopy layers)).states ⊆
      identities identity (layers.flatMap ManifestLayer.states) := by
  induction layers with
  | nil => exact Finset.Subset.refl _
  | cons layer slower ih =>
    rw [firstCopy, findSome?_cons, flatMap_cons, identities_append]
    cases hcopy : layer.copy with
    | some copy =>
      have hstates : layer.states = copy.states := by rw [ManifestLayer.states, hcopy]
      rw [hstates]
      exact Finset.subset_union_left
    | none => exact ih.trans Finset.subset_union_right

theorem identities_getLocal (chain : CacheChain identity) :
    identities identity (manifestStates chain.getLocal).states ⊆
      identities identity chain.states := by
  refine (identities_firstCopy _).trans ?_
  intro i hi
  obtain ⟨state, hstate, rfl⟩ := mem_identities.mp hi
  obtain ⟨layer, hlayer, hmem⟩ := mem_flatMap.mp hstate
  exact mem_identities.mpr
    ⟨state, mem_chain_states.mpr ⟨layer, (mem_filter.mp hlayer).1, hmem⟩, rfl⟩

theorem identities_reread (tool : ManifestTool State) (chain : CacheChain identity) :
    identities identity (tool.reread chain).2.states = identities identity chain.states ∧
      identities identity (manifestStates (tool.reread chain).1).states ⊆
        identities identity chain.states := by
  cases tool with
  | cxx serves => exact identities_getLayers chain.layers
  | rust outcome => exact ⟨rfl, identities_getLocal chain⟩

/-- A merge with a list that has every identity of the chain has them all, if they fit. -/
theorem subset_identities_mergeCopies {before loaded : List State} {fresh : State}
    {reread : ManifestCopy identity}
    (hloaded : identities identity loaded = identities identity before)
    (hreread : identities identity reread.states ⊆ identities identity before)
    (hfits : (identities identity (fresh :: before)).card ≤ kMaxManifestStates) :
    identities identity before ⊆ identities identity (mergeCopies fresh reread loaded).states := by
  have hunion : identities identity reread.states ∪ identities identity loaded =
      identities identity before := by
    rw [hloaded, Finset.union_eq_right.mpr hreread]
  rw [mergeCopies, identities_mergeManifestStates reread.nodup, hunion]
  · exact Finset.subset_insert _ _
  · rwa [hunion, ← identities_cons]

theorem kept_of_unchanged (chain : CacheChain identity) (written : Option State) :
    Kept chain.states ⟨chain, written⟩ :=
  kept_iff.mpr (fun _ => Finset.Subset.refl _)

namespace ManifestRun

variable {run : ManifestRun State} {chain : CacheChain identity} {loaded : List State}

theorem kept_store (hloaded : identities identity loaded = identities identity chain.states)
    (fresh : State) : Kept chain.states (run.store chain fresh loaded) := by
  obtain ⟨hsame, hreread⟩ := identities_reread run.tool chain
  rw [kept_iff]
  intro hfits
  have hvalue := subset_identities_mergeCopies hloaded hreread hfits
  rw [← hsame] at hvalue ⊢
  exact identities_subset_of_writes
    (fun layer hlayer _ => (identities_layer_subset hlayer).trans hvalue)
    (fun layer hlayer => .inr (mem_map.mpr ⟨layer, hlayer, rfl⟩))

theorem kept_putBefore (hloaded : identities identity loaded = identities identity chain.states)
    (state : State) (name : Str) :
    Kept chain.states ⟨chain.putBefore (mergeCopies state (manifestStates chain.getLocal) loaded)
      name, some state⟩ := by
  rw [kept_iff]
  intro hfits
  have hvalue := subset_identities_mergeCopies hloaded (identities_getLocal chain) hfits
  refine identities_subset_of_writes
    (fun layer hlayer _ => (identities_layer_subset hlayer).trans hvalue) ?_
  intro layer hlayer
  rw [CacheChain.putBefore]
  split
  · -- A layer is in front of the named one and written to, or behind it and kept.
    rw [← takeWhile_append_dropWhile (p := fun layer => layer.name ≠ name)
      (l := chain.layers)] at hlayer
    rcases mem_append.mp hlayer with hfront | hback
    · exact .inr (mem_append_left _ (mem_map.mpr ⟨layer, hfront, rfl⟩))
    · exact .inl (mem_append_right _ hback)
  · exact .inl hlayer

theorem kept_onMiss (hloaded : identities identity loaded = identities identity chain.states) :
    Kept chain.states (run.onMiss chain loaded) := by
  rw [onMiss]
  split
  · exact kept_of_unchanged chain none
  · split
    · exact kept_of_unchanged chain none
    · exact kept_store hloaded _

/-- A run that has seen every state of the chain loses none. -/
theorem kept_finish {first : Option (ManifestGot identity)} {found : ManifestLookup identity}
    (hseen : identities identity found.states = identities identity chain.states) :
    Kept chain.states (run.finish first chain found) := by
  rw [finish]
  split
  · exact kept_onMiss hseen
  · split
    · rw [onHit]
      split
      · exact kept_of_unchanged chain none
      · split
        · exact kept_putBefore hseen _ _
        · split
          · exact kept_store hseen _
          · exact kept_of_unchanged chain none
    · exact kept_onMiss hseen

end ManifestRun

theorem kept_congr {before before' : List State} {outcome : ManifestOutcome identity}
    (h : identities identity before = identities identity before') :
    Kept before outcome ↔ Kept before' outcome := by
  rw [kept_iff, kept_iff, identities_append, identities_append, h]

/-! ## Disk and S3 -/

/-- The run ends, and the chain it leaves has every state. -/
def KeepsStates (run : ManifestRun State) (chain : CacheChain identity) : Prop :=
  ∃ outcome, run.exec chain = some outcome ∧ Kept chain.states outcome

/-- The state that a run whose lookup ends in the disk's copy writes in front of that copy: a
served state that was not in front already, or the state a run stores whose hit failed half
way. -/
def ManifestRun.writesBack (run : ManifestRun State) (disk : List State) : Option State :=
  match firstStop run.tool.check 0 disk with
  | none => none
  | some (i, state) =>
    if run.tool.check state = .served then if 0 < i then some state else none
    else run.recorded

section TwoLayers

variable {diskWritable s3Writable : Bool} {d s : ManifestCopy identity}
  {disk s3 : Option (ManifestCopy identity)} {run : ManifestRun State}

theorem identities_twoLayers : identities identity
    (twoLayers diskWritable s3Writable (some d) (some s)).states =
      identities identity d.states ∪ identities identity s.states := by
  simp [CacheChain.states, twoLayers, ManifestLayer.states]

theorem tryStates_of_last {chain : CacheChain identity} {got : Option (ManifestGot identity)}
    (hnext : nextManifestCopy chain got = none) (check : State → StateCheck) (copies i : ℕ)
    (states : List State) :
    ∃ stop, tryStates chain check (copies + 1) i states got = some ⟨states, got, stop⟩ := by
  rw [tryStates]
  cases firstStop check i (states.drop i) with
  | some stop => exact ⟨some stop, rfl⟩
  | none => exact ⟨none, by rw [hnext]⟩

/-- A lookup that finds its first copy in the slowest layer that has one sees every state. -/
theorem keepsStates_of_last {chain : CacheChain identity}
    (hnext : nextManifestCopy chain.get.2 chain.get.1 = none)
    (hall : identities identity (manifestStates chain.get.1).states =
      identities identity chain.states) : KeepsStates run chain := by
  obtain ⟨stop, hfound⟩ := tryStates_of_last hnext run.tool.check chain.layers.length 0
    (manifestStates chain.get.1).states
  have hsame := (identities_getLayers chain.layers).1
  refine ⟨_, by rw [ManifestRun.exec, hfound, Option.map_some], (kept_congr hsame).mp ?_⟩
  exact ManifestRun.kept_finish (hall.trans hsame.symm)

/-- Once the disk's copy is ruled out the states of S3's are seen too. -/
theorem keepsStates_of_ruledOut (hstop : firstStop run.tool.check 0 d.states = none) :
    KeepsStates run (twoLayers diskWritable s3Writable (some d) (some s)) := by
  have hlast : nextManifestCopy (twoLayers diskWritable s3Writable (some d) (some s))
      (some ⟨"s3".toList, s⟩) = none := next_of_s3
  obtain ⟨stop, hfound⟩ := tryStates_of_last hlast run.tool.check 1 d.states.length
    (appendManifestStates identity d.states s.states)
  have hlookup : tryStates (twoLayers diskWritable s3Writable (some d) (some s)) run.tool.check
      3 0 d.states (some ⟨"disk".toList, d⟩) =
      some ⟨appendManifestStates identity d.states s.states, some ⟨"s3".toList, s⟩, stop⟩ := by
    rw [tryStates, drop_zero, hstop, next_of_disk, ← hfound]
    rfl
  refine ⟨_, by rw [ManifestRun.exec, get_disk]; exact congrArg _ hlookup, ?_⟩
  exact ManifestRun.kept_finish
    ((identities_appendManifestStates d.states s.states).trans identities_twoLayers.symm)

theorem exec_of_stop {i : ℕ} {state : State}
    (hstop : firstStop run.tool.check 0 d.states = some (i, state)) :
    run.exec (twoLayers diskWritable s3Writable (some d) s3) =
      some (match run.writesBack d.states with
        | none => ⟨twoLayers diskWritable s3Writable (some d) s3, none⟩
        | some fresh =>
          if run.readOnly then ⟨twoLayers diskWritable s3Writable (some d) s3, none⟩
          else run.store (twoLayers diskWritable s3Writable (some d) s3) fresh d.states) := by
  have hlookup : tryStates (twoLayers diskWritable s3Writable (some d) s3) run.tool.check 3 0
      d.states (some ⟨"disk".toList, d⟩) =
      some ⟨d.states, some ⟨"disk".toList, d⟩, some (i, state)⟩ := by
    rw [tryStates, drop_zero, hstop]
  have hexec : run.exec (twoLayers diskWritable s3Writable (some d) s3) = some (run.finish
      (some ⟨"disk".toList, d⟩) (twoLayers diskWritable s3Writable (some d) s3)
      ⟨d.states, some ⟨"disk".toList, d⟩, some (i, state)⟩) := by
    rw [ManifestRun.exec, get_disk]
    exact congrArg _ hlookup
  rw [hexec, ManifestRun.writesBack, hstop, ManifestRun.finish]
  by_cases hserved : run.tool.check state = .served
  · by_cases hi : 0 < i
    · simp [hserved, ManifestRun.onHit, hi]
    · simp [hserved, ManifestRun.onHit, hi]
  · simp only [hserved, if_false, ManifestRun.onMiss]

theorem store_disk {fresh : State} :
    run.store (twoLayers diskWritable s3Writable (some d) s3) fresh d.states =
      ⟨(twoLayers diskWritable s3Writable (some d) s3).put (mergeCopies fresh d d.states),
        some fresh⟩ := by
  rw [ManifestRun.store, reread_disk, manifestStates]

/-- The list that was merged without S3's copy has the states of the disk's alone. -/
theorem identities_put_subset {fresh : State} :
    identities identity ((twoLayers diskWritable true (some d) s3).put
        (mergeCopies fresh d d.states)).states ⊆
      insert (identity fresh) (identities identity d.states) := by
  have hmerged : identities identity (mergeCopies fresh d d.states).states ⊆
      insert (identity fresh) (identities identity d.states) := by
    refine (identities_mergeManifestStates_subset fresh d.states d.states).trans ?_
    rw [Finset.union_self]
  intro i hi
  obtain ⟨state, hstate, rfl⟩ := mem_identities.mp hi
  obtain ⟨layer, hlayer, hmem⟩ := mem_chain_states.mp hstate
  obtain ⟨old, hold, rfl⟩ := mem_map.mp hlayer
  have hid : identity state ∈ identities identity (old.put (mergeCopies fresh d d.states)).states :=
    mem_identities.mpr ⟨state, hmem, rfl⟩
  rw [ManifestLayer.states_put] at hid
  split at hid
  next => exact hmerged hid
  next hkept =>
    -- Only the disk can have kept its copy: S3 is writable.
    rcases mem_cons.mp hold with rfl | hs3
    · exact Finset.mem_insert_of_mem hid
    · obtain rfl := mem_singleton.mp hs3
      exact absurd rfl hkept

theorem kept_store_disk {fresh : State} :
    Kept (twoLayers diskWritable s3Writable (some d) (some s)).states
        (run.store (twoLayers diskWritable s3Writable (some d) (some s)) fresh d.states) ↔
      s3Writable = false ∨
        (∀ state ∈ s.states, identity state = identity fresh ∨
          ∃ known ∈ d.states, identity known = identity state) ∨
        kMaxManifestStates < (identities identity (fresh :: d.states ++ s.states)).card := by
  have hcard : identities identity ((some fresh).toList ++
      (twoLayers diskWritable s3Writable (some d) (some s)).states) =
      identities identity (fresh :: d.states ++ s.states) := by
    rw [identities_append, identities_twoLayers, cons_append, identities_cons,
      identities_append, Option.toList_some, identities_cons, identities_nil,
      Finset.insert_union, Finset.empty_union]
  rw [store_disk, kept_iff, hcard, identities_twoLayers]
  constructor
  · intro hkept
    by_cases hs3 : s3Writable = false
    · exact .inl hs3
    by_cases hfits : (identities identity (fresh :: d.states ++ s.states)).card ≤
        kMaxManifestStates
    · refine .inr (.inl (fun state hstate => ?_))
      rw [Bool.not_eq_false] at hs3
      subst hs3
      have hid : identity state ∈ identities identity s.states :=
        mem_identities.mpr ⟨state, hstate, rfl⟩
      have hwritten := identities_put_subset (hkept hfits (Finset.mem_union_right _ hid))
      rw [Finset.mem_insert, mem_identities] at hwritten
      exact hwritten
    · exact .inr (.inr (not_le.mp hfits))
  · intro hgood hfits
    have hmerged : identities identity (mergeCopies fresh d d.states).states =
        insert (identity fresh) (identities identity d.states) := by
      have hfits' : (insert (identity fresh) (identities identity d.states ∪
          identities identity d.states)).card ≤ kMaxManifestStates := by
        refine le_trans (Finset.card_le_card ?_) hfits
        rw [Finset.union_self, cons_append, identities_cons, identities_append]
        exact Finset.insert_subset_insert _ Finset.subset_union_left
      rw [mergeCopies, identities_mergeManifestStates d.nodup hfits', Finset.union_self]
    have hs3 : s3Writable = true →
        identities identity s.states ⊆ insert (identity fresh) (identities identity d.states) := by
      intro hwritable i hi
      obtain ⟨state, hstate, rfl⟩ := mem_identities.mp hi
      rcases hgood with hreadOnly | hknown | hlong
      · rw [hreadOnly] at hwritable
        cases hwritable
      · rw [Finset.mem_insert, mem_identities]
        exact hknown state hstate
      · exact absurd hfits (not_le.mpr hlong)
    have hkept : identities identity (twoLayers diskWritable s3Writable (some d) (some s)).states ⊆
        identities identity ((twoLayers diskWritable s3Writable (some d) (some s)).put
          (mergeCopies fresh d d.states)).states := by
      refine identities_subset_of_writes ?_
        (fun layer hlayer => .inr (mem_map.mpr ⟨layer, hlayer, rfl⟩))
      intro layer hlayer hwritable
      rw [hmerged]
      rcases mem_cons.mp hlayer with rfl | hlayer
      · exact Finset.subset_insert _ _
      · obtain rfl := mem_singleton.mp hlayer
        exact hs3 hwritable
    rwa [identities_twoLayers] at hkept

/-- A run over a disk and an S3 layer loses no state if S3 is not written to, if S3 knows no
state that the disk's copy lacks, or if the lookup does not write back the disk's copy as the
whole manifest. -/
theorem keepsStates_iff (run : ManifestRun State) (diskWritable s3Writable : Bool)
    (disk s3 : Option (ManifestCopy identity)) :
    KeepsStates run (twoLayers diskWritable s3Writable disk s3) ↔
      run.readOnly = true ∨ s3Writable = false ∨
        ∀ d ∈ disk, ∀ s ∈ s3, ∀ fresh ∈ run.writesBack d.states,
          (∀ state ∈ s.states, identity state = identity fresh ∨
            ∃ known ∈ d.states, identity known = identity state) ∨
          kMaxManifestStates < (identities identity (fresh :: d.states ++ s.states)).card := by
  cases disk with
  | none =>
    refine iff_of_true ?_ (.inr (.inr (fun d hd => nomatch hd)))
    cases s3 with
    | none => exact keepsStates_of_last rfl rfl
    | some s =>
      refine keepsStates_of_last (by rw [get_s3]; exact next_of_s3) ?_
      rw [get_s3]
      simp [CacheChain.states, twoLayers, ManifestLayer.states, manifestStates]
  | some d =>
    cases s3 with
    | none =>
      refine iff_of_true ?_ (.inr (.inr (fun d _ s hs => nomatch hs)))
      refine keepsStates_of_last next_of_disk ?_
      rw [get_disk]
      simp [CacheChain.states, twoLayers, ManifestLayer.states, manifestStates]
    | some s =>
      simp only [Option.mem_some_iff, forall_eq']
      cases hstop : firstStop run.tool.check 0 d.states with
      | none =>
        refine iff_of_true (keepsStates_of_ruledOut hstop) (.inr (.inr ?_))
        rw [ManifestRun.writesBack, hstop]
        exact fun fresh hfresh => nomatch hfresh
      | some stop =>
        rw [KeepsStates, exec_of_stop hstop]
        simp only [Option.some.injEq, exists_eq_left']
        cases hback : run.writesBack d.states with
        | none =>
          exact iff_of_true (kept_of_unchanged _ none) (.inr (.inr (fun fresh hf => nomatch hf)))
        | some fresh =>
          simp only [Option.mem_some_iff, forall_eq']
          by_cases hreadOnly : run.readOnly = true
          · rw [if_pos hreadOnly]
            exact iff_of_true (kept_of_unchanged _ none) (.inl hreadOnly)
          · rw [if_neg hreadOnly, or_iff_right hreadOnly]
            exact kept_store_disk

end TwoLayers

structure CxxManifestState where
  resultKey : Str
  files : List (Str × Str)
  absent : List Str
deriving DecidableEq

def cxxManifestRecordedInputs (state : CxxManifestState) : List (Str × Str) × List Str :=
  (state.files, state.absent)

def headerState (digest : String) : CxxManifestState :=
  ⟨digest.toList, [("/w/a.h".toList, digest.toList)], []⟩

def bakedCopy : ManifestCopy cxxManifestRecordedInputs :=
  ⟨[headerState "1", headerState "2"], by decide⟩

def sharedCopy : ManifestCopy cxxManifestRecordedInputs :=
  ⟨[headerState "2", headerState "3"], by decide⟩

def secondStateRun : ManifestRun CxxManifestState :=
  ⟨.cxx (fun state => state = headerState "2"), none, false⟩

/-- The disk remembers the headers `1` and `2`, S3 the headers `2` and `3`. A compile with the
header `2` moves that state to the front of both copies, and S3's other state is gone. -/
theorem not_keepsStates_second :
    ¬ KeepsStates secondStateRun (twoLayers true true (some bakedCopy) (some sharedCopy)) := by
  rintro ⟨outcome, hexec, hkept⟩
  have hstop : firstStop secondStateRun.tool.check 0 bakedCopy.states =
      some (1, headerState "2") := by decide
  have hback : secondStateRun.writesBack bakedCopy.states = some (headerState "2") := by decide
  rw [exec_of_stop hstop, hback] at hexec
  cases hexec
  exact absurd (kept_store_disk.mp hkept) (by decide)

end Vcache

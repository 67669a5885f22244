import Vcache.Strings
import Mathlib.Algebra.Ring.Nat

/-!
# The daemon's upload queue

`daemon/upload_queue`: which keys wait for their upload, which are in flight, and
the count of stores per key that tells whether the value that went up is still the
newest. A store whose value the queue has no room for is refused; its caller uploads
it, after the flight of the key if there is one.

The second half of the file is the queue as one key sees it. Each operation changes
that view in one way, and the views of other keys not at all.
-/

namespace Vcache

open Function

/-- A `shared_ptr` to the bytes of a store; `ref` tells pointers apart. -/
structure HeldBlob where
  ref : ℕ
  data : Str
deriving DecidableEq

structure UploadItem where
  key : Str
  blob : Option HeldBlob := none
  generation : ℕ := 0
  attempts : ℕ := 0
  notBefore : ℕ := 0
deriving DecidableEq

/-- The blob an upload in flight has copied. -/
structure FlightPin where
  blob : HeldBlob
  countedOutsideHeld : Bool := false
deriving DecidableEq

/-- One refused store waiting on one flight. -/
structure FlightRefusal where
  key : Str
  flightId : ℕ
  overtaken : Bool := false
deriving DecidableEq

structure UploadQueue where
  journalled : Bool
  maxHeldBytes : ℕ
  order : List Str := []
  waiting : Str → Option UploadItem := fun _ => none
  generation : Str → Option ℕ := fun _ => none
  inFlight : Str → Bool := fun _ => false
  inFlightId : Str → Option ℕ := fun _ => none
  superseded : Str → Bool := fun _ => false
  recountOnRequeue : Str → Bool := fun _ => false
  refusals : ℕ → Option FlightRefusal := fun _ => none
  nextRefusalId : ℕ := 1
  nextFlightId : ℕ := 1
  flightPin : Str → Option FlightPin := fun _ => none
  held : Str → Option HeldBlob := fun _ => none
  heldBytes : ℕ := 0
  journal : Str → Bool := fun _ => false

def sub64 (m n : ℕ) : ℕ := (m + 2 ^ 64 - n % 2 ^ 64) % 2 ^ 64

structure EnqueueResult where
  accepted : Bool
  merged : Bool := false
  inFlight : Bool
  refusalId : ℕ := 0
  droppedWaiting : Bool := false
deriving DecidableEq

namespace UploadQueue

def createJournal (q : UploadQueue) (key : Str) : UploadQueue :=
  if q.journalled then { q with journal := update q.journal key true } else q

def removeJournal (q : UploadQueue) (key : Str) : UploadQueue :=
  if q.journalled then { q with journal := update q.journal key false } else q

/-- The worker still has this blob, and the byte count does not have it twice. -/
def pinned (q : UploadQueue) (key : Str) (blob : HeldBlob) : Bool :=
  match q.flightPin key with
  | none => false
  | some pin => pin.blob.ref = blob.ref && !pin.countedOutsideHeld

def dropHeld (q : UploadQueue) (key : Str) : UploadQueue :=
  match q.held key with
  | none => q
  | some held =>
    if q.pinned key held then
      { q with
        flightPin := update q.flightPin key
          ((q.flightPin key).map (fun pin => { pin with countedOutsideHeld := true }))
        held := update q.held key none }
    else
      { q with
        heldBytes := sub64 q.heldBytes held.data.length
        held := update q.held key none }

def releaseFlightPin (q : UploadQueue) (key : Str) : UploadQueue :=
  match q.flightPin key with
  | none => q
  | some pin =>
    { q with
      heldBytes :=
        if pin.countedOutsideHeld then sub64 q.heldBytes pin.blob.data.length else q.heldBytes
      flightPin := update q.flightPin key none }

def eraseGeneration (q : UploadQueue) (key : Str) : UploadQueue :=
  { q with generation := update q.generation key none }

def eraseQueued (q : UploadQueue) (key : Str) : UploadQueue :=
  { q with
    waiting := update q.waiting key none
    order := q.order.filter (fun queued => queued ≠ key) }

def forgetQueued (q : UploadQueue) (key : Str) : UploadQueue :=
  (((q.eraseQueued key).dropHeld key).eraseGeneration key).removeJournal key

def overtakeRefusals (q : UploadQueue) (key : Str) : UploadQueue :=
  { q with refusals := fun id => (q.refusals id).map (fun refusal =>
      if refusal.key = key then { refusal with overtaken := true } else refusal) }

/-- A new record on the given flight. Ids are not used twice. -/
def addRefusal (q : UploadQueue) (key : Str) (flightId : ℕ) : UploadQueue :=
  { q with
    refusals := update q.refusals q.nextRefusalId (some ⟨key, flightId, false⟩)
    nextRefusalId := q.nextRefusalId + 1 }

/-- The new refusal has the id `nextRefusalId`. -/
def supersedeInFlight (q : UploadQueue) (key : Str) : UploadQueue :=
  let overtook := q.overtakeRefusals key
  ({ overtook with
    generation := update overtook.generation key (some ((overtook.generation key).getD 0 + 1))
    superseded := update overtook.superseded key true }.dropHeld key).addRefusal key
      ((q.inFlightId key).getD 0)

/-- `WaitForRefusal` waits for this or for its deadline. -/
def refusalStillInFlight (q : UploadQueue) (id : ℕ) : Bool :=
  match q.refusals id with
  | none => false
  | some refusal => q.inFlightId refusal.key = some refusal.flightId

def markInFlight (q : UploadQueue) (key : Str) : UploadQueue :=
  { q with
    inFlight := update q.inFlight key true
    inFlightId := update q.inFlightId key (some q.nextFlightId)
    nextFlightId := q.nextFlightId + 1 }

/-- The generation the caller's upload has; nothing when the key is in flight. -/
def beginSync (q : UploadQueue) (key : Str) : Option (ℕ × UploadQueue) :=
  if q.inFlight key then none
  else
    let gen := (q.generation key).getD 0 + 1
    some (gen, { q with generation := update q.generation key (some gen) }.markInFlight key)

/-- The id of a record on the flight of the key; nothing when it is not in flight. -/
def watchFlight (q : UploadQueue) (key : Str) : Option (ℕ × UploadQueue) :=
  (q.inFlightId key).map (fun flightId => (q.nextRefusalId, q.addRefusal key flightId))

def refusalOvertaken (q : UploadQueue) (id : ℕ) : Bool :=
  match q.refusals id with
  | none => false
  | some refusal => refusal.overtaken

def takeRefusal (q : UploadQueue) (id : ℕ) : Bool × UploadQueue :=
  (q.refusalOvertaken id, { q with refusals := update q.refusals id none })

/-- The byte count that a held blob in place of the previous one would make. -/
def nextHeldBytes (q : UploadQueue) (key : Str) (blob : HeldBlob) : ℕ :=
  match q.held key with
  | none => (q.heldBytes + blob.data.length) % 2 ^ 64
  | some previous =>
    if q.inFlight key && q.pinned key previous then (q.heldBytes + blob.data.length) % 2 ^ 64
    else (sub64 q.heldBytes previous.data.length + blob.data.length) % 2 ^ 64

def fits (q : UploadQueue) (key : Str) : Option HeldBlob → Bool
  | none => true
  | some blob => q.nextHeldBytes key blob ≤ q.maxHeldBytes

def refuse (q : UploadQueue) (key : Str) : EnqueueResult × UploadQueue :=
  if q.inFlight key then
    (⟨false, false, true, q.nextRefusalId, false⟩, q.supersedeInFlight key)
  else if (q.waiting key).isSome || (q.held key).isSome then
    (⟨false, false, false, 0, (q.waiting key).isSome⟩, q.forgetQueued key)
  else (⟨false, false, false, 0, false⟩, q)

def hold (q : UploadQueue) (key : Str) (blob : HeldBlob) : UploadQueue :=
  { q with
    held := update q.held key (some blob)
    heldBytes := (q.heldBytes + blob.data.length) % 2 ^ 64 }

/-- The blob takes the place of the one held before. -/
def replaceHeld (q : UploadQueue) (key : Str) : Option HeldBlob → UploadQueue
  | none => q.dropHeld key
  | some blob => (q.dropHeld key).hold key blob

/-- This store is the one to upload: an older refusal must not come after it, and a flight of
the key does not end without queueing it. -/
def countStore (q : UploadQueue) (key : Str) : UploadQueue :=
  { q.overtakeRefusals key with
    superseded := update q.superseded key false
    recountOnRequeue :=
      if q.inFlight key then update q.recountOnRequeue key true else q.recountOnRequeue
    generation := update q.generation key (some ((q.generation key).getD 0 + 1)) }

/-- A key that waits keeps its place. -/
def queueStore (q : UploadQueue) (key : Str) (blob : Option HeldBlob) (gen : ℕ) : UploadQueue :=
  match q.waiting key with
  | some item =>
    { q with waiting := update q.waiting key (some { item with generation := gen, blob }) }
  | none =>
    { q with
      waiting := update q.waiting key (some { key, blob, generation := gen })
      order := q.order ++ [key] }

def accept (q : UploadQueue) (key : Str) (blob : Option HeldBlob) (journal : Bool) :
    EnqueueResult × UploadQueue :=
  let counted := (q.countStore key).replaceHeld key blob
  let marked := if journal then counted.createJournal key else counted
  (⟨true, (q.waiting key).isSome, q.inFlight key, 0, false⟩,
    if q.inFlight key then marked
    else marked.queueStore key blob ((q.generation key).getD 0 + 1))

def enqueue (q : UploadQueue) (key : Str) (blob : Option HeldBlob) (journal : Bool) :
    EnqueueResult × UploadQueue :=
  if q.fits key blob then q.accept key blob journal else q.refuse key

def isReady (q : UploadQueue) (now : ℕ) (key : Str) : Bool :=
  match q.waiting key with
  | none => false
  | some item => item.notBefore ≤ now

def pin (q : UploadQueue) (item : UploadItem) : UploadQueue :=
  match item.blob with
  | none => q
  | some blob => { q with flightPin := update q.flightPin item.key (some { blob }) }

/-- The first queued item whose retry time has passed. -/
def takeReady (q : UploadQueue) (now : ℕ) : Option (UploadItem × UploadQueue) :=
  match q.order.find? (q.isReady now) with
  | none => none
  | some key => (q.waiting key).map (fun item =>
      (item, ({ q with
        order := q.order.erase key
        waiting := update q.waiting key none }.markInFlight item.key).pin item))

def land (q : UploadQueue) (key : Str) : UploadQueue :=
  { q with
    inFlight := update q.inFlight key false
    inFlightId := update q.inFlightId key none }.releaseFlightPin key

def eraseMarks (q : UploadQueue) (key : Str) : UploadQueue :=
  { q with
    superseded := update q.superseded key false
    recountOnRequeue := update q.recountOnRequeue key false }

def eraseRecount (q : UploadQueue) (key : Str) : UploadQueue :=
  { q with recountOnRequeue := update q.recountOnRequeue key false }

/-- What a flight leaves that a refused store has superseded, or that had the newest value. -/
def forgetFlight (q : UploadQueue) (key : Str) : UploadQueue :=
  (((q.eraseMarks key).dropHeld key).eraseGeneration key).removeJournal key

def queueBack (q : UploadQueue) (item : UploadItem) : UploadQueue :=
  { q with
    waiting := update q.waiting item.key (some item)
    order := q.order ++ [item.key] }

/-- Whether the newer value was queued, and whether that counts as another upload. -/
def finish (q : UploadQueue) (item : UploadItem) : Bool × Bool × UploadQueue :=
  let landed := q.land item.key
  if q.superseded item.key then (false, false, landed.forgetFlight item.key)
  else match q.generation item.key with
    | none => (false, false, landed.forgetFlight item.key)
    | some gen =>
      if gen ≠ item.generation then
        (true, q.recountOnRequeue item.key,
          (landed.eraseRecount item.key).queueBack
            { key := item.key, blob := landed.held item.key, generation := gen })
      else (false, false, landed.forgetFlight item.key)

/-- Whether the attempt was superseded and dropped. -/
def requeue (q : UploadQueue) (item : UploadItem) : Bool × UploadQueue :=
  let landed := q.land item.key
  if q.superseded item.key then (true, landed.forgetFlight item.key)
  else match q.generation item.key with
    | none => (false, landed.queueBack item)
    | some gen =>
      if gen ≠ item.generation then
        (false, landed.queueBack
          { item with generation := gen, attempts := 0, blob := landed.held item.key })
      else (false, landed.queueBack item)

end UploadQueue

/-! ## One key's view -/

/-- What the queue knows of one key. -/
structure KeyQueue where
  waiting : Option UploadItem := none
  generation : Option ℕ := none
  inFlight : Bool := false
  inFlightId : Option ℕ := none
  superseded : Bool := false
  held : Option HeldBlob := none

namespace KeyQueue

def nextGeneration (v : KeyQueue) : ℕ := v.generation.getD 0 + 1

def accept (v : KeyQueue) (key : Str) (blob : Option HeldBlob) : KeyQueue :=
  { v with
    waiting :=
      if v.inFlight then v.waiting
      else match v.waiting with
        | some item => some { item with generation := v.nextGeneration, blob }
        | none => some { key, blob, generation := v.nextGeneration }
    generation := some v.nextGeneration
    superseded := false
    held := blob }

def refuse (v : KeyQueue) : KeyQueue :=
  if v.inFlight then
    { v with generation := some v.nextGeneration, superseded := true, held := none }
  else if v.waiting.isSome || v.held.isSome then
    { v with waiting := none, generation := none, held := none }
  else v

def takeOff (v : KeyQueue) (flightId : ℕ) : KeyQueue :=
  { v with inFlight := true, inFlightId := some flightId }

def clear (v : KeyQueue) : KeyQueue :=
  { v with
    generation := none, inFlight := false, inFlightId := none, superseded := false, held := none }

def queueBack (v : KeyQueue) (item : UploadItem) : KeyQueue :=
  { v with waiting := some item, inFlight := false, inFlightId := none }

def finish (v : KeyQueue) (item : UploadItem) : KeyQueue :=
  if v.superseded then v.clear
  else match v.generation with
    | none => v.clear
    | some gen =>
      if gen ≠ item.generation then
        v.queueBack { key := item.key, blob := v.held, generation := gen }
      else v.clear

def requeue (v : KeyQueue) (item : UploadItem) : KeyQueue :=
  if v.superseded then v.clear
  else match v.generation with
    | none => v.queueBack item
    | some gen =>
      if gen ≠ item.generation then
        v.queueBack { item with generation := gen, attempts := 0, blob := v.held }
      else v.queueBack item

end KeyQueue

namespace UploadQueue

def view (q : UploadQueue) (k : Str) : KeyQueue :=
  ⟨q.waiting k, q.generation k, q.inFlight k, q.inFlightId k, q.superseded k, q.held k⟩

variable {q : UploadQueue} {key k : Str} {item : UploadItem}

theorem view_dropHeld : (q.dropHeld key).view k =
    if k = key then { q.view k with held := none } else q.view k := by
  fun_cases dropHeld q key <;> split <;> simp_all [view]

theorem view_releaseFlightPin : (q.releaseFlightPin key).view k = q.view k := by
  rw [releaseFlightPin]
  split <;> rfl

theorem view_removeJournal : (q.removeJournal key).view k = q.view k := by
  rw [removeJournal]
  split <;> rfl

theorem view_createJournal : (q.createJournal key).view k = q.view k := by
  rw [createJournal]
  split <;> rfl

theorem view_replaceHeld (blob : Option HeldBlob) : (q.replaceHeld key blob).view k =
    if k = key then { q.view k with held := blob } else q.view k := by
  cases blob with
  | none => exact view_dropHeld
  | some blob =>
    have hhold : ∀ p : UploadQueue, (p.hold key blob).view k =
        if k = key then { p.view k with held := some blob } else p.view k := by
      intro p
      simp only [hold, view, update_apply]
      split <;> rfl
    rw [replaceHeld, hhold, view_dropHeld]
    split <;> rfl

theorem view_countStore : (q.countStore key).view k =
    if k = key then
      { q.view k with generation := some (q.view k).nextGeneration, superseded := false }
    else q.view k := by
  simp only [countStore, view, update_apply]
  split
  next hk => rw [hk]; rfl
  next => rfl

theorem view_queueStore (blob : Option HeldBlob) (gen : ℕ) : (q.queueStore key blob gen).view k =
    if k = key then
      { q.view k with
        waiting := match q.waiting k with
          | some item => some { item with generation := gen, blob }
          | none => some { key, blob, generation := gen } }
    else q.view k := by
  fun_cases queueStore q key blob gen <;> split <;> simp_all [view]

theorem waiting_eq_view : q.waiting k = (q.view k).waiting := rfl

theorem view_accept (blob : Option HeldBlob) (journal : Bool) :
    (q.accept key blob journal).2.view k =
      if k = key then (q.view k).accept key blob else q.view k := by
  have hmarked : ∀ p : UploadQueue,
      (if journal then p.createJournal key else p).view k = p.view k := by
    intro p
    split
    · exact view_createJournal
    · rfl
  rw [accept]
  split
  next hflying =>
    rw [hmarked, view_replaceHeld, view_countStore]
    split
    next hk => simp [KeyQueue.accept, view, hk, hflying]
    next => rfl
  next hidle =>
    rw [view_queueStore, waiting_eq_view, hmarked, view_replaceHeld, view_countStore]
    split
    next hk => simp [KeyQueue.accept, view, hk, hidle, KeyQueue.nextGeneration]
    next => rfl

theorem view_addRefusal (flightId : ℕ) : (q.addRefusal key flightId).view k = q.view k := rfl

theorem view_supersedeInFlight : (q.supersedeInFlight key).view k =
    if k = key then
      { q.view k with
        generation := some (q.view k).nextGeneration, superseded := true, held := none }
    else q.view k := by
  rw [supersedeInFlight, view_addRefusal, view_dropHeld]
  simp only [view, update_apply]
  split
  next hk => rw [hk]; rfl
  next => rfl

theorem view_eraseGeneration : (q.eraseGeneration key).view k =
    if k = key then { q.view k with generation := none } else q.view k := by
  simp only [eraseGeneration, view, update_apply]
  split <;> rfl

theorem view_forgetQueued : (q.forgetQueued key).view k =
    if k = key then { q.view k with waiting := none, generation := none, held := none }
    else q.view k := by
  rw [forgetQueued, view_removeJournal, view_eraseGeneration, view_dropHeld]
  simp only [eraseQueued, view, update_apply]
  split <;> rfl

theorem view_refuse : (q.refuse key).2.view k =
    if k = key then (q.view k).refuse else q.view k := by
  fun_cases refuse q key
  next hflying =>
    rw [view_supersedeInFlight]
    refine ite_congr rfl (fun hk => ?_) (fun _ => rfl)
    simp [KeyQueue.refuse, view, hk, hflying]
  next hflying hqueued =>
    rw [view_forgetQueued]
    refine ite_congr rfl (fun hk => ?_) (fun _ => rfl)
    simp [KeyQueue.refuse, view, hk, hflying, hqueued]
  next hflying hqueued =>
    split
    next hk => simp [KeyQueue.refuse, view, hk, hflying, hqueued]
    next => rfl

theorem enqueue_accepted {blob : Option HeldBlob} {journal : Bool}
    (h : (q.enqueue key blob journal).1.accepted = true) :
    q.enqueue key blob journal = q.accept key blob journal := by
  rw [enqueue] at h ⊢
  split
  next => rfl
  next hfits =>
    rw [if_neg hfits] at h
    revert h
    fun_cases refuse q key <;> rintro ⟨⟩

theorem enqueue_refused {blob : Option HeldBlob} {journal : Bool}
    (h : (q.enqueue key blob journal).1.accepted = false) :
    q.enqueue key blob journal = q.refuse key := by
  rw [enqueue] at h ⊢
  split
  next hfits =>
    rw [if_pos hfits, accept] at h
    cases h
  next => rfl

theorem view_markInFlight : (q.markInFlight key).view k =
    if k = key then (q.view k).takeOff q.nextFlightId else q.view k := by
  simp only [markInFlight, view, update_apply]
  split <;> rfl

theorem view_pin : (q.pin item).view k = q.view k := by
  rw [pin]
  split <;> rfl

theorem view_takeReady {now : ℕ} {q' : UploadQueue}
    (hkeys : ∀ k item, q.waiting k = some item → item.key = k)
    (h : q.takeReady now = some (item, q')) :
    q.waiting item.key = some item ∧ ∀ k, q'.view k =
      if k = item.key then { (q.view k).takeOff q.nextFlightId with waiting := none }
      else q.view k := by
  rw [takeReady] at h
  split at h
  next => cases h
  next key hready =>
    obtain ⟨found, hfound, heq⟩ := Option.map_eq_some_iff.mp h
    obtain ⟨rfl, rfl⟩ := Prod.mk.inj heq
    obtain rfl := hkeys key found hfound
    refine ⟨hfound, fun k => ?_⟩
    rw [view_pin, view_markInFlight]
    by_cases hk : k = found.key
    · subst hk
      simp [view, KeyQueue.takeOff]
    · simp [view, hk]

theorem view_land : (q.land key).view k =
    if k = key then { q.view k with inFlight := false, inFlightId := none } else q.view k := by
  rw [land, view_releaseFlightPin]
  simp only [view, update_apply]
  split <;> rfl

theorem view_forgetFlight : (q.forgetFlight key).view k =
    if k = key then { q.view k with generation := none, superseded := false, held := none }
    else q.view k := by
  rw [forgetFlight, view_removeJournal, view_eraseGeneration, view_dropHeld]
  simp only [eraseMarks, view, update_apply]
  split <;> rfl

theorem view_queueBack : (q.queueBack item).view k =
    if k = item.key then { q.view k with waiting := some item } else q.view k := by
  simp only [queueBack, view, update_apply]
  split <;> rfl

theorem held_land : (q.land key).held k = (q.view k).held := by
  have hheld : (q.land key).held k = ((q.land key).view k).held := rfl
  rw [hheld, view_land]
  split <;> rfl

theorem view_forgetFlight_land : ((q.land key).forgetFlight key).view k =
    if k = key then (q.view k).clear else q.view k := by
  rw [view_forgetFlight, view_land]
  split <;> rfl

theorem view_eraseRecount : (q.eraseRecount key).view k = q.view k := rfl

theorem view_finish : (q.finish item).2.2.view k =
    if k = item.key then (q.view k).finish item else q.view k := by
  fun_cases finish q item <;>
    simp +zetaDelta only [view_forgetFlight_land, view_queueBack, view_eraseRecount, view_land,
      held_land]
  all_goals split <;> simp_all [KeyQueue.finish, KeyQueue.queueBack, view]

theorem view_requeue : (q.requeue item).2.view k =
    if k = item.key then (q.view k).requeue item else q.view k := by
  fun_cases requeue q item <;>
    simp +zetaDelta only [view_forgetFlight_land, view_queueBack, view_land, held_land]
  all_goals split <;> simp_all [KeyQueue.requeue, KeyQueue.queueBack, view]

theorem view_beginSync {gen : ℕ} {q' : UploadQueue} (h : q.beginSync key = some (gen, q')) :
    q.inFlight key = false ∧ gen = (q.view key).nextGeneration ∧ ∀ k, q'.view k =
      if k = key then
        { (q.view k).takeOff q.nextFlightId with generation := some (q.view k).nextGeneration }
      else q.view k := by
  rw [beginSync] at h
  split at h <;> cases h
  next hidle =>
    refine ⟨Bool.not_eq_true _ ▸ hidle, rfl, fun k => ?_⟩
    rw [view_markInFlight]
    split <;> simp_all [view, KeyQueue.takeOff, KeyQueue.nextGeneration]

/-! ## Refusals -/

def records (q : UploadQueue) : (ℕ → Option FlightRefusal) × ℕ := (q.refusals, q.nextRefusalId)

theorem records_dropHeld : (q.dropHeld key).records = q.records := by
  fun_cases dropHeld q key <;> rfl

theorem records_removeJournal : (q.removeJournal key).records = q.records := by
  rw [removeJournal]
  split <;> rfl

theorem records_accept (blob : Option HeldBlob) (journal : Bool) :
    (q.accept key blob journal).2.records = (q.overtakeRefusals key).records := by
  have hheld : ∀ p : UploadQueue, (p.replaceHeld key blob).records = p.records := by
    intro p
    cases blob <;> exact records_dropHeld
  have hmarked : ∀ p : UploadQueue,
      (if journal then p.createJournal key else p).records = p.records := by
    intro p
    split
    · rw [createJournal]
      split <;> rfl
    · rfl
  have hqueue : ∀ p : UploadQueue, ∀ gen, (p.queueStore key blob gen).records = p.records := by
    intro p gen
    rw [queueStore]
    split <;> rfl
  rw [accept]
  split
  · rw [hmarked, hheld]
    rfl
  · rw [hqueue, hmarked, hheld]
    rfl

theorem records_addRefusal (flightId : ℕ) : (q.addRefusal key flightId).records =
    (update q.records.1 q.records.2 (some ⟨key, flightId, false⟩), q.records.2 + 1) := rfl

theorem records_refuse : (q.refuse key).2.records =
    if q.inFlight key then
      (update (q.overtakeRefusals key).refusals q.nextRefusalId
        (some ⟨key, (q.inFlightId key).getD 0, false⟩), q.nextRefusalId + 1)
    else q.records := by
  rw [refuse]
  split
  · rw [supersedeInFlight, records_addRefusal, records_dropHeld]
    rfl
  · split
    · exact records_removeJournal.trans records_dropHeld
    · rfl

theorem records_land : (q.land key).records = q.records := by
  rw [land, releaseFlightPin]
  split <;> rfl

theorem records_forgetFlight : (q.forgetFlight key).records = q.records := by
  exact records_removeJournal.trans records_dropHeld

theorem records_finish : (q.finish item).2.2.records = q.records := by
  fun_cases finish q item
  case case3 => exact records_land
  all_goals rw [records_forgetFlight, records_land]

theorem records_requeue : (q.requeue item).2.records = q.records := by
  fun_cases requeue q item
  case case1 => rw [records_forgetFlight, records_land]
  all_goals exact records_land

theorem records_takeReady {now : ℕ} {q' : UploadQueue} :
    q.takeReady now = some (item, q') → q'.records = q.records := by
  fun_cases takeReady q now <;> intro h
  next => cases h
  next key hready =>
    obtain ⟨found, hfound, heq⟩ := Option.map_eq_some_iff.mp h
    cases heq
    rw [pin]
    split <;> rfl

theorem records_beginSync {gen : ℕ} {q' : UploadQueue} (h : q.beginSync key = some (gen, q')) :
    q'.records = q.records := by
  rw [beginSync] at h
  split at h <;> cases h
  rfl

end UploadQueue

end Vcache

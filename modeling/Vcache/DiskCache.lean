import Mathlib.Algebra.BigOperators.Group.Finset.Piecewise
import Mathlib.Algebra.Order.BigOperators.Group.Finset
import Mathlib.Algebra.Ring.Nat
import Vcache.StepMachine
import Vcache.Strings

/-!
# The disk cache and the processes that use it

`storage/disk_storage`: `Put` and `PutFile` with `CheckShardGrowth`, and `TrimGlobal`.
A process is where its last system call left it, and an event is its next one, so a
run is an interleaving of any number of processes on one cache directory. A store
fills a temporary file beside its entry and renames it; `ListFilesRecursive` reads a
directory's names and then looks at one after the other.

The key of an entry is a digest, so its first two characters are one of the shards
that `TrimGlobal` walks. The journal of the daemon, which pins entries, does not
change.
-/

namespace Vcache

open List Function

def kShardCount : ℕ := 256

inductive FileName where
  | entry (name : Str)
  | temp (pid : ℕ)
deriving DecidableEq

abbrev CachePath := Fin kShardCount × FileName

structure CacheFile where
  shard : Fin kShardCount
  name : FileName
  size : ℕ
  lruTime : ℕ
deriving DecidableEq

def CacheFile.path (f : CacheFile) : CachePath := (f.shard, f.name)

/-- `trimTarget` is the part `kTrimTargetFraction` of `maxSize`. An entry is `pinned` if its
upload is pending and a daemon is there to do it, as the calls of `IsDirectory`, `DaemonHoldsLock`
and `IsPendingUpload` tell if they succeed; one that fails reads as not pending. `oldestFirst` is
the sort of `TrimGlobal`, which may leave files of one time in any order. -/
structure DiskConfig where
  maxSize : ℕ
  trimTarget : ℕ
  pinned : CachePath → Bool
  oldestFirst : List CacheFile → List CacheFile
  perm_oldestFirst : ∀ entries, (oldestFirst entries).Perm entries
  sorted_oldestFirst : ∀ entries,
    (oldestFirst entries).Pairwise (fun a b => a.lruTime ≤ b.lruTime)

def DiskConfig.shardBudget (cfg : DiskConfig) : ℕ := max (cfg.maxSize / kShardCount) 1

/-- The store moved its shard across a multiple of the shard's share. -/
def DiskConfig.crosses (cfg : DiskConfig) (shardSize addedBytes : ℕ) : Prop :=
  shardSize / cfg.shardBudget ≠ (shardSize - addedBytes) / cfg.shardBudget

instance (cfg : DiskConfig) (shardSize addedBytes : ℕ) :
    Decidable (cfg.crosses shardSize addedBytes) :=
  inferInstanceAs (Decidable (_ ≠ _))

structure StoreCall where
  shard : Fin kShardCount
  name : Str
  size : ℕ
deriving DecidableEq

def StoreCall.path (call : StoreCall) : CachePath := (call.shard, .entry call.name)

inductive DiskRequest where
  | put (call : StoreCall)
  | putFile (call : StoreCall)
  | trim (highWater target : ℕ)
deriving DecidableEq

/-- Where a process is. `swept` is the end of a trim that was above its high-water mark. -/
inductive DiskControl where
  | idle
  | arrived (call : StoreCall)
  | looked (call : StoreCall) (replacing : Bool)
  | created (call : StoreCall) (replacing : Bool)
  | placed (call : StoreCall)
  | measuring (call : StoreCall) (todo : List CachePath) (shardSize : ℕ)
  | walking (highWater target next : ℕ) (todo : List CachePath) (entries : List CacheFile)
  | removing (target : ℕ) (entries : List CacheFile) (total : ℕ)
  | done
  | swept
deriving DecidableEq

def DiskControl.running : DiskControl → Bool
  | .idle | .done | .swept => false
  | _ => true

structure DiskCache where
  files : List CacheFile
  control : ℕ → DiskControl := fun _ => .idle
  clock : ℕ := 0

inductive DiskEvent where
  | start (pid : ℕ) (request : DiskRequest)
  | step (pid : ℕ) (ok : Bool)
deriving DecidableEq

def totalSize (files : List CacheFile) : ℕ := (files.map (·.size)).sum

def stat (files : List CacheFile) (path : CachePath) : Option CacheFile :=
  files.find? (·.path = path)

def unlink (files : List CacheFile) (path : CachePath) : List CacheFile :=
  files.filter (·.path ≠ path)

def inShard (files : List CacheFile) (shard : ℕ) : List CacheFile :=
  files.filter (·.shard.val = shard)

def listDir (files : List CacheFile) (shard : ℕ) : List CachePath :=
  (inShard files shard).map (·.path)

def rename (files : List CacheFile) (temp : CacheFile) (name : Str) : List CacheFile :=
  { temp with name := .entry name } :: unlink (unlink files temp.path) (temp.shard, .entry name)

def plainConfig (maxSize trimTarget : ℕ) : DiskConfig where
  maxSize := maxSize
  trimTarget := trimTarget
  pinned := fun _ => false
  oldestFirst := List.insertionSort (fun a b => a.lruTime ≤ b.lruTime)
  perm_oldestFirst := List.perm_insertionSort _
  sorted_oldestFirst := List.pairwise_insertionSort _

namespace DiskCache

def goto (s : DiskCache) (pid : ℕ) (c : DiskControl) : DiskCache :=
  { s with control := update s.control pid c, clock := s.clock + 1 }

def setFiles (s : DiskCache) (files : List CacheFile) : DiskCache := { s with files }

def start (s : DiskCache) (pid : ℕ) (request : DiskRequest) : Option DiskCache :=
  if (s.control pid).running then none
  else match request with
    | .put call => some (s.goto pid (.looked call false))
    | .putFile call => some (s.goto pid (.arrived call))
    | .trim highWater target => some (s.goto pid (.walking highWater target 0 [] []))

/-! ## `Put` and `PutFile` -/

def create (s : DiskCache) (pid : ℕ) (call : StoreCall) (replacing ok : Bool) : DiskCache :=
  if ok then
    (s.setFiles (⟨call.shard, .temp pid, call.size, s.clock⟩ :: s.files)).goto pid
      (.created call replacing)
  else s.goto pid .done

/-- A `PutFile` that found its file there does not look at the shard's growth. -/
def place (s : DiskCache) (pid : ℕ) (call : StoreCall) (replacing ok : Bool) : DiskCache :=
  match stat s.files (call.shard, .temp pid) with
  | none => s.goto pid .done
  | some temp =>
    if ok then (s.setFiles (rename s.files temp call.name)).goto pid
      (if replacing then .done else .placed call)
    else (s.setFiles (unlink s.files temp.path)).goto pid .done

/-! ## `CheckShardGrowth` -/

def measure (cfg : DiskConfig) (s : DiskCache) (pid : ℕ) (call : StoreCall) (shardSize : ℕ) :
    List CachePath → DiskCache
  | path :: todo =>
    s.goto pid (.measuring call todo (shardSize + totalSize (stat s.files path).toList))
  | [] => s.goto pid (if cfg.crosses shardSize call.size then
      .walking cfg.maxSize cfg.trimTarget 0 [] [] else .done)

/-! ## `TrimGlobal` -/

def walk (cfg : DiskConfig) (s : DiskCache) (pid highWater target next : ℕ)
    (entries : List CacheFile) : List CachePath → DiskCache
  | path :: todo =>
    s.goto pid (.walking highWater target next todo (entries ++ (stat s.files path).toList))
  | [] =>
    if next < kShardCount then
      s.goto pid (.walking highWater target (next + 1) (listDir s.files next) entries)
    else if totalSize entries ≤ highWater then s.goto pid .done
    else s.goto pid (.removing target (cfg.oldestFirst entries) (totalSize entries))

/-- An entry that another process has removed counts as freed, one that cannot be removed does
not. -/
def remove (cfg : DiskConfig) (s : DiskCache) (pid target total : ℕ) (ok : Bool) :
    List CacheFile → DiskCache
  | [] => s.goto pid .swept
  | entry :: rest =>
    if total ≤ target then s.goto pid .swept
    else if cfg.pinned entry.path then s.goto pid (.removing target rest total)
    else if (stat s.files entry.path).isSome && !ok then s.goto pid (.removing target rest total)
    else (s.setFiles (unlink s.files entry.path)).goto pid
      (.removing target rest (total - entry.size))

def advance (cfg : DiskConfig) (s : DiskCache) (pid : ℕ) (ok : Bool) : Option DiskCache :=
  match s.control pid with
  | .idle | .done | .swept => none
  | .arrived call => some (s.goto pid (.looked call (stat s.files call.path).isSome))
  | .looked call replacing => some (s.create pid call replacing ok)
  | .created call replacing => some (s.place pid call replacing ok)
  | .placed call => some (s.goto pid (.measuring call (listDir s.files call.shard) 0))
  | .measuring call todo shardSize => some (s.measure cfg pid call shardSize todo)
  | .walking highWater target next todo entries =>
    some (s.walk cfg pid highWater target next entries todo)
  | .removing target entries total => some (s.remove cfg pid target total ok entries)

def step (cfg : DiskConfig) (s : DiskCache) : DiskEvent → Option DiskCache
  | .start pid request => s.start pid request
  | .step pid ok => s.advance cfg pid ok

end DiskCache

/-! ## Files of distinct paths -/

section Files

variable {files entries : List CacheFile} {path : CachePath} {f : CacheFile}

def DistinctPaths (files : List CacheFile) : Prop := (files.map (·.path)).Nodup

theorem DistinctPaths.nodup (h : DistinctPaths files) : files.Nodup := List.Nodup.of_map _ h

theorem DistinctPaths.eq (h : DistinctPaths files) {g : CacheFile} (hf : f ∈ files)
    (hg : g ∈ files) (hpath : f.path = g.path) : f = g :=
  inj_on_of_nodup_map h hf hg hpath

theorem mem_of_stat (h : stat files path = some f) : f ∈ files ∧ f.path = path := by
  have hpath := find?_some h
  exact ⟨mem_of_find?_eq_some h, of_decide_eq_true hpath⟩

theorem stat_eq_none : stat files path = none ↔ ∀ f ∈ files, f.path ≠ path := by
  rw [stat, find?_eq_none]
  simp only [decide_eq_true_iff]

theorem stat_of_mem (hdistinct : DistinctPaths files) (hf : f ∈ files) :
    stat files f.path = some f := by
  cases h : stat files f.path with
  | none => exact absurd rfl (stat_eq_none.mp h f hf)
  | some g =>
    obtain ⟨hg, hpath⟩ := mem_of_stat h
    rw [hdistinct.eq hg hf hpath]

theorem mem_unlink : f ∈ unlink files path ↔ f ∈ files ∧ f.path ≠ path := by
  rw [unlink, mem_filter, decide_eq_true_iff]

theorem DistinctPaths.unlink (h : DistinctPaths files) (path : CachePath) :
    DistinctPaths (unlink files path) :=
  h.sublist (filter_sublist.map _)

theorem totalSize_cons : totalSize (f :: files) = f.size + totalSize files := List.sum_cons

theorem totalSize_append : totalSize (files ++ entries) = totalSize files + totalSize entries := by
  rw [totalSize, map_append, sum_append]
  rfl

theorem totalSize_perm (h : files.Perm entries) : totalSize files = totalSize entries :=
  (h.map _).sum_eq

theorem totalSize_le_of_subset (hnodup : files.Nodup) (h : files ⊆ entries) :
    totalSize files ≤ totalSize entries := by
  obtain ⟨kept, hperm, hsub⟩ := hnodup.subperm h
  rw [← totalSize_perm hperm]
  exact (hsub.map _).sum_le_sum (fun _ _ => Nat.zero_le _)

theorem totalSize_unlink (hdistinct : DistinctPaths files) (path : CachePath) :
    totalSize (unlink files path) + totalSize (stat files path).toList = totalSize files := by
  cases h : stat files path with
  | none =>
    rw [unlink, filter_eq_self.mpr (fun f hf => decide_eq_true (stat_eq_none.mp h f hf))]
    rfl
  | some f =>
    obtain ⟨hf, rfl⟩ := mem_of_stat h
    have hperm : (f :: unlink files f.path).Perm files := by
      rw [perm_ext_iff_of_nodup ?_ hdistinct.nodup]
      · intro g
        rw [mem_cons, mem_unlink]
        refine ⟨?_, fun hg => ?_⟩
        · rintro (rfl | ⟨hg, -⟩)
          · exact hf
          · exact hg
        · by_cases hpath : g.path = f.path
          · exact .inl (hdistinct.eq hg hf hpath)
          · exact .inr ⟨hg, hpath⟩
      · refine nodup_cons.mpr ⟨fun hmem => ?_, (hdistinct.unlink _).nodup⟩
        exact (mem_unlink.mp hmem).2 rfl
    rw [← totalSize_perm hperm, totalSize_cons, Nat.add_comm]
    rfl

theorem inShard_unlink (shard : ℕ) :
    inShard (unlink files path) shard = unlink (inShard files shard) path := by
  rw [inShard, unlink, filter_comm]
  rfl

theorem totalSize_eq_sum_inShard (files : List CacheFile) :
    totalSize files = ∑ i : Fin kShardCount, totalSize (inShard files i) := by
  induction files with
  | nil => exact (Finset.sum_const_zero).symm
  | cons f files ih =>
    have hsplit : ∀ i : Fin kShardCount, totalSize (inShard (f :: files) i) =
        (if f.shard = i then f.size else 0) + totalSize (inShard files i) := by
      intro i
      by_cases hi : f.shard = i
      · rw [if_pos hi, inShard, filter_cons_of_pos (by rw [hi]; exact decide_eq_true rfl)]
        exact totalSize_cons
      · rw [if_neg hi, inShard, filter_cons_of_neg, Nat.zero_add]
        · rfl
        · exact fun h => hi (Fin.val_injective (of_decide_eq_true h))
    simp only [hsplit, Finset.sum_add_distrib, Finset.sum_ite_eq, Finset.mem_univ, if_true]
    rw [totalSize_cons, ih]

end Files

/-! ## What a step can do -/

/-- The steps of one process, each with what it found. -/
inductive DiskStep (cfg : DiskConfig) (s : DiskCache) (pid : ℕ) : Bool → DiskCache → Prop where
  | look (ok : Bool) (call : StoreCall) (hc : s.control pid = .arrived call) :
      DiskStep cfg s pid ok (s.goto pid (.looked call (stat s.files call.path).isSome))
  | create (call : StoreCall) (replacing : Bool) (hc : s.control pid = .looked call replacing) :
      DiskStep cfg s pid true
        ((s.setFiles (⟨call.shard, .temp pid, call.size, s.clock⟩ :: s.files)).goto pid
          (.created call replacing))
  | notCreated (call : StoreCall) (replacing : Bool)
      (hc : s.control pid = .looked call replacing) :
      DiskStep cfg s pid false (s.goto pid .done)
  | place (call : StoreCall) (replacing : Bool) (temp : CacheFile)
      (hc : s.control pid = .created call replacing)
      (htemp : stat s.files (call.shard, .temp pid) = some temp) :
      DiskStep cfg s pid true ((s.setFiles (rename s.files temp call.name)).goto pid
        (if replacing then .done else .placed call))
  | notPlaced (call : StoreCall) (replacing : Bool) (temp : CacheFile)
      (hc : s.control pid = .created call replacing)
      (htemp : stat s.files (call.shard, .temp pid) = some temp) :
      DiskStep cfg s pid false ((s.setFiles (unlink s.files temp.path)).goto pid .done)
  | lost (ok : Bool) (call : StoreCall) (replacing : Bool)
      (hc : s.control pid = .created call replacing)
      (htemp : stat s.files (call.shard, .temp pid) = none) :
      DiskStep cfg s pid ok (s.goto pid .done)
  | list (ok : Bool) (call : StoreCall) (hc : s.control pid = .placed call) :
      DiskStep cfg s pid ok (s.goto pid (.measuring call (listDir s.files call.shard) 0))
  | measure (ok : Bool) (call : StoreCall) (path : CachePath) (todo : List CachePath)
      (shardSize : ℕ) (hc : s.control pid = .measuring call (path :: todo) shardSize) :
      DiskStep cfg s pid ok (s.goto pid
        (.measuring call todo (shardSize + totalSize (stat s.files path).toList)))
  | crossing (ok : Bool) (call : StoreCall) (shardSize : ℕ)
      (hc : s.control pid = .measuring call [] shardSize)
      (hcrosses : cfg.crosses shardSize call.size) :
      DiskStep cfg s pid ok (s.goto pid (.walking cfg.maxSize cfg.trimTarget 0 [] []))
  | measured (ok : Bool) (call : StoreCall) (shardSize : ℕ)
      (hc : s.control pid = .measuring call [] shardSize)
      (hstays : ¬ cfg.crosses shardSize call.size) : DiskStep cfg s pid ok (s.goto pid .done)
  | walk (ok : Bool) (highWater target next : ℕ) (path : CachePath) (todo : List CachePath)
      (entries : List CacheFile)
      (hc : s.control pid = .walking highWater target next (path :: todo) entries) :
      DiskStep cfg s pid ok (s.goto pid
        (.walking highWater target next todo (entries ++ (stat s.files path).toList)))
  | nextShard (ok : Bool) (highWater target next : ℕ) (entries : List CacheFile)
      (hc : s.control pid = .walking highWater target next [] entries)
      (hnext : next < kShardCount) :
      DiskStep cfg s pid ok (s.goto pid
        (.walking highWater target (next + 1) (listDir s.files next) entries))
  | withinBudget (ok : Bool) (highWater target next : ℕ) (entries : List CacheFile)
      (hc : s.control pid = .walking highWater target next [] entries)
      (hnext : kShardCount ≤ next) (htotal : totalSize entries ≤ highWater) :
      DiskStep cfg s pid ok (s.goto pid .done)
  | sort (ok : Bool) (highWater target next : ℕ) (entries : List CacheFile)
      (hc : s.control pid = .walking highWater target next [] entries)
      (hnext : kShardCount ≤ next) (htotal : highWater < totalSize entries) :
      DiskStep cfg s pid ok (s.goto pid
        (.removing target (cfg.oldestFirst entries) (totalSize entries)))
  | finish (ok : Bool) (target total : ℕ) (rest : List CacheFile)
      (hc : s.control pid = .removing target rest total) (hend : total ≤ target ∨ rest = []) :
      DiskStep cfg s pid ok (s.goto pid .swept)
  | keep (ok : Bool) (target total : ℕ) (entry : CacheFile) (rest : List CacheFile)
      (hc : s.control pid = .removing target (entry :: rest) total) (htotal : target < total)
      (hkept : cfg.pinned entry.path = true ∨ ok = false) :
      DiskStep cfg s pid ok (s.goto pid (.removing target rest total))
  | remove (ok : Bool) (target total : ℕ) (entry : CacheFile) (rest : List CacheFile)
      (hc : s.control pid = .removing target (entry :: rest) total) (htotal : target < total)
      (hpinned : cfg.pinned entry.path = false) :
      DiskStep cfg s pid ok ((s.setFiles (unlink s.files entry.path)).goto pid
        (.removing target rest (total - entry.size)))

theorem DiskCache.advance_step {cfg : DiskConfig} {s s' : DiskCache} {pid : ℕ} {ok : Bool}
    (h : s.advance cfg pid ok = some s') : DiskStep cfg s pid ok s' := by
  revert h
  fun_cases advance cfg s pid ok <;> rintro ⟨⟩
  next call hc => exact .look ok call hc
  next call replacing hc =>
    cases ok with
    | true => exact .create call replacing hc
    | false => exact .notCreated call replacing hc
  next call replacing hc =>
    rw [place]
    cases htemp : stat s.files (call.shard, .temp pid) with
    | none => exact .lost ok call replacing hc htemp
    | some temp =>
      cases ok with
      | true => exact .place call replacing temp hc htemp
      | false => exact .notPlaced call replacing temp hc htemp
  next call hc => exact .list ok call hc
  next call todo shardSize hc =>
    fun_cases s.measure cfg pid call shardSize todo
    next path todo => exact .measure ok call path todo shardSize hc
    next =>
      split
      next hcrosses => exact .crossing ok call shardSize hc hcrosses
      next hcrosses => exact .measured ok call shardSize hc hcrosses
  next highWater target next todo entries hc =>
    fun_cases s.walk cfg pid highWater target next entries todo
    next path todo => exact .walk ok highWater target next path todo entries hc
    next hnext => exact .nextShard ok highWater target next entries hc hnext
    next hnext htotal =>
      exact .withinBudget ok highWater target next entries hc (not_lt.mp hnext) htotal
    next hnext htotal =>
      exact .sort ok highWater target next entries hc (not_lt.mp hnext) (not_le.mp htotal)
  next target entries total hc =>
    fun_cases s.remove cfg pid target total ok entries
    next => exact .finish ok target total [] hc (.inr rfl)
    next entry rest htotal => exact .finish ok target total _ hc (.inl htotal)
    next entry rest htotal hpinned =>
      exact .keep ok target total entry rest hc (not_le.mp htotal) (.inl hpinned)
    next entry rest htotal _ hfails =>
      rw [Bool.and_eq_true, Bool.not_eq_true'] at hfails
      exact .keep ok target total entry rest hc (not_le.mp htotal) (.inr hfails.2)
    next entry rest htotal hpinned _ =>
      exact .remove ok target total entry rest hc (not_le.mp htotal) (eq_false_of_ne_true hpinned)

theorem DiskCache.forall_goto {s : DiskCache} {files : List CacheFile} {pid : ℕ} {c : DiskControl}
    {P : DiskControl → Prop} (hself : P c) (hother : ∀ q, P (s.control q)) (q : ℕ) :
    P (((s.setFiles files).goto pid c).control q) := by
  by_cases hq : q = pid
  · rw [hq, show ((s.setFiles files).goto pid c).control pid = c from update_self ..]
    exact hself
  · rw [show ((s.setFiles files).goto pid c).control q = s.control q from update_of_ne hq ..]
    exact hother q

/-! ## Entries with a pending upload -/

section Pinned

variable {cfg : DiskConfig} {s t : DiskCache} {path : CachePath} {name : Str}

theorem DiskStep.pinned_kept {pid : ℕ} {ok : Bool} (h : DiskStep cfg s pid ok t)
    (hpinned : cfg.pinned path = true) (hentry : path.2 = .entry name)
    (hs : ∃ f ∈ s.files, f.path = path) : ∃ f ∈ t.files, f.path = path := by
  obtain ⟨f, hf, rfl⟩ := hs
  have htemp (temp : CacheFile) {shard : Fin kShardCount}
      (h : stat s.files (shard, .temp pid) = some temp) : f.path ≠ temp.path := by
    intro heq
    rw [heq, (mem_of_stat h).2] at hentry
    cases hentry
  cases h with
  | create call replacing hc => exact ⟨f, mem_cons_of_mem _ hf, rfl⟩
  | place call replacing temp hc h =>
    -- A store of the same name puts its file where the entry was.
    by_cases hsame : f.path = (temp.shard, .entry call.name)
    · exact ⟨_, mem_cons_self, hsame.symm⟩
    · exact ⟨f, mem_cons_of_mem _ (mem_unlink.mpr
        ⟨mem_unlink.mpr ⟨hf, htemp temp h⟩, hsame⟩), rfl⟩
  | notPlaced call replacing temp hc h => exact ⟨f, mem_unlink.mpr ⟨hf, htemp temp h⟩, rfl⟩
  | remove ok target total entry rest hc htotal hunpinned =>
    refine ⟨f, mem_unlink.mpr ⟨hf, fun heq => ?_⟩, rfl⟩
    rw [← heq, hpinned] at hunpinned
    cases hunpinned
  | _ => exact ⟨f, hf, rfl⟩

theorem DiskCache.step_pinned_kept {e : DiskEvent} (h : step cfg s e = some t)
    (hpinned : cfg.pinned path = true) (hentry : path.2 = .entry name)
    (hs : ∃ f ∈ s.files, f.path = path) : ∃ f ∈ t.files, f.path = path := by
  cases e with
  | start pid request =>
    revert h
    rw [step]
    fun_cases start s pid request <;> rintro ⟨⟩ <;> exact hs
  | step pid ok => exact (advance_step h).pinned_kept hpinned hentry hs

/-- An entry whose upload is pending stays in the cache, whatever stores and trims run and
whichever of their calls fail but those that ask for the pin. -/
theorem DiskCache.pinned_entry_kept {events : List DiskEvent} (hpinned : cfg.pinned path = true)
    (hentry : path.2 = .entry name)
    (hrun : StepMachine.Run (step cfg) (fun _ _ => True) s events t)
    (hs : ∃ f ∈ s.files, f.path = path) : ∃ f ∈ t.files, f.path = path :=
  hrun.invariant (fun _ _ _ he _ hs => step_pinned_kept he hpinned hentry hs) hs

theorem one_lt_kShardCount : 1 < kShardCount := by decide

theorem zero_lt_kShardCount : 0 < kShardCount := Nat.lt_of_succ_lt one_lt_kShardCount

/-- `a` is replaced while its upload is pending, and a trim passes over it and removes `b`. -/
def replaceThenTrim : List DiskEvent :=
  [.start 0 (.put ⟨⟨0, zero_lt_kShardCount⟩, "a".toList, 7⟩), .step 0 true, .step 0 true,
    .start 1 (.trim 8 6)] ++ List.replicate 262 (.step 1 true)

theorem DiskCache.pinned_entry_kept_trim : ∃ t,
    StepMachine.Run (step { plainConfig 8 6 with pinned := (·.2 = .entry "a".toList) })
      (fun _ _ => True) { files := [⟨⟨0, zero_lt_kShardCount⟩, .entry "a".toList, 5, 1⟩,
        ⟨⟨1, one_lt_kShardCount⟩, .entry "b".toList, 5, 9⟩] } replaceThenTrim t ∧
      t.control 1 = .swept ∧
      ∃ f ∈ t.files, f.path = (⟨0, zero_lt_kShardCount⟩, .entry "a".toList) := by
  refine Exists.imp (fun t ⟨hrun, hswept⟩ => ⟨hrun, hswept, ?_⟩)
    (StepMachine.exists_run_of_exec (by decide +kernel))
  exact pinned_entry_kept rfl rfl hrun ⟨_, mem_cons_self, rfl⟩

end Pinned

end Vcache

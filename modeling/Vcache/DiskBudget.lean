import Mathlib.Algebra.BigOperators.Ring.Finset
import Mathlib.Algebra.Group.Action.Defs
import Vcache.DiskCache

/-!
# How far the disk cache can outgrow its budget

A store that moves its shard across a multiple of the shard's share makes the walk
that trims the cache to its budget, and one that does not leaves the whole shares
of its shard as they were. So when no store is under way the whole shares of all
shards are within the budget, if each store measures its shard as it left it and
nothing is written while the cache is walked.
-/

namespace Vcache

open DiskControl List Option Function

variable {files : List CacheFile} {replacing : Bool}

def DiskControl.active : DiskControl → Bool
  | .walking .. | .removing .. => true
  | _ => false

/-- The call whose file is there and whose shard is still to be measured. -/
def DiskControl.pending? : DiskControl → Option StoreCall
  | .created call _ | .placed call | .measuring call _ _ => some call
  | _ => none

/-- The part of the shard that was there without the call, or all of it if the call is not going
to make the walk. -/
def DiskControl.accounted (cfg : DiskConfig) (pid : ℕ) (dir : List CacheFile) : DiskControl → ℕ
  | .created call _ => totalSize dir - totalSize (stat dir (call.shard, .temp pid)).toList
  | .placed call => totalSize dir - call.size
  | .measuring call todo shardSize =>
    if cfg.crosses (shardSize + (todo.map (fun path => totalSize (stat dir path).toList)).sum)
      call.size then totalSize dir - call.size else totalSize dir
  | _ => totalSize dir

theorem DiskControl.accounted_le {cfg : DiskConfig} {pid : ℕ} {dir : List CacheFile}
    {c : DiskControl} : c.accounted cfg pid dir ≤ totalSize dir := by
  cases c <;> simp only [accounted, le_refl, Nat.sub_le]
  split
  · exact Nat.sub_le ..
  · exact le_rfl

theorem DiskControl.accounted_of_none {cfg : DiskConfig} {pid : ℕ} {dir : List CacheFile}
    {c : DiskControl} (h : c.pending? = none) : c.accounted cfg pid dir = totalSize dir := by
  cases c <;> first | rfl | cases h

/-- What a process knows of the cache where it is. -/
def DiskControl.Knows (cfg : DiskConfig) (files : List CacheFile) : DiskControl → Prop
  | .measuring call todo _ => ∀ path ∈ todo, path.1 = call.shard
  | .walking highWater target next todo entries =>
    highWater ≤ cfg.maxSize ∧ target ≤ cfg.maxSize ∧
      ∀ f ∈ files, f ∈ entries ∨ f.path ∈ todo ∨ next ≤ f.shard.val
  | .removing target rest total =>
    target ≤ cfg.maxSize ∧ total = totalSize rest ∧ files ⊆ rest
  | _ => True

theorem DiskControl.Knows.mono {cfg : DiskConfig} {c : DiskControl} {less : List CacheFile}
    (h : c.Knows cfg files) (hsub : c.active = true → less ⊆ files) : c.Knows cfg less := by
  cases c with
  | walking => exact ⟨h.1, h.2.1, fun f hf => h.2.2 f (hsub rfl hf)⟩
  | removing => exact ⟨h.1, h.2.1, Subset.trans (hsub rfl) h.2.2⟩
  | _ => exact h

theorem DiskControl.knows_of_quiet {cfg : DiskConfig} {c : DiskControl}
    (h : c.pending? = none ∧ c.active = false) : c.Knows cfg files := by
  cases c with
  | measuring => cases h.1
  | walking | removing => cases h.2
  | _ => trivial

theorem DiskConfig.shardBudget_pos (cfg : DiskConfig) : 0 < cfg.shardBudget :=
  Nat.lt_of_lt_of_le Nat.one_pos (le_max_right ..)

theorem stat_inShard {path : CachePath} :
    stat (inShard files path.1) path = stat files path := by
  rw [stat, stat, inShard, find?_filter]
  congr 1
  funext f
  by_cases h : f.path = path
  · have hshard : f.shard = path.1 := congrArg Prod.fst h
    simp [h, hshard]
  · simp [h]

theorem DiskControl.accounted_created {cfg : DiskConfig} {pid : ℕ} {call : StoreCall} :
    (created call replacing).accounted cfg pid (inShard files call.shard) =
      totalSize (inShard files call.shard) -
        totalSize (stat files (call.shard, .temp pid)).toList := by
  have hstat : stat (inShard files call.shard) (call.shard, .temp pid) = _ := stat_inShard
  rw [accounted, hstat]

theorem totalSize_inShard_unlink (hdistinct : DistinctPaths files)
    (i : Fin kShardCount) (name : FileName) :
    totalSize (inShard (unlink files (i, name)) i) + totalSize (stat files (i, name)).toList =
      totalSize (inShard files i) := by
  have hdir : DistinctPaths (inShard files i) := hdistinct.sublist (filter_sublist.map _)
  have hstat : stat (inShard files i) (i, name) = stat files (i, name) := stat_inShard
  rw [inShard_unlink, ← hstat]
  exact totalSize_unlink hdir (i, name)

theorem inShard_unlink_of_ne {path : CachePath} {i : Fin kShardCount}
    (h : i ≠ path.1) : inShard (unlink files path) i = inShard files i := by
  rw [inShard_unlink, unlink, filter_eq_self]
  intro f hf
  have hshard : f.shard.val = i := of_decide_eq_true (mem_filter.mp hf).2
  refine decide_eq_true (fun hpath => h ?_)
  rw [← hpath]
  exact (Fin.val_injective hshard).symm

theorem inShard_cons_of_ne {f : CacheFile} {i : Fin kShardCount}
    (h : i ≠ f.shard) : inShard (f :: files) i = inShard files i :=
  filter_cons_of_neg (fun heq => h (Fin.val_injective (of_decide_eq_true heq)).symm)

theorem totalSize_inShard_cons {f : CacheFile} {i : Fin kShardCount} (h : f.shard = i) :
    totalSize (inShard (f :: files) i) = f.size + totalSize (inShard files i) := by
  rw [inShard, filter_cons, if_pos (decide_eq_true (congrArg Fin.val h))]
  exact totalSize_cons

theorem sum_listDir (hdistinct : DistinctPaths files) (i : Fin kShardCount) :
    ((listDir files i).map (fun path => totalSize (stat (inShard files i) path).toList)).sum =
      totalSize (inShard files i) := by
  have hdir : DistinctPaths (inShard files i) := hdistinct.sublist (List.filter_sublist.map _)
  rw [listDir, List.map_map, totalSize]
  congr 1
  refine List.map_congr_left (fun f hf => ?_)
  rw [comp_apply, stat_of_mem hdir hf]
  exact Nat.add_zero _

namespace DiskCache

variable {cfg : DiskConfig} {s s' : DiskCache} {pid : ℕ} {c : DiskControl} {i : Fin kShardCount}
  {shares : Fin kShardCount → ℕ}

/-- The shard has no more whole shares than that, but for the store that will look. -/
def Covered (cfg : DiskConfig) (s : DiskCache) (shares : Fin kShardCount → ℕ)
    (i : Fin kShardCount) : Prop :=
  (∃ pid call, (s.control pid).pending? = some call ∧ call.shard = i ∧
    (s.control pid).accounted cfg pid (inShard s.files i) / cfg.shardBudget ≤ shares i) ∨
  ((∀ pid call, (s.control pid).pending? = some call → call.shard ≠ i) ∧
    totalSize (inShard s.files i) / cfg.shardBudget ≤ shares i)

/-- The whole shares are within the budget, or a walk is under way. -/
def Settled (cfg : DiskConfig) (s : DiskCache) : Prop :=
  (∃ pid, (s.control pid).active = true) ∨
    ∃ shares : Fin kShardCount → ℕ, (∑ i, shares i) * cfg.shardBudget ≤ cfg.maxSize ∧
      ∀ i, s.Covered cfg shares i

structure Budgeted (cfg : DiskConfig) (s : DiskCache) : Prop where
  distinct : DistinctPaths s.files
  temps : ∀ f ∈ s.files, ∀ pid, f.name = .temp pid → ∃ call replacing,
    s.control pid = .created call replacing ∧ f.shard = call.shard ∧ f.size = call.size
  single : ∀ p q call other, (s.control p).pending? = some call →
    (s.control q).pending? = some other → call.shard = other.shard → p = q
  listed : ∀ pid call todo shardSize, s.control pid = .measuring call todo shardSize →
    ∀ path ∈ todo, path.1 = call.shard
  walking : ∀ pid highWater target next todo entries,
    s.control pid = .walking highWater target next todo entries →
    highWater ≤ cfg.maxSize ∧ target ≤ cfg.maxSize ∧
      ∀ f ∈ s.files, f ∈ entries ∨ f.path ∈ todo ∨ next ≤ f.shard.val
  removing : ∀ pid target rest total, s.control pid = .removing target rest total →
    target ≤ cfg.maxSize ∧ total = totalSize rest ∧ s.files ⊆ rest
  settled : s.Settled cfg

theorem Budgeted.known (hs : s.Budgeted cfg) (pid : ℕ) : (s.control pid).Knows cfg s.files := by
  cases h : s.control pid with
  | measuring => exact hs.listed pid _ _ _ h
  | walking => exact hs.walking pid _ _ _ _ _ h
  | removing => exact hs.removing pid _ _ _ h
  | _ => trivial

theorem budgeted_of_known (hdistinct : DistinctPaths s.files)
    (htemps : ∀ f ∈ s.files, ∀ pid, f.name = .temp pid → ∃ call replacing,
      s.control pid = .created call replacing ∧ f.shard = call.shard ∧ f.size = call.size)
    (hsingle : ∀ p q call other, (s.control p).pending? = some call →
      (s.control q).pending? = some other → call.shard = other.shard → p = q)
    (hknown : ∀ pid, (s.control pid).Knows cfg s.files) (hsettled : s.Settled cfg) :
    s.Budgeted cfg := by
  refine ⟨hdistinct, htemps, hsingle, fun pid call todo shardSize h => ?_,
    fun pid highWater target next todo entries h => ?_, fun pid target rest total h => ?_,
    hsettled⟩ <;> have hknows := hknown pid <;> rwa [h] at hknows

theorem settled_of_total (h : totalSize s.files ≤ cfg.maxSize) : s.Settled cfg := by
  refine .inr ⟨fun i => totalSize (inShard s.files i) / cfg.shardBudget, ?_, fun i => ?_⟩
  · rw [Finset.sum_mul]
    calc ∑ i : Fin kShardCount, totalSize (inShard s.files i) / cfg.shardBudget * cfg.shardBudget
        ≤ ∑ i : Fin kShardCount, totalSize (inShard s.files i) :=
          Finset.sum_le_sum (fun _ _ => Nat.div_mul_le_self ..)
      _ = totalSize s.files := (totalSize_eq_sum_inShard _).symm
      _ ≤ cfg.maxSize := h
  · by_cases hpending : ∃ pid call, (s.control pid).pending? = some call ∧ call.shard = i
    · obtain ⟨pid, call, hcall, hshard⟩ := hpending
      exact .inl ⟨pid, call, hcall, hshard, Nat.div_le_div_right accounted_le⟩
    · exact .inr ⟨fun pid call hcall hshard => hpending ⟨pid, call, hcall, hshard⟩, le_rfl⟩

/-- When no store is under way the cache has less than one share more than its whole shares in each
shard. -/
theorem total_lt_of_settled (h : s.Settled cfg) (hidle : ∀ pid, (s.control pid).running = false) :
    totalSize s.files < cfg.maxSize + kShardCount * cfg.shardBudget := by
  have hnone : ∀ pid, (s.control pid).active = false ∧ (s.control pid).pending? = none := by
    intro pid
    have hrest := hidle pid
    generalize s.control pid = c at hrest
    cases c <;> first | exact ⟨rfl, rfl⟩ | cases hrest
  rcases h with ⟨pid, hactive⟩ | ⟨shares, hshares, hcovered⟩
  · rw [(hnone pid).1] at hactive
    cases hactive
  · have hlt : ∀ i : Fin kShardCount,
        totalSize (inShard s.files i) < (shares i + 1) * cfg.shardBudget := by
      intro i
      rcases hcovered i with ⟨pid, call, hcall, -⟩ | ⟨-, hle⟩
      · rw [(hnone pid).2] at hcall
        cases hcall
      · exact (Nat.div_lt_iff_lt_mul cfg.shardBudget_pos).mp (Nat.lt_succ_of_le hle)
    calc totalSize s.files = ∑ i : Fin kShardCount, totalSize (inShard s.files i) :=
          totalSize_eq_sum_inShard _
      _ < ∑ i, (shares i + 1) * cfg.shardBudget :=
          Finset.sum_lt_sum_of_nonempty ⟨⟨0, by decide⟩, Finset.mem_univ _⟩ (fun i _ => hlt i)
      _ = (∑ i, shares i) * cfg.shardBudget + kShardCount * cfg.shardBudget := by
          rw [← Finset.sum_mul, Finset.sum_add_distrib, Finset.sum_const, Finset.card_univ,
            Fintype.card_fin, smul_eq_mul, mul_one, Nat.add_mul]
      _ ≤ cfg.maxSize + kShardCount * cfg.shardBudget := Nat.add_le_add_right hshares _

theorem seen_of_walked {entries : List CacheFile} {next : ℕ}
    (h : ∀ f ∈ s.files, f ∈ entries ∨ f.path ∈ ([] : List CachePath) ∨ next ≤ f.shard.val)
    (hnext : kShardCount ≤ next) : s.files ⊆ entries := by
  intro f hf
  rcases h f hf with hin | htodo | hlater
  · exact hin
  · cases htodo
  · have := f.shard.isLt
    omega

/-! ## One process moves -/

theorem control_goto_self : (s.goto pid c).control pid = c := update_self ..

theorem control_goto_of_ne {q : ℕ} (h : q ≠ pid) : (s.goto pid c).control q = s.control q :=
  update_of_ne h ..

theorem Covered.other (h : s.Covered cfg shares i) (hdir : inShard files i = inShard s.files i)
    (hbefore : ∀ call, (s.control pid).pending? = some call → call.shard ≠ i)
    (hafter : ∀ call, c.pending? = some call → call.shard ≠ i) :
    ((s.setFiles files).goto pid c).Covered cfg shares i := by
  rcases h with ⟨q, call, hcall, hshard, hle⟩ | ⟨hnone, hle⟩
  · have hq : q ≠ pid := by
      rintro rfl
      exact hbefore call hcall hshard
    refine .inl ⟨q, call, ?_, hshard, ?_⟩
    · rw [control_goto_of_ne hq]
      exact hcall
    · rw [control_goto_of_ne hq, show ((s.setFiles files).goto pid c).files = files from rfl, hdir]
      exact hle
  · refine .inr ⟨fun q call hcall => ?_, ?_⟩
    · by_cases hq : q = pid
      · subst hq
        rw [control_goto_self] at hcall
        exact hafter call hcall
      · rw [control_goto_of_ne hq] at hcall
        exact hnone q call hcall
    · rw [show ((s.setFiles files).goto pid c).files = files from rfl, hdir]
      exact hle

theorem Covered.accounted_le (h : s.Covered cfg shares i) (hs : s.Budgeted cfg) {call : StoreCall}
    (hcall : (s.control pid).pending? = some call) (hshard : call.shard = i) :
    (s.control pid).accounted cfg pid (inShard s.files i) / cfg.shardBudget ≤ shares i := by
  rcases h with ⟨q, other, hother, hshard', hle⟩ | ⟨hnone, -⟩
  · obtain rfl := hs.single pid q call other hcall hother (hshard.trans hshard'.symm)
    exact hle
  · exact absurd hshard (hnone pid call hcall)

/-- A process that is not walking moves, and what it changes is in one shard. -/
theorem Settled.move (files : List CacheFile) (hs : s.Budgeted cfg) (i : Fin kShardCount)
    (hactive : (s.control pid).active = false)
    (hbefore : ∀ call, (s.control pid).pending? = some call → call.shard = i)
    (hafter : ∀ call, c.pending? = some call → call.shard = i)
    (hdir : ∀ j, j ≠ i → inShard files j = inShard s.files j)
    (hcover : ∀ shares, s.Covered cfg shares i →
      ((s.setFiles files).goto pid c).Covered cfg shares i) :
    ((s.setFiles files).goto pid c).Settled cfg := by
  rcases hs.settled with ⟨q, hq⟩ | ⟨shares, hshares, hcovered⟩
  · have hne : q ≠ pid := by
      rintro rfl
      rw [hactive] at hq
      cases hq
    exact .inl ⟨q, by rw [control_goto_of_ne hne]; exact hq⟩
  · refine .inr ⟨shares, hshares, fun j => ?_⟩
    by_cases hj : j = i
    · subst hj
      exact hcover shares (hcovered j)
    · exact (hcovered j).other (hdir j hj) (fun call h heq => hj (heq.symm.trans (hbefore call h)))
        (fun call h heq => hj (heq.symm.trans (hafter call h)))

theorem Settled.quiet (hs : s.Budgeted cfg) (hactive : (s.control pid).active = false)
    (hbefore : (s.control pid).pending? = none) (hafter : c.pending? = none) :
    (s.goto pid c).Settled cfg := by
  have hnone : ∀ call, (s.control pid).pending? ≠ some call := by
    intro call
    rw [hbefore]
    exact (some_ne_none call).symm
  have hnone' : ∀ call, c.pending? ≠ some call := by
    intro call
    rw [hafter]
    exact (some_ne_none call).symm
  exact Settled.move s.files hs ⟨0, by decide⟩ hactive
    (fun call h => absurd h (hnone call)) (fun call h => absurd h (hnone' call)) (fun _ _ => rfl)
    (fun shares h => h.other rfl (fun call h => absurd h (hnone call))
      (fun call h => absurd h (hnone' call)))

theorem covered_pending (files : List CacheFile) {call : StoreCall} (hcall : c.pending? = some call)
    (h : c.accounted cfg pid (inShard files call.shard) / cfg.shardBudget ≤ shares call.shard) :
    ((s.setFiles files).goto pid c).Covered cfg shares call.shard := by
  refine .inl ⟨pid, call, ?_, rfl, ?_⟩
  · rw [control_goto_self]
    exact hcall
  · rw [control_goto_self]
    exact h

/-- A store goes on or is over, and answers for no more whole shares than before. -/
theorem Settled.ofCall (files : List CacheFile) {call : StoreCall} (hs : s.Budgeted cfg)
    (hactive : (s.control pid).active = false) (hcall : (s.control pid).pending? = some call)
    (hafter : ∀ call', c.pending? = some call' → call' = call)
    (hdir : ∀ j, j ≠ call.shard → inShard files j = inShard s.files j)
    (hle : c.accounted cfg pid (inShard files call.shard) / cfg.shardBudget ≤
      (s.control pid).accounted cfg pid (inShard s.files call.shard) / cfg.shardBudget) :
    ((s.setFiles files).goto pid c).Settled cfg := by
  refine Settled.move files hs call.shard hactive ?_ (fun call' h => by rw [hafter call' h]) hdir
    (fun shares hcovered => ?_)
  · intro call' h
    rw [← some.inj (hcall.symm.trans h)]
  · have hle := hle.trans (hcovered.accounted_le hs hcall rfl)
    cases hnext : c.pending? with
    | some next =>
      obtain rfl := hafter next hnext
      exact covered_pending files hnext hle
    | none =>
      rw [accounted_of_none hnext] at hle
      refine .inr ⟨fun q other hother hshard => ?_, hle⟩
      by_cases hq : q = pid
      · subst hq
        rw [control_goto_self, hnext] at hother
        cases hother
      · rw [control_goto_of_ne hq] at hother
        exact hq (hs.single q pid other call hother hcall hshard)

section

variable (hs : s.Budgeted cfg)

include hs

theorem Budgeted.move (files : List CacheFile)
    (hdistinct : DistinctPaths files)
    (htemps : ∀ f ∈ files, ∀ q, f.name = .temp q → if q = pid then ∃ call replacing,
      c = .created call replacing ∧ f.shard = call.shard ∧ f.size = call.size else f ∈ s.files)
    (hpending : ∀ call, c.pending? = some call → ∀ q other, q ≠ pid →
      (s.control q).pending? = some other → call.shard ≠ other.shard)
    (hknows : c.Knows cfg files)
    (hfiles : files ⊆ s.files ∨ ∀ q, (s.control q).active = false)
    (hsettled : ((s.setFiles files).goto pid c).Settled cfg) :
    ((s.setFiles files).goto pid c).Budgeted cfg := by
  have hcontrol : ∀ q, ((s.setFiles files).goto pid c).control q =
      if q = pid then c else s.control q := fun q => Function.update_apply ..
  refine budgeted_of_known hdistinct ?_ ?_ ?_ hsettled
  · intro f hf q hname
    have htemp := htemps f hf q hname
    rw [hcontrol]
    split at htemp
    next hq => rwa [if_pos hq]
    next hq =>
      rw [if_neg hq]
      exact hs.temps f htemp q hname
  · intro p q call other hp hq hshard
    rw [hcontrol] at hp hq
    split at hp <;> split at hq
    next hp' hq' => exact hp'.trans hq'.symm
    next hq' => exact absurd hshard (hpending call hp q other hq' hq)
    next hp' _ => exact absurd hshard.symm (hpending other hq p call hp' hp)
    next => exact hs.single p q call other hp hq hshard
  · refine forall_goto hknows (fun q => (hs.known q).mono (fun hactive => ?_))
    refine hfiles.resolve_right (fun hnone => ?_)
    rw [hnone q] at hactive
    cases hactive

theorem Budgeted.goto (htemp : ∀ f ∈ s.files, f.name ≠ .temp pid)
    (hpending : ∀ call, c.pending? = some call → (s.control pid).pending? = some call)
    (hknows : c.Knows cfg s.files) (hsettled : (s.goto pid c).Settled cfg) :
    (s.goto pid c).Budgeted cfg := by
  refine hs.move s.files hs.distinct (fun f hf q hname => ?_)
    (fun call hcall q other hq hother hshard => ?_) hknows (.inl (List.Subset.refl _)) hsettled
  · by_cases hq : q = pid
    · subst hq
      exact absurd hname (htemp f hf)
    · rw [if_neg hq]
      exact hf
  · exact hq (hs.single q pid other call hother (hpending call hcall) hshard.symm)

theorem Budgeted.no_temp
    (hc : ∀ call replacing, s.control pid ≠ .created call replacing) :
    ∀ f ∈ s.files, f.name ≠ .temp pid := by
  intro f hf hname
  obtain ⟨call, replacing, hcontrol, -⟩ := hs.temps f hf pid hname
  exact hc call replacing hcontrol

theorem Budgeted.leave (hbefore : ∀ call replacing, s.control pid ≠ .created call replacing)
    (hafter : c.pending? = none ∧ c.active = false) (hsettled : (s.goto pid c).Settled cfg) :
    (s.goto pid c).Budgeted cfg := by
  refine hs.goto (hs.no_temp hbefore) (fun call hcall => ?_) (knows_of_quiet hafter) hsettled
  rw [hafter.1] at hcall
  cases hcall

/-- A process that has nothing to do with a shard before and after, nor walks. -/
theorem Budgeted.quiet (hactive : (s.control pid).active = false)
    (hbefore : (s.control pid).pending? = none) (hafter : c.pending? = none ∧ c.active = false) :
    (s.goto pid c).Budgeted cfg := by
  refine hs.leave (fun call replacing hc => ?_) hafter (Settled.quiet hs hactive hbefore hafter.1)
  rw [hc] at hbefore
  cases hbefore

theorem Budgeted.walk (htemp : ∀ f ∈ s.files, f.name ≠ .temp pid)
    {highWater target next : ℕ} {todo : List CachePath} {entries : List CacheFile}
    (hhigh : highWater ≤ cfg.maxSize) (htarget : target ≤ cfg.maxSize)
    (hseen : ∀ f ∈ s.files, f ∈ entries ∨ f.path ∈ todo ∨ next ≤ f.shard.val) :
    (s.goto pid (.walking highWater target next todo entries)).Budgeted cfg :=
  hs.goto htemp (by simp [pending?]) ⟨hhigh, htarget, hseen⟩
    (.inl ⟨pid, by rw [control_goto_self]; rfl⟩)

theorem Budgeted.over (hactive : (s.control pid).active = true)
    (hafter : c.pending? = none ∧ c.active = false) (htotal : totalSize s.files ≤ cfg.maxSize) :
    (s.goto pid c).Budgeted cfg := by
  refine hs.leave (fun call replacing hc => ?_) hafter (settled_of_total htotal)
  rw [hc] at hactive
  cases hactive

end

/-! ## Stores -/

variable {call : StoreCall}

theorem Budgeted.create (hs : s.Budgeted cfg)
    (hc : s.control pid = .looked call replacing) (hquiet : ∀ q, (s.control q).active = false)
    (hapart : ∀ q other, (s.control q).pending? = some other → other.shard ≠ call.shard) :
    ((s.setFiles (⟨call.shard, .temp pid, call.size, s.clock⟩ :: s.files)).goto pid
      (.created call replacing)).Budgeted cfg := by
  have htemp : ∀ f ∈ s.files, f.name ≠ .temp pid := hs.no_temp (by rw [hc]; simp)
  have hnone : (s.control pid).pending? = none := by
    rw [hc]
    rfl
  refine hs.move _ ?_ ?_ ?_ trivial (.inr hquiet) ?_
  · refine nodup_cons.mpr ⟨fun hmem => ?_, hs.distinct⟩
    obtain ⟨f, hf, hpath⟩ := mem_map.mp hmem
    exact htemp f hf (congrArg Prod.snd hpath)
  · intro f hf q hname
    rcases mem_cons.mp hf with rfl | hmem
    · rw [if_pos (FileName.temp.inj hname).symm]
      exact ⟨call, replacing, rfl, rfl, rfl⟩
    · rw [if_neg (fun hq : q = pid => htemp f hmem (hq ▸ hname))]
      exact hmem
  · intro call' hcall q other _ hother
    cases hcall
    exact (hapart q other hother).symm
  · refine Settled.move _ hs call.shard (hquiet pid) ?_ ?_ (fun j hj => inShard_cons_of_ne hj) ?_
    · intro call' h
      rw [hnone] at h
      cases h
    · intro call' hcall
      cases hcall
      rfl
    · intro shares hcovered
      refine covered_pending _ rfl ?_
      have hle : totalSize (inShard s.files call.shard) / cfg.shardBudget ≤ shares call.shard := by
        rcases hcovered with ⟨q, other, hother, hshard, -⟩ | ⟨-, hle⟩
        · exact absurd hshard (hapart q other hother)
        · exact hle
      have hstat : stat (inShard (⟨call.shard, .temp pid, call.size, s.clock⟩ :: s.files)
          call.shard) (call.shard, .temp pid) =
            some ⟨call.shard, .temp pid, call.size, s.clock⟩ := by
        refine stat_inShard.trans (find?_cons_of_pos ?_)
        exact decide_eq_true rfl
      rw [accounted, hstat, totalSize_inShard_cons (by rfl)]
      refine le_trans (Nat.div_le_div_right ?_) hle
      change call.size + _ - (call.size + 0) ≤ _
      omega

theorem Budgeted.temp (hs : s.Budgeted cfg) {temp : CacheFile}
    (hc : s.control pid = .created call replacing)
    (htemp : stat s.files (call.shard, .temp pid) = some temp) :
    temp ∈ s.files ∧ temp.path = (call.shard, .temp pid) ∧ temp.size = call.size := by
  obtain ⟨hmem, hpath⟩ := mem_of_stat htemp
  obtain ⟨call', replacing', hc', -, hsize⟩ := hs.temps temp hmem pid (congrArg Prod.snd hpath)
  obtain ⟨rfl, -⟩ := created.inj (hc.symm.trans hc')
  exact ⟨hmem, hpath, hsize⟩

theorem Budgeted.temp_unlinked (hs : s.Budgeted cfg)
    (hc : s.control pid = .created call replacing) {f : CacheFile} {q : ℕ}
    (hf : f ∈ unlink s.files (call.shard, .temp pid)) (hname : f.name = .temp q) :
    q ≠ pid ∧ f ∈ s.files := by
  obtain ⟨hmem, hpath⟩ := mem_unlink.mp hf
  refine ⟨?_, hmem⟩
  rintro rfl
  obtain ⟨call', replacing', hc', hshard, -⟩ := hs.temps f hmem q hname
  obtain ⟨rfl, -⟩ := created.inj (hc.symm.trans hc')
  exact hpath (Prod.ext hshard hname)

theorem Budgeted.notPlaced (hs : s.Budgeted cfg) {temp : CacheFile}
    (hc : s.control pid = .created call replacing)
    (htemp : stat s.files (call.shard, .temp pid) = some temp) :
    ((s.setFiles (unlink s.files temp.path)).goto pid .done).Budgeted cfg := by
  obtain ⟨hmem, hpath, hsize⟩ := hs.temp hc htemp
  have hcall : (s.control pid).pending? = some call := hc ▸ rfl
  rw [hpath]
  refine hs.move _ (hs.distinct.unlink _) ?_ (by simp [pending?]) trivial
    (.inl (fun f hf => (mem_unlink.mp hf).1)) ?_
  · intro f hf q hname
    obtain ⟨hq, hf⟩ := hs.temp_unlinked hc hf hname
    rw [if_neg hq]
    exact hf
  · refine Settled.ofCall _ hs (by rw [hc]; rfl) hcall (by simp [pending?])
      (fun j hj => inShard_unlink_of_ne hj) (Nat.div_le_div_right ?_)
    have hdir := totalSize_inShard_unlink hs.distinct call.shard (.temp pid)
    rw [accounted_of_none rfl, hc, accounted_created]
    omega

theorem totalSize_rename (hdistinct : DistinctPaths files)
    {temp : CacheFile} (hmem : temp ∈ files) (name : Str) :
    totalSize (inShard (rename files temp name) temp.shard) +
      totalSize (stat (unlink files temp.path) (temp.shard, .entry name)).toList =
        totalSize (inShard files temp.shard) := by
  have hfirst := totalSize_inShard_unlink hdistinct temp.shard temp.name
  have hsecond := totalSize_inShard_unlink (hdistinct.unlink temp.path) temp.shard (.entry name)
  have hcons : totalSize (inShard (rename files temp name) temp.shard) = temp.size +
      totalSize (inShard (unlink (unlink files temp.path) (temp.shard, .entry name)) temp.shard) :=
    totalSize_inShard_cons rfl
  have hsize : totalSize (stat files temp.path).toList = temp.size := by
    rw [stat_of_mem hdistinct hmem]
    rfl
  change totalSize (inShard (unlink files temp.path) temp.shard) +
    totalSize (stat files temp.path).toList = totalSize (inShard files temp.shard) at hfirst
  rw [hsize] at hfirst
  rw [hcons]
  omega

theorem Budgeted.place (hs : s.Budgeted cfg) {temp : CacheFile}
    (hc : s.control pid = .created call replacing)
    (htemp : stat s.files (call.shard, .temp pid) = some temp)
    (hquiet : ∀ q, (s.control q).active = false)
    (hstill : replacing = true → ∃ f ∈ s.files, f.path = call.path ∧ f.size = call.size) :
    ((s.setFiles (rename s.files temp call.name)).goto pid
      (if replacing then .done else .placed call)).Budgeted cfg := by
  obtain ⟨hmem, hpath, hsize⟩ := hs.temp hc htemp
  have hshard : temp.shard = call.shard := congrArg Prod.fst hpath
  have hcall : (s.control pid).pending? = some call := hc ▸ rfl
  have hafter : ∀ call', (if replacing then done else .placed call).pending? =
      some call' → call' = call := by
    intro call' h
    cases replacing with
    | true => cases h
    | false => exact (some.inj h).symm
  have hsizes := totalSize_rename hs.distinct hmem call.name
  refine hs.move _ ?_ ?_ ?_ (by cases replacing <;> trivial) (.inr hquiet) ?_
  · refine nodup_cons.mpr ⟨fun hin => ?_, (hs.distinct.unlink _).unlink _⟩
    obtain ⟨f, hf, hf'⟩ := mem_map.mp hin
    exact (mem_unlink.mp hf).2 hf'
  · intro f hf q hname
    rcases mem_cons.mp hf with rfl | hf
    · cases hname
    · have hf := (mem_unlink.mp hf).1
      rw [hpath] at hf
      obtain ⟨hq, hf⟩ := hs.temp_unlinked hc hf hname
      rw [if_neg hq]
      exact hf
  · intro call' hcall' q other hq hother hsame
    obtain rfl := hafter call' hcall'
    exact hq (hs.single q pid other call' hother hcall hsame.symm)
  · refine Settled.ofCall _ hs (hquiet pid) hcall hafter ?_ (Nat.div_le_div_right ?_)
    · intro j hj
      have hne : j ≠ temp.shard := hshard ▸ hj
      refine (inShard_cons_of_ne (by exact hne)).trans ?_
      rw [inShard_unlink_of_ne hne, inShard_unlink_of_ne hne]
    · rw [hc, accounted_created, htemp]
      change _ ≤ totalSize _ - (temp.size + 0)
      rw [hshard] at hsizes
      cases replacing with
      | true =>
        obtain ⟨f, hf, hfpath, hfsize⟩ := hstill rfl
        have hfound : stat (unlink s.files temp.path) (call.shard, .entry call.name) = some f := by
          have hne : f.path ≠ temp.path := by
            rw [hfpath, hpath]
            exact fun h => FileName.noConfusion (congrArg Prod.snd h)
          have hstat := stat_of_mem (hs.distinct.unlink temp.path) (mem_unlink.mpr ⟨hf, hne⟩)
          rw [hfpath] at hstat
          exact hstat
        rw [hfound] at hsizes
        change _ + (f.size + 0) = _ at hsizes
        change totalSize _ ≤ _
        omega
      | false =>
        change totalSize _ - call.size ≤ _
        omega

theorem Budgeted.lost (hs : s.Budgeted cfg)
    (hc : s.control pid = .created call replacing)
    (htemp : stat s.files (call.shard, .temp pid) = none) : (s.goto pid .done).Budgeted cfg := by
  have hcall : (s.control pid).pending? = some call := hc ▸ rfl
  refine hs.goto ?_ (by simp [pending?]) trivial ?_
  · intro f hf hname
    obtain ⟨call', replacing', hc', hshard, -⟩ := hs.temps f hf pid hname
    obtain ⟨rfl, -⟩ := created.inj (hc.symm.trans hc')
    exact stat_eq_none.mp htemp f hf (Prod.ext hshard hname)
  · refine Settled.ofCall s.files hs (by rw [hc]; rfl) hcall (by simp [pending?])
      (fun _ _ => rfl) ?_
    rw [accounted_of_none rfl, hc, accounted_created, htemp]
    exact le_rfl

/-- The store measures its shard: what it answers for stays the same. -/
theorem Budgeted.measure (hs : s.Budgeted cfg) {todo : List CachePath}
    {shardSize : ℕ} (htemp : ∀ f ∈ s.files, f.name ≠ .temp pid)
    (hactive : (s.control pid).active = false) (hcall : (s.control pid).pending? = some call)
    (htodo : ∀ path ∈ todo, path.1 = call.shard)
    (hle : (DiskControl.measuring call todo shardSize).accounted cfg pid
        (inShard s.files call.shard) / cfg.shardBudget ≤
      (s.control pid).accounted cfg pid (inShard s.files call.shard) / cfg.shardBudget) :
    (s.goto pid (.measuring call todo shardSize)).Budgeted cfg := by
  refine hs.goto htemp (fun call' h => ?_) htodo (Settled.ofCall s.files hs hactive hcall
    (fun call' h => (some.inj h).symm) (fun _ _ => rfl) hle)
  cases h
  exact hcall

/-! ## Every step keeps it -/

/-- When a store may write. With its temporary file: when nobody walks the cache or trims it, and
no other store of the shard is between its temporary file and the measure of the shard. With the
rename: when nobody walks or trims, and, if a file was found there, it still is and has the size
of the new one. -/
def MayWrite (s : DiskCache) : DiskControl → Prop
  | .looked call _ => (∀ q, (s.control q).active = false) ∧
    ∀ q other, (s.control q).pending? = some other → other.shard ≠ call.shard
  | .created call replacing => (∀ q, (s.control q).active = false) ∧
    (replacing = true → ∃ f ∈ s.files, f.path = call.path ∧ f.size = call.size)
  | _ => True

/-- Stores write when they may, trims are to the budget or below, and what is to be removed is. -/
def StoresApart (cfg : DiskConfig) (s : DiskCache) : DiskEvent → Prop
  | .start _ (.trim highWater target) => highWater ≤ cfg.maxSize ∧ target ≤ cfg.maxSize
  | .start _ _ => True
  | .step pid ok => s.MayWrite (s.control pid) ∧ ((s.control pid).active = true → ok = true)

theorem budgeted_start (hs : s.Budgeted cfg) {request : DiskRequest}
    (hok : StoresApart cfg s (.start pid request)) (h : s.start pid request = some s') :
    s'.Budgeted cfg := by
  rw [start.eq_def] at h
  split at h
  next => cases h
  next hidle =>
    have hrest : (s.control pid).active = false ∧ (s.control pid).pending? = none ∧
        ∀ call replacing, s.control pid ≠ .created call replacing := by
      generalize s.control pid = c at hidle
      cases c <;> first | exact ⟨rfl, rfl, by simp⟩ | exact absurd rfl hidle
    obtain ⟨hactive, hpending, hcreated⟩ := hrest
    cases request with
    | put call | putFile call =>
      cases h
      exact hs.quiet hactive hpending ⟨rfl, rfl⟩
    | trim highWater target =>
      cases h
      exact hs.walk (hs.no_temp hcreated) hok.1 hok.2 (fun f _ => .inr (.inr (Nat.zero_le _)))

theorem budgeted_advance (htarget : cfg.trimTarget ≤ cfg.maxSize)
    (hpins : ∀ path, cfg.pinned path = false) (hs : s.Budgeted cfg) {ok : Bool}
    (hok : StoresApart cfg s (.step pid ok)) (h : DiskStep cfg s pid ok s') : s'.Budgeted cfg := by
  obtain ⟨hwrite, hremoves⟩ := hok
  cases h with
  | look ok call hc => exact hs.quiet (by rw [hc]; rfl) (by rw [hc]; rfl) ⟨rfl, rfl⟩
  | create call replacing hc =>
    rw [hc] at hwrite
    exact hs.create hc hwrite.1 hwrite.2
  | notCreated call replacing hc =>
    exact hs.quiet (by rw [hc]; rfl) (by rw [hc]; rfl) ⟨rfl, rfl⟩
  | place call replacing temp hc htemp =>
    rw [hc] at hwrite
    exact hs.place hc htemp hwrite.1 hwrite.2
  | notPlaced call replacing temp hc htemp => exact hs.notPlaced hc htemp
  | lost ok call replacing hc htemp => exact hs.lost hc htemp
  | list ok call hc =>
    refine hs.measure (hs.no_temp (by rw [hc]; simp)) (by rw [hc]; rfl) (by rw [hc]; rfl) ?_ ?_
    · intro path hpath
      obtain ⟨f, hf, rfl⟩ := mem_map.mp hpath
      exact Fin.val_injective (of_decide_eq_true (mem_filter.mp hf).2)
    · rw [hc, accounted, accounted, sum_listDir hs.distinct, Nat.zero_add]
      split
      next => exact le_rfl
      next hstays => exact (not_not.mp hstays).le
  | measure ok call path todo shardSize hc =>
    have hlisted := hs.known pid
    rw [hc] at hlisted
    refine hs.measure (hs.no_temp (by rw [hc]; simp)) (by rw [hc]; rfl) (by rw [hc]; rfl)
      (fun p hp => hlisted p (mem_cons_of_mem _ hp)) ?_
    have hstat : stat (inShard s.files call.shard) path = stat s.files path := by
      rw [← hlisted path mem_cons_self]
      exact stat_inShard
    rw [hc, accounted, accounted, map_cons, sum_cons, hstat, Nat.add_assoc]
  | crossing ok call shardSize hc hcrosses =>
    exact hs.walk (hs.no_temp (by rw [hc]; simp)) le_rfl htarget
      (fun f _ => .inr (.inr (Nat.zero_le _)))
  | measured ok call shardSize hc hstays =>
    have hcall : (s.control pid).pending? = some call := hc ▸ rfl
    refine hs.leave (by rw [hc]; simp) ⟨rfl, rfl⟩ (Settled.ofCall s.files hs (by rw [hc]; rfl) hcall
      (by simp [pending?]) (fun _ _ => rfl) ?_)
    rw [accounted_of_none rfl, hc, accounted, map_nil, sum_nil, Nat.add_zero, if_neg hstays]
  | walk ok highWater target next path todo entries hc =>
    obtain ⟨hhigh, hgoal, hseen⟩ := hc ▸ hs.known pid
    refine hs.walk (hs.no_temp (by rw [hc]; simp)) hhigh hgoal (fun f hf => ?_)
    rcases hseen f hf with hin | htodo | hlater
    · exact .inl (mem_append_left _ hin)
    · rcases mem_cons.mp htodo with rfl | htodo
      · rw [stat_of_mem hs.distinct hf]
        exact .inl (mem_append_right _ (mem_singleton_self f))
      · exact .inr (.inl htodo)
    · exact .inr (.inr hlater)
  | nextShard ok highWater target next entries hc hnext =>
    obtain ⟨hhigh, hgoal, hseen⟩ := hc ▸ hs.known pid
    refine hs.walk (hs.no_temp (by rw [hc]; simp)) hhigh hgoal (fun f hf => ?_)
    rcases hseen f hf with hin | htodo | hlater
    · exact .inl hin
    · cases htodo
    · by_cases hhere : f.shard.val = next
      · exact .inr (.inl (mem_map_of_mem (mem_filter.mpr ⟨hf, decide_eq_true hhere⟩)))
      · exact .inr (.inr (by omega))
  | withinBudget ok highWater target next entries hc hnext htotal =>
    obtain ⟨hhigh, -, hseen⟩ := hc ▸ hs.known pid
    refine hs.over (by rw [hc]; rfl) ⟨rfl, rfl⟩ ?_
    exact (totalSize_le_of_subset hs.distinct.nodup (seen_of_walked hseen hnext)).trans
      (htotal.trans hhigh)
  | sort ok highWater target next entries hc hnext htotal =>
    obtain ⟨-, hgoal, hseen⟩ := hc ▸ hs.known pid
    refine hs.goto (hs.no_temp (by rw [hc]; simp)) (by simp [pending?]) ?_
      (.inl ⟨pid, by rw [control_goto_self]; rfl⟩)
    exact ⟨hgoal, totalSize_perm (cfg.perm_oldestFirst entries).symm, fun f hf =>
      (cfg.perm_oldestFirst entries).mem_iff.mpr (seen_of_walked hseen hnext hf)⟩
  | finish ok target total rest hc hend =>
    obtain ⟨hgoal, rfl, hsub⟩ := hc ▸ hs.known pid
    have hle := totalSize_le_of_subset hs.distinct.nodup hsub
    refine hs.over (by rw [hc]; rfl) ⟨rfl, rfl⟩ ?_
    rcases hend with hend | rfl
    · omega
    · exact hle.trans (Nat.zero_le _)
  | keep ok target total entry rest hc htotal hkept =>
    rcases hkept with hpinned | rfl
    · rw [hpins] at hpinned
      cases hpinned
    · cases hremoves (by rw [hc]; rfl)
  | remove ok target total entry rest hc htotal hpinned =>
    obtain ⟨hgoal, rfl, hsub⟩ := hc ▸ hs.known pid
    have htemp : ∀ f ∈ s.files, f.name ≠ .temp pid := hs.no_temp (by rw [hc]; simp)
    refine hs.move _ (hs.distinct.unlink _) ?_ (by simp [pending?]) ?_
      (.inl (fun f hf => (mem_unlink.mp hf).1)) (.inl ⟨pid, by rw [control_goto_self]; rfl⟩)
    · intro f hf q hname
      have hf := (mem_unlink.mp hf).1
      by_cases hq : q = pid
      · exact absurd (hq ▸ hname) (htemp f hf)
      · rw [if_neg hq]
        exact hf
    · refine ⟨hgoal, by rw [totalSize_cons]; omega, fun f hf => ?_⟩
      obtain ⟨hf, hpath⟩ := mem_unlink.mp hf
      rcases mem_cons.mp (hsub hf) with rfl | hrest
      · exact absurd rfl hpath
      · exact hrest

theorem budgeted_step (htarget : cfg.trimTarget ≤ cfg.maxSize)
    (hpins : ∀ path, cfg.pinned path = false) {e : DiskEvent} (hok : StoresApart cfg s e)
    (h : step cfg s e = some s') (hs : s.Budgeted cfg) : s'.Budgeted cfg := by
  cases e with
  | start pid request => exact budgeted_start hs hok h
  | step pid ok => exact budgeted_advance htarget hpins hs hok (advance_step h)

theorem budgeted_of_entries (hdistinct : DistinctPaths files)
    (hentries : ∀ f ∈ files, ∀ pid, f.name ≠ .temp pid) (htotal : totalSize files ≤ cfg.maxSize) :
    Budgeted cfg { files } := by
  refine budgeted_of_known hdistinct (fun f hf pid hname => absurd hname (hentries f hf pid)) ?_
    (fun _ => trivial) (settled_of_total htotal)
  intro p q call other hp
  cases hp

/-- When no call is running, the cache is less than a share for each shard above its budget. -/
theorem total_lt_of_idle (htarget : cfg.trimTarget ≤ cfg.maxSize)
    (hpins : ∀ path, cfg.pinned path = false)
    (hdistinct : DistinctPaths files) (hentries : ∀ f ∈ files, ∀ pid, f.name ≠ .temp pid)
    (htotal : totalSize files ≤ cfg.maxSize) {events : List DiskEvent} {t : DiskCache}
    (hrun : StepMachine.Run (step cfg) (StoresApart cfg) { files } events t)
    (hidle : ∀ pid, (t.control pid).running = false) :
    totalSize t.files < cfg.maxSize + 256 * max (cfg.maxSize / 256) 1 := by
  have hinv : t.Budgeted cfg :=
    hrun.invariant (fun _ _ _ h hok hs => budgeted_step htarget hpins hok h hs)
      (budgeted_of_entries hdistinct hentries htotal)
  exact total_lt_of_settled hinv.settled hidle

def firstShardCall (size : ℕ) : StoreCall := ⟨⟨0, zero_lt_kShardCount⟩, "f".toList, size⟩

def nearlyFull : DiskCache := { files := [⟨⟨1, one_lt_kShardCount⟩, .entry "old".toList, 2555, 0⟩] }

/-- The first process stores fifteen bytes in a shard, and the second three in another one before
the first measures. -/
def twoWrites : List DiskEvent :=
  [.start 0 (.put (firstShardCall 15)), .step 0 true, .step 0 true,
    .start 1 (.put ⟨⟨2, by decide⟩, "g".toList, 3⟩), .step 1 true, .step 1 true]

def afterWrites : DiskCache :=
  (StepMachine.exec (step (plainConfig 2560 2048)) (fun _ _ => True) nearlyFull twoWrites).get rfl

/-- The second process is over at once. The first walks the cache and removes the old entry. -/
def measureThenTrim : List DiskEvent :=
  List.replicate 3 (.step 1 true) ++ List.replicate 265 (.step 0 true)

/-- One of two processes goes on, and what it does is not a write. -/
def readsOn (s : DiskCache) : DiskEvent → Bool
  | .start _ _ => false
  | .step pid ok => ok && decide (pid < 2) && match s.control pid with
    | .looked _ _ | .created _ _ => false
    | _ => true

theorem storesApart_of_readsOn {e : DiskEvent} (h : s.readsOn e = true) : StoresApart cfg s e := by
  cases e with
  | start pid request => cases h
  | step pid ok =>
    simp only [readsOn, Bool.and_eq_true] at h
    refine ⟨?_, fun _ => h.1.1⟩
    generalize s.control pid = c at h
    cases c <;> first | trivial | cases h.2

theorem control_of_readsOn {e : DiskEvent} (hok : s.readsOn e = true) (h : step cfg s e = some s')
    (pid : ℕ) : s'.control (pid + 2) = s.control (pid + 2) := by
  cases e with
  | start pid request => cases hok
  | step q ok =>
    simp only [readsOn, Bool.and_eq_true, decide_eq_true_iff] at hok
    have hne : pid + 2 ≠ q := by omega
    cases advance_step h <;> exact update_of_ne hne ..

theorem total_lt_of_idle_crossing : ∃ t, StepMachine.Run (step (plainConfig 2560 2048))
      (StoresApart (plainConfig 2560 2048)) nearlyFull (twoWrites ++ measureThenTrim) t ∧
    t.control 0 = .swept ∧ totalSize t.files < 2560 + 256 * max (2560 / 256) 1 := by
  obtain ⟨t, hreads, hends⟩ : ∃ t, StepMachine.Run (step (plainConfig 2560 2048))
      (fun s e => s.readsOn e = true) afterWrites measureThenTrim t ∧
      (t.control 0, t.control 1) = (.swept, .done) :=
    StepMachine.exists_run_of_exec (by decide +kernel)
  obtain ⟨hfirst, hsecond⟩ := Prod.mk.inj hends
  have hidle : ∀ pid, (t.control pid).running = false := fun
    | 0 => by rw [hfirst]; rfl
    | 1 => by rw [hsecond]; rfl
    | pid + 2 => by
      have hbeyond : t.control (pid + 2) = .idle :=
        hreads.invariant (fun _ _ _ h hok hs => (control_of_readsOn hok h pid).trans hs) rfl
      rw [hbeyond]
      rfl
  have hrun : StepMachine.Run (step (plainConfig 2560 2048)) (StoresApart (plainConfig 2560 2048))
      nearlyFull (twoWrites ++ measureThenTrim) t := by
    refine .cons rfl trivial <| .cons rfl ⟨⟨?_, ?_⟩, fun _ => rfl⟩ <|
      .cons rfl ⟨⟨?_, by decide⟩, fun _ => rfl⟩ <| .cons rfl trivial <|
      .cons rfl ⟨⟨?_, ?_⟩, fun _ => rfl⟩ <| .cons rfl ⟨⟨?_, by decide⟩, fun _ => rfl⟩ <|
      hreads.imp (fun _ _ _ => storesApart_of_readsOn)
    · exact fun | 0 => rfl | _ + 1 => rfl
    · exact fun | 0, _, h => by cases h | _ + 1, _, h => by cases h
    · exact fun | 0 => rfl | _ + 1 => rfl
    · exact fun | 0 => rfl | 1 => rfl | _ + 2 => rfl
    · exact fun
        | 0, _, h => by cases h; decide
        | 1, _, h => by cases h
        | _ + 2, _, h => by cases h
    · exact fun | 0 => rfl | 1 => rfl | _ + 2 => rfl
  have hdistinct : DistinctPaths nearlyFull.files := nodup_singleton _
  exact ⟨t, hrun, hfirst, total_lt_of_idle (by decide) (fun _ => rfl) hdistinct
    (by simp [nearlyFull]) (by decide) hrun hidle⟩

/-- The first process stores a file, the second finds it there, the first removes it again because
it is beyond the budget, and the second puts it back without a look at the budget. -/
def replacedAfterTrim : List DiskEvent :=
  [.start 0 (.putFile (firstShardCall 300)), .step 0 true, .step 0 true, .step 0 true,
    .start 1 (.putFile (firstShardCall 300)), .step 1 true] ++
  List.replicate 263 (.step 0 true) ++ [.step 1 true, .step 1 true]

theorem total_ge_after_replaced :
    (StepMachine.exec (step (plainConfig 1 0)) (fun _ _ => True) { files := [] }
      replacedAfterTrim).map (fun t => (t.control 0, t.control 1, totalSize t.files)) =
      some (.swept, .done, 300) ∧ 1 + 256 * max (1 / 256) 1 ≤ 300 := by
  decide +kernel

end DiskCache

end Vcache

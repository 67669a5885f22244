import Vcache.DiskCache

/-!
# Trims that run at the same time

Each trim sorts what its walk saw and removes from the oldest on. What it did not see
another one has removed, and what another one removes meanwhile counts as freed, so
all of them take from one end and stop where one alone would.
-/

namespace Vcache

open List Function

variable {next total : ℕ} {seen rest : List CacheFile}

section Sums

variable {files kept : List CacheFile} {p q : CacheFile → Bool} {f : CacheFile}

theorem totalSize_filter_mono (hnodup : files.Nodup) (h : ∀ f ∈ files, p f = true → q f = true) :
    totalSize (files.filter p) ≤ totalSize (files.filter q) := by
  refine totalSize_le_of_subset (hnodup.filter _) (fun f hf => ?_)
  obtain ⟨hf, hp⟩ := mem_filter.mp hf
  exact mem_filter.mpr ⟨hf, h f hf hp⟩

theorem totalSize_filter_notMem (hnodup : files.Nodup) (hkept : kept.Nodup) (h : kept ⊆ files) :
    totalSize (files.filter (fun f => f ∉ kept)) + totalSize kept = totalSize files := by
  have hperm : (files.filter (fun f => f ∈ kept)).Perm kept := by
    rw [perm_ext_iff_of_nodup (hnodup.filter _) hkept]
    intro f
    rw [mem_filter, decide_eq_true_iff]
    exact ⟨fun hf => hf.2, fun hf => ⟨h hf, hf⟩⟩
  have hsplit := filter_append_perm (fun f => decide (f ∈ kept)) files
  rw [← totalSize_perm hsplit, totalSize_append, totalSize_perm hperm, Nat.add_comm]
  congr 3
  funext f
  exact (decide_not ..)

theorem totalSize_filter_insert (hnodup : files.Nodup) (hf : f ∈ files) (hp : p f = false)
    (hq : ∀ g ∈ files, q g = true ↔ g = f ∨ p g = true) :
    totalSize (files.filter q) = f.size + totalSize (files.filter p) := by
  rw [← totalSize_cons]
  refine totalSize_perm ?_
  rw [perm_ext_iff_of_nodup (hnodup.filter _)]
  · intro g
    rw [mem_cons, mem_filter, mem_filter]
    constructor
    · rintro ⟨hg, hqg⟩
      rcases (hq g hg).mp hqg with rfl | hpg
      · exact .inl rfl
      · exact .inr ⟨hg, hpg⟩
    · rintro (rfl | ⟨hg, hpg⟩)
      · exact ⟨hf, (hq g hf).mpr (.inl rfl)⟩
      · exact ⟨hg, (hq g hg).mpr (.inr hpg)⟩
  · refine nodup_cons.mpr ⟨fun hmem => ?_, hnodup.filter _⟩
    rw [(mem_filter.mp hmem).2] at hp
    cases hp

end Sums

/-- What one trim alone would take: the shortest run of the oldest entries that are not pinned
whose removal brings the total to the target, or all of those if none does. -/
structure EvictionCut (cfg : DiskConfig) (entries : List CacheFile) (target : ℕ)
    (cut : List CacheFile) : Prop where
  oldest : cut <+: cfg.oldestFirst (entries.filter (fun f => !cfg.pinned f.path))
  enough : totalSize entries ≤ target + totalSize cut ∨
    cut = cfg.oldestFirst (entries.filter (fun f => !cfg.pinned f.path))
  shortest : ∀ shorter, shorter <+: cut → totalSize entries ≤ target + totalSize shorter →
    shorter = cut

/-- Every process makes at most one call, it is a trim, and it can remove what is there: no
other call of a trim looks at `ok`. -/
def OnlyTrims (highWater target : ℕ) (s : DiskCache) : DiskEvent → Prop
  | .start pid request => request = .trim highWater target ∧ s.control pid = .idle
  | .step _ ok => ok = true

namespace EvictionCut

variable {cfg : DiskConfig} {entries cut : List CacheFile} {target : ℕ} {f g : CacheFile}

theorem mem (h : EvictionCut cfg entries target cut) (hf : f ∈ cut) :
    f ∈ entries ∧ cfg.pinned f.path = false := by
  have hf := (cfg.perm_oldestFirst _).mem_iff.mp (h.oldest.subset hf)
  obtain ⟨hf, hpinned⟩ := mem_filter.mp hf
  exact ⟨hf, by simpa using hpinned⟩

theorem nodup (h : EvictionCut cfg entries target cut) (hnodup : entries.Nodup) : cut.Nodup := by
  have hsorted := (cfg.perm_oldestFirst _).nodup_iff.mpr
    (hnodup.filter (fun f => !cfg.pinned f.path))
  exact h.oldest.sublist.nodup hsorted

theorem younger (h : EvictionCut cfg entries target cut) (hf : f ∈ cut) (hg : g ∈ entries)
    (hpinned : cfg.pinned g.path = false) (hout : g ∉ cut) : f.lruTime ≤ g.lruTime := by
  obtain ⟨later, hlater⟩ := h.oldest
  have hsorted := cfg.sorted_oldestFirst (entries.filter (fun f => !cfg.pinned f.path))
  have hmem : g ∈ cut ++ later := by
    rw [hlater, (cfg.perm_oldestFirst _).mem_iff, mem_filter]
    exact ⟨hg, by rw [hpinned]; rfl⟩
  rw [← hlater] at hsorted
  have hg := (mem_append.mp hmem).resolve_left hout
  exact (pairwise_append.mp hsorted).2.2 f hf g hg

end EvictionCut

namespace DiskCache

/-- What a process knows of the cache where it is, if it makes a trim to the target or nothing. -/
def TrimKnows (cfg : DiskConfig) (entries cut : List CacheFile) (target : ℕ)
    (files : List CacheFile) : DiskControl → Prop
  | .idle | .done => True
  | .swept => ∀ f ∈ cut, f ∉ files
  | .walking _ goal next todo seen => goal = target ∧
    seen.Nodup ∧ seen ⊆ entries ∧ todo.Nodup ∧ (∀ path ∈ todo, path.1.val < next) ∧
    (∀ f ∈ seen, f.shard.val < next ∧ f.path ∉ todo) ∧
    ∀ f ∈ files, f ∈ seen ∨ f.path ∈ todo ∨ next ≤ f.shard.val
  | .removing goal rest total => goal = target ∧
    rest.Pairwise (fun a b => a.lruTime < b.lruTime) ∧ rest ⊆ entries ∧
    (∀ f ∈ files, f ∈ rest ∨ cfg.pinned f.path = true) ∧
    total = totalSize (entries.filter (fun f => f ∈ rest ∨ cfg.pinned f.path = true))
  | _ => False

/-- What holds while trims run: `entries` is what there was, `cut` what one of them would take. -/
structure Trimming (cfg : DiskConfig) (entries cut : List CacheFile) (target : ℕ)
    (s : DiskCache) : Prop where
  files : s.files.Sublist entries
  inCut : ∀ f ∈ entries, f ∉ s.files → f ∈ cut
  fromOldest : ∀ f ∈ entries, f ∉ s.files → ∀ g ∈ entries, cfg.pinned g.path = false →
    g.lruTime < f.lruTime → g ∉ s.files
  storing : ∀ pid, s.control pid = .idle ∨ s.control pid = .done ∨ s.control pid = .swept ∨
    (∃ highWater next todo seen,
      s.control pid = .walking highWater target next todo seen) ∨
    ∃ rest total, s.control pid = .removing target rest total
  walking : ∀ pid highWater next todo seen,
    s.control pid = .walking highWater target next todo seen →
    seen.Nodup ∧ seen ⊆ entries ∧ todo.Nodup ∧ (∀ path ∈ todo, path.1.val < next) ∧
    (∀ f ∈ seen, f.shard.val < next ∧ f.path ∉ todo) ∧
    ∀ f ∈ s.files, f ∈ seen ∨ f.path ∈ todo ∨ next ≤ f.shard.val
  removing : ∀ pid rest total, s.control pid = .removing target rest total →
    rest.Pairwise (fun a b => a.lruTime < b.lruTime) ∧ rest ⊆ entries ∧
    (∀ f ∈ s.files, f ∈ rest ∨ cfg.pinned f.path = true) ∧
    total = totalSize (entries.filter (fun f => f ∈ rest ∨ cfg.pinned f.path = true))
  swept : ∀ pid, s.control pid = .swept → ∀ f ∈ cut, f ∉ s.files

variable {cfg : DiskConfig} {entries cut : List CacheFile} {highWater target : ℕ}
  {s s' : DiskCache} {pid : ℕ} {c : DiskControl}

theorem Trimming.known (hs : s.Trimming cfg entries cut target) (pid : ℕ) :
    TrimKnows cfg entries cut target s.files (s.control pid) := by
  rcases hs.storing pid with h | h | h | ⟨highWater, next, todo, seen, h⟩ | ⟨rest, total, h⟩ <;>
    rw [h]
  · trivial
  · trivial
  · exact hs.swept pid h
  · exact ⟨rfl, hs.walking pid highWater next todo seen h⟩
  · exact ⟨rfl, hs.removing pid rest total h⟩

theorem trimming_of_known (hfiles : s.files.Sublist entries)
    (hcut : ∀ f ∈ entries, f ∉ s.files → f ∈ cut)
    (holdest : ∀ f ∈ entries, f ∉ s.files → ∀ g ∈ entries, cfg.pinned g.path = false →
      g.lruTime < f.lruTime → g ∉ s.files)
    (hknown : ∀ pid, TrimKnows cfg entries cut target s.files (s.control pid)) :
    s.Trimming cfg entries cut target := by
  refine ⟨hfiles, hcut, holdest, fun pid => ?_, fun pid highWater next todo seen h => ?_,
    fun pid rest total h => ?_, fun pid h => ?_⟩ <;> have hknows := hknown pid
  · generalize s.control pid = c at hknows ⊢
    cases c <;> simp_all [TrimKnows]
  · rw [h] at hknows
    exact hknows.2
  · rw [h] at hknows
    exact hknows.2
  · rwa [h] at hknows

theorem TrimKnows.mono {files less : List CacheFile} (h : TrimKnows cfg entries cut target files c)
    (hsub : less ⊆ files) : TrimKnows cfg entries cut target less c := by
  cases c with
  | swept => exact fun f hf hin => h f hf (hsub hin)
  | walking =>
    obtain ⟨hgoal, hnodup, hentries, htodo, hpast, hseen, hall⟩ := h
    exact ⟨hgoal, hnodup, hentries, htodo, hpast, hseen, fun f hf => hall f (hsub hf)⟩
  | removing =>
    obtain ⟨hgoal, hsorted, hentries, hall, htotal⟩ := h
    exact ⟨hgoal, hsorted, hentries, fun f hf => hall f (hsub hf), htotal⟩
  | _ => exact h

section

variable (hs : s.Trimming cfg entries cut target)

include hs

theorem Trimming.move (files : List CacheFile)
    (hsub : files.Sublist s.files) (hcut : ∀ f ∈ entries, f ∉ files → f ∈ cut)
    (holdest : ∀ f ∈ entries, f ∉ files → ∀ g ∈ entries, cfg.pinned g.path = false →
      g.lruTime < f.lruTime → g ∉ files)
    (hknows : TrimKnows cfg entries cut target files c) :
    ((s.setFiles files).goto pid c).Trimming cfg entries cut target :=
  trimming_of_known (hsub.trans hs.files) hcut holdest
    (forall_goto hknows (fun q => (hs.known q).mono hsub.subset))

theorem Trimming.goto (hknows : TrimKnows cfg entries cut target s.files c) :
    (s.goto pid c).Trimming cfg entries cut target :=
  hs.move s.files (List.Sublist.refl _) hs.inCut hs.fromOldest hknows

theorem Trimming.look (hentries : DistinctPaths entries)
    {path : CachePath} {todo : List CachePath}
    (hc : s.control pid = .walking highWater target next (path :: todo) seen) :
    (s.goto pid (.walking highWater target next todo
      (seen ++ (stat s.files path).toList))).Trimming cfg entries cut target := by
  obtain ⟨-, hnodup, hsub, htodo, hpast, hseen, hall⟩ := hc ▸ hs.known pid
  obtain ⟨hfresh, htodo⟩ := nodup_cons.mp htodo
  have hdistinct : DistinctPaths s.files := hentries.sublist (hs.files.map _)
  have hlater : ∀ f ∈ seen, f.shard.val < next ∧ f.path ∉ todo := fun f hf =>
    ⟨(hseen f hf).1, fun hin => (hseen f hf).2 (mem_cons_of_mem _ hin)⟩
  refine hs.goto ⟨rfl, ?_, ?_, htodo, fun p hp => hpast p (mem_cons_of_mem _ hp), ?_, ?_⟩
  · refine nodup_append.mpr ⟨hnodup, ?_, ?_⟩
    · cases stat s.files path with
      | none => exact nodup_nil
      | some f => exact nodup_singleton f
    · intro f hf g hg
      obtain ⟨-, rfl⟩ := mem_of_stat (Option.mem_toList.mp hg)
      rintro rfl
      exact (hseen f hf).2 mem_cons_self
  · refine append_subset.mpr ⟨hsub, fun g hg => ?_⟩
    exact hs.files.subset (mem_of_stat (Option.mem_toList.mp hg)).1
  · intro f hf
    rcases mem_append.mp hf with hf | hf
    · exact hlater f hf
    · obtain ⟨-, rfl⟩ := mem_of_stat (Option.mem_toList.mp hf)
      exact ⟨hpast f.path mem_cons_self, hfresh⟩
  · intro f hf
    rcases hall f hf with hin | hin | hin
    · exact .inl (mem_append_left _ hin)
    · rcases mem_cons.mp hin with rfl | hin
      · rw [stat_of_mem hdistinct hf]
        exact .inl (mem_append_right _ (mem_singleton_self f))
      · exact .inr (.inl hin)
    · exact .inr (.inr hin)

theorem Trimming.nextShard
    (hentries : DistinctPaths entries)
    (hc : s.control pid = .walking highWater target next [] seen) :
    (s.goto pid (.walking highWater target (next + 1) (listDir s.files next) seen)).Trimming cfg
      entries cut target := by
  obtain ⟨-, hnodup, hsub, -, -, hseen, hall⟩ := hc ▸ hs.known pid
  have hdistinct : DistinctPaths s.files := hentries.sublist (hs.files.map _)
  have hhere : ∀ path ∈ listDir s.files next, path.1.val = next := by
    intro path hpath
    obtain ⟨f, hf, rfl⟩ := mem_map.mp hpath
    exact of_decide_eq_true (mem_filter.mp hf).2
  refine hs.goto ⟨rfl, hnodup, hsub, hdistinct.sublist (filter_sublist.map _), ?_, ?_, ?_⟩
  · intro path hpath
    have := hhere path hpath
    omega
  · intro f hf
    have hlt := (hseen f hf).1
    refine ⟨by omega, fun hin => ?_⟩
    have : f.shard.val = next := hhere f.path hin
    omega
  · intro f hf
    rcases hall f hf with hin | hin | hin
    · exact .inl hin
    · cases hin
    · by_cases hshard : f.shard.val = next
      · exact .inr (.inl (mem_map_of_mem (mem_filter.mpr ⟨hf, decide_eq_true hshard⟩)))
      · exact .inr (.inr (by omega))

theorem Trimming.kept
    (hcut : EvictionCut cfg entries target cut) {f : CacheFile} (hf : f ∈ entries)
    (hpinned : cfg.pinned f.path = true) : f ∈ s.files := by
  by_contra hgone
  rw [(hcut.mem (hs.inCut f hf hgone)).2] at hpinned
  cases hpinned

theorem Trimming.sort
    (hcut : EvictionCut cfg entries target cut) (hentries : DistinctPaths entries)
    (htimes : (entries.map (·.lruTime)).Nodup)
    (hc : s.control pid = .walking highWater target next [] seen) (hnext : kShardCount ≤ next) :
    (s.goto pid (.removing target (cfg.oldestFirst seen) (totalSize seen))).Trimming cfg entries cut
      target := by
  obtain ⟨-, hnodup, hsub, -, -, -, hall⟩ := hc ▸ hs.known pid
  have hperm := cfg.perm_oldestFirst seen
  have hseen : ∀ f ∈ s.files, f ∈ seen := by
    intro f hf
    rcases hall f hf with hin | hin | hin
    · exact hin
    · cases hin
    · have := f.shard.isLt
      omega
  refine hs.goto ⟨rfl, ?_, fun f hf => hsub (hperm.mem_iff.mp hf), fun f hf => ?_, ?_⟩
  · -- Entries of different times are never equally old.
    have hboth := (cfg.sorted_oldestFirst seen).and (hperm.nodup_iff.mpr hnodup)
    refine hboth.imp_of_mem (fun {a b} ha hb hab => lt_of_le_of_ne hab.1 (fun htime => hab.2 ?_))
    exact inj_on_of_nodup_map htimes (hsub (hperm.mem_iff.mp ha))
      (hsub (hperm.mem_iff.mp hb)) htime
  · exact .inl (hperm.mem_iff.mpr (hseen f hf))
  · refine totalSize_perm ?_
    rw [perm_ext_iff_of_nodup hnodup (hentries.nodup.filter _)]
    intro f
    rw [mem_filter, decide_eq_true_iff, hperm.mem_iff]
    refine ⟨fun hf => ⟨hsub hf, .inl hf⟩, ?_⟩
    rintro ⟨hf, hin | hpinned⟩
    · exact hin
    · exact hseen f (hs.kept hcut hf hpinned)

theorem Trimming.keep {entry : CacheFile}
    (hc : s.control pid = .removing target (entry :: rest) total)
    (hpinned : cfg.pinned entry.path = true) :
    (s.goto pid (.removing target rest total)).Trimming cfg entries cut target := by
  obtain ⟨-, hsorted, hsub, hall, htotal⟩ := hc ▸ hs.known pid
  refine hs.goto ⟨rfl, hsorted.of_cons, fun f hf => hsub (mem_cons_of_mem _ hf), fun f hf => ?_, ?_⟩
  · rcases hall f hf with hin | hin
    · rcases mem_cons.mp hin with rfl | hin
      · exact .inr hpinned
      · exact .inl hin
    · exact .inr hin
  · rw [htotal]
    congr 1
    refine filter_congr (fun f _ => decide_eq_decide.mpr ?_)
    rw [mem_cons]
    constructor
    · rintro ((rfl | hin) | hin)
      · exact .inr hpinned
      · exact .inl hin
      · exact .inr hin
    · rintro (hin | hin)
      · exact .inl (.inr hin)
      · exact .inr hin

/-- While a trim is above its target, the next entry is one that a trim alone would take: the
older ones and the pinned ones are all there is beside what the trim has before it. -/
theorem Trimming.mem_cut
    (hcut : EvictionCut cfg entries target cut) (hentries : entries.Nodup) {entry : CacheFile}
    (hc : s.control pid = .removing target (entry :: rest) total) (htotal : target < total)
    (hpinned : cfg.pinned entry.path = false) : entry ∈ cut := by
  obtain ⟨-, hsorted, hsub, -, hsum⟩ := hc ▸ hs.known pid
  have hentry : entry ∈ entries := hsub mem_cons_self
  by_contra hout
  rcases hcut.enough with henough | hwhole
  · have hle : total ≤ totalSize (entries.filter (fun f => f ∉ cut)) := by
      rw [hsum]
      refine totalSize_filter_mono hentries (fun f hf hin => decide_eq_true (fun hf' => ?_))
      have hyounger := hcut.younger hf' hentry hpinned hout
      rcases of_decide_eq_true hin with hin | hin
      · rcases mem_cons.mp hin with rfl | hin
        · exact hout hf'
        · have := rel_of_pairwise_cons hsorted hin
          omega
      · rw [(hcut.mem hf').2] at hin
        cases hin
    have hsplit := totalSize_filter_notMem hentries (hcut.nodup hentries)
      (fun f hf => (hcut.mem hf).1)
    omega
  · refine hout ?_
    rw [hwhole, (cfg.perm_oldestFirst _).mem_iff, mem_filter]
    exact ⟨hentry, by rw [hpinned]; rfl⟩

theorem Trimming.remove
    (hcut : EvictionCut cfg entries target cut) (hentries : DistinctPaths entries)
    {entry : CacheFile}
    (hc : s.control pid = .removing target (entry :: rest) total) (htotal : target < total)
    (hpinned : cfg.pinned entry.path = false) :
    ((s.setFiles (unlink s.files entry.path)).goto pid
      (.removing target rest (total - entry.size))).Trimming cfg entries cut target := by
  obtain ⟨-, hsorted, hsub, hall, hsum⟩ := hc ▸ hs.known pid
  have hentry : entry ∈ entries := hsub mem_cons_self
  have hgone : ∀ f ∈ entries, f ∉ unlink s.files entry.path → f ∉ s.files ∨ f = entry := by
    intro f hf hout
    by_cases hpath : f.path = entry.path
    · exact .inr (hentries.eq hf hentry hpath)
    · exact .inl (fun hin => hout (mem_unlink.mpr ⟨hin, hpath⟩))
  refine hs.move _ filter_sublist ?_ ?_ ⟨rfl, hsorted.of_cons,
    fun f hf => hsub (mem_cons_of_mem _ hf), fun f hf => ?_, ?_⟩
  · intro f hf hout
    rcases hgone f hf hout with hout | rfl
    · exact hs.inCut f hf hout
    · exact hs.mem_cut hcut hentries.nodup hc htotal hpinned
  · intro f hf hout g hg hfree hlt hin
    have hthere := (mem_unlink.mp hin).1
    rcases hgone f hf hout with hout | rfl
    · exact hs.fromOldest f hf hout g hg hfree hlt hthere
    · -- An older entry is neither pinned nor before the trim, so it was gone.
      rcases hall g hthere with hin | hin
      · rcases mem_cons.mp hin with rfl | hin
        · omega
        · have := rel_of_pairwise_cons hsorted hin
          omega
      · rw [hfree] at hin
        cases hin
  · obtain ⟨hf, hpath⟩ := mem_unlink.mp hf
    rcases hall f hf with hin | hin
    · rcases mem_cons.mp hin with rfl | hin
      · exact absurd rfl hpath
      · exact .inl hin
    · exact .inr hin
  · have hinsert := totalSize_filter_insert
      (p := fun f => f ∈ rest ∨ cfg.pinned f.path = true)
      (q := fun f => f ∈ entry :: rest ∨ cfg.pinned f.path = true) hentries.nodup hentry ?_ ?_
    · rw [hsum, hinsert]
      omega
    · refine decide_eq_false ?_
      rintro (hin | hin)
      · exact lt_irrefl _ (rel_of_pairwise_cons hsorted hin)
      · rw [hpinned] at hin
        cases hin
    · intro g _
      rw [decide_eq_true_iff, decide_eq_true_iff, mem_cons, or_assoc]

theorem Trimming.finish
    (hcut : EvictionCut cfg entries target cut) (hentries : entries.Nodup)
    (htimes : (entries.map (·.lruTime)).Nodup)
    (hc : s.control pid = .removing target rest total) (hend : total ≤ target ∨ rest = []) :
    (s.goto pid .swept).Trimming cfg entries cut target := by
  obtain ⟨-, -, -, hall, hsum⟩ := hc ▸ hs.known pid
  refine hs.goto (fun f hf hin => ?_)
  obtain ⟨hentry, hfree⟩ := hcut.mem hf
  rcases hend with hend | rfl
  · -- What is older than an entry that is left does not make up for the total.
    obtain ⟨older, younger, rfl⟩ := append_of_mem hf
    have hle : totalSize (entries.filter (fun g => g ∉ older)) ≤ total := by
      rw [hsum]
      refine totalSize_filter_mono hentries (fun g hg hout => decide_eq_true ?_)
      have hout := of_decide_eq_true hout
      by_cases hthere : g ∈ s.files
      · exact hall g hthere
      · exfalso
        have hg' := hs.inCut g hg hthere
        have hnot : ¬ f.lruTime < g.lruTime := fun hlt =>
          hs.fromOldest g hg hthere f hentry hfree hlt hin
        rcases mem_cons.mp ((mem_append.mp hg').resolve_left hout) with rfl | hyounger
        · exact hthere hin
        · have hsorted := (cfg.sorted_oldestFirst _).sublist hcut.oldest.sublist
          have hle := rel_of_pairwise_cons (pairwise_append.mp hsorted).2.1 hyounger
          obtain rfl := inj_on_of_nodup_map htimes hentry hg (by omega)
          exact hthere hin
    have hsplit := totalSize_filter_notMem hentries
      ((hcut.nodup hentries).sublist (sublist_append_left ..))
      (fun g hg => (hcut.mem (mem_append_left _ hg)).1)
    have heq := hcut.shortest older (prefix_append ..) (by omega)
    have hlength := congrArg length heq
    rw [length_append, length_cons] at hlength
    omega
  · rcases hall f hin with hin | hin
    · cases hin
    · rw [hfree] at hin
      cases hin

end

theorem trimming_step (hcut : EvictionCut cfg entries target cut)
    (hentries : DistinctPaths entries) (htimes : (entries.map (·.lruTime)).Nodup) {e : DiskEvent}
    (hok : OnlyTrims highWater target s e) (h : step cfg s e = some s')
    (hs : s.Trimming cfg entries cut target) : s'.Trimming cfg entries cut target := by
  cases e with
  | start pid request =>
    obtain ⟨rfl, hidle⟩ := hok
    have hs' : s' = s.goto pid (.walking highWater target 0 [] []) := by
      rw [step, start.eq_def, hidle] at h
      exact (Option.some.inj h).symm
    subst hs'
    exact hs.goto ⟨rfl, nodup_nil, nil_subset _, nodup_nil, by simp, by simp,
      fun f _ => .inr (.inr (Nat.zero_le _))⟩
  | step pid ok =>
    have hknows := hs.known pid
    cases advance_step h with
    | walk _ highWater' target' next path todo seen hc =>
      obtain rfl : target' = target := (hc ▸ hknows).1
      exact hs.look hentries hc
    | nextShard _ highWater' target' next seen hc hnext =>
      obtain rfl : target' = target := (hc ▸ hknows).1
      exact hs.nextShard hentries hc
    | withinBudget _ highWater' target' next seen hc hnext htotal =>
      exact hs.goto trivial
    | sort _ highWater' target' next seen hc hnext htotal =>
      obtain rfl : target' = target := (hc ▸ hknows).1
      exact hs.sort hcut hentries htimes hc hnext
    | finish _ target' total rest hc hend =>
      obtain rfl : target' = target := (hc ▸ hknows).1
      exact hs.finish hcut hentries.nodup htimes hc hend
    | keep _ target' total entry rest hc htotal hkept =>
      obtain rfl : target' = target := (hc ▸ hknows).1
      rcases hkept with hpinned | hfails
      · exact hs.keep hc hpinned
      · rw [show ok = true from hok] at hfails
        cases hfails
    | remove _ target' total entry rest hc htotal hpinned =>
      obtain rfl : target' = target := (hc ▸ hknows).1
      exact hs.remove hcut hentries hc htotal hpinned
    | _ =>
      rw [‹s.control pid = _›] at hknows
      exact hknows.elim

/-- Trims that run at the same time remove only what one alone would, and all of it once one of
them has been above the high-water mark and is through. -/
theorem trims_evict_cut (hentries : DistinctPaths entries)
    (htimes : (entries.map (·.lruTime)).Nodup) (hcut : EvictionCut cfg entries target cut)
    {events : List DiskEvent} {t : DiskCache}
    (hrun : StepMachine.Run (step cfg) (OnlyTrims highWater target) { files := entries } events t) :
    (∀ f ∈ entries, f ∉ t.files → f ∈ cut) ∧
      ((∃ pid, t.control pid = .swept) → ∀ f ∈ cut, f ∉ t.files) := by
  have hstart : Trimming cfg entries cut target { files := entries } := by
    exact trimming_of_known (List.Sublist.refl _) (fun f hf hout => absurd hf hout)
      (fun f hf hout => absurd hf hout) (fun pid => trivial)
  have hinv := hrun.invariant
    (fun _ _ _ h hok hs => trimming_step hcut hentries htimes hok h hs) hstart
  exact ⟨hinv.inCut, fun ⟨pid, hpid⟩ => hinv.swept pid hpid⟩

def twoEntries : List CacheFile :=
  [⟨⟨0, zero_lt_kShardCount⟩, .entry "a".toList, 5, 1⟩,
    ⟨⟨1, one_lt_kShardCount⟩, .entry "b".toList, 5, 2⟩]

def twoTrims : List DiskEvent :=
  [.start 0 (.trim 8 6), .start 1 (.trim 8 6)] ++ List.replicate 261 (.step 0 true) ++
    List.replicate 3 (.step 1 true)

instance (highWater target : ℕ) (s : DiskCache) (e : DiskEvent) :
    Decidable (OnlyTrims highWater target s e) :=
  match e with
  | .start _ _ => inferInstanceAs (Decidable (_ ∧ _))
  | .step _ _ => inferInstanceAs (Decidable (_ = _))

theorem evictionCut_twoEntries :
    EvictionCut (plainConfig 10 6) twoEntries 6 (twoEntries.take 1) where
  oldest := by decide
  enough := .inl (by decide)
  shortest := by
    rintro shorter hshorter htotal
    rcases prefix_cons_iff.mp hshorter with rfl | ⟨rest, rfl, hrest⟩
    · exact absurd htotal (by decide)
    · rw [prefix_nil.mp hrest]
      rfl

theorem trims_evict_cut_twoTrims : ∃ t, StepMachine.Run (step (plainConfig 10 6)) (OnlyTrims 8 6)
      { files := twoEntries } twoTrims t ∧
    (∀ f ∈ twoEntries, f ∉ t.files → f ∈ twoEntries.take 1) ∧
      ((∃ pid, t.control pid = .swept) → ∀ f ∈ twoEntries.take 1, f ∉ t.files) := by
  have hsome : (StepMachine.exec (step (plainConfig 10 6)) (OnlyTrims 8 6)
      { files := twoEntries } twoTrims).isSome = true := by decide +kernel
  have hrun := StepMachine.run_of_exec (Option.some_get hsome).symm
  have hdistinct : (twoEntries.map (·.path)).Nodup := by decide
  exact ⟨_, hrun, trims_evict_cut hdistinct (by decide) evictionCut_twoEntries hrun⟩

/-- The oldest entry cannot be removed, so the trim goes on to the next. -/
def failingTrim : List DiskEvent :=
  .start 0 (.trim 8 6) :: List.replicate 259 (.step 0 true) ++
    [.step 0 false, .step 0 true, .step 0 true]

theorem younger_evicted_of_failed_removal :
    EvictionCut (plainConfig 10 6) twoEntries 6 (twoEntries.take 1) ∧
      ∃ t, StepMachine.Run (step (plainConfig 10 6)) (fun _ _ => True) { files := twoEntries }
          failingTrim t ∧ t.control 0 = .swept ∧ (∃ f ∈ twoEntries.take 1, f ∈ t.files) ∧
        ∃ f ∈ twoEntries, f ∉ t.files ∧ f ∉ twoEntries.take 1 := by
  have hsome : (StepMachine.exec (step (plainConfig 10 6)) (fun _ _ => True)
      { files := twoEntries } failingTrim).isSome = true := by decide +kernel
  refine ⟨evictionCut_twoEntries, _, StepMachine.run_of_exec (Option.some_get hsome).symm, ?_⟩
  decide +kernel +revert

end DiskCache

end Vcache

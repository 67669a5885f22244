import Vcache.AbsoluteRoots
import Vcache.ManifestHit

/-!
# Absent paths in another tree

A path that was looked for in vain is recorded as its highest missing ancestor, under
its canonical spelling, and a tree elsewhere checks what that spelling names there. The
walk up stops at every root, so the ancestor has the root of the path, and what is checked
is the moved path or an ancestor of it. It is not if the path stands outside all roots and
below a canonical target, or if the root is `/` and glued to the path's first name.
-/

namespace Vcache

open List Option

open FileTree (Lookup Node Step Tree)

variable {above stop first : Str} {stops names : List Str}

variable {rest segment name : Str}

/-! ## Going up to a stop -/

theorem Separated.of_append {below : Str} (h : Separated (above ++ below)) :
    Separated above := by
  cases above with
  | nil => exact .inl rfl
  | cons c above =>
    obtain ⟨rest, hrest⟩ := h.resolve_left (cons_ne_nil _ _)
    exact .inr ⟨above, by rw [(cons.inj hrest).1]⟩

theorem separated_dir {dir base : Str} (h : stop ++ rest = dir ++ '/' :: base)
    (hbase : '/' ∉ base) (hrest : Separated rest) (hne : rest ≠ []) :
    ∃ above, dir = stop ++ above ∧ Separated above ∧ rest = above ++ '/' :: base := by
  rcases append_eq_append_iff.mp h with ⟨above, hdir, rfl⟩ | ⟨extra, hstop, hextra⟩
  · exact ⟨above, hdir, hrest.of_append, rfl⟩
  · cases extra with
    | nil => exact ⟨[], by rw [hstop, append_nil, append_nil], .inl rfl, hextra.symm⟩
    | cons c extra =>
      obtain ⟨below, rfl⟩ := hrest.resolve_left hne
      obtain ⟨-, rfl⟩ := cons.inj hextra
      exact absurd (mem_append_right extra mem_cons_self) hbase

theorem climb_below_stop (present : Str → Bool) (fuel : ℕ)
    (hstop : stop ∈ stops) (hrest : Separated rest) :
    ∃ above, climb stops present fuel (stop ++ rest) = stop ++ above ∧ Separated above ∧
      Above above rest := by
  induction fuel generalizing rest with
  | zero => exact ⟨rest, rfl, hrest, .inl rfl⟩
  | succ fuel ih =>
    rw [climb]
    split
    · rename_i hcond
      have hne : rest ≠ [] := by
        rintro rfl
        exact hcond.1 (by rwa [append_nil])
      obtain ⟨base, hpath, hbase⟩ := eq_dirName_append hcond.2.1
      obtain ⟨above, hdir, habove, hmore⟩ := separated_dir hpath hbase hrest hne
      rw [hdir]
      obtain ⟨higher, heq, hsep, hhigher⟩ := ih habove
      refine ⟨higher, heq, hsep, .inr ?_⟩
      rcases hhigher with rfl | ⟨below, rfl⟩
      · exact ⟨base, hmore⟩
      · exact ⟨below ++ '/' :: base, by rw [hmore, append_assoc, cons_append]⟩
    · exact ⟨rest, rfl, hrest, .inl rfl⟩

theorem highestAbsent_below_stop (present : Str → Bool)
    (hstop : stop ∈ stops) (hrest : Separated rest) :
    ∃ above, highestAbsent stops present (stop ++ rest) = stop ++ above ∧ Separated above ∧
      Above above rest := by
  rw [highestAbsent]
  split
  · exact ⟨rest, rfl, hrest, .inl rfl⟩
  · exact climb_below_stop present _ hstop hrest

/-! ## Two trees -/

theorem isUnder_of_above {path root : Str} (hpath : Above above path)
    (h : isUnder above root = true) : isUnder path root = true := by
  rcases hpath with rfl | ⟨below, rfl⟩
  · exact h
  · obtain ⟨rest, rfl, hrest⟩ := isUnder_iff.mp h
    refine isUnder_iff.mpr ⟨rest ++ '/' :: below, by rw [append_assoc], hrest.imp_right ?_⟩
    rintro (rfl | ⟨middle, rfl⟩)
    · exact .inr ⟨below, rfl⟩
    · exact .inr ⟨middle ++ '/' :: below, rfl⟩

theorem Above.append {path : Str} (h : Above above path) (dir : Str) :
    Above (dir ++ above) (dir ++ path) := by
  rcases h with rfl | ⟨below, rfl⟩
  · exact .inl rfl
  · exact .inr ⟨below, by rw [append_assoc]⟩

namespace RootMap

def TargetsApart (m : RootMap) : Prop :=
  ∀ r ∈ m.roots, ∀ s ∈ m.roots, isUnder r.canonical s.canonical = true → r.canonical = s.canonical

def SameTargets (here there : RootMap) : Prop :=
  ∀ c, c ∈ here.roots.map Root.canonical ↔ c ∈ there.roots.map Root.canonical

def corresponding (there : RootMap) (r : Root) : Option Root :=
  there.roots.find? (fun s => s.canonical = r.canonical)

def underRoot (dir rest : Str) : Str := if Separated rest then dir ++ rest else dir ++ '/' :: rest

def moved (here there : RootMap) (path : Str) : Option Str :=
  match here.rootOf path with
  | some r =>
    (there.corresponding r).map (fun s => underRoot s.path (path.drop r.path.length))
  | none => if there.covers path then none else some path

/-- The root over the path ends at a component of it; a path under no root is under no
canonical target either. -/
def Movable (m : RootMap) (path : Str) : Prop :=
  match m.rootOf path with
  | some r => Separated (path.drop r.path.length)
  | none => ∀ s ∈ m.roots, isUnder path s.canonical = false

/-- Wherever the recorded absent paths are found absent, the probed path is absent too. -/
def AbsenceMoves (here : RootMap) (path : Str) : Prop :=
  ∀ there : RootMap, here.SameTargets there →
    ∀ v : RecordingView, v.roots = here → ∀ trace : CxxTraceInputs,
      (∀ probed ∈ trace.absent, v.files.lstat probed = .missing) → path ∈ trace.absent →
    ∀ files recorded, v.addCxxTraceInputs trace files = some recorded →
    ∀ F : DiskTree, F.findAppearedPath there recorded.absent = none →
      ∀ q, here.moved there path = some q → F.lstat q = .missing

variable {here there : RootMap} {path : Str} {r : Root}

theorem SameTargets.apart (h : here.SameTargets there) (hapart : here.TargetsApart) :
    there.TargetsApart := by
  intro r hr s hs hunder
  obtain ⟨r', hr', heq⟩ := mem_map.mp ((h r.canonical).mpr (mem_map_of_mem hr))
  obtain ⟨s', hs', heq'⟩ := mem_map.mp ((h s.canonical).mpr (mem_map_of_mem hs))
  rw [← heq, ← heq'] at hunder ⊢
  exact hapart r' hr' s' hs' hunder

theorem rootOf_of_above (hr : here.rootOf path = some r) (hpath : Above above path)
    (hunder : isUnder above r.path = true) : here.rootOf above = some r := by
  rw [rootOf, find?_eq_some_iff_append] at hr ⊢
  obtain ⟨-, before, after, hsplit, hbefore⟩ := hr
  refine ⟨hunder, before, after, hsplit, ?_⟩
  intro s hs
  by_contra hcovers
  have hcover : isUnder above s.path = true := by simpa using hcovers
  have hnot := hbefore s hs
  rw [isUnder_of_above hpath hcover] at hnot
  cases hnot

theorem foldl_betterRoot_some {b : Root} {roots : List Root}
    (h : ∀ s ∈ roots, isUnder path s.canonical = true →
      s.canonical.length ≤ b.canonical.length) :
    roots.foldl (betterRoot path) (some b) = some b := by
  induction roots with
  | nil => rfl
  | cons s roots ih =>
    have hs : betterRoot path (some b) s = some b := by
      rw [betterRoot]
      split
      · rename_i hunder
        have hle := h s mem_cons_self hunder
        exact if_neg (by omega)
      · rfl
    rw [foldl_cons, hs]
    exact ih (fun t ht => h t (mem_cons_of_mem _ ht))

/-- If one target alone covers a path, `Localize` takes the first root with it. -/
theorem foldl_betterRoot_none {c : Str} {roots : List Root}
    (h : ∀ s ∈ roots, isUnder path s.canonical = true ↔ s.canonical = c) :
    roots.foldl (betterRoot path) none = roots.find? (fun s => s.canonical = c) := by
  induction roots with
  | nil => rfl
  | cons s roots ih =>
    have hroots := fun t ht => h t (mem_cons_of_mem _ ht)
    by_cases hs : s.canonical = c
    · have hunder := (h s mem_cons_self).mpr hs
      have hbetter : betterRoot path none s = some s := by rw [betterRoot, if_pos hunder]
      rw [foldl_cons, hbetter, find?_cons_of_pos (by simpa using hs)]
      refine foldl_betterRoot_some (fun t ht htunder => ?_)
      rw [(hroots t ht).mp htunder, hs]
    · have hbetter : betterRoot path none s = none := by
        rw [betterRoot, if_neg (fun hunder => hs ((h s mem_cons_self).mp hunder))]
      rw [foldl_cons, hbetter, find?_cons_of_neg (by simpa using hs)]
      exact ih hroots

theorem isUnder_or_isUnder {path c c' : Str} (h : isUnder path c = true)
    (h' : isUnder path c' = true) : isUnder c c' = true ∨ isUnder c' c = true := by
  obtain ⟨rest, rfl, hrest⟩ := isUnder_iff.mp h
  obtain ⟨rest', heq, hrest'⟩ := isUnder_iff.mp h'
  rcases append_eq_append_iff.mp heq with ⟨more, hc', rfl⟩ | ⟨more, hc, rfl⟩
  · exact .inr (isUnder_iff.mpr ⟨more, hc', hrest.imp_right Separated.of_append⟩)
  · exact .inl (isUnder_iff.mpr ⟨more, hc, hrest'.imp_right Separated.of_append⟩)

theorem localize_below_target (hapart : there.TargetsApart) {s : Root}
    (hs : there.corresponding r = some s) (hrest : Separated rest) :
    there.localize (r.canonical ++ rest) = s.path ++ rest := by
  have hmem := mem_of_find?_eq_some hs
  have hcanonical : s.canonical = r.canonical := by simpa using find?_some hs
  have hself : isUnder (r.canonical ++ rest) r.canonical = true :=
    isUnder_iff.mpr ⟨rest, rfl, .inr hrest⟩
  have hroot : there.canonicalRootOf (r.canonical ++ rest) = some s := by
    rw [canonicalRootOf, foldl_betterRoot_none (c := r.canonical), ← hs, corresponding]
    intro t ht
    constructor
    · intro hunder
      have hnested := isUnder_or_isUnder hunder hself
      rw [← hcanonical] at hnested ⊢
      rcases hnested with h | h
      · exact hapart t ht s hmem h
      · exact (hapart s hmem t ht h).symm
    · intro heq
      rw [heq]
      exact hself
  rw [localize, hroot]
  simp only [hcanonical, drop_left]

/-- What the other tree checks is the moved path or an ancestor of it. -/
theorem localize_highest (hapart : here.TargetsApart) (hsame : here.SameTargets there)
    (hstops : ∀ r ∈ here.roots, r.path ∈ stops) (present : Str → Bool)
    (hmovable : here.Movable path) {q : Str} (hq : here.moved there path = some q) :
    let checked := there.localize (here.canonicalize (highestAbsent stops present path))
    Above checked q := by
  intro checked
  unfold Movable at hmovable
  unfold moved at hq
  cases hroot : here.rootOf path with
  | some r =>
    simp only [hroot, map_eq_some_iff] at hmovable hq
    obtain ⟨s, hs, rfl⟩ := hq
    obtain ⟨hr, hunder, -⟩ := rootOf_eq_some hroot
    obtain ⟨rest, rfl, -⟩ := isUnder_iff.mp hunder
    rw [drop_left] at hmovable ⊢
    obtain ⟨above, hhighest, habove, hrest⟩ :=
      highestAbsent_below_stop present (hstops r hr) hmovable
    have habove_root : here.rootOf (r.path ++ above) = some r :=
      rootOf_of_above hroot (hrest.append _) (isUnder_iff.mpr ⟨above, rfl, .inr habove⟩)
    have hchecked : checked = s.path ++ above := by
      have hcanonical : here.canonicalize (r.path ++ above) = r.canonical ++ above := by
        rw [canonicalize, habove_root]
        simp only [drop_left]
      change there.localize _ = _
      rw [hhighest, hcanonical, localize_below_target (hsame.apart hapart) hs habove]
    rw [hchecked, underRoot, if_pos hmovable]
    exact hrest.append _
  | none =>
    simp only [hroot] at hmovable hq
    split at hq
    · cases hq
    · cases hq
      have habove := highestAbsent_ancestor stops present path
      have hself : checked = highestAbsent stops present path := by
        have hnone : here.rootOf (highestAbsent stops present path) = none := by
          rw [rootOf_eq_none] at hroot ⊢
          intro r hr
          rw [Bool.eq_false_iff]
          intro hunder
          have hcovered := isUnder_of_above habove hunder
          rw [hroot r hr] at hcovered
          cases hcovered
        have hcanonical : here.canonicalize (highestAbsent stops present path) =
            highestAbsent stops present path := by rw [canonicalize, hnone]
        change there.localize _ = _
        rw [hcanonical]
        refine localize_eq_self (fun s hs => ?_)
        obtain ⟨r, hr, hrs⟩ := mem_map.mp ((hsame s.canonical).mpr (mem_map_of_mem hs))
        rw [← hrs, Bool.eq_false_iff]
        intro hunder
        have hcovered := isUnder_of_above habove hunder
        rw [hmovable r hr] at hcovered
        cases hcovered
      rwa [hself]

theorem absenceMoves_of_movable (hapart : here.TargetsApart) (hmovable : here.Movable path) :
    here.AbsenceMoves path := by
  rintro there hsame v rfl trace - hpath files recorded hrecorded F habsent q hq
  obtain ⟨added, -, hrecorded⟩ := bind_eq_some_iff.mp hrecorded
  cases hrecorded
  have hmem : v.roots.canonicalize (v.highest path) ∈
      sortUnique (trace.absent.map (fun path => v.roots.canonicalize (v.highest path))) :=
    mem_sortUnique.mpr (mem_map_of_mem hpath)
  have hmissing := DiskTree.lstat_of_not_appeared habsent hmem
  refine DiskTree.lstat_of_lstat_missing hmissing (localize_highest hapart hsame ?_ _ hmovable hq)
  exact fun r hr => mem_cons_of_mem _ (mem_map_of_mem hr)

end RootMap

/-! ## Paths as segments -/

theorem length_le_of_mem_split {path : Str} (h : segment ∈ split '/' path) :
    segment.length ≤ path.length := by
  induction path generalizing segment with
  | nil =>
    rw [split, mem_singleton] at h
    rw [h]
  | cons c path ih =>
    obtain ⟨first, rest, hsplit⟩ := exists_cons_of_ne_nil (split_ne_nil '/' path)
    rw [length_cons]
    by_cases hc : c = '/'
    · rw [hc, split_delim, mem_cons] at h
      rcases h with rfl | h
      · exact Nat.zero_le _
      · exact (ih h).trans (Nat.le_succ _)
    · rw [split_cons hc hsplit, mem_cons] at h
      rcases h with rfl | h
      · have hfirst := ih (hsplit ▸ mem_cons_self)
        rw [length_cons]
        omega
      · exact (ih (hsplit ▸ mem_cons_of_mem _ h)).trans (Nat.le_succ _)

theorem split_glued (path : Str) :
    ∃ before last, split '/' path = before ++ [last] ∧ ∀ rest first fields,
      split '/' rest = first :: fields →
        split '/' (path ++ rest) = before ++ (last ++ first) :: fields := by
  induction path with
  | nil => exact ⟨[], [], rfl, fun rest first fields h => h⟩
  | cons c path ih =>
    obtain ⟨before, last, hsplit, hglued⟩ := ih
    by_cases hc : c = '/'
    · refine ⟨[] :: before, last, by rw [hc, split_delim, hsplit, cons_append], ?_⟩
      intro rest first fields h
      rw [hc, cons_append, split_delim, hglued rest first fields h, cons_append]
    · cases before with
      | nil =>
        refine ⟨[], c :: last, split_cons hc hsplit, ?_⟩
        intro rest first fields h
        exact split_cons hc (hglued rest first fields h)
      | cons field before =>
        refine ⟨(c :: field) :: before, last, split_cons hc hsplit, ?_⟩
        intro rest first fields h
        exact split_cons hc (hglued rest first fields h)

def IsName (segment : Str) : Prop := stepOf segment = .into segment

theorem isName_iff :
    IsName segment ↔ segment ≠ [] ∧ segment ≠ ".".toList ∧ segment ≠ "..".toList := by
  rw [IsName, stepOf]
  by_cases hstay : segment = [] ∨ segment = ".".toList
  · rw [if_pos hstay]
    refine iff_of_false (by simp) ?_
    rcases hstay with rfl | rfl
    · simp
    · simp
  · rw [if_neg hstay]
    rw [not_or] at hstay
    by_cases hup : segment = "..".toList
    · rw [if_pos hup]
      exact iff_of_false (by simp) (fun h => h.2.2 hup)
    · rw [if_neg hup]
      exact iff_of_true rfl ⟨hstay.1, hstay.2, hup⟩

theorem eq_of_stepOf_into (h : stepOf segment = .into name) :
    segment = name := by
  rw [stepOf] at h
  split at h
  · cases h
  · split at h
    · cases h
    · exact Step.into.inj h

theorem IsName.glued (h : IsName segment) (last : Str) :
    IsName (last ++ segment) := by
  rw [isName_iff] at h ⊢
  obtain ⟨hempty, hdot, hdots⟩ := h
  refine ⟨by simp [hempty], ?_, ?_⟩
  · intro heq
    rcases append_eq_cons_iff.mp heq with ⟨rfl, hsegment⟩ | ⟨rest, rfl, hrest⟩
    · exact hdot hsegment
    · exact hempty (append_eq_nil_iff.mp hrest.symm).2
  · intro heq
    rcases append_eq_cons_iff.mp heq with ⟨rfl, hsegment⟩ | ⟨rest, rfl, hrest⟩
    · exact hdots hsegment
    · rcases append_eq_cons_iff.mp hrest.symm with ⟨rfl, hsegment⟩ | ⟨rest', rfl, hrest'⟩
      · exact hdot hsegment
      · exact hempty (append_eq_nil_iff.mp hrest'.symm).2

/-! ## What can be absent -/

namespace DiskTree

variable {F : DiskTree} {path : Str}

theorem lstat_missing_of_names (hnone : ∀ segment ∈ split '/' path, F.node [segment] = none)
    (hname : ∃ segment ∈ split '/' path, IsName segment) : F.lstat path = .missing := by
  refine Tree.entry_missing
    (P := fun dir steps => dir = [] ∧ ∃ segments : List Str, steps = segments.map stepOf ∧
      (∀ segment ∈ segments, F.node [segment] = none) ∧ ∃ segment ∈ segments, IsName segment)
    ?_ ?_ kMaxSymlinks ⟨rfl, split '/' path, rfl, hnone, hname⟩
  · rintro dir ⟨-, segments, hsegments, -, segment, hmem, -⟩
    rw [map_eq_nil_iff.mp hsegments.symm] at hmem
    cases hmem
  · rintro dir step rest ⟨rfl, segments, hsegments, hnone, named, hmem, hnamed⟩
    obtain ⟨first, segments, rfl, rfl, rfl⟩ := map_eq_cons_iff.mp hsegments.symm
    have hrest := fun s hs => hnone s (mem_cons_of_mem _ hs)
    rcases mem_cons.mp hmem with rfl | hmem
    · rw [hnamed]
      exact .inl (Tree.move_into_none (hnone named mem_cons_self))
    · cases hstep : stepOf first with
      | into name =>
        obtain rfl := eq_of_stepOf_into hstep
        exact .inl (Tree.move_into_none (hnone first mem_cons_self))
      | stay =>
        exact .inr ⟨[], Tree.move_stay F.root, rfl, segments, rfl, hrest, named, hmem, hnamed⟩
      | up => exact .inr ⟨[], Tree.move_up F.root, rfl, segments, rfl, hrest, named, hmem, hnamed⟩

theorem exists_name_of_missing (h : F.lstat path = .missing) :
    ∃ segment ∈ split '/' path, IsName segment := by
  by_contra hnames
  have hfound : F.lstat path = .found () := by
    refine Tree.entry_found
      (P := fun dir steps => dir = [] ∧ ∀ step ∈ steps, ∀ name, step ≠ .into name)
      ?_ kMaxSymlinks ⟨rfl, ?_⟩
    · rintro dir step rest ⟨rfl, hsteps⟩
      have hrest := fun step hstep => hsteps step (mem_cons_of_mem _ hstep)
      cases step with
      | into name => exact absurd rfl (hsteps _ mem_cons_self name)
      | stay => exact ⟨[], Tree.move_stay F.root, rfl, hrest⟩
      | up => exact ⟨[], Tree.move_up F.root, rfl, hrest⟩
    · intro step hstep name hinto
      obtain ⟨segment, hsegment, rfl⟩ := mem_map.mp hstep
      obtain rfl := eq_of_stepOf_into hinto
      exact hnames ⟨segment, hsegment, hinto⟩
  rw [hfound] at h
  cases h

theorem lstat_below_top (hnone : F.node [name] = none) (hname : IsName name)
    (hslash : '/' ∉ name) (hrest : Separated rest) :
    F.lstat ('/' :: name ++ rest) = .missing := by
  have hsplit : split '/' ('/' :: name) = [[], name] := by
    rw [split_delim, split_of_notMem hslash]
  have htop : F.lstat ('/' :: name) = .missing := by
    have hsteps : stepsOf ('/' :: name) = [.stay, .into name] := by
      rw [stepsOf, hsplit, map_cons, map_cons, map_nil, hname]
      rfl
    refine Tree.entry_missing (P := fun dir steps => dir = [] ∧
      (steps = [.stay, .into name] ∨ steps = [.into name])) ?_ ?_ kMaxSymlinks
      ⟨rfl, .inl hsteps⟩
    · rintro dir ⟨-, h | h⟩ <;> cases h
    · rintro dir step rest ⟨rfl, h | h⟩
      · obtain ⟨rfl, rfl⟩ := cons.inj h
        exact .inr ⟨[], Tree.move_stay F.root, rfl, .inr rfl⟩
      · obtain ⟨rfl, -⟩ := cons.inj h
        exact .inl (Tree.move_into_none hnone)
  refine lstat_of_lstat_missing htop ?_
  rcases hrest with rfl | ⟨below, rfl⟩
  · exact .inl (append_nil _).symm
  · exact .inr ⟨below, rfl⟩

/-! ## Trees for a path -/

theorem if_head_root {node node' : Option (Node Str Str)} :
    (if ([] : List Str).head? = some name then node else node') = node' := if_neg (by simp)

def withoutTop (name : Str) : DiskTree where
  node place := if place.head? = some name then none else some .directory
  root := if_head_root

def onlyTop (name : Str) : DiskTree where
  node place := if place = [] ∨ place.head? = some name then some .directory else none
  root := if_pos (.inl rfl)

def fileAmong (first : Str) (names : List Str) : DiskTree where
  node place := if place = first :: names then some (.file []) else some .directory
  root := if_neg (List.cons_ne_nil first names).symm

theorem withoutTop_lstat {path : Str} (h : ∀ segment ∈ split '/' path, segment ≠ name) :
    (withoutTop name).lstat path = .found () := by
  have hdirectory {dir : List Str} (hdir : dir.head? ≠ some name) :
      (withoutTop name).node dir = some .directory := if_neg hdir
  refine Tree.entry_found
    (P := fun dir steps => dir.head? ≠ some name ∧ ∀ step ∈ steps, step ≠ .into name)
    ?_ kMaxSymlinks ⟨by simp, ?_⟩
  · rintro dir step rest ⟨hdir, hsteps⟩
    have hrest := fun step hstep => hsteps step (mem_cons_of_mem _ hstep)
    cases step with
    | stay => exact ⟨dir, Tree.move_stay (hdirectory hdir), hdir, hrest⟩
    | up =>
      refine ⟨dir.dropLast, Tree.move_up (hdirectory hdir), ?_, hrest⟩
      rw [head?_dropLast]
      split <;> simp [hdir]
    | into next =>
      have hnext : (dir ++ [next]).head? ≠ some name := by
        cases dir with
        | nil =>
          intro hhead
          exact hsteps _ mem_cons_self (by rw [some.inj hhead])
        | cons first dir => exact hdir
      exact ⟨dir ++ [next], Tree.move_into_directory (hdirectory hdir) (hdirectory hnext), hnext,
        hrest⟩
  · intro step hstep hinto
    obtain ⟨segment, hsegment, rfl⟩ := mem_map.mp hstep
    exact h segment hsegment (eq_of_stepOf_into hinto)

/-- Below enough directories of one name, no path leads back to the top. -/
theorem onlyTop_lstat (hname : IsName name) (hslash : '/' ∉ name)
    {segments : List Str} (hsegments : ∀ s ∈ segments, '/' ∉ s) {depth : ℕ}
    (hdepth : segments.length < depth) :
    (onlyTop name).lstat (pathOf (List.replicate depth name ++ segments)) = .found () := by
  have hdirectory {dir : List Str} (hdir : dir = [] ∨ dir.head? = some name) :
      (onlyTop name).node dir = some .directory := if_pos hdir
  have hsplit : split '/' (pathOf (replicate depth name ++ segments)) =
      [] :: (replicate depth name ++ segments) := by
    refine split_pathOf (fun s hs => ?_)
    rcases mem_append.mp hs with hs | hs
    · rwa [eq_of_mem_replicate hs]
    · exact hsegments s hs
  have hsteps : stepsOf (pathOf (replicate depth name ++ segments)) =
      .stay :: (replicate depth (.into name) ++ segments.map stepOf) := by
    rw [stepsOf, hsplit, map_cons, map_append, map_replicate, hname]
    rfl
  rw [lstat, Tree.lstat, hsteps]
  -- As many steps as are left cannot climb out of the directories that were entered.
  refine Tree.entry_found
    (P := fun dir steps => (dir = [] ∨ dir.head? = some name) ∧
      ((∃ more, dir = [] ∧ steps = .stay :: (replicate depth (.into name) ++ more) ∧
        more.length < depth) ∨
      ∃ n more, steps = replicate n (.into name) ++ more ∧ more.length < dir.length + n))
    ?_ kMaxSymlinks ⟨.inl rfl, .inl ⟨_, rfl, rfl, by simpa using hdepth⟩⟩
  rintro dir step rest ⟨hdir, ⟨more, rfl, hsteps, hmore⟩ | ⟨n, more, hsteps, hmore⟩⟩
  · obtain ⟨rfl, rfl⟩ := cons.inj hsteps
    exact ⟨[], Tree.move_stay (hdirectory hdir), hdir,
      .inr ⟨depth, more, rfl, by simpa using hmore⟩⟩
  · cases n with
    | zero =>
      obtain rfl : step :: rest = more := hsteps
      rw [length_cons, Nat.add_zero] at hmore
      have hhead : dir.head? = some name := by
        refine hdir.resolve_left ?_
        rintro rfl
        simp at hmore
      cases step with
      | stay =>
        exact ⟨dir, Tree.move_stay (hdirectory hdir), hdir, .inr ⟨0, rest, rfl, by omega⟩⟩
      | up =>
        refine ⟨dir.dropLast, Tree.move_up (hdirectory hdir), ?_, .inr ⟨0, rest, rfl, ?_⟩⟩
        · rw [head?_dropLast, hhead]
          by_cases hlength : 1 < dir.length
          · exact .inr (if_pos hlength)
          · exact .inl (length_eq_zero_iff.mp (by rw [length_dropLast]; omega))
        · rw [length_dropLast]
          omega
      | into next =>
        have hnext : (dir ++ [next]).head? = some name := by
          rw [head?_append, hhead]
          rfl
        refine ⟨dir ++ [next], Tree.move_into_directory (hdirectory hdir) (hdirectory (.inr hnext)),
          .inr hnext, .inr ⟨0, rest, rfl, ?_⟩⟩
        rw [length_append, length_singleton]
        omega
    | succ n =>
      obtain ⟨rfl, rfl⟩ := cons.inj hsteps
      have hnext : (dir ++ [name]).head? = some name := by
        rcases hdir with rfl | hhead
        · rfl
        · rw [head?_append, hhead]
          rfl
      refine ⟨dir ++ [name], Tree.move_into_directory (hdirectory hdir) (hdirectory (.inr hnext)),
        .inr hnext, .inr ⟨n, more, rfl, ?_⟩⟩
      rw [length_append, length_singleton]
      omega

theorem fileAmong_move {dir : List Str} {rest : List Str}
    (h : dir ++ name :: rest = first :: names) :
    Tree.move (fileAmong first names) dir (.into name) = .goto (dir ++ [name]) := by
  have hdir : (fileAmong first names).node dir = some .directory := by
    refine if_neg (fun heq => ?_)
    have hlength := congrArg length h
    rw [← heq, length_append, length_cons] at hlength
    omega
  by_cases hlast : dir ++ [name] = first :: names
  · exact Tree.move_into_file hdir (if_pos hlast)
  · exact Tree.move_into_directory hdir (if_neg hlast)

theorem fileAmong_present :
    Tree.entry (fileAmong first names) kMaxSymlinks [] (.stay :: (first :: names).map .into) =
      .found () := by
  refine Tree.entry_found
    (P := fun dir steps => (dir = [] ∧ steps = .stay :: (first :: names).map .into) ∨
      ∃ rest, steps = rest.map .into ∧ dir ++ rest = first :: names)
    ?_ kMaxSymlinks (.inl ⟨rfl, rfl⟩)
  rintro dir step rest (⟨rfl, hsteps⟩ | ⟨more, hsteps, hmore⟩)
  · obtain ⟨rfl, rfl⟩ := cons.inj hsteps
    exact ⟨[], Tree.move_stay (fileAmong first names).root, .inr ⟨first :: names, rfl, rfl⟩⟩
  · obtain ⟨name, more, rfl, rfl, rfl⟩ := map_eq_cons_iff.mp hsteps.symm
    exact ⟨dir ++ [name], fileAmong_move hmore, .inr ⟨more, rfl, by simpa using hmore⟩⟩

theorem fileAmong_below (last : Step Str) :
    Tree.entry (fileAmong first names) kMaxSymlinks []
      (.stay :: ((first :: names).map .into ++ [last])) = .missing := by
  refine Tree.entry_missing
    (P := fun dir steps => (dir = [] ∧ steps = .stay :: ((first :: names).map .into ++ [last])) ∨
      ∃ rest, steps = rest.map .into ++ [last] ∧ dir ++ rest = first :: names)
    ?_ ?_ kMaxSymlinks (.inl ⟨rfl, rfl⟩)
  · rintro dir (⟨-, h⟩ | ⟨rest, h, -⟩)
    · cases h
    · exact absurd h.symm (by simp)
  · rintro dir step rest (⟨rfl, hsteps⟩ | ⟨more, hsteps, hmore⟩)
    · obtain ⟨rfl, rfl⟩ := cons.inj hsteps
      exact .inr ⟨[], Tree.move_stay (fileAmong first names).root, .inr ⟨first :: names, rfl, rfl⟩⟩
    · cases more with
      | nil =>
        refine .inl (Tree.move_not_directory ?_ step)
        rw [append_nil] at hmore
        rw [show (fileAmong first names).node dir = some (.file []) from if_pos hmore]
        simp
      | cons name more =>
        obtain ⟨rfl, rfl⟩ := cons.inj hsteps
        exact .inr ⟨dir ++ [name], fileAmong_move hmore, .inr ⟨more, rfl, by simpa using hmore⟩⟩

end DiskTree

/-! ## Paths as a trace gives them -/

theorem contains_dots {segments : List Str} (h : "..".toList ∈ segments) (last : Str) :
    contains "/../".toList (pathOf segments ++ '/' :: last) = true := by
  obtain ⟨before, after, rfl⟩ := append_of_mem h
  obtain ⟨rest, hrest⟩ : ∃ rest, pathOf after ++ '/' :: last = '/' :: rest := by
    cases after with
    | nil => exact ⟨last, rfl⟩
    | cons segment after => exact ⟨segment ++ pathOf after ++ '/' :: last, by rw [pathOf_cons]; rfl⟩
  refine contains_iff.mpr ⟨pathOf before, rest, ?_⟩
  rw [pathOf_append, pathOf_cons, append_assoc, append_assoc, append_assoc, hrest]
  rfl

/-- A path with its separators and dot segments removed that some tree does not have. -/
structure CanBeAbsent (path : Str) : Prop where
  absolute : isAbsolute path = true
  normal : withoutDotSegments path = path
  missing : ∃ F : DiskTree, F.lstat path = .missing

namespace CanBeAbsent

variable {path : Str}

theorem exists_name (h : CanBeAbsent path) : ∃ segment ∈ keptSegments path, IsName segment := by
  obtain ⟨F, hF⟩ := h.missing
  obtain ⟨segment, hsegment, hname⟩ := DiskTree.exists_name_of_missing hF
  refine ⟨segment, mem_filter.mpr ⟨hsegment, ?_⟩, hname⟩
  obtain ⟨hempty, hdot, -⟩ := isName_iff.mp hname
  rw [keptSegment, Bool.and_eq_true]
  exact ⟨decide_eq_true hempty, decide_eq_true hdot⟩

theorem split_eq (h : CanBeAbsent path) : split '/' path = [] :: keptSegments path := by
  have hne : keptSegments path ≠ [] := by
    obtain ⟨segment, hsegment, -⟩ := h.exists_name
    exact ne_nil_of_mem hsegment
  have hsplit := split_withoutDotSegments h.absolute hne
  rwa [h.normal] at hsplit

theorem eq_pathOf (h : CanBeAbsent path) : path = pathOf (keptSegments path) :=
  eq_of_split h.split_eq

theorem notMem_slash (h : segment ∈ keptSegments path) : '/' ∉ segment :=
  notMem_of_mem_split (mem_filter.mp h).1

/-- In some tree the path itself is the highest that is missing. -/
theorem exists_tree (h : CanBeAbsent path) :
    ∃ F : DiskTree, F.lstat path = .missing ∧
      ∀ stops, highestAbsent stops (fun dir => F.lstat dir = .found ()) path = path := by
  obtain ⟨F, hF⟩ := h.missing
  by_cases hdots : contains "/../".toList path = true
  · exact ⟨F, hF, fun stops => by rw [highestAbsent, if_pos hdots]⟩
  · obtain ⟨before, last, hsegments⟩ : ∃ before last, keptSegments path = before ++ [last] := by
      obtain ⟨segment, hsegment, -⟩ := h.exists_name
      exact ⟨_, _, (dropLast_append_getLast (ne_nil_of_mem hsegment)).symm⟩
    have hlast : '/' ∉ last := notMem_slash (hsegments ▸ mem_append_right _ mem_cons_self)
    have hpath : path = pathOf before ++ '/' :: last := by
      have hone : pathOf [last] = '/' :: last := append_nil _
      rw [← hone, ← pathOf_append, ← hsegments]
      exact h.eq_pathOf
    have hstay {F : DiskTree} (hpresent : 1 < (dirName path).length →
        F.lstat (dirName path) = .found ()) (stops : List Str) :
        highestAbsent stops (fun dir => F.lstat dir = .found ()) path = path := by
      rw [highestAbsent, if_neg hdots]
      cases path.length with
      | zero => rfl
      | succ fuel =>
        rw [climb, if_neg]
        rintro ⟨-, hlength, -, habsent⟩
        exact habsent (decide_eq_true (hpresent hlength))
    have hdir : dirName path = if before = [] then "/".toList else pathOf before := by
      rw [dirName, hpath, splitLastSlash_eq_some.mpr ⟨rfl, hlast⟩]
      cases before with
      | nil => rfl
      | cons first before => rfl
    cases before with
    | nil =>
      refine ⟨F, hF, hstay ?_⟩
      rw [hdir]
      intro hlength
      exact absurd hlength (by decide)
    | cons first before =>
      have hslash : ∀ s ∈ first :: before, '/' ∉ s := fun s hs =>
        notMem_slash (hsegments ▸ mem_append_left _ hs)
      have hnames : (first :: before).map stepOf = (first :: before).map .into := by
        refine map_congr_left (fun s hs => isName_iff.mpr ?_)
        have hkept := (mem_filter.mp (hsegments ▸ mem_append_left [last] hs)).2
        rw [keptSegment, Bool.and_eq_true, decide_eq_true_eq, decide_eq_true_eq] at hkept
        refine ⟨hkept.1, hkept.2, ?_⟩
        rintro rfl
        exact hdots (hpath ▸ contains_dots hs last)
      refine ⟨DiskTree.fileAmong first before, ?_, hstay ?_⟩
      · rw [DiskTree.lstat, Tree.lstat, stepsOf, h.split_eq, hsegments, map_cons,
          map_append, hnames]
        exact DiskTree.fileAmong_below _
      · intro _
        rw [hdir, if_neg (cons_ne_nil _ _), DiskTree.lstat, Tree.lstat, stepsOf,
          split_pathOf hslash, map_cons, hnames]
        exact DiskTree.fileAmong_present

end CanBeAbsent

/-! ## Where absence is lost -/

def Root.ProperTarget (r : Root) : Prop := isAbsolute r.canonical = true ∧ r.canonical ≠ ['/']

def RootMap.ProperTargets (m : RootMap) : Prop := ∀ r ∈ m.roots, r.ProperTarget

theorem properTarget_addSpec (host : Host) {st : SpecState} (raw : Str)
    (hst : ∀ r ∈ st.roots, r.ProperTarget) :
    ∀ r ∈ (addSpec host st raw).roots, r.ProperTarget := by
  unfold addSpec
  simp only
  split_ifs with _ _ hslash
  · exact hst
  · exact hst
  · exact hst
  · rw [not_or] at hslash
    have hunique (path : Str) : Root.ProperTarget ⟨path, uniqueCanonical st.usedCanonicals _⟩ :=
      ⟨isAbsolute_uniqueCanonical _ (isAbsolute_canonicalTarget _ _),
        uniqueCanonical_ne_slash _ hslash.2⟩
    exact SpecState.forall_addRoot hst (hunique _) (hunique _)

theorem properTargets_fromSpecs (host : Host) (specs : List Str) :
    (fromSpecs host specs).ProperTargets :=
  forall_fromSpecs (fun _ raw hst => properTarget_addSpec host raw hst) specs

namespace RootMap

variable {m : RootMap} {path : Str}

def relocated (m : RootMap) (place : Str → Str) : RootMap :=
  sortRoots (m.roots.map (fun r => ⟨place r.canonical, r.canonical⟩))

theorem mem_relocated {place : Str → Str} {s : Root} (h : s ∈ (m.relocated place).roots) :
    s.path = place s.canonical ∧ ∃ r ∈ m.roots, r.canonical = s.canonical := by
  obtain ⟨r, hr, rfl⟩ := mem_map.mp (mem_sortRoots.mp h)
  exact ⟨rfl, r, hr, rfl⟩

theorem exists_relocated (place : Str → Str) {r : Root} (hr : r ∈ m.roots) :
    ⟨place r.canonical, r.canonical⟩ ∈ (m.relocated place).roots :=
  mem_sortRoots.mpr (mem_map.mpr ⟨r, hr, rfl⟩)

theorem sameTargets_relocated (m : RootMap) (place : Str → Str) :
    m.SameTargets (m.relocated place) := by
  intro c
  constructor
  · intro hc
    obtain ⟨r, hr, rfl⟩ := mem_map.mp hc
    exact mem_map.mpr ⟨_, exists_relocated place hr, rfl⟩
  · intro hc
    obtain ⟨s, hs, rfl⟩ := mem_map.mp hc
    obtain ⟨-, r, hr, heq⟩ := mem_relocated hs
    exact mem_map.mpr ⟨r, hr, heq⟩

def recordingIn (m : RootMap) (F : DiskTree) : RecordingView where
  files := F
  lastChange _ := none
  digest := Digest.ofContents
  roots := m
  cwd := "/".toList
  started := 0

/-- One tree in which the check passes and the moved path is there is enough. -/
theorem not_absenceMoves (hpath : CanBeAbsent path) {there : RootMap} (hsame : m.SameTargets there)
    {q : Str} (hq : m.moved there path = some q) {F : DiskTree}
    (hchecked : F.lstat (there.localize (m.canonicalize path)) = .missing)
    (hfound : F.lstat q = .found ()) : ¬ m.AbsenceMoves path := by
  intro hmoves
  obtain ⟨F₁, hmissing, hhighest⟩ := hpath.exists_tree
  have happeared : F.findAppearedPath there (sortUnique ([path].map
      (fun path => m.canonicalize ((m.recordingIn F₁).highest path)))) = none := by
    refine findSome?_eq_none_iff.mpr (fun canonical hcanonical => ?_)
    obtain ⟨probed, hprobed, rfl⟩ := mem_map.mp (mem_sortUnique.mp hcanonical)
    obtain rfl := mem_singleton.mp hprobed
    have hself : (m.recordingIn F₁).highest probed = probed :=
      hhighest (m.recordingIn F₁).walkStops
    simp only [hself, hchecked]
  have hlost := hmoves there hsame (m.recordingIn F₁) rfl ⟨[], [path], [], []⟩
    (fun probed hprobed => by rw [mem_singleton.mp hprobed]; exact hmissing)
    mem_cons_self [] _ rfl F happeared q hq
  rw [hfound] at hlost
  cases hlost

theorem exists_longName (length : ℕ) :
    ∃ name, IsName name ∧ '/' ∉ name ∧ length < name.length := by
  refine ⟨replicate (length + 1) 'e', isName_iff.mpr ?_, ?_, by simp⟩
  · rw [replicate_succ]
    simp
  · exact fun h => absurd (eq_of_mem_replicate h) (by decide)

theorem ne_longName {path : Str} (h : segment ∈ split '/' path)
    (hname : path.length < name.length) : segment ≠ name := by
  rintro rfl
  have hle := length_le_of_mem_split h
  omega

/-- A path outside all roots and below a target is checked in another place. -/
theorem not_absenceMoves_of_target (hproper : m.ProperTargets) (hpath : CanBeAbsent path)
    (hroot : m.rootOf path = none) {r : Root} (hr : r ∈ m.roots)
    (hunder : isUnder path r.canonical = true) : ¬ m.AbsenceMoves path := by
  obtain ⟨elsewhere, hname, hslash, hlong⟩ := exists_longName path.length
  have hcovers : (m.relocated (fun _ => '/' :: elsewhere)).covers path = false := by
    rw [covers, List.any_eq_false]
    intro s hs hcovered
    obtain ⟨rest, hrest, -⟩ := isUnder_iff.mp hcovered
    have hlength := congrArg List.length hrest
    rw [(mem_relocated hs).1, List.length_append, List.length_cons] at hlength
    omega
  have hmoved : m.moved (m.relocated (fun _ => '/' :: elsewhere)) path = some path := by
    rw [moved, hroot]
    simp [hcovers]
  have hcanonical : m.canonicalize path = path := by rw [canonicalize, hroot]
  refine not_absenceMoves hpath (sameTargets_relocated m _) hmoved
    (F := DiskTree.withoutTop elsewhere) ?_
    (DiskTree.withoutTop_lstat (fun s hs => ne_longName hs hlong))
  rw [hcanonical, localize]
  cases hb : (m.relocated (fun _ => '/' :: elsewhere)).canonicalRootOf path with
  | none =>
    have hfalse := canonicalRootOf_eq_none hb _ (exists_relocated _ hr)
    exact absurd (hunder.symm.trans hfalse) (by simp)
  | some b =>
    obtain ⟨hbmem, hbunder, -⟩ := canonicalRootOf_eq_some hb
    obtain ⟨hbpath, r', hr', hcanonical'⟩ := mem_relocated hbmem
    obtain ⟨rest, hrest, hsep⟩ := isUnder_iff.mp hbunder
    have hne : b.canonical ≠ ['/'] := hcanonical' ▸ (hproper r' hr').2
    have hdrop : path.drop b.canonical.length = rest := by rw [hrest, drop_left]
    simp only [hbpath, hdrop]
    exact DiskTree.lstat_below_top (if_pos rfl) hname hslash (hsep.resolve_left hne)

/-- One target's root in one place and all others in another. -/
def placeOf (target dir other c : Str) : Str := if c = target then dir else other

theorem onlyTop_node_none (h : segment ≠ name) :
    (DiskTree.onlyTop name).node [segment] = none := by
  refine if_neg ?_
  rintro (hempty | hhead)
  · cases hempty
  · exact h (some.inj hhead)

theorem exists_name_glued (hpath : CanBeAbsent path) (hrest : path = '/' :: rest)
    (target : Str) : ∃ segment ∈ split '/' (target ++ rest), IsName segment := by
  have hsplit : split '/' rest = keptSegments path := by
    have h := hpath.split_eq
    nth_rewrite 1 [hrest] at h
    rw [split_delim] at h
    exact (cons.inj h).2
  obtain ⟨segment, hsegment, hname⟩ := hpath.exists_name
  obtain ⟨first, fields, hfields⟩ := exists_cons_of_ne_nil (ne_nil_of_mem hsegment)
  obtain ⟨before, last, -, hglued⟩ := split_glued target
  rw [hglued rest first fields (hsplit.trans hfields)]
  rw [hfields] at hsegment
  rcases mem_cons.mp hsegment with rfl | hmem
  · exact ⟨last ++ segment, mem_append_right _ mem_cons_self, hname.glued last⟩
  · exact ⟨segment, mem_append_right _ (mem_cons_of_mem _ hmem), hname⟩

theorem length_keptSegments_le (hpath : CanBeAbsent path) :
    (keptSegments path).length ≤ path.length := by
  have hle (segments : List Str) : segments.length ≤ (pathOf segments).length := by
    induction segments with
    | nil => exact Nat.zero_le _
    | cons segment segments ih =>
      rw [pathOf_cons, length_append, length_cons, length_cons]
      omega
  calc (keptSegments path).length ≤ (pathOf (keptSegments path)).length := hle _
    _ = path.length := by rw [← hpath.eq_pathOf]

/-- Under the root `/` the canonical spelling joins the target and the first name. -/
theorem not_absenceMoves_of_glued (hproper : m.ProperTargets) (hpath : CanBeAbsent path)
    {r : Root} (hroot : m.rootOf path = some r)
    (hglued : ¬ Separated (path.drop r.path.length)) : ¬ m.AbsenceMoves path := by
  obtain ⟨hr, hunder, -⟩ := rootOf_eq_some hroot
  obtain ⟨rest, hrest, hsep⟩ := isUnder_iff.mp hunder
  have hdrop : path.drop r.path.length = rest := by rw [hrest, drop_left]
  rw [hdrop] at hglued
  have hslash : r.path = ['/'] := hsep.resolve_right hglued
  rw [hslash] at hrest
  obtain ⟨elsewhere, hname, hnameslash, -⟩ := exists_longName 0
  obtain ⟨deep, hdeep, hdeepslash, hlong⟩ :=
    exists_longName (r.canonical.length + path.length + elsewhere.length)
  obtain ⟨dir, hdir⟩ : ∃ dir, dir = pathOf (replicate (path.length + 1) deep) := ⟨_, rfl⟩
  obtain ⟨there, hthere⟩ :
    ∃ there, there = m.relocated (placeOf r.canonical dir ('/' :: elsewhere)) := ⟨_, rfl⟩
  obtain ⟨s, hs⟩ : ∃ s, there.corresponding r = some s := by
    refine isSome_iff_exists.mp (find?_isSome.mpr ⟨⟨dir, r.canonical⟩, ?_, ?_⟩)
    · have hmem := exists_relocated (placeOf r.canonical dir ('/' :: elsewhere)) hr
      rwa [← hthere, placeOf, if_pos rfl] at hmem
    · exact decide_eq_true rfl
  have hspath : s.path = dir := by
    have hcanonical : s.canonical = r.canonical := by simpa using find?_some hs
    have hmem := mem_of_find?_eq_some hs
    rw [(mem_relocated (hthere ▸ hmem)).1, placeOf, if_pos hcanonical]
  have hmoved : m.moved there path = some (dir ++ path) := by
    have hunderRoot : underRoot dir rest = dir ++ path := by
      rw [underRoot, if_neg hglued, hrest]
      rfl
    rw [moved, hroot]
    simp only [hs, map_some, hdrop, hspath, hunderRoot]
  have hfound : (DiskTree.onlyTop deep).lstat (dir ++ path) = .found () := by
    have hle := length_keptSegments_le hpath
    rw [hpath.eq_pathOf, hdir, ← pathOf_append]
    exact DiskTree.onlyTop_lstat hdeep hdeepslash (fun s hs => CanBeAbsent.notMem_slash hs)
      (by omega)
  refine not_absenceMoves hpath (hthere ▸ sameTargets_relocated m _) hmoved ?_ hfound
  have hcanonical : m.canonicalize path = r.canonical ++ rest := by
    rw [canonicalize, hroot]
    simp only [hdrop]
  rw [hcanonical, localize]
  cases hb : there.canonicalRootOf (r.canonical ++ rest) with
  | none =>
    refine DiskTree.lstat_missing_of_names (fun segment hsegment => ?_)
      (exists_name_glued hpath hrest r.canonical)
    have hlength := congrArg length hrest
    refine onlyTop_node_none (ne_longName hsegment ?_)
    rw [length_append, length_singleton] at hlength
    rw [length_append]
    omega
  | some b =>
    obtain ⟨hbmem, hbunder, -⟩ := canonicalRootOf_eq_some hb
    obtain ⟨hbpath, r', hr', hcanonical'⟩ := mem_relocated (hthere ▸ hbmem)
    obtain ⟨below, hbelow, hbsep⟩ := isUnder_iff.mp hbunder
    have hne : b.canonical ≠ ['/'] := hcanonical' ▸ (hproper r' hr').2
    have hother : b.canonical ≠ r.canonical := by
      intro heq
      rw [heq] at hbelow hne hbsep
      exact hglued (append_cancel_left hbelow ▸ hbsep.resolve_left hne)
    have hbdrop : (r.canonical ++ rest).drop b.canonical.length = below := by
      rw [hbelow, drop_left]
    simp only [hbpath, placeOf, if_neg hother, hbdrop]
    refine DiskTree.lstat_below_top (onlyTop_node_none ?_) hname hnameslash (hbsep.resolve_left hne)
    rintro rfl
    omega

end RootMap

/-- Absence of a probed path carries over to every tree exactly when the path is movable. -/
theorem absenceMoves_iff {m : RootMap} (hapart : m.TargetsApart) (hproper : m.ProperTargets)
    {path : Str} (hpath : CanBeAbsent path) : m.AbsenceMoves path ↔ m.Movable path := by
  constructor
  · intro hmoves
    by_contra hnot
    unfold RootMap.Movable at hnot
    cases hroot : m.rootOf path with
    | some r =>
      simp only [hroot] at hnot
      exact RootMap.not_absenceMoves_of_glued hproper hpath hroot hnot hmoves
    | none =>
      simp only [hroot] at hnot
      push Not at hnot
      obtain ⟨r, hr, hunder⟩ := hnot
      exact RootMap.not_absenceMoves_of_target hproper hpath hroot hr (by simpa using hunder) hmoves
  · exact RootMap.absenceMoves_of_movable hapart

/-- A header below a root that is not there in one tree. -/
theorem absenceMoves_iff_below_root :
    let m := fromSpecs bareHost ["/a=src".toList, "/b=lib".toList]
    m.Movable "/a/x.h".toList ∧ m.AbsenceMoves "/a/x.h".toList := by
  intro m
  have hmovable : m.Movable "/a/x.h".toList := .inr ⟨"x.h".toList, rfl⟩
  refine ⟨hmovable, (absenceMoves_iff ?_ (properTargets_fromSpecs _ _) ?_).mpr hmovable⟩
  · unfold RootMap.TargetsApart
    decide
  · exact ⟨by decide, by decide, treeOf [], by decide⟩

/-- The header `/vcache/src/x.h` stands under no root. The other tree looks for `/b/x.h` and
accepts, although its compiler would find the header. -/
theorem not_absent_below_target :
    let here := fromSpecs bareHost ["/a=src".toList]
    let there := fromSpecs bareHost ["/b=src".toList]
    let probe := "/vcache/src/x.h".toList
    let v := here.recordingIn (treeOf [("/vcache/src/y.h", "")])
    let F := treeOf [("/vcache/src/x.h", "")]
    here.roots.map Root.canonical = there.roots.map Root.canonical ∧ here.TargetsApart ∧
      v.files.lstat probe = .missing ∧
      v.addCxxTraceInputs ⟨[], [probe], [], []⟩ [] = some ⟨[], [probe]⟩ ∧
      F.findAppearedPath there [probe] = none ∧
      here.moved there probe = some probe ∧ F.lstat probe = .found () := by
  intro here there probe v F
  refine ⟨by decide, ?_, by decide, by decide, by decide, by decide, by decide⟩
  unfold RootMap.TargetsApart
  decide

end Vcache

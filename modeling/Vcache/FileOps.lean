import Mathlib.Data.List.Nodup
import Vcache.Triples

/-!
# File operations that can fail

Files stand at places, and a path leads to one. An operation has a number, and the pattern
of failures says for each number whether that operation fails; removals never do. A program
that creates temporary files and renames them into place is described by the files it
holds: the temporaries, which nothing stood at before, and the ones it placed. Everything
else is as it was.
-/

namespace FileOps

open Function List Triples

variable {P L C : Type*}

structure World (P L : Type*) where
  locate : P → L
  fails : ℕ → Bool

structure State (P L C : Type*) where
  file : L → Option C
  isDir : L → Bool
  /-- Operations made so far. -/
  count : ℕ
  /-- The paths that were created, written, renamed onto or had their mode changed. -/
  touched : List P

section Operations

variable [DecidableEq L] (w : World P L)

/-- The next operation, and whether it succeeds. -/
def attempt : Action (State P L C) Bool := fun s =>
  (!w.fails s.count, { s with count := s.count + 1 })

def occupied (path : P) : Action (State P L C) Bool :=
  .read (fun s => (s.file (w.locate path)).isSome || s.isDir (w.locate path))

def contentsAt (path : P) : Action (State P L C) (Option C) :=
  .read (fun s => s.file (w.locate path))

def put (path : P) (c : C) : Action (State P L C) Unit :=
  .update (fun s => { s with
    file := Function.update s.file (w.locate path) (some c)
    touched := s.touched ++ [path] })

def unlink (path : P) : Action (State P L C) Unit :=
  .update (fun s => { s with file := Function.update s.file (w.locate path) none })

def createExclusive (path : P) (c : C) : Action (State P L C) Bool := do
  let ok ← attempt w
  let taken ← occupied w path
  if ok && !taken then
    put w path c
    pure true
  else pure false

/-- Renaming a file onto another path of its place leaves it there. -/
def moveFile (source target : P) : Action (State P L C) Unit :=
  .update (fun s => { s with
    file :=
      if w.locate source = w.locate target then s.file
      else Function.update (Function.update s.file (w.locate target)
        (s.file (w.locate source))) (w.locate source) none
    touched := s.touched ++ [target] })

/-- Refused without the source, and where the target is a directory. -/
def rename (source target : P) : Action (State P L C) Bool := do
  let ok ← attempt w
  let blocked ← Action.read (fun s =>
    (s.file (w.locate source)).isNone || s.isDir (w.locate target))
  if ok && !blocked then
    moveFile w source target
    pure true
  else pure false

def makeDir (path : P) : Action (State P L C) Bool := do
  let there ← Action.read (fun s => s.isDir (w.locate path))
  if there then pure true
  else
    let ok ← attempt w
    let taken ← occupied w path
    if ok && !taken then
      Action.update (fun s => { s with
        isDir := Function.update s.isDir (w.locate path) true
        touched := s.touched ++ [path] })
      pure true
    else pure false

/-- The directories in order, up to the first that cannot be made. -/
def makeDirs : List P → Action (State P L C) Bool
  | [] => pure true
  | path :: paths => do
    let ok ← makeDir w path
    if ok then makeDirs paths else pure false

end Operations

/-! ## What is touched -/

section Touched

/-- What was touched is in the first set, or in the second and a directory. -/
def Touches (w : World P L) (A D : Set P) (s : State P L C) : Prop :=
  ∀ path ∈ s.touched, path ∈ A ∨ path ∈ D ∧ s.isDir (w.locate path) = true

def KeepsTo (w : World P L) (A D : Set P) {α : Type} (m : Action (State P L C) α) : Prop :=
  Triple (Touches w A D) m (fun _ => Touches w A D)

variable {A D : Set P} {w : World P L} {s : State P L C}

variable {path : P}

theorem Touches.append (hpath : path ∈ A) (h : Touches w A D s) :
    ∀ p ∈ s.touched ++ [path], p ∈ A ∨ p ∈ D ∧ s.isDir (w.locate p) = true := by
  intro p hp
  rcases mem_append.mp hp with hp | hp
  · exact h p hp
  · exact .inl (mem_singleton.mp hp ▸ hpath)

theorem Touches.makeDir [DecidableEq L] (hpath : path ∈ A ∨ path ∈ D) (h : Touches w A D s) :
    Touches w A D { s with
      isDir := Function.update s.isDir (w.locate path) true
      touched := s.touched ++ [path] } := by
  intro p hp
  rcases mem_append.mp hp with hp | hp
  · refine (h p hp).imp_right (fun hdir => ⟨hdir.1, ?_⟩)
    exact (update_apply ..).trans (ite_eq_left_iff.mpr (fun _ => hdir.2))
  · obtain rfl := mem_singleton.mp hp
    exact hpath.imp_right (fun hdir => ⟨hdir, update_self ..⟩)

namespace KeepsTo

variable {α β : Type} {m : Action (State P L C) α} {f : α → Action (State P L C) β}

theorem pure (a : α) : KeepsTo w A D (Pure.pure a : Action (State P L C) α) := fun _ h => h

theorem read (f : State P L C → α) : KeepsTo w A D (Action.read f) := fun _ h => h

theorem bind (hm : KeepsTo w A D m) (hf : ∀ a, KeepsTo w A D (f a)) : KeepsTo w A D (m >>= f) :=
  Triple.bind hm hf

theorem ite {c : Prop} [Decidable c] {m m' : Action (State P L C) α} (hm : KeepsTo w A D m)
    (hm' : KeepsTo w A D m') : KeepsTo w A D (if c then m else m') :=
  Triple.ite (fun _ => hm) (fun _ => hm')

theorem attempt : KeepsTo w A D (FileOps.attempt w : Action (State P L C) Bool) := fun _ h => h

variable [DecidableEq L]

theorem put (hpath : path ∈ A) (c : C) : KeepsTo w A D (FileOps.put w path c) :=
  fun _ h => h.append hpath

theorem unlink (path : P) :
    KeepsTo w A D (FileOps.unlink w path : Action (State P L C) Unit) := fun _ h => h

theorem createExclusive (hpath : path ∈ A) (c : C) :
    KeepsTo w A D (FileOps.createExclusive w path c) :=
  bind attempt (fun _ => bind (read _) (fun _ =>
    ite (bind (put hpath c) (fun _ => pure true)) (pure false)))

variable {source target : P} {before : List L}

theorem rename (htarget : target ∈ A) :
    KeepsTo w A D (FileOps.rename w source target : Action (State P L C) Bool) :=
  bind attempt (fun _ => bind (read _) (fun _ =>
    ite (bind (fun _ h => h.append htarget) (fun _ => pure true)) (pure false)))

theorem makeDir (hpath : path ∈ A ∨ path ∈ D) :
    KeepsTo w A D (FileOps.makeDir w path : Action (State P L C) Bool) :=
  bind (read _) (fun _ => ite (pure true) (bind attempt (fun _ => bind (read _) (fun _ =>
    ite (bind (fun _ h => h.makeDir hpath) (fun _ => pure true)) (pure false)))))

theorem makeDirs {paths : List P} (hpaths : ∀ path ∈ paths, path ∈ A ∨ path ∈ D) :
    KeepsTo w A D (FileOps.makeDirs w paths : Action (State P L C) Bool) := by
  induction paths with
  | nil => exact pure true
  | cons path paths ih =>
    obtain ⟨hpath, hrest⟩ := forall_mem_cons.mp hpaths
    exact bind (makeDir hpath) (fun _ => ite (ih hrest) (pure false))

end KeepsTo

end Touched

/-! ## Placed files -/

section Placed

variable {places : List L} {placed placed' : List (L × C)} {l : L} {c : C}

/-- Files were placed at some of the places. -/
structure Adds (places : List L) (placed placed' : List (L × C)) : Prop where
  keys : placed'.map Prod.fst ⊆ places ++ placed.map Prod.fst
  kept : placed ⊆ placed'

namespace Adds

theorem none : Adds places placed placed := ⟨List.subset_append_right _ _, List.Subset.refl _⟩

theorem cons (h : Adds places ((l, c) :: placed) placed') : Adds (l :: places) placed placed' where
  keys _ hl := List.perm_middle.subset (h.keys hl)
  kept _ hp := h.kept (List.mem_cons_of_mem _ hp)

theorem one : Adds (l :: places) placed ((l, c) :: placed) := none.cons

theorem mem (h : Adds places ((l, c) :: placed) placed') : (l, c) ∈ placed' :=
  h.kept mem_cons_self

theorem keys_nil (h : Adds places [] placed) : placed.map Prod.fst ⊆ places := by
  simpa using h.keys

theorem more (h : Adds places [] placed) : Adds (before ++ places) [] placed where
  keys _ hl := List.mem_append_left _ (List.mem_append_right _ (h.keys_nil hl))
  kept := List.nil_subset _

theorem trans (h : Adds places [] placed) (h' : Adds before placed placed') :
    Adds (before ++ places) [] placed' where
  keys _ hl := by
    rw [map_nil, append_nil]
    rcases mem_append.mp (h'.keys hl) with hl | hl
    · exact mem_append_left _ hl
    · exact mem_append_right _ (h.keys_nil hl)
  kept := nil_subset _

/-- Places that are different from all of these are different from the placed files'. -/
theorem nodup (h : Adds places [] placed) (hnodup : (before ++ places).Nodup)
    (hplaced : (placed.map Prod.fst).Nodup) : (before ++ placed.map Prod.fst).Nodup := by
  obtain ⟨hbefore, -, hdisjoint⟩ := nodup_append.mp hnodup
  refine nodup_append.mpr ⟨hbefore, hplaced, ?_⟩
  exact fun l hl l' hl' => hdisjoint l hl l' (h.keys_nil hl')

end Adds

theorem free_of_nodup (h : (l :: places ++ placed.map Prod.fst).Nodup) : l ∉ placed.map Prod.fst :=
  fun hmem => (nodup_cons.mp h).1 (mem_append_right _ hmem)

theorem nodup_placed (c : C) (h : (l :: places ++ placed.map Prod.fst).Nodup) :
    (places ++ ((l, c) :: placed).map Prod.fst).Nodup :=
  perm_middle.nodup_iff.mpr h

end Placed

/-! ## Entries over files -/

section Overlay

variable [DecidableEq L] {entries entries' : List (L × C)} {f : L → Option C} {l : L}

/-- The files with some replaced; the first entry of a place counts. -/
def overlay : List (L × C) → (L → Option C) → L → Option C
  | [], f => f
  | e :: entries, f => Function.update (overlay entries f) e.1 (some e.2)

theorem overlay_of_notMem (h : l ∉ entries.map Prod.fst) : overlay entries f l = f l := by
  induction entries with
  | nil => rfl
  | cons e entries ih =>
    rw [map_cons, mem_cons, not_or] at h
    rw [overlay, update_of_ne h.1, ih h.2]

theorem overlay_of_mem (hnodup : (entries.map Prod.fst).Nodup) {e : L × C} (he : e ∈ entries) :
    overlay entries f e.1 = some e.2 := by
  induction entries with
  | nil => cases he
  | cons d entries ih =>
    rw [map_cons, nodup_cons] at hnodup
    rcases mem_cons.mp he with rfl | he
    · exact update_self _ _ _
    · have hne : e.1 ≠ d.1 := fun heq => hnodup.1 (heq ▸ mem_map_of_mem he)
      rw [overlay, update_of_ne hne, ih hnodup.2 he]

theorem overlay_perm (hperm : entries.Perm entries') (hnodup : (entries.map Prod.fst).Nodup) :
    overlay entries f = overlay entries' f := by
  induction hperm with
  | nil => rfl
  | cons e _ ih =>
    rw [map_cons, nodup_cons] at hnodup
    rw [overlay, overlay, ih hnodup.2]
  | swap e e' entries =>
    have hne : e'.1 ≠ e.1 := by
      simp only [map_cons, nodup_cons, mem_cons, not_or] at hnodup
      exact hnodup.1.1
    rw [overlay, overlay, overlay, overlay, update_comm hne]
  | trans hperm _ ih ih' =>
    rw [ih hnodup, ih' ((hperm.map Prod.fst).nodup_iff.mp hnodup)]

theorem overlay_remove {c : C} (hl : l ∉ entries.map Prod.fst) (hf : f l = none) :
    Function.update (overlay ((l, c) :: entries) f) l none = overlay entries f := by
  rw [overlay, update_idem, ← hf, ← overlay_of_notMem (f := f) hl, update_eq_self]

end Overlay

/-! ## What is held -/

variable [DecidableEq L]

/-- The temporaries and the placed files of a run that started in `base` and may have made the
directories in `made`. -/
structure Held (base : State P L C) (made : Set L) (temps placed : List (L × C))
    (s : State P L C) : Prop where
  file : s.file = overlay (temps ++ placed) base.file
  apart : ((temps ++ placed).map Prod.fst).Nodup
  fresh : ∀ t ∈ temps, base.file t.1 = none
  dirs : ∀ l, l ∉ made → s.isDir l = base.isDir l

variable {w : World P L} {base : State P L C} {made : Set L} {temps placed : List (L × C)}
  {s : State P L C}

namespace Held

theorem start (base : State P L C) (made : Set L) : Held base made [] [] base :=
  ⟨rfl, by simp, by simp, fun _ _ => rfl⟩

section

variable (h : Held base made temps placed s)

include h

theorem perm {temps' : List (L × C)}
    (hperm : temps.Perm temps') : Held base made temps' placed s where
  file := h.file.trans (overlay_perm (hperm.append_right placed) h.apart)
  apart := ((hperm.append_right placed).map Prod.fst).nodup_iff.mp h.apart
  fresh t ht := h.fresh t (hperm.mem_iff.mpr ht)
  dirs := h.dirs

/-- Only the files matter, and the directories that were not to be made. -/
theorem of_same {s' : State P L C} (hfile : s'.file = s.file)
    (hdir : ∀ l, l ∉ made → s'.isDir l = s.isDir l) : Held base made temps placed s' :=
  ⟨hfile.trans h.file, h.apart, h.fresh, fun l hl => (hdir l hl).trans (h.dirs l hl)⟩

/-- A place without a file is neither a temporary's nor a placed file's, and was free. -/
theorem of_none {l : L} (hnone : s.file l = none) :
    l ∉ (temps ++ placed).map Prod.fst ∧ base.file l = none := by
  have hnew : l ∉ (temps ++ placed).map Prod.fst := by
    intro hmem
    obtain ⟨e, he, rfl⟩ := mem_map.mp hmem
    rw [h.file, overlay_of_mem h.apart he] at hnone
    cases hnone
  refine ⟨hnew, ?_⟩
  rw [← hnone, h.file, overlay_of_notMem hnew]

theorem create (c : C) (hnone : s.file (w.locate path) = none) :
    Held base made ((w.locate path, c) :: temps) placed (put w path c s).2 := by
  obtain ⟨hnew, hfree⟩ := h.of_none hnone
  refine ⟨?_, nodup_cons.mpr ⟨hnew, h.apart⟩, ?_, h.dirs⟩
  · change update s.file (w.locate path) (some c) = _
    rw [h.file]
    rfl
  · exact forall_mem_cons.mpr ⟨hfree, h.fresh⟩

end

/-- Writing to the temporary that was created last. -/
theorem write {c : C} (c' : C) (h : Held base made ((w.locate path, c) :: temps) placed s) :
    Held base made ((w.locate path, c') :: temps) placed (put w path c' s).2 := by
  refine ⟨?_, h.apart, ?_, h.dirs⟩
  · change update s.file (w.locate path) (some c') = _
    rw [h.file]
    exact update_idem _ _ _
  · obtain ⟨hfree, hfresh⟩ := forall_mem_cons.mp h.fresh
    exact forall_mem_cons.mpr ⟨hfree, hfresh⟩

theorem unlink {c : C} (h : Held base made ((w.locate path, c) :: temps) placed s) :
    Held base made temps placed (FileOps.unlink w path s).2 := by
  obtain ⟨hnew, hapart⟩ := nodup_cons.mp h.apart
  obtain ⟨hfree, hfresh⟩ := forall_mem_cons.mp h.fresh
  refine ⟨?_, hapart, hfresh, h.dirs⟩
  change update s.file (w.locate path) none = _
  rw [h.file]
  exact overlay_remove hnew hfree

/-- A temporary becomes a placed file; the target holds no other temporary and no placed
file. -/
theorem move {c : C}
    (h : Held base made ((w.locate source, c) :: temps) placed s)
    (htarget : w.locate target ∉ (temps ++ placed).map Prod.fst) :
    Held base made temps ((w.locate target, c) :: placed) (moveFile w source target s).2 := by
  obtain ⟨hnew, hapart⟩ := nodup_cons.mp h.apart
  obtain ⟨hfree, hfresh⟩ := forall_mem_cons.mp h.fresh
  have hnodup : (((w.locate target, c) :: (temps ++ placed)).map Prod.fst).Nodup :=
    nodup_cons.mpr ⟨htarget, hapart⟩
  have hmiddle : ((w.locate target, c) :: (temps ++ placed)).Perm
      (temps ++ (w.locate target, c) :: placed) := perm_middle.symm
  refine ⟨?_, (hmiddle.map Prod.fst).nodup_iff.mp hnodup, hfresh, h.dirs⟩
  rw [← overlay_perm (f := base.file) hmiddle hnodup]
  change (if w.locate source = w.locate target then s.file else _) = _
  by_cases hsame : w.locate source = w.locate target
  · rw [if_pos hsame, h.file, hsame]
    rfl
  · have hsource : w.locate source ∉ ((w.locate target, c) :: (temps ++ placed)).map Prod.fst := by
      rw [map_cons, mem_cons, not_or]
      exact ⟨hsame, hnew⟩
    have hcontents : s.file (w.locate source) = some c := by
      rw [h.file]
      exact update_self _ _ _
    rw [if_neg hsame, hcontents, h.file]
    change update (update (update (overlay (temps ++ placed) base.file)
      (w.locate source) (some c)) (w.locate target) (some c)) (w.locate source) none = _
    rw [update_comm hsame]
    exact overlay_remove hsource hfree

/-- Changing the file that was placed last. -/
theorem change {c : C} (c' : C) (h : Held base made temps ((w.locate path, c) :: placed) s) :
    Held base made temps ((w.locate path, c') :: placed) (put w path c' s).2 := by
  have hmiddle (c : C) : (temps ++ (w.locate path, c) :: placed).Perm
      ((w.locate path, c) :: (temps ++ placed)) := perm_middle
  have hapart : ((temps ++ (w.locate path, c') :: placed).map Prod.fst).Nodup := by
    simpa using h.apart
  refine ⟨?_, hapart, h.fresh, h.dirs⟩
  change update s.file (w.locate path) (some c') = _
  rw [h.file, overlay_perm (hmiddle c) h.apart, overlay_perm (hmiddle c') hapart]
  exact update_idem _ _ _

/-! ## The operations -/

theorem attempt : Triple (Held base made temps placed) (FileOps.attempt w)
    (fun _ => Held base made temps placed) :=
  fun _ h => h.of_same rfl (fun _ _ => rfl)

theorem writeTemp {c : C} (c' : C) :
    Triple (Held base made ((w.locate path, c) :: temps) placed) (put w path c')
      (fun _ => Held base made ((w.locate path, c') :: temps) placed) :=
  fun _ h => h.write c'

theorem changePlaced {c : C} (c' : C) :
    Triple (Held base made temps ((w.locate path, c) :: placed)) (put w path c')
      (fun _ => Held base made temps ((w.locate path, c') :: placed)) :=
  fun _ h => h.change c'

theorem unlinkTemp {c : C} :
    Triple (Held base made ((w.locate path, c) :: temps) placed) (FileOps.unlink w path)
      (fun _ => Held base made temps placed) :=
  fun _ h => h.unlink

theorem createExclusive (path : P) (c : C) :
    Triple (Held base made temps placed) (FileOps.createExclusive w path c)
      (fun ok => Held base made (if ok then (w.locate path, c) :: temps else temps) placed) := by
  refine .bind attempt (fun ok => .bind (R := fun taken s =>
    Held base made temps placed s ∧ (taken = false → s.file (w.locate path) = none)) ?_ ?_)
  · refine .read (fun s h => ⟨h, fun htaken => ?_⟩)
    rw [Bool.or_eq_false_iff, Option.isSome_eq_false_iff, Option.isNone_iff_eq_none] at htaken
    exact htaken.1
  · intro taken
    refine .ite (fun hc => .bind (.update (fun s h => ?_)) (fun _ => .pure (fun _ h => h)))
      (fun _ => .pure (fun _ h => h.1))
    rw [Bool.and_eq_true, Bool.not_eq_true'] at hc
    exact h.1.create c (h.2 hc.2)

theorem rename {c : C}
    (htarget : w.locate target ∉ (temps ++ placed).map Prod.fst) :
    Triple (Held base made ((w.locate source, c) :: temps) placed)
      (FileOps.rename w source target)
      (fun ok s => if ok then Held base made temps ((w.locate target, c) :: placed) s
        else Held base made ((w.locate source, c) :: temps) placed s) := by
  refine .bind attempt (fun ok => .bind .readKept (fun blocked => ?_))
  refine .ite (fun _ => .bind (.update (fun s h => ?_)) (fun _ => .pure (fun _ h => h)))
    (fun _ => .pure (fun _ h => h))
  exact h.move htarget

theorem makeDir (hmade : w.locate path ∈ made) :
    Triple (Held base made temps placed) (FileOps.makeDir w path)
      (fun _ => Held base made temps placed) := by
  refine .bind .readKept (fun there => .ite (fun _ => .pure (fun _ h => h)) ?_)
  intro _
  refine .bind attempt (fun ok => .bind .readKept (fun taken => ?_))
  refine .ite (fun _ => .bind (.update (fun s h => ?_)) (fun _ => .pure (fun _ h => h)))
    (fun _ => .pure (fun _ h => h))
  refine h.of_same rfl (fun l hl => update_of_ne ?_ _ _)
  rintro rfl
  exact hl hmade

theorem makeDirs {paths : List P} (hmade : ∀ path ∈ paths, w.locate path ∈ made) :
    Triple (Held base made temps placed) (FileOps.makeDirs w paths)
      (fun _ => Held base made temps placed) := by
  induction paths with
  | nil => exact .pure (fun _ h => h)
  | cons path paths ih =>
    obtain ⟨hpath, hpaths⟩ := forall_mem_cons.mp hmade
    exact .bind (makeDir hpath) (fun _ => .ite (fun _ => ih hpaths) (fun _ => .pure (fun _ h => h)))

end Held

end FileOps

import Vcache.Placement

/-!
# Outcomes tell what was placed

Each step of a restore is described by the files it holds. A step that fails removes the
temporary it made, so the outcome and the placed files are all that is left of a run:
nothing is placed behind `unusable`, everything behind `placed` and `served`.
-/

namespace Vcache

open List FileOps Triples

variable {files : List BlobSidecarFile} {clones : List (VerifiedClone × OutFile)}

namespace RestoreWorld

variable {L : Type} {w : RestoreWorld L}

/-! ## The files of an entry -/

/-- The directories on the way to a path are among those that may be made. -/
def Reachable (w : RestoreWorld L) (made : Set L) (path : Str) : Prop :=
  ∀ dir ∈ dirsOnTheWay (dirName path), w.locate dir ∈ made

def placesOf (w : RestoreWorld L) (paths : List Str) : List L := paths.map w.locate

def wayTo (w : RestoreWorld L) (paths : List Str) : Set L :=
  {l | ∃ path ∈ paths, ∃ dir ∈ dirsOnTheWay (dirName path), w.locate dir = l}

theorem reachable_wayTo {paths : List Str} {path : Str} (hpath : path ∈ paths) :
    w.Reachable (w.wayTo paths) path :=
  fun dir hdir => ⟨path, hpath, dir, hdir, rfl⟩

/-- What a file with a digest is placed as. -/
def OfDigest (w : RestoreWorld L) (digest : Str) (executable : Bool) (f : OutFile) : Prop :=
  w.hash f.contents = digest ∧ (executable = true → f.executable = true)

/-- What an inline file is placed as. -/
def Restore.Inline (r : Restore) (file : BlobFile) (f : OutFile) : Prop :=
  f.contents = r.bytesOf file ∧ (file.executable = true → f.executable = true)

def clonesOf (w : RestoreWorld L) (clones : List (VerifiedClone × OutFile)) : List (L × OutFile) :=
  clones.map (fun clone => (w.locate clone.1.1, clone.2))

def Restore.Cloned (w : RestoreWorld L) (r : Restore) (file : BlobSidecarFile)
    (clone : VerifiedClone × OutFile) : Prop :=
  clone.1.2 = r.target file.name ∧
    (∃ n, clone.1.1 = tempBeside (r.target file.name) (w.suffix n)) ∧
    w.OfDigest file.digest file.executable clone.2

def targetsOf (w : RestoreWorld L) (clones : List (VerifiedClone × OutFile)) : List L :=
  w.placesOf (clones.map (·.1.2))

/-- No clone is to be renamed onto the temporary of a later one. -/
def ClonesApart (w : RestoreWorld L) (clones : List (VerifiedClone × OutFile)) : Prop :=
  clones.Pairwise (fun earlier later => w.locate later.1.1 ≠ w.locate earlier.1.2)

theorem Restore.targetsOf_cloned {r : Restore} (h : List.Forall₂ (r.Cloned w) files clones) :
    w.targetsOf clones = w.placesOf (files.map (r.target ·.name)) := by
  induction h with
  | nil => rfl
  | cons hclone _ ih =>
    rw [targetsOf, placesOf, map_cons, map_cons, hclone.1]
    exact congrArg (cons _) ih

/-- No sidecar has the name of a later one's temporary. -/
def TempsApart (w : RestoreWorld L) (r : Restore) (files : List BlobSidecarFile) : Prop :=
  files.Pairwise (fun earlier later =>
    ∀ n, w.locate (tempBeside (r.target later.name) (w.suffix n)) ≠
      w.locate (r.target earlier.name))

theorem TempsApart.clonesApart {r : Restore} (hapart : w.TempsApart r files)
    (h : List.Forall₂ (r.Cloned w) files clones) : w.ClonesApart clones := by
  induction h with
  | nil => exact .nil
  | @cons file clone files clones hclone hclones ih =>
    obtain ⟨hlater, hfiles⟩ := pairwise_cons.mp hapart
    refine pairwise_cons.mpr ⟨?_, ih hfiles⟩
    rw [hclone.1]
    clear ih hfiles
    induction hclones with
    | nil => simp
    | cons hnext _ ih =>
      obtain ⟨hhead, htail⟩ := forall_mem_cons.mp hlater
      refine forall_mem_cons.mpr ⟨?_, ih (pairwise_cons.mpr ⟨htail, ?_⟩) htail⟩
      · obtain ⟨n, hn⟩ := hnext.2.1
        rw [hn]
        exact hhead n
      · exact (pairwise_cons.mp (pairwise_cons.mp hapart).2).2

theorem Restore.forall_cloned {r : Restore} {placed : List (L × OutFile)}
    (h : List.Forall₂ (r.Cloned w) files clones)
    (hplaced : ∀ clone ∈ clones, (w.locate clone.1.2, clone.2) ∈ placed) :
    ∀ file ∈ files, ∃ o, (w.locate (r.target file.name), o) ∈ placed ∧
      w.OfDigest file.digest file.executable o := by
  induction h with
  | nil => simp
  | cons hclone _ ih =>
    obtain ⟨hhead, htail⟩ := forall_mem_cons.mp hplaced
    exact forall_mem_cons.mpr ⟨⟨_, hclone.1 ▸ hhead, hclone.2.2⟩, ih htail⟩

def Restore.targets (r : Restore) (blob : Blob) : List Str :=
  blob.files.map (r.target ·.name) ++ blob.sidecarFiles.map (r.target ·.name)

theorem placesOf_targets (r : Restore) (blob : Blob) : w.placesOf (r.targets blob) =
    w.placesOf (blob.files.map (r.target ·.name)) ++
      w.placesOf (blob.sidecarFiles.map (r.target ·.name)) := List.map_append

variable [DecidableEq L] {base : Files L} {made : Set L} {temps placed : List (L × OutFile)}
  {path temp digest : Str} {f : OutFile}

/-! ## One file -/

variable (w base made temps placed) in
/-- A temporary beside the path was added, or nothing was. -/
def HeldBeside (path : Str) : Option Str → Files L → Prop
  | none, s => Held base made temps placed s
  | some temp, s => (∃ n, temp = tempBeside path (w.suffix n)) ∧
      ∃ f, Held base made ((w.locate temp, f) :: temps) placed s

theorem createTempBeside_held (hpath : w.Reachable made path) :
    Triple (Held base made temps placed) (w.createTempBeside path)
      (w.HeldBeside base made temps placed path) := by
  refine .bind (R := fun _ => Held base made temps placed) ?_ (fun ready => ?_)
  · exact .ite (fun _ => .pure (fun _ h => h)) (fun _ => Held.makeDirs hpath)
  refine .ite (fun _ => .pure (fun _ h => h)) (fun _ => .bind .readKept (fun n => ?_))
  refine .bind (Held.createExclusive (tempBeside path (w.suffix n)) (OutFile.mk [] false))
    (fun created => ?_)
  cases created with
  | false => exact .pure (fun _ h => h)
  | true =>
    refine .bind Held.attempt (fun ok => .ite (fun _ => .pure (fun s h => ?_)) (fun _ => ?_))
    · exact ⟨⟨n, rfl⟩, _, h⟩
    · exact .bind Held.unlinkTemp (fun _ => .pure (fun _ h => h))

theorem cloneToTempBeside_held (digest : Str) (hpath : w.Reachable made path) :
    Triple (Held base made temps placed) (w.cloneToTempBeside digest path)
      (w.HeldBeside base made temps placed path) := by
  refine .bind .readKept (fun n => ?_)
  cases w.stored n digest with
  | none => exact .pure (fun _ h => h)
  | some contents =>
    refine .bind (createTempBeside_held hpath) (fun temp? => ?_)
    cases temp? with
    | none => exact .pure (fun _ h => h)
    | some temp =>
      refine .of_and (fun hname => .of_exists (fun f => .bind Held.attempt (fun ok => ?_)))
      refine .ite (fun _ => ?_) (fun _ => .bind Held.unlinkTemp (fun _ => .pure (fun _ h => h)))
      refine .bind (Held.writeTemp (OutFile.mk contents false)) (fun _ => .pure ?_)
      exact fun s h => ⟨hname, _, h⟩

theorem hashFile_held : Triple (Held base made ((w.locate temp, f) :: temps) placed)
    (w.hashFile temp) (fun digest? s =>
      (∀ digest, digest? = some digest → w.hash f.contents = digest) ∧
        Held base made ((w.locate temp, f) :: temps) placed s) := by
  refine .bind Held.attempt (fun ok => .bind (R := fun file s => file = some f ∧
    Held base made ((w.locate temp, f) :: temps) placed s) (.read (fun s h => ?_)) (fun file => ?_))
  · refine ⟨?_, h⟩
    rw [h.file]
    exact Function.update_self _ _ _
  · refine .of_and (fun hfile => .pure (fun s h => ⟨?_, h⟩))
    intro digest hdigest
    subst hfile
    split at hdigest
    · exact Option.some.inj hdigest
    · cases hdigest

theorem makeExecutable_held {Q : OutFile → Files L → Prop} (executable : Bool)
    (hat : ∀ f s, Q f s → s.file (w.locate path) = some f)
    (hattempt : ∀ f, Triple (Q f) (attempt w.toWorld) (fun _ => Q f))
    (hput : ∀ f f', Triple (Q f) (put w.toWorld path f') (fun _ => Q f')) (f : OutFile) :
    Triple (Q f) (w.makeExecutable executable path) (fun ok s => ∃ f',
      (f'.contents = f.contents ∧ (ok = true → executable = true → f'.executable = true)) ∧
        Q f' s) := by
  refine .ite (fun _ => ?_) (fun hnot => .pure (fun s h => ⟨f, ⟨rfl, fun _ h => absurd h hnot⟩, h⟩))
  refine .bind (hattempt f) (fun ok => .bind (R := fun file s => file = some f ∧ Q f s)
    (.read (fun s h => ⟨hat f s h, h⟩)) (fun file => .of_and (fun hfile => ?_)))
  subst hfile
  refine .ite (fun _ => ?_) (fun _ => .pure (fun s h => ⟨f, ⟨rfl, fun h => by cases h⟩, h⟩))
  refine .bind (hput f { f with executable := true }) (fun _ => .pure (fun s h => ?_))
  exact ⟨{ f with executable := true }, ⟨rfl, fun _ _ => rfl⟩, h⟩

theorem makeExecutable_temp (executable : Bool) (f : OutFile) :
    Triple (Held base made ((w.locate temp, f) :: temps) placed)
      (w.makeExecutable executable temp) (fun ok s => ∃ f',
        (f'.contents = f.contents ∧ (ok = true → executable = true → f'.executable = true)) ∧
          Held base made ((w.locate temp, f') :: temps) placed s) := by
  refine makeExecutable_held (Q := fun f => Held base made ((w.locate temp, f) :: temps) placed)
    executable (fun f s h => ?_) (fun _ => Held.attempt) (fun _ f' => Held.writeTemp f') f
  rw [h.file]
  exact Function.update_self _ _ _

theorem makeExecutable_placed (executable : Bool) (f : OutFile) :
    Triple (Held base made temps ((w.locate path, f) :: placed))
      (w.makeExecutable executable path) (fun ok s => ∃ f',
        (f'.contents = f.contents ∧ (ok = true → executable = true → f'.executable = true)) ∧
          Held base made temps ((w.locate path, f') :: placed) s) := by
  refine makeExecutable_held (Q := fun f => Held base made temps ((w.locate path, f) :: placed))
    executable (fun f s h => ?_) (fun _ => Held.attempt) (fun _ f' => Held.changePlaced f') f
  rw [h.file]
  exact overlay_of_mem (e := (w.locate path, f)) h.apart
    (mem_append_right _ mem_cons_self)

theorem placeVerifiedClone_held (digest : Str) (executable : Bool) (hpath : w.Reachable made path)
    (hnew : w.locate path ∉ placed.map Prod.fst) :
    Triple (Held base made [] placed) (w.placeVerifiedClone digest path executable)
      (fun ok s => if ok then ∃ f, w.OfDigest digest executable f ∧
        Held base made [] ((w.locate path, f) :: placed) s else Held base made [] placed s) := by
  refine .bind (cloneToTempBeside_held digest hpath) (fun temp? => ?_)
  cases temp? with
  | none => exact .pure (fun _ h => h)
  | some temp =>
    refine .of_and (fun _ => .of_exists (fun f => .bind hashFile_held (fun digest? => ?_)))
    refine .of_and (fun hdigest => .ite (fun _ => ?_) (fun hmatch => ?_))
    · exact .bind Held.unlinkTemp (fun _ => .pure (fun _ h => h))
    refine .bind (makeExecutable_temp executable f) (fun ready => .of_exists (fun f' => ?_))
    refine .of_and (fun hready => .ite (fun _ => ?_) (fun hok => ?_))
    · exact .bind Held.unlinkTemp (fun _ => .pure (fun _ h => h))
    refine .bind (Held.rename (by simpa using hnew)) (fun renamed => ?_)
    cases renamed with
    | false => exact .bind Held.unlinkTemp (fun _ => .pure (fun _ h => h))
    | true =>
      refine .pure (fun s h => ⟨f', ⟨?_, hready.2 (by simpa using hok)⟩, h⟩)
      rw [hready.1]
      exact hdigest digest (by simpa using hmatch)

/-! ## Several files -/

/-- What a restore leaves: files at the given paths, none behind the outcome `unusable`, and
what has to be there behind the outcome `complete`. -/
def Leaves (w : RestoreWorld L) (base : Files L) (made : Set L) (paths : List Str) {α : Type}
    (unusable complete : α) (All : List (L × OutFile) → Prop) (outcome : α) (s : Files L) : Prop :=
  ∃ placed, (Adds (w.placesOf paths) [] placed ∧ (outcome = unusable → placed = []) ∧
    (outcome = complete → All placed)) ∧ Held base made [] placed s

theorem Leaves.nothing {paths : List Str} {α : Type} {unusable complete : α}
    {All : List (L × OutFile) → Prop} {s : Files L} (hne : unusable ≠ complete)
    (h : Held base made [] [] s) : w.Leaves base made paths unusable complete All unusable s :=
  ⟨[], ⟨.none, fun _ => rfl, fun heq => absurd heq hne⟩, h⟩

/-! ## Links -/

theorem getFile_held (digest : Str) : Triple (Held base made temps placed) (w.getFile digest)
    (fun _ => Held base made temps placed) :=
  .bind .readKept (fun _ => .bind Held.attempt (fun _ => .pure (fun _ h => h)))

theorem findOutputs_held (outputs : List Str) (files : List BlobFile) :
    Triple (Held base made temps placed) (w.findOutputs outputs files)
      (fun _ => Held base made temps placed) := by
  induction files with
  | nil => exact .pure (fun _ h => h)
  | cons f files ih =>
    refine .ite (fun _ => .pure (fun _ h => h)) (fun _ => .ite (fun _ => .pure (fun _ h => h)) ?_)
    intro _
    refine .bind (getFile_held f.contents) (fun found => .ite (fun _ => ih) (fun _ => ?_))
    exact .pure (fun _ h => h)

theorem placeOutputs_held {files : List BlobFile} {placed : List (L × OutFile)}
    (hreach : ∀ f ∈ files, w.Reachable made f.name)
    (hnodup : (w.placesOf (files.map BlobFile.name) ++ placed.map Prod.fst).Nodup) :
    Triple (Held base made [] placed) (w.placeOutputs files) (fun ok s => ∃ placed',
      (Adds (w.placesOf (files.map BlobFile.name)) placed placed' ∧
        (ok = true → ∀ f ∈ files, ∃ o, (w.locate f.name, o) ∈ placed' ∧
          w.OfDigest f.contents f.executable o)) ∧ Held base made [] placed' s) := by
  induction files generalizing placed with
  | nil => exact .pure (fun s h => ⟨placed, ⟨.none, by simp⟩, h⟩)
  | cons f files ih =>
    obtain ⟨hf, hfiles⟩ := forall_mem_cons.mp hreach
    refine .bind (placeVerifiedClone_held f.contents f.executable hf
      (free_of_nodup hnodup)) (fun ok => ?_)
    cases ok with
    | false => exact .pure (fun s h => ⟨placed, ⟨.none, fun hok => by cases hok⟩, h⟩)
    | true =>
      refine .of_exists (fun o => .of_and (fun ho => ?_))
      refine (ih hfiles (nodup_placed o hnodup)).mono (fun _ h => h) ?_
      rintro ok s ⟨placed', ⟨hadds, hall⟩, h⟩
      refine ⟨placed', ⟨hadds.cons, fun hok => ?_⟩, h⟩
      exact forall_mem_cons.mpr ⟨⟨o, hadds.mem, ho⟩, hall hok⟩

theorem materializeOutputs_held (blob : Blob) (outputs : List Str)
    (hreach : ∀ f ∈ blob.files, w.Reachable made f.name)
    (hnodup : (w.placesOf (blob.files.map BlobFile.name)).Nodup) :
    Triple (Held base made [] []) (w.materializeOutputs blob outputs)
      (w.Leaves base made (blob.files.map BlobFile.name) .unusable .placed (fun placed =>
        (blob.files.map BlobFile.name).Perm outputs ∧
          ∀ f ∈ blob.files, ∃ o, (w.locate f.name, o) ∈ placed ∧
            w.OfDigest f.contents f.executable o)) := by
  have hne : Materialized.unusable ≠ .placed := by decide
  refine .ite (fun _ => .pure (fun _ => .nothing hne)) (fun hnames => ?_)
  refine .bind (findOutputs_held outputs blob.files) (fun found => ?_)
  refine .ite (fun _ => .pure (fun _ => .nothing hne)) (fun _ => ?_)
  refine .bind (placeOutputs_held hreach (by simpa using hnodup)) (fun ok => ?_)
  refine .of_exists (fun placed => .of_and (fun hplaced => .pure (fun s h => ?_)))
  refine ⟨placed, ⟨hplaced.1, ?_, ?_⟩, h⟩
  · cases ok <;> simp
  · intro houtcome
    have hok : ok = true := by
      cases ok with
      | false => cases houtcome
      | true => rfl
    refine ⟨?_, hplaced.2 hok⟩
    have hsorted : outputs.insertionSort (· ≤ ·) =
        (blob.files.map BlobFile.name).insertionSort (· ≤ ·) := by simpa using hnames
    exact (perm_insertionSort _ _).symm.trans
      (hsorted ▸ perm_insertionSort _ outputs)

/-! ## Rust -/

theorem writeFileAtomic_held (contents : Str) (hpath : w.Reachable made path)
    (hnew : w.locate path ∉ placed.map Prod.fst) :
    Triple (Held base made [] placed) (w.writeFileAtomic path contents) (fun ok s =>
      if ok then Held base made [] ((w.locate path, ⟨contents, false⟩) :: placed) s
      else Held base made [] placed s) := by
  refine .bind (createTempBeside_held hpath) (fun temp? => ?_)
  cases temp? with
  | none => exact .pure (fun _ h => h)
  | some temp =>
    refine .of_and (fun _ => .of_exists (fun f => .bind Held.attempt (fun written => ?_)))
    refine .ite (fun _ => .bind Held.unlinkTemp (fun _ => .pure (fun _ h => h))) (fun _ => ?_)
    refine .bind (Held.writeTemp (OutFile.mk contents false)) (fun _ => ?_)
    refine .bind (Held.rename (by simpa using hnew)) (fun renamed => ?_)
    cases renamed with
    | false => exact .bind Held.unlinkTemp (fun _ => .pure (fun _ h => h))
    | true => exact .pure (fun _ h => h)

theorem restoreFiles_held (r : Restore) {files : List BlobFile} {placed : List (L × OutFile)}
    (n : ℕ) (hreach : ∀ file ∈ files, w.Reachable made (r.target file.name))
    (hnodup : (w.placesOf (files.map (r.target ·.name)) ++ placed.map Prod.fst).Nodup) :
    Triple (Held base made [] placed) (w.restoreFiles r files n) (fun result s => ∃ placed',
      (Adds (w.placesOf (files.map (r.target ·.name))) placed placed' ∧ n ≤ result.2 ∧
        (result.1 = false → result.2 = n → placed' = placed) ∧
        (result.1 = true → ∀ file ∈ files, ∃ o, (w.locate (r.target file.name), o) ∈ placed' ∧
          r.Inline file o)) ∧ Held base made [] placed' s) := by
  induction files generalizing placed n with
  | nil => exact .pure (fun s h => ⟨placed, ⟨.none, le_rfl, fun _ _ => rfl, by simp⟩, h⟩)
  | cons file files ih =>
    obtain ⟨hfile, hfiles⟩ := forall_mem_cons.mp hreach
    refine .bind (writeFileAtomic_held (r.bytesOf file) hfile
      (free_of_nodup hnodup)) (fun written => ?_)
    cases written with
    | false =>
      exact .pure (fun s h => ⟨placed, ⟨.none, le_rfl, fun _ _ => rfl, fun hok => by cases hok⟩, h⟩)
    | true =>
      refine .bind (makeExecutable_placed file.executable _) (fun ready => .of_exists (fun o => ?_))
      refine .of_and (fun ho => ?_)
      cases ready with
      | false =>
        refine .pure (fun s h => ⟨_, ⟨.one, Nat.le_succ n, ?_, fun hok => by cases hok⟩, h⟩)
        exact fun _ hn => absurd hn (Nat.succ_ne_self n)
      | true =>
        refine (ih (n + 1) hfiles (nodup_placed o hnodup)).mono (fun _ h => h) ?_
        rintro result s ⟨placed', ⟨hadds, hle, -, hall⟩, h⟩
        refine ⟨placed', ⟨hadds.cons, Nat.le_of_succ_le hle, ?_, fun hok => ?_⟩, h⟩
        · exact fun _ hn => absurd (hn ▸ hle) (Nat.not_succ_le_self n)
        · exact forall_mem_cons.mpr ⟨⟨o, hadds.mem, ho.1, ho.2 rfl⟩, hall hok⟩

theorem restoreOutputs_held (r : Restore) {files : List BlobFile} {placed : List (L × OutFile)}
    (hreach : ∀ file ∈ files, w.Reachable made (r.target file.name))
    (hnodup : (w.placesOf (files.map (r.target ·.name)) ++ placed.map Prod.fst).Nodup) :
    Triple (Held base made [] placed) (w.restoreOutputs r files) (fun result s => ∃ placed',
      (Adds (w.placesOf (files.map (r.target ·.name))) placed placed' ∧
        (result.1 = false → result.2 = 0 → placed' = placed) ∧
        (result.1 = true → ∀ file ∈ files, ∃ o, (w.locate (r.target file.name), o) ∈ placed' ∧
          r.Inline file o)) ∧ Held base made [] placed' s) := by
  refine .ite (fun _ => ?_) (fun _ => .pure (fun s h => ⟨placed, ⟨.none, ?_, ?_⟩, h⟩))
  · refine (restoreFiles_held r 0 hreach hnodup).mono (fun _ h => h) ?_
    rintro result s ⟨placed', ⟨hadds, -, hnone, hall⟩, h⟩
    exact ⟨placed', ⟨hadds, hnone, hall⟩, h⟩
  · exact fun _ _ => rfl
  · intro hok
    cases hok

theorem discard_held (clones : List (VerifiedClone × OutFile)) :
    Triple (Held base made (w.clonesOf clones) placed) (w.discard (clones.map Prod.fst))
      (fun _ => Held base made [] placed) := by
  induction clones with
  | nil => exact .pure (fun _ h => h)
  | cons clone clones ih => exact .bind Held.unlinkTemp (fun _ => ih)

theorem cloneSidecars_held (r : Restore) (clones : List (VerifiedClone × OutFile))
    (hreach : ∀ file ∈ files, w.Reachable made (r.target file.name)) :
    Triple (Held base made (w.clonesOf clones) placed)
      (w.cloneSidecars r files (clones.map Prod.fst)) (fun clones? s =>
        match clones? with
        | none => Held base made [] placed s
        | some all => ∃ new, (all = (clones ++ new).map Prod.fst ∧
            List.Forall₂ (r.Cloned w) files new) ∧
            Held base made (w.clonesOf (clones ++ new)) placed s) := by
  induction files generalizing clones with
  | nil => exact .pure (fun s h => ⟨[], ⟨by rw [append_nil], .nil⟩, by rwa [append_nil]⟩)
  | cons file files ih =>
    obtain ⟨hfile, hfiles⟩ := forall_mem_cons.mp hreach
    refine .bind (getFile_held file.digest) (fun found => .ite (fun _ => ?_) (fun _ => ?_))
    · exact .bind (discard_held clones) (fun _ => .pure (fun _ h => h))
    refine .bind (cloneToTempBeside_held file.digest hfile) (fun temp? => ?_)
    cases temp? with
    | none => exact .bind (discard_held clones) (fun _ => .pure (fun _ h => h))
    | some temp =>
      refine .of_and (fun hname => .of_exists (fun f => .bind hashFile_held (fun digest? => ?_)))
      -- the clone stands last in the list and was created last
      have hlast (f : OutFile) : ∀ s,
          Held base made ((w.locate temp, f) :: w.clonesOf clones) placed s →
          Held base made (w.clonesOf (clones ++ [((temp, r.target file.name), f)])) placed s := by
        intro s h
        refine h.perm ?_
        rw [clonesOf, clonesOf, map_append]
        exact (perm_append_singleton _ _).symm
      have hmap (f : OutFile) : clones.map Prod.fst ++ [(temp, r.target file.name)] =
          (clones ++ [((temp, r.target file.name), f)]).map Prod.fst := by
        rw [map_append]
        rfl
      have hdiscard (f : OutFile) :
          Triple (Held base made ((w.locate temp, f) :: w.clonesOf clones) placed)
            (w.discard (clones.map Prod.fst ++ [(temp, r.target file.name)]))
            (fun _ => Held base made [] placed) := by
        rw [hmap f]
        exact (discard_held _).mono (hlast f) (fun _ _ h => h)
      refine .of_and (fun hdigest => .ite (fun _ => ?_) (fun hmatch => ?_))
      · exact .bind (hdiscard f) (fun _ => .pure (fun _ h => h))
      refine .bind (makeExecutable_temp file.executable f) (fun ready => .of_exists (fun f' => ?_))
      refine .of_and (fun hready => .ite (fun hok => ?_) (fun _ => ?_))
      · rw [hmap f']
        refine (ih _ hfiles).mono (hlast f') (fun clones? s h => ?_)
        cases clones? with
        | none => exact h
        | some all =>
          obtain ⟨new, ⟨hall, hnew⟩, h⟩ := h
          rw [append_assoc] at hall h
          refine ⟨_ :: new, ⟨hall, .cons ⟨rfl, hname, ?_, hready.2 hok⟩ hnew⟩, h⟩
          rw [hready.1]
          exact hdigest file.digest (by simpa using hmatch)
      · exact .bind (hdiscard f') (fun _ => .pure (fun _ h => h))

theorem renameClones_held {placed : List (L × OutFile)}
    (first : Bool) (hapart : w.ClonesApart clones)
    (hnodup : (w.targetsOf clones ++ placed.map Prod.fst).Nodup) :
    Triple (Held base made (w.clonesOf clones) placed)
      (w.renameClones first (clones.map Prod.fst)) (fun failed s => ∃ placed',
        (Adds (w.targetsOf clones) placed placed' ∧ failed ≠ some .served ∧
          (failed = some .unusable → first = true ∧ placed' = placed) ∧
          (failed = none → ∀ clone ∈ clones, (w.locate clone.1.2, clone.2) ∈ placed')) ∧
          Held base made [] placed' s) := by
  induction clones generalizing placed first with
  | nil => exact .pure (fun s h => ⟨placed, ⟨.none, by simp, by simp, by simp⟩, h⟩)
  | cons clone clones ih =>
    obtain ⟨hlater, hapart⟩ := pairwise_cons.mp hapart
    have htarget : w.locate clone.1.2 ∉ (w.clonesOf clones ++ placed).map Prod.fst := by
      rw [map_append, mem_append, not_or]
      refine ⟨fun hmem => ?_, free_of_nodup hnodup⟩
      rw [clonesOf, map_map] at hmem
      obtain ⟨later, hmem, heq⟩ := mem_map.mp hmem
      exact hlater later hmem heq
    refine .bind (Held.rename htarget) (fun renamed => ?_)
    cases renamed with
    | false =>
      refine .bind (discard_held (clone :: clones)) (fun _ => .pure (fun s h => ?_))
      refine ⟨placed, ⟨.none, ?_, ?_, fun h => by cases h⟩, h⟩
      · cases first <;> simp
      · cases first <;> simp
    | true =>
      refine (ih false hapart (nodup_placed clone.2 hnodup)).mono (fun _ h => h) ?_
      rintro failed s ⟨placed', ⟨hadds, hserved, hunusable, hall⟩, h⟩
      refine ⟨placed', ⟨hadds.cons, hserved, ?_, fun hnone => ?_⟩, h⟩
      · exact fun hfailed => absurd (hunusable hfailed).1 Bool.false_ne_true
      · exact forall_mem_cons.mpr ⟨hadds.mem, hall hnone⟩

theorem serveBlob_held (r : Restore) (blob : Blob)
    (hreach : ∀ path ∈ r.targets blob, w.Reachable made path)
    (hnodup : (w.placesOf (r.targets blob)).Nodup) (hapart : w.TempsApart r blob.sidecarFiles) :
    Triple (Held base made [] []) (w.serveBlob r blob)
      (w.Leaves base made (r.targets blob) .unusable .served (fun placed =>
        (∀ file ∈ blob.files, ∃ o, (w.locate (r.target file.name), o) ∈ placed ∧
          r.Inline file o) ∧
        ∀ file ∈ blob.sidecarFiles, ∃ o, (w.locate (r.target file.name), o) ∈ placed ∧
          w.OfDigest file.digest file.executable o)) := by
  have hne : HitOutcome.unusable ≠ .served := by decide
  have hfiles : ∀ file ∈ blob.files, w.Reachable made (r.target file.name) :=
    fun file hfile => hreach _ (mem_append_left _ (mem_map_of_mem hfile))
  have hsidecars : ∀ file ∈ blob.sidecarFiles, w.Reachable made (r.target file.name) :=
    fun file hfile => hreach _ (mem_append_right _ (mem_map_of_mem hfile))
  rw [placesOf_targets] at hnodup
  refine .ite (fun _ => .pure (fun _ => .nothing hne)) (fun _ => ?_)
  refine .ite (fun _ => .pure (fun _ => .nothing hne)) (fun hsafe => ?_)
  refine .bind (cloneSidecars_held r [] hsidecars) (fun clones? => ?_)
  cases clones? with
  | none => exact .pure (fun _ => .nothing hne)
  | some all =>
    refine .of_exists (fun clones => .of_and (fun hclones => ?_))
    obtain ⟨rfl, hcloned⟩ := hclones
    have htargets := Restore.targetsOf_cloned hcloned
    rw [nil_append]
    refine .bind (renameClones_held true (hapart.clonesApart hcloned) ?_) (fun failed => ?_)
    · rw [map_nil, append_nil, htargets]
      exact (nodup_append.mp hnodup).2.1
    refine .of_exists (fun placed => .of_and (fun hrenamed => ?_))
    obtain ⟨hadds, hserved, hunusable, hall⟩ := hrenamed
    rw [htargets] at hadds
    cases failed with
    | some outcome =>
      refine .pure (fun s h => ⟨placed, ⟨placesOf_targets r blob ▸ hadds.more, ?_, ?_⟩, h⟩)
      · exact fun houtcome => (hunusable (congrArg some houtcome)).2
      · exact fun houtcome => absurd (congrArg some houtcome) hserved
    | none =>
      refine .of_pre (fun s h => h.apart) (fun hdifferent => ?_)
      have hfree := hadds.nodup hnodup hdifferent
      refine .bind (restoreOutputs_held r hfiles hfree) (fun restored => ?_)
      refine .of_exists (fun placed' => .of_and (fun hrestored => ?_))
      obtain ⟨hadds', hnone, hall'⟩ := hrestored
      have htrans : Adds (w.placesOf (r.targets blob)) [] placed' :=
        placesOf_targets r blob ▸ hadds.trans hadds'
      refine .ite (fun hok => .pure (fun s h => ⟨placed', ⟨htrans, ?_, fun _ => ?_⟩, h⟩)) ?_
      · intro houtcome
        cases houtcome
      · refine ⟨hall' hok, Restore.forall_cloned hcloned (fun clone hclone => ?_)⟩
        exact hadds'.kept (hall rfl clone hclone)
      · refine fun hfailed => .pure (fun s h => ⟨placed', ⟨htrans, fun houtcome => ?_, ?_⟩, h⟩)
        · -- nothing was cloned and nothing written
          have hnothing : clones.length + restored.2 = 0 := by
            split at houtcome
            · cases houtcome
            · rw [length_map] at *
              omega
          obtain ⟨hclones, hwritten⟩ := Nat.add_eq_zero_iff.mp hnothing
          rw [hnone (by simpa using hfailed) hwritten]
          rw [length_eq_zero_iff.mp hclones] at hcloned
          rw [forall₂_nil_right_iff.mp hcloned] at hadds
          exact map_eq_nil_iff.mp (subset_nil.mp hadds.keys_nil)
        · intro houtcome
          split at houtcome <;> cases houtcome

/-! ## Truthful outcomes -/

/-- The paths denote different files: no two lead to one place, and none is a directory on the
way to one. -/
structure DifferentFiles (w : RestoreWorld L) (paths : List Str) : Prop where
  places : (w.placesOf paths).Nodup
  files : ∀ path ∈ paths, ∀ dir ∈ dirsOnTheWay (dirName path), w.locate dir ∉ w.placesOf paths

def InPlace (w : RestoreWorld L) (path : Str) (As : OutFile → Prop) (s : Files L) : Prop :=
  ∃ f, s.file (w.locate path) = some f ∧ As f

/-- An outcome and the files fit. -/
structure Truthful (w : RestoreWorld L) (paths : List Str) (base : Files L) {α : Type}
    (unusable complete : α) (All : Files L → Prop) (run : α × Files L) : Prop where
  /-- No temporary is left. -/
  elsewhere : ∀ l, l ∉ w.placesOf paths → run.2.file l = base.file l
  unchanged : run.1 = unusable → ∀ path ∈ paths,
    run.2.file (w.locate path) = base.file (w.locate path) ∧
      run.2.isDir (w.locate path) = base.isDir (w.locate path)
  allInPlace : run.1 = complete → All run.2

theorem Leaves.truthful {paths : List Str} {α : Type} {unusable complete : α}
    {Placed : List (L × OutFile) → Prop} {All : Files L → Prop} {run : α × Files L}
    (hpaths : w.DifferentFiles paths)
    (hall : ∀ placed, Placed placed → (∀ e ∈ placed, run.2.file e.1 = some e.2) → All run.2)
    (h : w.Leaves base (w.wayTo paths) paths unusable complete Placed run.1 run.2) :
    w.Truthful paths base unusable complete All run := by
  obtain ⟨placed, ⟨hadds, hunusable, hcomplete⟩, hheld⟩ := h
  have hfile : run.2.file = overlay placed base.file := hheld.file
  refine ⟨fun l hl => ?_, fun houtcome path hpath => ⟨?_, ?_⟩, fun houtcome => ?_⟩
  · rw [hfile, overlay_of_notMem (fun hmem => hl (hadds.keys_nil hmem))]
  · rw [hfile, hunusable houtcome]
    rfl
  · refine hheld.dirs _ ?_
    rintro ⟨path', hpath', dir, hdir, heq⟩
    exact hpaths.files path' hpath' dir hdir (heq ▸ mem_map_of_mem hpath)
  · refine hall placed (hcomplete houtcome) (fun e he => ?_)
    rw [hfile]
    exact overlay_of_mem hheld.apart he

theorem restore_truthful (w : RestoreWorld L) (blob : Blob) (base : Files L) :
    (∀ outputs, w.DifferentFiles (blob.files.map BlobFile.name) →
      w.Truthful (blob.files.map BlobFile.name) base .unusable .placed
        (fun s => (blob.files.map BlobFile.name).Perm outputs ∧
          ∀ file ∈ blob.files, w.InPlace file.name (w.OfDigest file.contents file.executable) s)
        (w.materializeOutputs blob outputs base)) ∧
    ∀ r : Restore, w.DifferentFiles (r.targets blob) → w.TempsApart r blob.sidecarFiles →
      w.Truthful (r.targets blob) base .unusable .served
        (fun s => (∀ file ∈ blob.files, w.InPlace (r.target file.name) (r.Inline file) s) ∧
          ∀ file ∈ blob.sidecarFiles,
            w.InPlace (r.target file.name) (w.OfDigest file.digest file.executable) s)
        (w.serveBlob r blob base) := by
  constructor
  · intro outputs hpaths
    have hreach : ∀ file ∈ blob.files,
        w.Reachable (w.wayTo (blob.files.map BlobFile.name)) file.name :=
      fun file hfile => reachable_wayTo (mem_map_of_mem hfile)
    refine Leaves.truthful hpaths ?_
      (materializeOutputs_held blob outputs hreach hpaths.places base (Held.start base _))
    rintro placed ⟨hperm, hplaced⟩ hfile
    refine ⟨hperm, fun file hmem => ?_⟩
    obtain ⟨o, ho, has⟩ := hplaced file hmem
    exact ⟨o, hfile _ ho, has⟩
  · intro r hpaths hapart
    refine Leaves.truthful hpaths ?_ (serveBlob_held r blob (fun _ hpath => reachable_wayTo hpath)
      hpaths.places hapart base (Held.start base _))
    rintro placed ⟨hinline, hsidecars⟩ hfile
    refine ⟨fun file hmem => ?_, fun file hmem => ?_⟩
    · obtain ⟨o, ho, has⟩ := hinline file hmem
      exact ⟨o, hfile _ ho, has⟩
    · obtain ⟨o, ho, has⟩ := hsidecars file hmem
      exact ⟨o, hfile _ ho, has⟩

/-- A machine where a path is a place, nothing fails and every file is stored. -/
def plainMachine : RestoreWorld Str where
  locate := id
  fails _ := false
  suffix n := List.replicate (n + 1) 'a'
  suffix_plain n := by simp [List.mem_replicate]
  stored _ _ := some "lib".toList
  hash _ := List.replicate kDigestHexLen 'f'

def emptyDisk : Files Str where
  file _ := none
  isDir _ := false
  count := 0
  touched := []

def plainRestore : Restore := ⟨"out".toList, ⟨[], .nil⟩, [], fun _ => none⟩

/-- Two libraries by their digest; for a link the same file by its digest. -/
def librariesEntry : Blob :=
  { files := [⟨"l".toList, List.replicate kDigestHexLen 'f', true⟩]
    sidecarFiles := [⟨"l.so".toList, List.replicate kDigestHexLen 'f', true⟩,
      ⟨"m.so".toList, List.replicate kDigestHexLen 'f', true⟩] }

theorem restore_truthful_libraries :
    (plainMachine.materializeOutputs librariesEntry ["l".toList] emptyDisk).1 = .placed ∧
    plainMachine.InPlace "l".toList
      (plainMachine.OfDigest (List.replicate kDigestHexLen 'f') true)
      (plainMachine.materializeOutputs librariesEntry ["l".toList] emptyDisk).2 ∧
    (plainMachine.serveBlob plainRestore librariesEntry emptyDisk).1 = .served ∧
    plainMachine.InPlace "out/m.so".toList
      (plainMachine.OfDigest (List.replicate kDigestHexLen 'f') true)
      (plainMachine.serveBlob plainRestore librariesEntry emptyDisk).2 := by
  have hlink : plainMachine.DifferentFiles (librariesEntry.files.map BlobFile.name) :=
    ⟨by decide, by decide⟩
  have hrust : plainMachine.DifferentFiles (plainRestore.targets librariesEntry) :=
    ⟨by decide, by decide⟩
  have hapart : ∀ n,
      tempBeside "out/m.so".toList (List.replicate (n + 1) 'a') ≠ "out/l.so".toList := by
    intro n h
    cases h
  have hplaced :
      (plainMachine.materializeOutputs librariesEntry ["l".toList] emptyDisk).1 = .placed := by
    decide +kernel
  have hserved : (plainMachine.serveBlob plainRestore librariesEntry emptyDisk).1 = .served := by
    decide +kernel
  obtain ⟨htruthful, htruthful'⟩ := restore_truthful plainMachine librariesEntry emptyDisk
  refine ⟨hplaced, ?_, hserved, ?_⟩
  · exact ((htruthful ["l".toList] hlink).allInPlace hplaced).2 _ mem_cons_self
  · exact ((htruthful' plainRestore hrust (pairwise_pair.mpr hapart)).allInPlace hserved).2 _
      (mem_cons_of_mem _ mem_cons_self)

/-- A machine where the second temporary is given the name of the first sidecar. -/
def collidingMachine : RestoreWorld Str where
  locate := id
  fails _ := false
  suffix n := List.replicate 6 (if n < 5 then 'b' else 'a')
  suffix_plain n := by split <;> decide
  stored _ digest := some digest
  hash contents := contents

def collidingEntry : Blob :=
  { sidecarFiles := [⟨".vcache-tmp-aaaaaa".toList, List.replicate kDigestHexLen '1', false⟩,
      ⟨"l".toList, List.replicate kDigestHexLen '2', false⟩] }

/-- The first sidecar is renamed over the clone of the second, which is then renamed: the hit is
served without the one and with the wrong bytes in the other. -/
theorem served_without_sidecar :
    collidingMachine.DifferentFiles (plainRestore.targets collidingEntry) ∧
    (collidingMachine.serveBlob plainRestore collidingEntry emptyDisk).1 = .served ∧
    (collidingMachine.serveBlob plainRestore collidingEntry emptyDisk).2.file
      "out/.vcache-tmp-aaaaaa".toList = none ∧
    (collidingMachine.serveBlob plainRestore collidingEntry emptyDisk).2.file "out/l".toList =
      some ⟨List.replicate kDigestHexLen '1', false⟩ :=
  ⟨⟨by decide, by decide⟩, by decide +kernel, by decide +kernel, by decide +kernel⟩

end RestoreWorld

end Vcache

import Mathlib.Data.List.Infix
import Vcache.BlobRoundTrip
import Vcache.Placement

/-!
# A stored entry stays in the output directory

A name without `..` and without a slash in front leads below the directory it is joined to,
and so do its temporaries and the directories on the way to it, the directories above the
output directory excepted: those are made if they are missing. A name of any other kind is
refused before the first operation.
-/

namespace Vcache

open List FileOps Triples

/-! ## Below a directory -/

/-- The names a path leads through once `.` and `..` are resolved, innermost first. -/
def resolved (path : Str) : List Str :=
  ((split '/' path).foldl (normalStep (isAbsolute path)) ([], false)).1

def Inside (dir path : Str) : Prop :=
  isAbsolute path = isAbsolute dir ∧
    ∃ names, "..".toList ∉ names ∧ resolved path = names ++ resolved dir

theorem Inside.refl (dir : Str) : Inside dir dir := ⟨rfl, [], by simp, rfl⟩

theorem foldl_normalStep_of_plain (absolute : Bool) {segments : List Str}
    (h : "..".toList ∉ segments) (acc : List Str × Bool) :
    ∃ names, "..".toList ∉ names ∧
      (segments.foldl (normalStep absolute) acc).1 = names ++ acc.1 := by
  induction segments generalizing acc with
  | nil => exact ⟨[], by simp, rfl⟩
  | cons segment segments ih =>
    rw [mem_cons, not_or] at h
    obtain ⟨names, hnames, heq⟩ := ih h.2 (normalStep absolute acc segment)
    rw [foldl_cons, heq]
    by_cases hskip : segment = [] ∨ segment = ".".toList
    · exact ⟨names, hnames, by rw [normalStep, if_pos hskip]⟩
    · refine ⟨names ++ [segment], ?_, ?_⟩
      · rw [mem_append, mem_singleton, not_or]
        exact ⟨hnames, h.1⟩
      · rw [normalStep, if_neg hskip, if_neg (fun heq => h.1 heq.symm), append_assoc]
        rfl

theorem inside_join {dir more : Str} (hdir : dir ≠ []) (hmore : "..".toList ∉ split '/' more) :
    Inside dir (dir ++ '/' :: more) := by
  have habsolute : isAbsolute (dir ++ '/' :: more) = isAbsolute dir := by
    cases dir with
    | nil => exact absurd rfl hdir
    | cons c dir => rfl
  refine ⟨habsolute, ?_⟩
  obtain ⟨names, hnames, heq⟩ := foldl_normalStep_of_plain (isAbsolute dir) hmore
    ((split '/' dir).foldl (normalStep (isAbsolute dir)) ([], false))
  refine ⟨names, hnames, ?_⟩
  rw [resolved, habsolute, split_append, foldl_append, heq]
  rfl

/-! ## The paths of a name -/

theorem mem_dirsOnTheWay {dir front : Str} : front ∈ dirsOnTheWay dir ↔
    front ≠ [] ∧ (front = dir ∨ ∃ rest, dir = front ++ '/' :: rest) := by
  rw [dirsOnTheWay, mem_filter, mem_inits, Bool.and_eq_true, Bool.or_eq_true,
    decide_eq_true_eq, decide_eq_true_eq, decide_eq_true_eq]
  constructor
  · rintro ⟨⟨tail, rfl⟩, hfront, hends⟩
    refine ⟨hfront, hends.imp_right (fun hslash => ?_)⟩
    rw [getElem?_append_right le_rfl, Nat.sub_self] at hslash
    obtain ⟨rest, rfl⟩ := head?_eq_some_iff.mp (head?_eq_getElem? ▸ hslash)
    exact ⟨rest, rfl⟩
  · rintro ⟨hfront, rfl | ⟨rest, rfl⟩⟩
    · exact ⟨prefix_rfl, hfront, .inl rfl⟩
    · exact ⟨prefix_append _ _, hfront, .inr (by simp)⟩

/-- The directories on the way to one below the output directory. -/
theorem allowed_of_mem_dirsOnTheWay {outDir more dir : Str} (hout : outDir ≠ [])
    (hmore : "..".toList ∉ split '/' more) (h : dir ∈ dirsOnTheWay (outDir ++ '/' :: more)) :
    Inside outDir dir ∨ dir ∈ dirsOnTheWay outDir := by
  obtain ⟨hdir, rfl | ⟨rest, heq⟩⟩ := mem_dirsOnTheWay.mp h
  · exact .inl (inside_join hout hmore)
  rcases append_eq_append_iff.mp heq with ⟨below, rfl, hbelow⟩ | ⟨above, hout', habove⟩
  · cases below with
    | nil =>
      rw [append_nil]
      exact .inl (Inside.refl outDir)
    | cons c below =>
      rw [cons_append] at hbelow
      obtain ⟨rfl, rfl⟩ := cons.inj hbelow
      rw [split_append, mem_append, not_or] at hmore
      exact .inl (inside_join hout hmore.1)
  · refine .inr (mem_dirsOnTheWay.mpr ⟨hdir, ?_⟩)
    cases above with
    | nil => exact .inl (by rw [hout', append_nil])
    | cons c above =>
      obtain ⟨rfl, -⟩ := cons.inj habove
      exact .inr ⟨above, hout'⟩

theorem dirName_join {dir base : Str} (hdir : dir ≠ []) (hbase : '/' ∉ base) :
    dirName (dir ++ '/' :: base) = dir := by
  rw [dirName, splitLastSlash_eq_some.mpr ⟨rfl, hbase⟩]
  cases dir with
  | nil => exact absurd rfl hdir
  | cons c dir => rfl

namespace RestoreWorld

variable {L : Type} {w : RestoreWorld L} {A D : Set Str} {path : Str}

/-- The path and every temporary beside it are in the first set, and every directory on the way to
it is in one of the two. -/
structure Within (w : RestoreWorld L) (A D : Set Str) (path : Str) : Prop where
  target : path ∈ A
  temp : ∀ n, tempBeside path (w.suffix n) ∈ A
  dirs : ∀ dir ∈ dirsOnTheWay (dirName path), dir ∈ A ∨ dir ∈ D

/-- The output directory with everything below it, and the directories above it. -/
abbrev Allowed (w : RestoreWorld L) (outDir : Str) : Str → Prop :=
  w.Within {path | Inside outDir path} {dir | dir ∈ dirsOnTheWay outDir}

theorem tempName_plain (w : RestoreWorld L) (n : ℕ) :
    "..".toList ∉ split '/' (".vcache-tmp-".toList ++ w.suffix n) := by
  have hslash : '/' ∉ ".vcache-tmp-".toList ++ w.suffix n := by
    rw [mem_append, not_or]
    exact ⟨by decide, w.suffix_plain n⟩
  rw [split_of_notMem hslash, mem_singleton]
  intro heq
  have hlength := congrArg length heq
  rw [length_append] at hlength
  change 2 = 12 + _ at hlength
  omega

theorem tempBeside_eq {dir : Str} (h : dirName path = dir) (hdir : dir ≠ []) (suffix : Str) :
    tempBeside path suffix = dir ++ '/' :: (".vcache-tmp-".toList ++ suffix) := by
  rw [tempBeside, h, if_neg hdir, append_assoc, append_assoc]
  rfl

/-- Everything a safe name leads to is allowed. -/
theorem within_of_isSafeOutputName {r : Restore} (hout : r.outDir ≠ []) {name : Str}
    (hname : isSafeOutputName name = true) :
    w.Allowed r.outDir (r.target name) := by
  have hplain : "..".toList ∉ split '/' name := by
    simp only [isSafeOutputName, Bool.and_eq_true, all_eq_true, decide_eq_true_eq] at hname
    exact fun hmem => hname.2 _ hmem rfl
  have htarget : r.target name = r.outDir ++ '/' :: name := append_assoc _ _ _
  rw [htarget]
  have hinside : Inside r.outDir (r.outDir ++ '/' :: name) := inside_join hout hplain
  cases hsplit : splitLastSlash name with
  | none =>
    have hdir := dirName_join hout (splitLastSlash_eq_none.mp hsplit)
    refine ⟨hinside, fun n => ?_, fun dir hmem => ?_⟩
    · rw [tempBeside_eq hdir hout]
      exact inside_join hout (w.tempName_plain n)
    · rw [hdir] at hmem
      exact .inr hmem
  | some found =>
    obtain ⟨more, base⟩ := found
    obtain ⟨rfl, hbase⟩ := splitLastSlash_eq_some.mp hsplit
    have hne : r.outDir ++ '/' :: more ≠ [] := by simp
    have hdir : dirName (r.outDir ++ '/' :: (more ++ '/' :: base)) = r.outDir ++ '/' :: more := by
      rw [← cons_append, ← append_assoc, dirName_join hne hbase]
    rw [split_append, mem_append, not_or] at hplain
    refine ⟨hinside, fun n => ?_, fun dir hmem => ?_⟩
    · rw [tempBeside_eq hdir hne, append_assoc, cons_append]
      refine inside_join hout ?_
      rw [split_append, mem_append, not_or]
      exact ⟨hplain.1, w.tempName_plain n⟩
    · rw [hdir] at hmem
      exact allowed_of_mem_dirsOnTheWay hout hplain.1 hmem

/-! ## What is written -/

/-- The temporary that is returned is in the set too. -/
def TouchesBeside (w : RestoreWorld L) (A D : Set Str) (temp? : Option Str) (s : Files L) : Prop :=
  (∀ temp, temp? = some temp → temp ∈ A) ∧ Touches w.toWorld A D s

theorem TouchesBeside.nothing {s : Files L} (h : Touches w.toWorld A D s) :
    TouchesBeside w A D none s :=
  ⟨fun _ h => (by cases h), h⟩

theorem TouchesBeside.temp {temp : Str} {s : Files L} (htemp : temp ∈ A)
    (h : Touches w.toWorld A D s) : TouchesBeside w A D (some temp) s :=
  ⟨fun _ h => Option.some.inj h ▸ htemp, h⟩

theorem hashFile_keepsTo : KeepsTo w.toWorld A D (w.hashFile path) :=
  .bind .attempt (fun _ => .bind (.read _) (fun _ => .pure _))

variable [DecidableEq L]

theorem createTempBeside_touches (hpath : w.Within A D path) :
    Triple (Touches w.toWorld A D) (w.createTempBeside path) (TouchesBeside w A D) := by
  have hway : KeepsTo w.toWorld A D (w.makeWay path) := .ite (.pure true) (.makeDirs hpath.dirs)
  refine .bind hway (fun ready => .ite (fun _ => .pure (fun _ => .nothing)) (fun _ => ?_))
  refine .bind .readKept (fun n => .bind (KeepsTo.createExclusive (hpath.temp n) _) ?_)
  refine fun created => .ite (fun _ => .pure (fun _ => .nothing)) (fun _ => ?_)
  refine .bind KeepsTo.attempt (fun ok => .ite (fun _ => .pure (fun _ => .temp (hpath.temp n))) ?_)
  exact fun _ => .bind (KeepsTo.unlink _) (fun _ => .pure (fun _ => .nothing))

theorem cloneToTempBeside_touches (digest : Str) (hpath : w.Within A D path) :
    Triple (Touches w.toWorld A D) (w.cloneToTempBeside digest path) (TouchesBeside w A D) := by
  refine .bind .readKept (fun n => ?_)
  cases w.stored n digest with
  | none => exact .pure (fun _ => .nothing)
  | some contents =>
    refine .bind (createTempBeside_touches hpath) (fun temp? => .of_and (fun htemp => ?_))
    cases temp? with
    | none => exact .pure (fun _ => .nothing)
    | some temp =>
      have htemp := htemp temp rfl
      refine .bind KeepsTo.attempt (fun ok => .ite (fun _ => ?_) (fun _ => ?_))
      · exact .bind (KeepsTo.put htemp _) (fun _ => .pure (fun _ => .temp htemp))
      · exact .bind (KeepsTo.unlink _) (fun _ => .pure (fun _ => .nothing))

theorem makeExecutable_keepsTo (executable : Bool) (hpath : path ∈ A) :
    KeepsTo w.toWorld A D (w.makeExecutable executable path) := by
  refine .ite (.bind .attempt (fun ok => .bind (.read _) (fun file => ?_))) (.pure true)
  cases file with
  | none => exact .pure false
  | some f => exact .ite (.bind (.put hpath _) (fun _ => .pure true)) (.pure false)

theorem writeFileAtomic_keepsTo (contents : Str) (hpath : w.Within A D path) :
    KeepsTo w.toWorld A D (w.writeFileAtomic path contents) := by
  refine Triple.bind (createTempBeside_touches hpath) (fun temp? => .of_and (fun htemp => ?_))
  cases temp? with
  | none => exact KeepsTo.pure false
  | some temp =>
    have hfail :
        KeepsTo w.toWorld A D (do FileOps.unlink w.toWorld temp; pure false : Act L Bool) :=
      .bind (.unlink _) (fun _ => .pure false)
    refine KeepsTo.bind .attempt (fun written => .ite hfail ?_)
    refine .bind (.put (htemp temp rfl) _) (fun _ => .bind (.rename hpath.target) ?_)
    exact fun renamed => .ite (.pure true) hfail

theorem discard_keepsTo (clones : List VerifiedClone) :
    KeepsTo w.toWorld A D (w.discard clones) := by
  induction clones with
  | nil => exact .pure ()
  | cons clone clones ih => exact .bind (.unlink _) (fun _ => ih)

variable {r : Restore}

theorem cloneSidecars_touches {files : List BlobSidecarFile} {clones : List VerifiedClone}
    (hfiles : ∀ file ∈ files, w.Within A D (r.target file.name))
    (hclones : ∀ clone ∈ clones, clone.2 ∈ A) :
    Triple (Touches w.toWorld A D) (w.cloneSidecars r files clones) (fun clones? s =>
      (∀ all, clones? = some all → ∀ clone ∈ all, clone.2 ∈ A) ∧ Touches w.toWorld A D s) := by
  induction files generalizing clones with
  | nil => exact .pure (fun s h => ⟨fun all hall => Option.some.inj hall ▸ hclones, h⟩)
  | cons file files ih =>
    obtain ⟨hfile, hfiles⟩ := forall_mem_cons.mp hfiles
    have hfail (clones : List VerifiedClone) : Triple (Touches w.toWorld A D)
        (do w.discard clones; pure none : Act L (Option (List VerifiedClone))) (fun clones? s =>
          (∀ all, clones? = some all → ∀ clone ∈ all, clone.2 ∈ A) ∧ Touches w.toWorld A D s) :=
      .bind (discard_keepsTo clones) (fun _ => .pure (fun s h => ⟨fun _ h => (by cases h), h⟩))
    have hget : KeepsTo w.toWorld A D (w.getFile file.digest) :=
      .bind (.read _) (fun _ => .bind .attempt (fun _ => .pure _))
    refine .bind hget (fun found => .ite (fun _ => hfail _) (fun _ => ?_))
    refine .bind (cloneToTempBeside_touches file.digest hfile) (fun temp? => ?_)
    refine .of_and (fun htemp => ?_)
    cases temp? with
    | none => exact hfail _
    | some temp =>
      refine .bind hashFile_keepsTo (fun digest => .ite (fun _ => hfail _) (fun _ => ?_))
      refine .bind (makeExecutable_keepsTo file.executable (htemp temp rfl)) (fun ready => ?_)
      exact .ite (fun _ => ih hfiles (forall_mem_concat.mpr ⟨hclones, hfile.target⟩))
        (fun _ => hfail _)

theorem renameClones_keepsTo (first : Bool) {clones : List VerifiedClone}
    (hclones : ∀ clone ∈ clones, clone.2 ∈ A) :
    KeepsTo w.toWorld A D (w.renameClones first clones) := by
  induction clones generalizing first with
  | nil => exact .pure none
  | cons clone clones ih =>
    obtain ⟨hclone, hclones⟩ := forall_mem_cons.mp hclones
    refine .bind (.rename hclone) (fun renamed => .ite (ih false hclones) ?_)
    exact .bind (discard_keepsTo _) (fun _ => .pure _)

theorem restoreFiles_keepsTo {files : List BlobFile} (n : ℕ)
    (hfiles : ∀ file ∈ files, w.Within A D (r.target file.name)) :
    KeepsTo w.toWorld A D (w.restoreFiles r files n) := by
  induction files generalizing n with
  | nil => exact .pure _
  | cons file files ih =>
    obtain ⟨hfile, hfiles⟩ := forall_mem_cons.mp hfiles
    refine .bind (writeFileAtomic_keepsTo _ hfile) (fun written => .ite (.pure _) ?_)
    refine .bind (makeExecutable_keepsTo _ hfile.target) (fun ready => ?_)
    exact .ite (ih (n + 1) hfiles) (.pure _)

def namesOf (blob : Blob) : List Str :=
  blob.files.map BlobFile.name ++ blob.sidecarFiles.map BlobSidecarFile.name

theorem serveBlob_keepsTo {blob : Blob}
    (hnames : ∀ name ∈ namesOf blob, w.Within A D (r.target name)) :
    KeepsTo w.toWorld A D (w.serveBlob r blob) := by
  have hfiles : ∀ file ∈ blob.files, w.Within A D (r.target file.name) :=
    fun file hfile => hnames _ (mem_append_left _ (mem_map_of_mem hfile))
  have hsidecars : ∀ file ∈ blob.sidecarFiles, w.Within A D (r.target file.name) :=
    fun file hfile => hnames _ (mem_append_right _ (mem_map_of_mem hfile))
  refine .ite (.pure _) (.ite (.pure _) ?_)
  refine Triple.bind (cloneSidecars_touches hsidecars (by simp)) (fun clones? => ?_)
  refine .of_and (fun hclones => ?_)
  cases clones? with
  | none => exact KeepsTo.pure _
  | some clones =>
    refine KeepsTo.bind (renameClones_keepsTo true (hclones clones rfl)) (fun failed => ?_)
    cases failed with
    | some outcome => exact .pure _
    | none =>
      have hrestore : KeepsTo w.toWorld A D (w.restoreOutputs r blob.files) :=
        .ite (restoreFiles_keepsTo 0 hfiles) (.pure _)
      exact .bind hrestore (fun restored => .ite (.pure _) (.pure _))

theorem serveBlob_refuses {blob : Blob} {name : Str} (hname : name ∈ namesOf blob)
    (hname' : isSafeOutputName name = false) (s : Files L) :
    w.serveBlob r blob s = (.unusable, s) := by
  have hall : (!(namesOf blob).all isSafeOutputName) = true := by
    rw [Bool.not_eq_true', all_eq_false]
    exact ⟨name, hname, by rw [hname']; exact Bool.false_ne_true⟩
  by_cases hempty : blob.files = [] ∧ blob.sidecarFiles = []
  · rw [serveBlob, if_pos hempty]
    rfl
  · rw [serveBlob, if_neg hempty]
    exact congrFun (if_pos hall) s

theorem serveHit_stays_inside (w : RestoreWorld L) (r : Restore) (hout : r.outDir ≠ []) (fuel : ℕ)
    (value : Str) {base s : Files L} {outcome : HitOutcome} (hbase : base.touched = [])
    (h : w.serveHit r fuel value base = some (outcome, s)) :
    (∀ path ∈ s.touched, Inside r.outDir path ∨
      path ∈ dirsOnTheWay r.outDir ∧ s.isDir (w.locate path) = true) ∧
    ∀ blob, deserializeBlob w.hash fuel value {} = some (.accepted blob) →
      (∃ name ∈ namesOf blob, ¬ w.Allowed r.outDir (r.target name)) →
        outcome = .unusable ∧ s = base := by
  have hclean : Touches w.toWorld {path | Inside r.outDir path} {dir | dir ∈ dirsOnTheWay r.outDir}
      base := by
    rw [Touches, hbase]
    simp
  rw [serveHit] at h
  split at h
  · cases h
  · cases h
    exact ⟨hclean, fun _ _ _ => ⟨rfl, rfl⟩⟩
  · rename_i blob hread
    have hrun : w.serveBlob r blob base = (outcome, s) := Option.some.inj h
    by_cases hsafe : ∀ name ∈ namesOf blob, isSafeOutputName name = true
    · have hwithin : ∀ name ∈ namesOf blob, w.Allowed r.outDir (r.target name) :=
        fun name hname => within_of_isSafeOutputName hout (hsafe name hname)
      refine ⟨?_, ?_⟩
      · have hend := serveBlob_keepsTo hwithin base hclean
        rwa [hrun] at hend
      · rintro blob' hread' ⟨name, hname, hnot⟩
        obtain rfl : blob = blob' := by
          rw [hread] at hread'
          exact ReadResult.accepted.inj (Option.some.inj hread')
        exact absurd (hwithin name hname) hnot
    · obtain ⟨name, hname, hname'⟩ :
          ∃ name ∈ namesOf blob, isSafeOutputName name = false := by simpa using hsafe
      rw [serveBlob_refuses hname hname'] at hrun
      cases hrun
      exact ⟨hclean, fun _ _ _ => ⟨rfl, rfl⟩⟩

def bareMachine : RestoreWorld Str where
  locate := id
  fails _ := false
  suffix _ := "aaaaaa".toList
  suffix_plain _ := by decide
  stored _ _ := none
  hash := checksum

def bareDisk : Files Str where
  file _ := none
  isDir _ := false
  count := 0
  touched := []

def nestedEntry : Str := serializeBlob checksum { files := [⟨"a/l".toList, [], false⟩] }

def nestedRestore : Restore := ⟨"x/y".toList, ⟨[], .nil⟩, [], fun _ => none⟩

theorem serveHit_stays_inside_nested :
    ∃ s, bareMachine.serveHit nestedRestore 9 nestedEntry bareDisk = some (.served, s) ∧
      s.touched = ["x".toList, "x/y".toList, "x/y/a".toList, "x/y/a/.vcache-tmp-aaaaaa".toList,
        "x/y/a/.vcache-tmp-aaaaaa".toList, "x/y/a/l".toList] ∧
      ∀ path ∈ s.touched, Inside "x/y".toList path ∨
        path ∈ dirsOnTheWay "x/y".toList ∧ s.isDir path = true := by
  have hends : (bareMachine.serveHit nestedRestore 9 nestedEntry bareDisk).map
        (fun run => (run.1, run.2.touched)) =
      some (.served, ["x".toList, "x/y".toList, "x/y/a".toList, "x/y/a/.vcache-tmp-aaaaaa".toList,
        "x/y/a/.vcache-tmp-aaaaaa".toList, "x/y/a/l".toList]) := by decide +kernel
  obtain ⟨⟨outcome, s⟩, hrun, hpair⟩ := Option.map_eq_some_iff.mp hends
  obtain ⟨rfl, htouched⟩ := Prod.mk.inj hpair
  exact ⟨s, hrun, htouched, (serveHit_stays_inside bareMachine nestedRestore (by decide) 9
    nestedEntry rfl hrun).1⟩

/-- With the directory above the output directory missing, it is made. -/
theorem made_above_outDir :
    (bareMachine.serveHit nestedRestore 9 nestedEntry bareDisk).map
        (fun run => (run.1, run.2.touched.head?)) = some (.served, some "x".toList) ∧
      ¬ Inside nestedRestore.outDir "x".toList := by
  refine ⟨by decide +kernel, ?_⟩
  rintro ⟨-, names, -, heq⟩
  have hlength := congrArg length heq
  rw [length_append] at hlength
  change 1 = names.length + 2 at hlength
  omega

end RestoreWorld

end Vcache

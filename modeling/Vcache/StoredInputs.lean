import Vcache.Operations
import Vcache.WorkingDirectory

/-!
# What a stored entry describes

Other processes edit files while an operation runs. An entry describes the bytes
that were compiled if every file the tool read is among those its key or its
manifest state was computed from, with the contents it had there. A run in which no
file is edited between two reads of it is a run on files nobody edits, and there
each operation pins what its tool reads, as far as the tools say what that is.
Nothing shows an edit between the reads for a key and the tool's, or between the
reads that say what is to be hashed and the hashing.
-/

namespace Vcache

open List QueryProcess

variable {R : Type} {purpose : Purpose} {host : Host} {tool : Tool R} {paths : List Str}
  {scanIncbin : Bool} {started : ℕ} {compiled : CompileRun} {manifestKey : Option Str}
  {entry : StoredEntry} {disk : Str → Option Stamped} {files : List (Str × Str)}

abbrev ReadLog := List (FileQuery × Option Stamped)

/-- The key or the state of the entry has what the read answered. -/
def StoredEntry.pins (entry : StoredEntry) (read : FileQuery × Option Stamped) : Bool :=
  match read.1.purpose with
  | .key => entry.keyed
  | .manifestKey => entry.manifest.isSome
  | .record => entry.manifest.isSome && read.2.isSome
  | .survey | .produce | .stat => false

/-- The output was produced from the contents the entry pins: what is pinned is what the
tool read there, and every file the tool found is pinned. -/
def StoredEntry.Describes (entry : StoredEntry) (log : ReadLog) : Prop :=
  (∀ x ∈ log, ∀ y ∈ log, entry.pins x = true → y.1.purpose = .produce → x.1.path = y.1.path →
    x.2.map Stamped.contents = y.2.map Stamped.contents) ∧
  ∀ y ∈ log, y.1.purpose = .produce → y.2.isSome = true →
    ∃ x ∈ log, entry.pins x = true ∧ x.1.path = y.1.path

instance instDecidableDescribes (entry : StoredEntry) (log : ReadLog) :
    Decidable (entry.Describes log) :=
  inferInstanceAs (Decidable (_ ∧ _))

/-! ## Files nobody edits -/

/-- The answers of a disk that stays as it is. -/
def still (disk : Str → Option Stamped) (q : FileQuery) : Option Stamped := disk q.path

/-- What a tool finds there under a path as it spells it. -/
def toolSees (host : Host) (disk : Str → Option Stamped) (path : Str) : Option Str :=
  (disk (absoluteLexical host path)).map Stamped.contents

@[simp] theorem result_runTool :
    (runTool purpose host tool).result (still disk) =
      tool.result (toolSees host disk) := by
  induction tool with
  | done r => rfl
  | ask path next ih => exact ih _

@[simp] theorem asked_runTool :
    (runTool purpose host tool).asked (still disk) =
      (tool.asked (toolSees host disk)).map
        (fun path => ⟨purpose, absoluteLexical host path⟩) := by
  induction tool with
  | done r => rfl
  | ask path next ih =>
    rw [runTool, Process.asked_ask, Process.asked_ask, map_cons, ih]
    rfl

@[simp] theorem asked_readAll :
    (readAll purpose host paths).asked (still disk) =
      paths.map (fun path => ⟨purpose, absoluteLexical host path⟩) := by
  induction paths with
  | nil => rfl
  | cons path paths ih => simp [readAll, ih]

/-- The files a tool finds. -/
def foundBy (host : Host) (disk : Str → Option Stamped) (tool : Tool R) : List Str :=
  ((tool.asked (toolSees host disk)).map (absoluteLexical host)).filter
    (fun path => (disk path).isSome)

/-- The files asked for the output are those the tool asks for. -/
def ProducedBy (host : Host) (tool : Tool R) (disk : Str → Option Stamped)
    (asked : List FileQuery) : Prop :=
  ∀ q ∈ asked, q.purpose = .produce →
    q.path ∈ (tool.asked (toolSees host disk)).map (absoluteLexical host)

def AskedFor (purpose : Purpose) (host : Host) (paths : List Str) (asked : List FileQuery) : Prop :=
  ∀ path ∈ paths.map (absoluteLexical host), (⟨purpose, path⟩ : FileQuery) ∈ asked

section Parts

variable {asked asked' : List FileQuery}

theorem ProducedBy.append (h : ProducedBy host tool disk asked)
    (h' : ProducedBy host tool disk asked') : ProducedBy host tool disk (asked ++ asked') :=
  fun q hq => (mem_append.mp hq).elim (h q) (h' q)

theorem producedBy_nil : ProducedBy host tool disk [] := by simp [ProducedBy]

theorem producedBy_of_quiet (h : ∀ q ∈ asked, q.purpose ≠ .produce) :
    ProducedBy host tool disk asked :=
  fun q hq hproduce => absurd hproduce (h q hq)

theorem producedBy_map (h : purpose ≠ .produce) :
    ProducedBy host tool disk (paths.map (fun path => ⟨purpose, absoluteLexical host path⟩)) := by
  apply producedBy_of_quiet
  intro q hq
  obtain ⟨path, -, rfl⟩ := mem_map.mp hq
  exact h

theorem producedBy_runTool :
    ProducedBy host tool disk ((runTool .produce host tool).asked (still disk)) := by
  intro q hq _
  rw [asked_runTool] at hq
  obtain ⟨path, hpath, rfl⟩ := mem_map.mp hq
  exact mem_map_of_mem hpath

theorem askedFor_map :
    AskedFor purpose host paths (paths.map (fun path => ⟨purpose, absoluteLexical host path⟩)) := by
  intro path hpath
  obtain ⟨spelled, hspelled, rfl⟩ := mem_map.mp hpath
  exact mem_map_of_mem hspelled

theorem AskedFor.mono (h : AskedFor purpose host paths asked) (hsub : asked ⊆ asked') :
    AskedFor purpose host paths asked' :=
  fun path hpath => hsub (h path hpath)

theorem AskedFor.subset {paths' : List Str} (h : AskedFor purpose host paths asked)
    (hsub : paths' ⊆ paths) : AskedFor purpose host paths' asked :=
  fun path hpath => h path (map_subset _ hsub hpath)

theorem AskedFor.append {paths' : List Str} (h : AskedFor purpose host paths asked)
    (h' : AskedFor purpose host paths' asked) : AskedFor purpose host (paths ++ paths') asked := by
  intro path hpath
  rw [map_append] at hpath
  exact (mem_append.mp hpath).elim (h path) (h' path)

/-- A recording: it asks for nothing on behalf of the tool, and when it succeeds it has read
all of the files. -/
def Records (host : Host) (disk : Str → Option Stamped) (paths : List Str) {B : Type}
    (p : OpProcess (Option B)) : Prop :=
  (∀ q ∈ p.asked (still disk), q.purpose ≠ .produce) ∧
    ((p.result (still disk)).isSome = true →
      AskedFor .record host paths (p.asked (still disk)))

/-- Record one file and go on, or decline. -/
theorem Records.andThen {path : Str} {one : OpProcess (Option (Str × Str))}
    {rest : OpProcess (Option (List (Str × Str)))} (hone : Records host disk [path] one)
    (hrest : Records host disk paths rest) :
    Records host disk (path :: paths) (one.andThen (fun file => match file with
      | none => .done none
      | some file => rest.andThen (fun files => .done (files.map (file :: ·))))) := by
  rw [Records, Process.result_andThen, Process.asked_andThen]
  split
  · exact ⟨by simpa using hone.1, by simp [Process.result]⟩
  · rename_i file hfile
    rw [Process.result_andThen, Process.asked_andThen]
    refine ⟨fun q hq => ?_, fun hsome => ?_⟩
    · simp only [Process.asked_done, append_nil] at hq
      exact (mem_append.mp hq).elim (hone.1 q) (hrest.1 q)
    · have hfirst := hone.2 (by rw [hfile]; rfl)
      have hothers := hrest.2 (by simpa [Process.result] using hsome)
      exact AskedFor.append (hfirst.mono (subset_append_left _ _))
        (hothers.mono (fun q hq => by simp [hq]))

end Parts

/-! ## What a run that stores has read -/

namespace RustOp

variable {op : RustOp}

theorem stored_compileAndStore {source : Option Str} {key : Str} :
    (op.compileAndStore source key files).result (still disk) = .stored entry →
      entry.keyed = true ∧ ProducedBy op.host (op.compile op.command) disk
        ((op.compileAndStore source key files).asked (still disk)) := by
  rw [compileAndStore, Process.result_andThen, Process.asked_andThen]
  split
  · rintro ⟨⟩
  · split
    · rintro ⟨⟩
    · split
      · rintro ⟨⟩
      · rintro ⟨⟩
        exact ⟨rfl, producedBy_runTool.append producedBy_nil⟩

/-- rustc made the output, and the sources its dep-info run names are in the key. -/
def StoredRun (op : RustOp) (entry : StoredEntry) (disk : Str → Option Stamped)
    (asked : List FileQuery) : Prop :=
  entry.keyed = true ∧ ProducedBy op.host (op.compile op.command) disk asked ∧
    AskedFor .key op.host (op.depInfo.result (toolSees op.host disk)).sources asked

theorem StoredRun.prepend {asked : List FileQuery} (h : op.StoredRun entry disk asked)
    (hpurpose : purpose ≠ .produce) : op.StoredRun entry disk
      (paths.map (fun path => ⟨purpose, absoluteLexical op.host path⟩) ++ asked) :=
  ⟨h.1, (producedBy_map hpurpose).append h.2.1, h.2.2.mono (subset_append_right _ _)⟩

theorem stored_collectAndCompile {source : Option Str} {externs : List RustExtern} :
    (op.collectAndCompile source externs).result (still disk) = .stored entry →
      op.StoredRun entry disk ((op.collectAndCompile source externs).asked (still disk)) := by
  rw [collectAndCompile, Process.result_andThen, Process.asked_andThen, asked_runTool,
    result_runTool]
  split
  · rintro ⟨⟩
  · rw [Process.result_andThen, Process.asked_andThen, asked_readAll]
    split
    · rintro ⟨⟩
    · dsimp only
      split
      · rintro ⟨⟩
      · intro h
        obtain ⟨hkeyed, hproduced⟩ := stored_compileAndStore h
        exact ⟨hkeyed, (producedBy_map (by decide)).append ((producedBy_map (by decide)).append
          hproduced), askedFor_map.mono (fun q hq => by simp [hq])⟩

theorem stored_process : op.process.result (still disk) = .stored entry →
    op.StoredRun entry disk (op.process.asked (still disk)) ∧
      AskedFor .key op.host op.externPaths (op.process.asked (still disk)) := by
  rw [process, Process.result_andThen, Process.asked_andThen, asked_readAll]
  split
  · rintro ⟨⟩
  · refine fun h => ⟨?_, askedFor_map.mono (subset_append_left _ _)⟩
    refine StoredRun.prepend ?_ (by decide)
    revert h
    rw [Process.result_andThen, Process.asked_andThen, asked_readAll]
    split
    · exact fun h => (stored_collectAndCompile h).prepend (by decide)
    · split
      · rintro ⟨⟩
      · exact fun h => (stored_collectAndCompile h).prepend (by decide)

end RustOp

namespace LinkOp

variable {op : LinkOp}

theorem stored_process : op.process.result (still disk) = .stored entry →
    entry.keyed = true ∧ entry.manifest.isSome = true ∧
    ProducedBy op.host (op.link op.parsed.argv) disk (op.process.asked (still disk)) ∧
    AskedFor .key op.host op.parsed.inputs (op.process.asked (still disk)) ∧
    AskedFor .record op.host (op.recordedPaths (((op.link op.parsed.argv).result
      (toolSees op.host disk)).records.getD {})) (op.process.asked (still disk)) := by
  rw [process, Process.result_andThen, Process.asked_andThen, asked_readAll]
  split
  · rintro ⟨⟩
  · rw [linkAndStore, Process.result_andThen, Process.asked_andThen, result_runTool]
    split
    · rintro ⟨⟩
    · split
      · rintro ⟨⟩
      · rename_i records hrecords
        split
        · rintro ⟨⟩
        · rw [Process.result_andThen, Process.asked_andThen, asked_readAll, hrecords]
          dsimp only
          split
          · rintro ⟨⟩
          · rintro ⟨⟩
            refine ⟨rfl, rfl, (producedBy_map (by decide)).append (producedBy_runTool.append
              ((producedBy_map (by decide)).append producedBy_nil)), ?_, ?_⟩
            · exact askedFor_map.mono (subset_append_left _ _)
            · exact askedFor_map.mono (fun q hq => mem_append_right _ (mem_append_right _
                (mem_append_left _ hq)))

end LinkOp

namespace DepScanOp

variable {op : DepScanOp}

theorem records_hashPrerequisites :
    Records op.host disk paths (op.hashPrerequisites paths) := by
  induction paths with
  | nil => simp [Records, hashPrerequisites, AskedFor]
  | cons path paths ih =>
    rw [Records, hashPrerequisites, Process.result, Process.asked_ask]
    split
    · simp [Process.result]
    · rw [Process.result_andThen, Process.asked_andThen]
      refine ⟨by simpa using ih.1, fun hsome => ?_⟩
      have hothers := ih.2 (by simpa [Process.result] using hsome)
      intro path' hpath
      rcases mem_cons.mp hpath with rfl | hpath
      · exact mem_cons_self
      · exact mem_cons_of_mem _ (mem_append_left _ (hothers path' hpath))

theorem stored_process : op.process.result (still disk) = .stored entry →
    entry.manifest.isSome = true ∧
    ProducedBy op.host (op.scan op.command) disk (op.process.asked (still disk)) ∧
    AskedFor .record op.host (((op.scan op.command).result
      (toolSees op.host disk)).prerequisites.getD [])
      (op.process.asked (still disk)) := by
  rw [process, Process.result, Process.asked_ask]
  split
  · rintro ⟨⟩
  · dsimp only
    split
    · rintro ⟨⟩
    · rw [scanAndStore, Process.result_andThen, Process.asked_andThen, result_runTool]
      split
      · rintro ⟨⟩
      · split
        · rintro ⟨⟩
        · rename_i prerequisites hprereqs
          split
          · rintro ⟨⟩
          · rw [Process.result_andThen, Process.asked_andThen, hprereqs, Option.getD_some]
            split
            · rintro ⟨⟩
            · rename_i files hfiles
              rintro ⟨⟩
              obtain ⟨hquiet, hasked⟩ : Records op.host disk _
                (op.hashPrerequisites prerequisites) := records_hashPrerequisites
              refine ⟨rfl, ?_, ?_⟩
              · intro q hq hproduce
                rcases mem_cons.mp hq with rfl | hq
                · cases hproduce
                · exact (producedBy_runTool.append ((producedBy_of_quiet hquiet).append
                    producedBy_nil)) q hq hproduce
              · exact (hasked (by rw [hfiles]; rfl)).mono (fun q hq => mem_cons_of_mem _
                  (mem_append_right _ (mem_append_left _ hq)))

end DepScanOp

/-- The files a compile says it read. -/
def CompileRun.reported (compiled : CompileRun) (host : Host) : List Str :=
  (compiled.prerequisites.getD []).map (cxxAbsolutePath host.currentDir) ++
    compiled.traced.filter (fun path => path ∉ compiled.written)

namespace CompileOp

variable {op : CompileOp}

theorem records_recordFile {declines : Str → Bool} {path : Str} :
    Records op.host disk [path] (op.recordFile started declines path) := by
  simp [Records, recordFile, AskedFor]

theorem records_recordDepfileInputs :
    Records op.host disk paths (op.recordDepfileInputs started scanIncbin paths) := by
  induction paths with
  | nil => simp [Records, recordDepfileInputs, AskedFor]
  | cons path paths ih =>
    rw [recordDepfileInputs]
    exact records_recordFile.andThen ih

theorem records_addCxxTraceInputs {written : List Str} :
    Records op.host disk (paths.filter (fun path => path ∉ written))
      (op.addCxxTraceInputs started written paths) := by
  induction paths with
  | nil => simp [Records, addCxxTraceInputs, AskedFor]
  | cons path paths ih =>
    rw [Records, addCxxTraceInputs, Process.result, Process.asked_ask]
    split
    · split
      · rename_i hwritten
        rw [filter_cons_of_neg (by simpa using hwritten)]
        exact ⟨by simpa using ih.1, fun hsome => (ih.2 hsome).mono (subset_cons_self _ _)⟩
      · simp [Process.result]
    · have hone : Records op.host disk [path] (op.recordFile started (fun _ => false) path) :=
        records_recordFile
      obtain ⟨hquiet, hasked⟩ := hone.andThen ih
      refine ⟨fun q hq => ?_, fun hsome => ?_⟩
      · rcases mem_cons.mp hq with rfl | hq
        · simp
        · exact hquiet q hq
      · refine ((hasked hsome).mono (subset_cons_self _ _)).subset ?_
        rw [filter_cons]
        split
        · exact List.Subset.refl _
        · exact subset_cons_self _ _

theorem records_readCxxManifestInputs :
    Records op.host disk (compiled.reported op.host)
      (op.readCxxManifestInputs started scanIncbin compiled) := by
  rw [readCxxManifestInputs]
  split
  · simp [Records, Process.result]
  · rename_i prerequisites hprereqs
    rw [Records, Process.result_andThen, Process.asked_andThen]
    obtain ⟨hquiet, hasked⟩ : Records op.host disk _
      (op.recordDepfileInputs started scanIncbin
        (prerequisites.map (cxxAbsolutePath op.host.currentDir)).eraseDups) :=
      records_recordDepfileInputs
    split
    · exact ⟨by simpa using hquiet, by simp [Process.result]⟩
    · split
      · exact ⟨by simpa using hquiet, by simp [Process.result]⟩
      · rename_i files hfiles _
        obtain ⟨hquiet', hasked'⟩ : Records op.host disk _
          (op.addCxxTraceInputs started compiled.written (compiled.traced.filter (fun path =>
            path ∉ (prerequisites.map (cxxAbsolutePath op.host.currentDir)).eraseDups))) :=
          records_addCxxTraceInputs
        rw [Process.result_andThen, Process.asked_andThen]
        refine ⟨fun q hq => ?_, fun hsome => ?_⟩
        · simp only [Process.asked_done, append_nil] at hq
          exact (mem_append.mp hq).elim (hquiet q) (hquiet' q)
        · have hlisted := hasked (by rw [hfiles]; rfl)
          have htraced := hasked' (by simpa [Process.result] using hsome)
          refine ((hlisted.mono (subset_append_left _ _)).append (htraced.mono (fun q hq =>
            mem_append_right _ (mem_append_left _ hq)))).subset (fun path hpath => ?_)
          simp only [CompileRun.reported, hprereqs, Option.getD_some, mem_append, mem_filter]
            at hpath
          simp only [mem_append, mem_eraseDups, mem_filter]
          grind

theorem records_recordState :
    Records op.host disk (compiled.reported op.host)
      (op.recordState started manifestKey scanIncbin compiled) := by
  cases manifestKey with
  | none => simp [Records, recordState, Process.result]
  | some manifestKey =>
    rw [recordState]
    split
    · simp [Records, Process.result]
    · obtain ⟨hquiet, hasked⟩ : Records op.host disk _
        (op.readCxxManifestInputs started scanIncbin compiled) := records_readCxxManifestInputs
      rw [Records, Process.result_andThen, Process.asked_andThen]
      refine ⟨by simpa using hquiet, fun hsome => ?_⟩
      exact (hasked (by simpa [Process.result] using hsome)).mono (subset_append_left _ _)

theorem eq_of_store {made : StoredEntry}
    (h : op.store compiled made = .stored entry) : made = entry := by
  rw [store] at h
  split at h
  · cases h
  · exact Outcome.stored.inj h

theorem stored_compileAndStore {key : Option Str} :
    (op.compileAndStore started manifestKey key).result (still disk) = .stored entry →
      ProducedBy op.host (op.compile (op.compileCommand manifestKey)) disk
        ((op.compileAndStore started manifestKey key).asked (still disk)) ∧
      entry.keyed = key.isSome ∧ (key = none → entry.manifest.isSome = true ∧
        AskedFor .record op.host (((op.compile (op.compileCommand manifestKey)).result
          (toolSees op.host disk)).reported op.host)
          ((op.compileAndStore started manifestKey key).asked (still disk))) := by
  rw [compileAndStore, Process.result_andThen, Process.asked_andThen, result_runTool]
  split
  · rintro ⟨⟩
  · rw [Process.result_andThen, Process.asked_andThen]
    obtain ⟨hquiet, hasked⟩ : Records op.host disk _ (op.recordState started manifestKey
      key.isNone ((op.compile (op.compileCommand manifestKey)).result
        (toolSees op.host disk))) := records_recordState
    split
    · intro h
      rw [← eq_of_store h]
      exact ⟨producedBy_runTool.append ((producedBy_of_quiet hquiet).append producedBy_nil), rfl,
        by simp⟩
    · rename_i state hstate
      intro h
      rw [← eq_of_store h]
      refine ⟨producedBy_runTool.append ((producedBy_of_quiet hquiet).append producedBy_nil), rfl,
        fun _ => ⟨rfl, (hasked (by rw [hstate]; rfl)).mono (fun q hq => ?_)⟩⟩
      exact mem_append_right _ (mem_append_left _ hq)
    · rintro ⟨⟩

/-- The compiler made the output, and the preprocessor's files with those its text leads to are
in the key; without a key the compile's own report is on record. -/
def StoredRun (op : CompileOp) (entry : StoredEntry) (disk : Str → Option Stamped)
    (manifestKey : Option Str) (asked : List FileQuery) : Prop :=
  let compile := op.compile (op.compileCommand manifestKey)
  let preprocess := op.preprocess op.preprocessCommand
  let preprocessed := preprocess.result (toolSees op.host disk)
  ProducedBy op.host compile disk asked ∧
    if preprocessed.exitCode = 0 then
      entry.keyed = true ∧ AskedFor .key op.host
        (preprocess.asked (toolSees op.host disk) ++ op.keyReads preprocessed.text)
        asked
    else entry.manifest.isSome = true ∧ AskedFor .record op.host
      ((compile.result (toolSees op.host disk)).reported op.host) asked

theorem stored_preprocessAndCompile :
    (op.preprocessAndCompile started manifestKey).result (still disk) = .stored entry →
      op.StoredRun entry disk manifestKey
        ((op.preprocessAndCompile started manifestKey).asked (still disk)) := by
  rw [preprocessAndCompile, Process.result_andThen, Process.asked_andThen, result_runTool,
    asked_runTool, StoredRun]
  split
  · split
    · intro h
      obtain ⟨hproduced, -, hrecorded⟩ := stored_compileAndStore h
      exact ⟨(producedBy_map (by decide)).append hproduced, (hrecorded rfl).1,
        (hrecorded rfl).2.mono (subset_append_right _ _)⟩
    · rintro ⟨⟩
  · rename_i hexit
    rw [if_pos (not_not.mp hexit), Process.result_andThen, Process.asked_andThen, asked_readAll]
    split
    · rintro ⟨⟩
    · split
      · rintro ⟨⟩
      · split
        · rintro ⟨⟩
        · intro h
          obtain ⟨hproduced, hkeyed, -⟩ := stored_compileAndStore h
          refine ⟨(producedBy_map (by decide)).append ((producedBy_map (by decide)).append
            hproduced), hkeyed, (askedFor_map.mono (subset_append_left _ _)).append
              (askedFor_map.mono (fun q hq => ?_))⟩
          exact mem_append_right _ (mem_append_left _ hq)

theorem StoredRun.prepend {asked : List FileQuery}
    (h : op.StoredRun entry disk manifestKey asked) :
    op.StoredRun entry disk manifestKey
      (paths.map (fun path => ⟨.manifestKey, absoluteLexical op.host path⟩) ++ asked) := by
  refine ⟨(producedBy_map (by decide)).append h.1, ?_⟩
  have hread := h.2
  by_cases hexit : ((op.preprocess op.preprocessCommand).result
      (toolSees op.host disk)).exitCode = 0
  · rw [if_pos hexit] at hread ⊢
    exact ⟨hread.1, hread.2.mono (subset_append_right _ _)⟩
  · rw [if_neg hexit] at hread ⊢
    exact ⟨hread.1, hread.2.mono (subset_append_right _ _)⟩

theorem stored_process : (op.process started).result (still disk) = .stored entry →
    ∃ manifestKey, op.StoredRun entry disk manifestKey
      ((op.process started).asked (still disk)) := by
  rw [process, Process.result_andThen, Process.asked_andThen, asked_readAll]
  split
  · intro h
    exact ⟨none, (stored_preprocessAndCompile h).prepend⟩
  · rename_i manifestKey _
    split
    · rintro ⟨⟩
    · intro h
      exact ⟨some manifestKey, (stored_preprocessAndCompile h).prepend⟩

end CompileOp

/-! ## What the tools report -/

/-- The compiler finds only files the preprocessor asks for or its text leads the key to; where
the preprocessor fails, only files the compile's own depfile and trace name. -/
def CompileOp.Reports (op : CompileOp) : Prop :=
  ∀ (disk : Str → Option Stamped) (manifestKey : Option Str),
    let compile := op.compile (op.compileCommand manifestKey)
    let preprocess := op.preprocess op.preprocessCommand
    let preprocessed := preprocess.result (toolSees op.host disk)
    foundBy op.host disk compile ⊆
      (if preprocessed.exitCode = 0 then
        preprocess.asked (toolSees op.host disk) ++ op.keyReads preprocessed.text
      else (compile.result (toolSees op.host disk)).reported op.host).map (absoluteLexical op.host)

/-- The scanner finds only files it names as prerequisites. -/
def DepScanOp.Reports (op : DepScanOp) : Prop :=
  ∀ disk, foundBy op.host disk (op.scan op.command) ⊆
    (((op.scan op.command).result (toolSees op.host disk)).prerequisites.getD []).map
      (absoluteLexical op.host)

/-- The linker finds only inputs the command names and files its trace has on record. -/
def LinkOp.Reports (op : LinkOp) : Prop :=
  ∀ disk, foundBy op.host disk (op.link op.parsed.argv) ⊆
    (op.parsed.inputs ++ op.recordedPaths
      (((op.link op.parsed.argv).result (toolSees op.host disk)).records.getD {})).map
        (absoluteLexical op.host)

/-- rustc finds only externs and files a dep-info run on the same files names. -/
def RustOp.Reports (op : RustOp) : Prop :=
  ∀ disk, foundBy op.host disk (op.compile op.command) ⊆
    ((op.depInfo.result (toolSees op.host disk)).sources ++ op.externPaths).map
      (absoluteLexical op.host)

/-- On files that nobody edits, the tool reads nothing that the operation does not pin. -/
def Operation.Reports : Operation → Prop
  | .compile op => op.Reports
  | .depScan op => op.Reports
  | .link op => op.Reports
  | .rustc op => op.Reports

/-! ## All operations -/

/-- The edit falls on a file between two reads of it. -/
def Operation.Disturbs (s : Running FileQuery (Option Stamped) Outcome Disk) (edit : Edit) : Prop :=
  Straddles FileQuery.path Edit.path s edit

def Operation.run (op : Operation) (d : Disk) (events : List (Event Edit)) :
    Running FileQuery (Option Stamped) Outcome Disk :=
  (Running.start (op.process d.clock) d).run diskSetting events

section Pinned

variable {asked : List FileQuery} {path : Str}

theorem AskedFor.pinned_key (h : AskedFor .key host paths asked) (hkeyed : entry.keyed = true)
    (hpath : path ∈ paths.map (absoluteLexical host)) :
    ∃ q ∈ asked, entry.pins (q, disk q.path) = true ∧ q.path = path :=
  ⟨_, h path hpath, hkeyed, rfl⟩

theorem AskedFor.pinned_record (h : AskedFor .record host paths asked)
    (hstate : entry.manifest.isSome = true) (hpath : path ∈ paths.map (absoluteLexical host))
    (hfound : (disk path).isSome = true) :
    ∃ q ∈ asked, entry.pins (q, disk q.path) = true ∧ q.path = path :=
  ⟨_, h path hpath, by simp [StoredEntry.pins, hstate, hfound], rfl⟩

/-- On files that nobody edits, every file the tool finds is pinned. -/
theorem Operation.pinned_of_found {op : Operation} (hreports : op.Reports)
    (hstored : (op.process started).result (still disk) = .stored entry) {q : FileQuery}
    (hq : q ∈ (op.process started).asked (still disk)) (hproduce : q.purpose = .produce)
    (hfound : (disk q.path).isSome = true) :
    ∃ q' ∈ (op.process started).asked (still disk),
      entry.pins (q', disk q'.path) = true ∧ q'.path = q.path := by
  have hby : ∀ {R : Type} {host : Host} {tool : Tool R}, ProducedBy host tool disk
      ((op.process started).asked (still disk)) → q.path ∈ foundBy host disk tool :=
    fun h => mem_filter.mpr ⟨h q hq hproduce, hfound⟩
  cases op with
  | compile op =>
    obtain ⟨manifestKey, hproduced, hread⟩ := CompileOp.stored_process hstored
    have hreported := hreports disk manifestKey (hby hproduced)
    by_cases hexit : ((op.preprocess op.preprocessCommand).result
        (toolSees op.host disk)).exitCode = 0
    · rw [if_pos hexit] at hread hreported
      exact hread.2.pinned_key hread.1 hreported
    · rw [if_neg hexit] at hread hreported
      exact hread.2.pinned_record hread.1 hreported hfound
  | depScan op =>
    obtain ⟨hstate, hproduced, hread⟩ := DepScanOp.stored_process hstored
    exact hread.pinned_record hstate (hreports disk (hby hproduced)) hfound
  | link op =>
    obtain ⟨hkeyed, hstate, hproduced, hnamed, hread⟩ := LinkOp.stored_process hstored
    have hreported := hreports disk (hby hproduced)
    rw [map_append] at hreported
    rcases mem_append.mp hreported with hreported | hreported
    · exact hnamed.pinned_key hkeyed hreported
    · exact hread.pinned_record hstate hreported hfound
  | rustc op =>
    obtain ⟨⟨hkeyed, hproduced, hsources⟩, hexterns⟩ := RustOp.stored_process hstored
    exact (hsources.append hexterns).pinned_key hkeyed (hreports disk (hby hproduced))

end Pinned

/-- In every run of tools that report what they read, in which no file is edited between two
reads of it, an entry that is stored describes the bytes that were compiled. -/
theorem describes_of_undisturbed (op : Operation) (hreports : op.Reports) (d : Disk)
    (events : List (Event Edit))
    (hquiet : Running.Admits diskSetting (fun s edit => ¬ Operation.Disturbs s edit)
      (Running.start (op.process d.clock) d) events)
    (entry : StoredEntry) (hstored : (op.run d events).result? = some (.stored entry)) :
    entry.Describes (op.run d events).log := by
  obtain ⟨disk, hlog, hresult⟩ := exists_static FileQuery.path Edit.path Disk.files
    (fun _ _ => rfl) (fun edit w path hne => Function.update_of_ne hne _ _) (op.process d.clock) d
    hquiet hstored
  have hmem : ∀ x, x ∈ (op.run d events).log ↔
      x.1 ∈ (op.process d.clock).asked (still disk) ∧ x.2 = disk x.1.path := fun x => by
    rw [Operation.run, hlog]
    exact Process.mem_log_iff
  refine ⟨fun x hx y hy _ _ hpath => ?_, fun y hy hproduce hfound => ?_⟩
  · rw [((hmem x).mp hx).2, ((hmem y).mp hy).2, hpath]
  · obtain ⟨hasked, hanswer⟩ := (hmem y).mp hy
    rw [hanswer] at hfound
    obtain ⟨q, hq, hpins, hpath⟩ := Operation.pinned_of_found hreports hresult.symm hasked hproduce
      hfound
    exact ⟨(q, disk q.path), (hmem _).mpr ⟨hq, rfl⟩, hpins, hpath⟩

/-! ## Edits in between -/

def readOne {R : Type} (path : String) (make : Str → R) : Tool R :=
  .ask path.toList (fun data => .done (make (data.getD [])))

def raceHost : Host := hostIn "/w"

def raceCompile : Operation := .compile
  { digest := Digest.ofContents
    config := {}
    compilerId := ⟨"gcc".toList, false⟩
    nativeTarget := []
    host := raceHost
    environ := []
    isDirectory := fun _ => false
    roots := ⟨[], List.Pairwise.nil⟩
    parsed := plainParsed
    cxxManifest := true
    readOnly := false
    serves := fun _ => false
    lookup := fun _ => false
    preprocess := fun _ => readOne "a.c" (fun data => ⟨0, data⟩)
    compile := fun _ => readOne "a.c" (fun data => ⟨0, data, true, some ["a.c".toList], [], []⟩)
    otherDeclines := fun _ _ => false }

def raceDepScan : Operation := .depScan
  { digest := Digest.ofContents
    config := {}
    compilerId := ⟨"gcc".toList, false⟩
    nativeTarget := []
    host := raceHost
    environ := []
    roots := ⟨[], List.Pairwise.nil⟩
    parsed := { source := "a.c".toList, argv := ["gcc", "-M", "a.c"].map String.toList }
    readOnly := false
    lookup := fun _ => false
    scan := fun _ => readOne "a.c" (fun data => ⟨0, data, some ["a.c".toList]⟩) }

def raceLink : Operation := .link
  { digest := Digest.ofContents
    setting := plainSetting
    host := raceHost
    parsed := { argv := ["gcc", "a.o"].map String.toList, inputs := ["a.o".toList],
                output := "a.out".toList, isLink := true }
    readOnly := false
    lookup := fun _ => false
    link := fun _ => readOne "a.o" (fun data =>
      ⟨0, some data, some { reads := ["/w/a.o".toList], tools := ["/bin/ld".toList] }⟩) }

def raceRust : Operation := .rustc
  { digest := Digest.ofContents
    setting := ⟨⟨[], List.Pairwise.nil⟩, "rustc 1".toList, [], [], false⟩
    host := raceHost
    env := fun _ => none
    parsed := { compiler := "rustc".toList, source := "a.rs".toList, emitKinds := ["link".toList] }
    usesManifest := false
    readOnly := false
    serves := fun _ => false
    lookup := fun _ _ => false
    depInfo := readOne "a.rs" (fun data => ⟨if data = "new".toList
      then ["a.rs".toList, "b.rs".toList] else ["a.rs".toList], []⟩)
    -- The new crate root has a module.
    compile := fun _ => .ask "a.rs".toList (fun data => if data = some "new".toList
      then .ask "b.rs".toList (fun _ => .done ⟨0, data⟩) else .done ⟨0, data⟩) }

def raceDisk : Disk := ⟨fun _ => some ⟨"old".toList, 0⟩, 5, 4⟩

def editAfter (reads : ℕ) (path : String) : List (Event Edit) :=
  List.replicate reads .advance ++
    .change ⟨path.toList, some "new".toList⟩ :: List.replicate 4 .advance

theorem exists_stored {s : Running FileQuery (Option Stamped) Outcome Disk} {P : StoredEntry → Bool}
    (h : (match s.result? with
      | some (.stored entry) => P entry
      | _ => false) = true) : ∃ entry, s.result? = some (.stored entry) ∧ P entry = true := by
  split at h
  · rename_i entry hresult
    exact ⟨entry, hresult, h⟩
  · cases h

/-- A compile stores its entry while another file is edited. -/
theorem describes_while_other_file_edited :
    ∃ entry, (raceCompile.run raceDisk (editAfter 2 "/w/b.c")).result? = some (.stored entry) ∧
      entry.manifest.isSome = true ∧
        entry.Describes (raceCompile.run raceDisk (editAfter 2 "/w/b.c")).log := by
  obtain ⟨entry, hresult, hmanifest⟩ : ∃ entry,
      (raceCompile.run raceDisk (editAfter 2 "/w/b.c")).result? = some (.stored entry) ∧
        entry.manifest.isSome = true := exists_stored (by decide +kernel)
  refine ⟨entry, hresult, hmanifest, describes_of_undisturbed _ ?_ _ _ ?_ entry hresult⟩
  · intro disk manifestKey _ _ _ path hpath
    obtain ⟨spelled, hspelled, rfl⟩ := mem_map.mp (mem_filter.mp hpath).1
    exact mem_map_of_mem (mem_append_left _ hspelled)
  · have hunread : ∀ x ∈ (raceCompile.run raceDisk (replicate 2 .advance)).log,
        x.1.path ≠ "/w/b.c".toList := by decide +kernel
    exact ⟨not_straddles_of_unasked hunread, trivial⟩

def StoresOther (op : Operation) (events : List (Event Edit)) : Prop :=
  ∃ entry, (op.run raceDisk events).result? = some (.stored entry) ∧
    ¬ entry.Describes (op.run raceDisk events).log

theorem storesOther_of_check {op : Operation} {events : List (Event Edit)}
    (h : (match (op.run raceDisk events).result? with
      | some (.stored entry) => !decide (entry.Describes (op.run raceDisk events).log)
      | _ => false) = true) : StoresOther op events := by
  obtain ⟨entry, hresult, hnot⟩ := exists_stored h
  exact ⟨entry, hresult, by simpa using hnot⟩

/-- Each operation stores an entry with the old contents in its key and the output of the
new ones, if its input is edited after the key was computed. If it is edited between the
dep-info run and the hashing, rustc's output is made from a file that is not in the key. -/
theorem stored_after_edit_between :
    StoresOther raceCompile (editAfter 2 "/w/a.c") ∧
      StoresOther raceDepScan (editAfter 1 "/w/a.c") ∧
      StoresOther raceLink (editAfter 1 "/w/a.o") ∧
      StoresOther raceRust (editAfter 2 "/w/a.rs") ∧
      StoresOther raceRust (editAfter 1 "/w/a.rs") := by
  refine ⟨storesOther_of_check ?_, storesOther_of_check ?_, storesOther_of_check ?_,
    storesOther_of_check ?_, storesOther_of_check ?_⟩ <;> decide +kernel

end Vcache

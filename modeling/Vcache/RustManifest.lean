import Vcache.ManifestText
import Vcache.RustHit

/-!
# The manifest of a rustc command

Asking rustc for its dep-info is slow, so a manifest remembers what it said
(`rust/rust_manifest`). It is found under a key of what is known before rustc runs, and
holds states: the files, the variables and the externs a run was keyed by, and its key.
A state is used while all of them still look as they did. The manifest is a text; what is
written is read back as it was written.
-/

namespace Vcache

open List RecordLines

structure RustManifestState where
  key : Str
  files : List (Str × Str)
  envDeps : List DepEnv
  externs : List RustExtern
deriving DecidableEq

/-! ## The text -/

inductive RustRecord where
  | file (path digest : Str)
  | crate (ext : RustExtern)
  | env (dep : DepEnv)
deriving DecidableEq

def RustRecord.line : RustRecord → Str
  | file path digest => "F ".toList ++ renderManifestFile path digest
  | crate ext =>
    if ext.digest = [] then "N ".toList ++ ext.name
    else "X ".toList ++ ext.digest ++ " ".toList ++ ext.name
  | env dep =>
    match dep.value with
    | some value => "E ".toList ++ dep.name ++ "=".toList ++ value
    | none => "U ".toList ++ dep.name

def RustManifestState.records (state : RustManifestState) : List RustRecord :=
  state.files.map (fun file => .file file.1 file.2) ++ state.externs.map .crate ++
    state.envDeps.map .env

def kRustManifestHeader : Str := "vcache-rustmanifest-1".toList

def rustManifestFormat : Format RustManifestState RustRecord Str where
  firstLine state := "state ".toList ++ state.key
  records := RustManifestState.records
  recordLine := RustRecord.line

def renderRustManifest (states : List RustManifestState) : Str :=
  writeManifest rustManifestFormat kRustManifestHeader states

def parseRecordOf (kind : Char) (rest : Str) : Option RustRecord :=
  match kind with
  | 'F' => (parseManifestFile rest).map (fun file => .file file.1 file.2)
  | 'X' =>
    if rest.length < kDigestHexLen + 2 ∨ (rest.drop kDigestHexLen).head? ≠ some ' ' then none
    else some (.crate ⟨rest.drop (kDigestHexLen + 1), rest.take kDigestHexLen⟩)
  | 'N' => some (.crate ⟨rest, []⟩)
  | 'E' =>
    match findChar '=' rest with
    | none => none
    | some eq =>
      if eq = 0 then none else some (.env ⟨rest.take eq, some (rest.drop (eq + 1))⟩)
  | 'U' => some (.env ⟨rest, none⟩)
  | _ => none

def parseRustRecord (line : Str) : Option RustRecord :=
  if line.length < 3 ∨ (line.drop 1).head? ≠ some ' ' then none
  else line.head?.bind (parseRecordOf · (line.drop 2))

def RustManifestState.push (state : RustManifestState) : RustRecord → RustManifestState
  | .file path digest => { state with files := state.files ++ [(path, digest)] }
  | .crate ext => { state with externs := state.externs ++ [ext] }
  | .env dep => { state with envDeps := state.envDeps ++ [dep] }

def parseRustLine (states : List RustManifestState) (line : Str) :
    Option (List RustManifestState) :=
  if startsWith line "state ".toList then
    if (line.drop 6).length = kDigestHexLen then some (states ++ [⟨line.drop 6, [], [], []⟩])
    else none
  else
    match states.getLast?, parseRustRecord line with
    | some last, some r => some (states.dropLast ++ [last.push r])
    | _, _ => none

def parseRustManifest (text : Str) : Option (List RustManifestState) :=
  readManifest kRustManifestHeader parseRustLine text

/-! ## Keys and checks -/

section Keys

variable (cfg : RustSetting) (digest : Digest) (keyHash : Str → Str) (p : RustcArgs)

def RustSetting.statePieces (w : RustWorld) (inputs : RustManifestState) : List Str :=
  cfg.keyPieces p w inputs.files inputs.envDeps inputs.externs

def RustSetting.computeKey (w : RustWorld) (inputs : RustManifestState) : Str :=
  keyHash (delimitedStream (cfg.statePieces p w inputs))

/-- The state a run records, and the key it looks its entry up by. -/
def RustSetting.freshState (inputs : CrateInputs) (w : RustWorld) : Option RustManifestState :=
  if inputs.sources = [] then none
  else do
    let externs ← hashExterns digest w p
    let files ← inputs.sources.mapM (hashSource digest cfg.roots w)
    let fresh : RustManifestState := ⟨[], files, inputs.envDeps.map cfg.keyedEnvDep, externs⟩
    some { fresh with key := cfg.computeKey keyHash p w fresh }

def kRustManifestKeyVersion : Str := "vcache-rust-manifest-v3".toList

/-- What `ComputeManifestKey` hashes; `none` without a manifest key. -/
def RustSetting.manifestPieces (w : RustWorld) : Option (List Str) := do
  let externs ← hashExterns digest w p
  let source ← w.files p.source
  some (kRustManifestKeyVersion :: cfg.invocationPieces p ++
    [cfg.roots.canonicalize p.source, digest.hash source] ++ externs.map RustExtern.name ++
    cfg.extraEnvPieces w)

def crateMismatch (pair : RustExtern × RustExtern) : Option Str :=
  if pair.1.name ≠ pair.2.name then some "the --extern set differs".toList
  else if pair.1.digest ≠ pair.2.digest then
    some ("extern ".toList ++ pair.2.name ++ " changed".toList)
  else none

def spelledValue : Option Str → Str
  | some value => "'".toList ++ value ++ "'".toList
  | none => "unset".toList

def RustSetting.envMismatch (w : RustWorld) (env : DepEnv) : Option Str :=
  let now := (cfg.keyedEnvDep ⟨env.name, (w.env env.name).map escapeEnvDepValue⟩).value
  if now ≠ env.value then
    some ("env ".toList ++ env.name ++ " is ".toList ++ spelledValue now ++ ", was ".toList ++
      spelledValue env.value)
  else none

/-- `FindStaleManifestFile` over the files of the run. -/
def RustWorld.staleFile (roots : RootMap) (w : RustWorld) (file : Str × Str) : Option Str :=
  let path := roots.localize file.1
  match (w.files path).map digest.hash with
  | none => some (path ++ " is gone".toList)
  | some actual => if actual ≠ file.2 then some (path ++ " changed".toList) else none

def RustSetting.findRustStateMismatch (w : RustWorld) (state : RustManifestState)
    (externs : List RustExtern) : Option Str :=
  if state.externs.length ≠ externs.length then some "the --extern set differs".toList
  else
    ((state.externs.zip externs).findSome? crateMismatch).or
      ((state.envDeps.findSome? (cfg.envMismatch w)).or
        (state.files.findSome? (w.staleFile digest cfg.roots)))

end Keys

/-! ## What is written is read back -/

section RoundTrip

/-- The record as a line: what the reader asks of the digests, and no line end. -/
def RustRecord.LineFormed : RustRecord → Prop
  | file path digest => IsKeyText digest ∧ '\n' ∉ path
  | crate ext => (ext.digest = [] ∨ IsKeyText ext.digest) ∧ ext.name ≠ [] ∧ '\n' ∉ ext.name
  | env dep => dep.name ≠ [] ∧ '=' ∉ dep.name ∧ '\n' ∉ dep.name ∧ ∀ value ∈ dep.value, '\n' ∉ value

structure RustManifestState.LineFormed (state : RustManifestState) : Prop where
  key : IsKeyText state.key
  records : ∀ r ∈ state.records, r.LineFormed

theorem parseRustRecord_cons {kind : Char} {rest : Str} (hrest : rest ≠ []) :
    parseRustRecord (kind :: ' ' :: rest) = parseRecordOf kind rest := by
  have hlength : 0 < rest.length := length_pos_iff.mpr hrest
  have hlong : ¬ ((kind :: ' ' :: rest).length < 3 ∨
      ((kind :: ' ' :: rest).drop 1).head? ≠ some ' ') := by
    simp
    omega
  rw [parseRustRecord, if_neg hlong]
  rfl

theorem parseRustRecord_line {r : RustRecord} (h : r.LineFormed) :
    parseRustRecord r.line = some r := by
  cases r with
  | file path digest =>
    have hshape : (RustRecord.file path digest).line =
        'F' :: ' ' :: renderManifestFile path digest := rfl
    rw [hshape, parseRustRecord_cons (by simp [renderManifestFile])]
    change (parseManifestFile _).map _ = _
    rw [parseManifestFile_render h.1, Option.map_some]
  | crate ext =>
    obtain ⟨name, digest⟩ := ext
    obtain ⟨hdigest, hname, -⟩ := h
    rcases hdigest with rfl | hdigest
    · have hshape : (RustRecord.crate ⟨name, []⟩).line = 'N' :: ' ' :: name := rfl
      rw [hshape, parseRustRecord_cons hname]
      rfl
    · have hne : digest ≠ [] := by
        rintro rfl
        cases hdigest.1
      have hshape : (RustRecord.crate ⟨name, digest⟩).line =
          'X' :: ' ' :: (digest ++ ' ' :: name) := by
        simp [RustRecord.line, hne]
      have hpos : 0 < name.length := length_pos_iff.mpr hname
      have hlong : ¬ ((digest ++ ' ' :: name).length < kDigestHexLen + 2 ∨
          ((digest ++ ' ' :: name).drop kDigestHexLen).head? ≠ some ' ') := by
        rw [← hdigest.1]
        simp
        omega
      rw [hshape, parseRustRecord_cons (by simp)]
      change (if _ then none else _) = _
      rw [if_neg hlong, ← hdigest.1]
      simp
  | env dep =>
    obtain ⟨name, value⟩ := dep
    obtain ⟨hname, heq, -, -⟩ := h
    cases value with
    | none =>
      have hshape : (RustRecord.env ⟨name, none⟩).line = 'U' :: ' ' :: name := rfl
      rw [hshape, parseRustRecord_cons hname]
      rfl
    | some value =>
      have hshape : (RustRecord.env ⟨name, some value⟩).line =
          'E' :: ' ' :: (name ++ '=' :: value) := by
        simp [RustRecord.line]
      rw [hshape, parseRustRecord_cons (by simp), parseRecordOf, findChar_append heq]
      simp [hname]

theorem startsWith_line (r : RustRecord) : startsWith r.line "state ".toList = false := by
  cases r with
  | file path digest => rfl
  | crate ext | env dep =>
    rw [RustRecord.line]
    split <;> rfl

theorem parseRustLine_line (states : List RustManifestState) (state : RustManifestState)
    {r : RustRecord} (h : r.LineFormed) :
    parseRustLine (states ++ [state]) r.line = some (states ++ [state.push r]) := by
  rw [parseRustLine, startsWith_line r, parseRustRecord_line h]
  simp

theorem foldl_push_records (state : RustManifestState) :
    state.records.foldl RustManifestState.push ⟨state.key, [], [], []⟩ = state := by
  rw [RustManifestState.records, foldl_append, foldl_append, foldl_map, foldl_map, foldl_map,
    Format.foldl_push (fun (state : RustManifestState) files =>
      { state with files := state.files ++ files }) (by simp) (by simp [RustManifestState.push]),
    Format.foldl_push (fun (state : RustManifestState) externs =>
      { state with externs := state.externs ++ externs }) (by simp)
        (by simp [RustManifestState.push]),
    Format.foldl_push (fun (state : RustManifestState) envDeps =>
      { state with envDeps := state.envDeps ++ envDeps }) (by simp)
        (by simp [RustManifestState.push])]
  rfl

theorem parseRustLine_key (states : List RustManifestState) {key : Str} (h : IsKeyText key) :
    parseRustLine states ("state ".toList ++ key) = some (states ++ [⟨key, [], [], []⟩]) := by
  simp [parseRustLine, startsWith, h.1]

theorem readBy_parseRustLine {state : RustManifestState} (h : state.LineFormed) :
    rustManifestFormat.ReadBy parseRustLine (fun state => ⟨state.key, [], [], []⟩)
      RustManifestState.push state where
  first before := parseRustLine_key before h.key
  record before last r hr := parseRustLine_line before last (h.records r hr)
  whole := foldl_push_records state

theorem notMem_line {r : RustRecord} (h : r.LineFormed) : '\n' ∉ r.line := by
  cases r with
  | file path digest =>
    simp [RustRecord.line, renderManifestFile, h.1.2.2, h.2]
  | crate ext =>
    obtain ⟨hdigest, -, hname⟩ := h
    rw [RustRecord.line]
    split
    next => simp [hname]
    next hne =>
      simp [(hdigest.resolve_left hne).2.2, hname]
  | env dep =>
    obtain ⟨name, value⟩ := dep
    obtain ⟨-, -, hname, hvalue⟩ := h
    cases value with
    | none => simp [RustRecord.line, hname]
    | some value => simp [RustRecord.line, hname, hvalue value rfl]

theorem line_ne_nil (r : RustRecord) : r.line ≠ [] := by
  cases r with
  | file path digest => simp [RustRecord.line]
  | crate ext | env dep =>
    rw [RustRecord.line]
    split <;> simp

theorem parseRustManifest_render {states : List RustManifestState}
    (h : ∀ state ∈ states, state.LineFormed) :
    parseRustManifest (renderRustManifest states) = some states := by
  refine readManifest_writeManifest (by decide)
    (fun state hstate => readBy_parseRustLine (h state hstate)) ?_
  intro state hstate line hline
  rcases mem_cons.mp hline with rfl | hline
  · have hkey := (h state hstate).key.2.2
    exact line_of_keyword "state ".toList (by decide) hkey
  · obtain ⟨r, hr, rfl⟩ := mem_map.mp hline
    exact ⟨line_ne_nil r, notMem_line ((h state hstate).records r hr)⟩

end RoundTrip

end Vcache

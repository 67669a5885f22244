import Vcache.Hasher
import Vcache.QueryProcess
import Vcache.RootText
import Vcache.DepFile
import Vcache.RustcArgs

/-!
# The rustc key

rustc reads the files its dep-info names, the `--extern` files, and files other
options lead it to. The key of `rust_compile` hashes the first two kinds by
contents.
-/

namespace Vcache

open List Option

open QueryProcess (Process)

/-! ## rustc -/

inductive SourceQuery where
  | file (path : Str)
  | env (name : Str)
deriving DecidableEq

/-- rustc: how it finds what its dep-info names, and the files, each under an option,
that its other options make it open. -/
structure Rustc where
  depInfo : RustcArgs → Process SourceQuery (Option Str) Unit
  optionFiles : RustcArgs → Process (Str × Str) (Option Str) Unit

structure RustWorld where
  files : FileSystem
  env : Str → Option Str

def RustWorld.answer (w : RustWorld) : SourceQuery → Option Str
  | .file path => w.files path
  | .env name => w.env name

def RustWorld.answerOption (w : RustWorld) (query : Str × Str) : Option Str := w.files query.2

/-- rustc escapes backslash, newline and carriage return in an env-dep value. -/
def escapeEnvDepValue (value : Str) : Str :=
  value.flatMap (fun c => if c = '\n' then "\\n".toList else if c = '\r' then "\\r".toList
    else if c = '\\' then "\\\\".toList else [c])

/-- The files of the dep-info, once each and in order, and the variables it names. -/
structure CrateInputs where
  sources : List Str
  envDeps : List DepEnv

def SourceQuery.source? (w : RustWorld) : SourceQuery → Option Str
  | .file path => if (w.files path).isSome then some path else none
  | .env _ => none

def SourceQuery.depEnv? (w : RustWorld) : SourceQuery → Option DepEnv
  | .file _ => none
  | .env name => some ⟨name, (w.env name).map escapeEnvDepValue⟩

def collectCrateInputs (rustc : Rustc) (p : RustcArgs) (w : RustWorld) : CrateInputs :=
  let asked := (rustc.depInfo p).asked w.answer
  ⟨sortUnique (asked.filterMap (SourceQuery.source? w)), asked.filterMap (SourceQuery.depEnv? w)⟩

/-! ## The key -/

structure RustExtern where
  name : Str
  digest : Str
deriving DecidableEq

structure RustSetting where
  roots : RootMap
  rustcFingerprint : Str
  rustPathEnvVars : List Str
  extraEnvVars : List Str
  sidecarsApply : Bool

def kRustKeyVersion : Str := "vcache-rust-key-v5".toList

/-- The digest of an `--extern`, empty without a path; `none` if it cannot be read. -/
def hashExtern (digest : Digest) (w : RustWorld) (ext : ExternCrate) : Option RustExtern :=
  if ext.path = [] then some ⟨ext.name, []⟩
  else (w.files ext.path).map (fun data => ⟨ext.name, digest.hash data⟩)

def RustExtern.Before (a b : RustExtern) : Prop :=
  if a.name ≠ b.name then a.name < b.name else a.digest ≤ b.digest

instance : DecidableRel RustExtern.Before := fun _ _ => inferInstanceAs (Decidable (ite ..))

def hashExterns (digest : Digest) (w : RustWorld) (p : RustcArgs) : Option (List RustExtern) :=
  (p.externs.mapM (hashExtern digest w)).map (List.insertionSort RustExtern.Before)

def hashSource (digest : Digest) (roots : RootMap) (w : RustWorld) (path : Str) :
    Option (Str × Str) :=
  (w.files path).map (fun data => (roots.canonicalize path, digest.hash data))

namespace RustSetting

def keyedEnvDep (cfg : RustSetting) (env : DepEnv) : DepEnv :=
  if env.name ∈ cfg.rustPathEnvVars then ⟨env.name, env.value.map cfg.roots.canonicalize⟩ else env

def invocationPieces (cfg : RustSetting) (p : RustcArgs) : List Str :=
  [cfg.rustcFingerprint, cfg.roots.fingerprint] ++ p.keyArgs.map cfg.roots.canonicalize ++
    p.emitKinds.insertionSort (· ≤ ·)

def filePieces (file : Str × Str) : List Str := [file.1, file.2]

def envPieces (env : DepEnv) : List Str :=
  [env.name, match env.value with
    | some value => "=".toList ++ value
    | none => "unset".toList]

def externPieces (ext : RustExtern) : List Str :=
  if ext.digest = [] then [ext.name] else [ext.name, ext.digest]

def extraEnvPieces (cfg : RustSetting) (w : RustWorld) : List Str :=
  cfg.extraEnvVars.flatMap (fun name => [name, (w.env name).getD []])

def modePiece (cfg : RustSetting) : Str :=
  if cfg.sidecarsApply then "sidecars".toList else "inline".toList

/-- The pieces `ComputeKey` feeds its hasher once everything has been hashed. -/
def keyPieces (cfg : RustSetting) (p : RustcArgs) (w : RustWorld) (files : List (Str × Str))
    (envDeps : List DepEnv) (externs : List RustExtern) : List Str :=
  kRustKeyVersion :: cfg.invocationPieces p ++
    (files.flatMap filePieces ++ envDeps.flatMap envPieces ++ externs.flatMap externPieces) ++
    (cfg.extraEnvPieces w ++ [cfg.modePiece])

/-- The pieces of a run's key; `none` when the run goes to rustc uncached. -/
def runPieces (cfg : RustSetting) (digest : Digest) (rustc : Rustc) (p : RustcArgs)
    (w : RustWorld) : Option (List Str) :=
  let inputs := collectCrateInputs rustc p w
  if inputs.sources = [] then none
  else do
    let externs ← hashExterns digest w p
    let files ← inputs.sources.mapM (hashSource digest cfg.roots w)
    some (cfg.keyPieces p w files (inputs.envDeps.map cfg.keyedEnvDep) externs)

/-- Two runs with keys fed by one stream. -/
def SameRustKey (cfg : RustSetting) (digest : Digest) (rustc : Rustc) (p : RustcArgs)
    (w : RustWorld) (q : RustcArgs) (w' : RustWorld) : Prop :=
  ∃ pieces pieces', cfg.runPieces digest rustc p w = some pieces ∧
    cfg.runPieces digest rustc q w' = some pieces' ∧
    (∀ piece ∈ pieces, FitsSize piece) ∧ (∀ piece ∈ pieces', FitsSize piece) ∧
    delimitedStream pieces = delimitedStream pieces'

end RustSetting

/-! ## What the stream determines -/

variable {digest : Digest} {rustc : Rustc} {cfg : RustSetting} {p : RustcArgs} {w : RustWorld}
  {path : Str}

theorem mem_hashExterns {externs : List RustExtern}
    (h : hashExterns digest w p = some externs) :
    (∀ ext ∈ p.externs, ∃ e ∈ externs, hashExtern digest w ext = some e) ∧
      ∀ e ∈ externs, ∃ ext ∈ p.externs, hashExtern digest w ext = some e := by
  obtain ⟨hashed, hmap, rfl⟩ := map_eq_some_iff.mp h
  obtain ⟨hforward, hback⟩ := mem_of_mapM hmap
  simp only [mem_insertionSort]
  exact ⟨hforward, hback⟩

theorem hashExtern_name {ext : ExternCrate} {e : RustExtern}
    (h : hashExtern digest w ext = some e) : e.name = ext.name := by
  unfold hashExtern at h
  split_ifs at h
  · rw [← some.inj h]
  · obtain ⟨data, _, rfl⟩ := map_eq_some_iff.mp h
    rfl

theorem runPieces_eq_some {pieces : List Str} :
    cfg.runPieces digest rustc p w = some pieces ↔
      (collectCrateInputs rustc p w).sources ≠ [] ∧ ∃ externs files,
        hashExterns digest w p = some externs ∧
        (collectCrateInputs rustc p w).sources.mapM (hashSource digest cfg.roots w) = some files ∧
        pieces = cfg.keyPieces p w files
          ((collectCrateInputs rustc p w).envDeps.map cfg.keyedEnvDep) externs := by
  unfold RustSetting.runPieces
  simp only
  split_ifs with hsources
  · simp [hsources]
  · simp only [bind_eq_bind, bind_eq_some_iff, ne_eq, hsources, not_false_eq_true,
      true_and, some.injEq]
    constructor
    · rintro ⟨externs, hexterns, files, hfiles, rfl⟩
      exact ⟨externs, files, hexterns, hfiles, rfl⟩
    · rintro ⟨externs, files, hexterns, hfiles, rfl⟩
      exact ⟨externs, hexterns, files, hfiles, rfl⟩

theorem hashSource_hex {file : Str × Str}
    (h : hashSource digest cfg.roots w path = some file) : file.2.all isHexDigit = true := by
  obtain ⟨data, _, rfl⟩ := map_eq_some_iff.mp h
  exact digest.hex data

theorem envPieces_not_hex (env : DepEnv) :
    ((RustSetting.envPieces env).getD 1 []).all isHexDigit = false := by
  obtain ⟨name, value⟩ := env
  cases value with
  | none => rfl
  | some value => simp [RustSetting.envPieces, isHexDigit, isDigit]

theorem filePieces_injective : Function.Injective RustSetting.filePieces := by
  rintro ⟨path, digest⟩ ⟨path', digest'⟩ h
  simpa [RustSetting.filePieces] using h

theorem files_eq_of_flatMap {files files' : List (Str × Str)} {env env' : List DepEnv}
    (hfiles : ∀ f ∈ files, f.2.all isHexDigit = true)
    (hfiles' : ∀ f ∈ files', f.2.all isHexDigit = true)
    (h : files.flatMap RustSetting.filePieces ++ env.flatMap RustSetting.envPieces =
      files'.flatMap RustSetting.filePieces ++ env'.flatMap RustSetting.envPieces) :
    files = files' := by
  let blocks (files : List (Str × Str)) (env : List DepEnv) : List (List Str) :=
    files.map RustSetting.filePieces ++ env.map RustSetting.envPieces
  have hblocks : ∀ files env, (blocks files env).flatten =
      files.flatMap RustSetting.filePieces ++ env.flatMap RustSetting.envPieces := by
    intro files env
    simp [blocks, flatMap_def]
  have hwidth : ∀ files env, ∀ block ∈ blocks files env, block.length = 2 := by
    intro files env block hblock
    rcases mem_append.mp hblock with hmem | hmem
    · obtain ⟨f, _, rfl⟩ := mem_map.mp hmem
      rfl
    · obtain ⟨e, _, rfl⟩ := mem_map.mp hmem
      rfl
  have hsame : blocks files env = blocks files' env' :=
    Framing.flatten_inj Nat.two_pos (hwidth files env) (hwidth files' env')
      (by rw [hblocks, hblocks, h])
  let isFile (block : List Str) : Bool := (block.getD 1 []).all isHexDigit
  have hfile : ∀ {files : List (Str × Str)}, (∀ f ∈ files, f.2.all isHexDigit = true) →
      ∀ block ∈ files.map RustSetting.filePieces, isFile block = true := by
    intro files hfiles block hblock
    obtain ⟨f, hf, rfl⟩ := mem_map.mp hblock
    exact hfiles f hf
  have henv : ∀ env : List DepEnv, ∀ block ∈ env.map RustSetting.envPieces,
      isFile block = false := by
    intro env block hblock
    obtain ⟨e, _, rfl⟩ := mem_map.mp hblock
    exact envPieces_not_hex e
  have hsplit := Framing.append_inj_of_test (hfile hfiles) (henv env) (hfile hfiles') (henv env')
    hsame
  exact map_injective_iff.mpr filePieces_injective hsplit.1

end Vcache

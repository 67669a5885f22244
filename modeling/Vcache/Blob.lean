import Vcache.Hasher

/-!
# Cache entries

An entry is a magic number, the digest of a body, the body's length and the body
(`storage/chain`). The body is a row of sections, each a kind byte, a 64-bit
length and that many bytes. `DeserializeBlob` walks the sections by adding the
lengths it reads to a 64-bit position, and the additions wrap.
-/

namespace Vcache

inductive SectionKind where
  | object
  | depFile
  | stderr
  | metaText
  | file
  | depManifest
  | sidecarFile
deriving DecidableEq, Repr

def SectionKind.code : SectionKind → Nat
  | .object => 1
  | .depFile => 2
  | .stderr => 3
  | .metaText => 4
  | .file => 5
  | .depManifest => 6
  | .sidecarFile => 7

/-- A kind byte; a newer build may have written others. -/
def SectionKind.ofCode : Nat → Option SectionKind
  | 1 => some .object
  | 2 => some .depFile
  | 3 => some .stderr
  | 4 => some .metaText
  | 5 => some .file
  | 6 => some .depManifest
  | 7 => some .sidecarFile
  | _ => none

structure BlobFile where
  name : Str
  contents : Str
  executable : Bool := false
deriving DecidableEq

structure BlobSidecarFile where
  name : Str
  digest : Str
  executable : Bool := false
deriving DecidableEq

structure Blob where
  object : Str := []
  depfile : Str := []
  stderrText : Str := []
  metaText : Str := []
  hasDepfile : Bool := false
  depManifest : Str := []
  hasDepManifest : Bool := false
  files : List BlobFile := []
  sidecarFiles : List BlobSidecarFile := []
deriving DecidableEq

def kMagic : Str := "VCACHE02".toList

def kDigestHexLen : Nat := 64

/-- `std::string::max_size`. Asking a string for more throws. -/
def kMaxStringSize : Nat := 2 ^ 63 - 1

def wrap (n : Nat) : Nat := n % 2 ^ 64

/-! ## Writing -/

def appendU64 (value : Nat) : Str := Framing.littleEndian Char.ofNat 256 8 value

def kindByte (kind : SectionKind) : Char := Char.ofNat kind.code

def appendSection (kind : SectionKind) (payload : Str) : Str :=
  kindByte kind :: appendU64 payload.length ++ payload

def kFileFlagExecutable : Nat := 1

def flagsByte (executable : Bool) : Char :=
  Char.ofNat (if executable then kFileFlagExecutable else 0)

def filePayload (name contents : Str) (executable : Bool) : Str :=
  appendU64 name.length ++ name ++ flagsByte executable :: contents

def serializeBody (blob : Blob) : Str :=
  appendSection .object blob.object ++
    (if blob.hasDepfile then appendSection .depFile blob.depfile else []) ++
    (if blob.stderrText = [] then [] else appendSection .stderr blob.stderrText) ++
    (if blob.metaText = [] then [] else appendSection .metaText blob.metaText) ++
    (if blob.hasDepManifest then appendSection .depManifest blob.depManifest else []) ++
    blob.files.flatMap (fun file =>
      appendSection .file (filePayload file.name file.contents file.executable)) ++
    blob.sidecarFiles.flatMap (fun file =>
      appendSection .sidecarFile (filePayload file.name file.digest file.executable))

def serializeBlob (hash : Str → Str) (blob : Blob) : Str :=
  kMagic ++ hash (serializeBody blob) ++ appendU64 (serializeBody blob).length ++
    serializeBody blob

/-! ## Reading -/

/-- The number eight bytes stand for, least significant first. -/
def decodeU64 (bytes : Str) : Nat := bytes.foldr (fun c value => c.toNat % 256 + 256 * value) 0

/-- `ReadU64`: the number at `pos` and the position behind it. -/
def readU64 (data : Str) (pos : Nat) : Option (Nat × Nat) :=
  if wrap (pos + 8) > data.length then none
  else some (decodeU64 ((data.drop pos).take 8), pos + 8)

inductive ReadFailure where
  | rejected
  | threw
deriving DecidableEq

inductive ReadResult where
  | accepted (blob : Blob)
  | failed (failure : ReadFailure)
deriving DecidableEq

def isExecutable (flags : Char) : Bool := flags.toNat % 256 % 2 = 1

/-- The name and the flags of a file section and the bytes behind them. `tooShort` is the check
made on the position where those bytes start. -/
def readFile (tooShort : Nat → Bool) (payload : Str) : Except ReadFailure (Str × Bool × Str) :=
  match readU64 payload 0 with
  | none => .error .rejected
  | some (nameLen, fpos) =>
    if tooShort (fpos + nameLen + 1) then .error .rejected
    else if kMaxStringSize < nameLen then .error .threw
    else .ok ((payload.drop fpos).take nameLen,
      isExecutable (payload.getD (fpos + nameLen) '\x00'), payload.drop (fpos + nameLen + 1))

def takeSection (kind : Option SectionKind) (payload : Str) (blob : Blob) :
    Except ReadFailure Blob :=
  match kind with
  | some .object => .ok { blob with object := payload }
  | some .depFile => .ok { blob with depfile := payload, hasDepfile := true }
  | some .stderr => .ok { blob with stderrText := payload }
  | some .metaText => .ok { blob with metaText := payload }
  | some .depManifest => .ok { blob with depManifest := payload, hasDepManifest := true }
  | some .file =>
    match readFile (fun size => wrap size > payload.length) payload with
    | .error failure => .error failure
    | .ok (name, executable, contents) =>
      .ok { blob with files := blob.files ++ [⟨name, contents, executable⟩] }
  | some .sidecarFile =>
    match readFile (fun size => wrap (size + kDigestHexLen) ≠ payload.length) payload with
    | .error failure => .error failure
    | .ok (name, executable, digest) =>
      if digest.all isHexDigit then
        .ok { blob with sidecarFiles := blob.sidecarFiles ++ [⟨name, digest, executable⟩] }
      else .error .rejected
  | none => .ok blob

/-- One turn of the loop: the section at `bpos`, and the position it leads to. -/
def readSection (body : Str) (bpos : Nat) (blob : Blob) : Except ReadFailure (Nat × Blob) :=
  match readU64 body (bpos + 1) with
  | none => .error .rejected
  | some (len, start) =>
    if wrap (start + len) > body.length then .error .rejected
    else
      match takeSection (SectionKind.ofCode ((body.getD bpos '\x00').toNat % 256))
          ((body.drop start).take len) blob with
      | .error failure => .error failure
      | .ok blob => .ok (wrap (start + len), blob)

/-- The loop; `none` when `fuel` turns were not enough. -/
def readSections (body : Str) : Nat → Nat → Blob → Option ReadResult
  | 0, _, _ => none
  | fuel + 1, bpos, blob =>
    if bpos < body.length then
      match readSection body bpos blob with
      | .error failure => some (.failed failure)
      | .ok (next, blob) => readSections body fuel next blob
    else some (.accepted blob)

/-- The body of an entry whose header is in order. -/
def checkHeader (hash : Str → Str) (data : Str) : Option Str :=
  if data.length < kMagic.length + kDigestHexLen + 8 then none
  else if data.take kMagic.length ≠ kMagic then none
  else
    let digest := (data.drop kMagic.length).take kDigestHexLen
    match readU64 data (kMagic.length + kDigestHexLen) with
    | none => none
    | some (bodyLen, pos) =>
      if wrap (pos + bodyLen) ≠ data.length then none
      else
        let body := (data.drop pos).take bodyLen
        if hash body ≠ digest then none else some body

def deserializeBlob (hash : Str → Str) (fuel : Nat) (data : Str) (blob : Blob) :
    Option ReadResult :=
  match checkHeader hash data with
  | none => some (.failed .rejected)
  | some body => readSections body fuel 0 blob

/-- Reading `data` into a fresh `Blob` ends with `result`. -/
def Reads (hash : Str → Str) (data : Str) (result : ReadResult) : Prop :=
  ∃ fuel, deserializeBlob hash fuel data {} = some result

end Vcache

import Vcache.Blob

/-!
# Writing an entry and reading it again

The sections `SerializeBlob` writes lead the loop of `DeserializeBlob` from one to
the next up to the end of the body, and each is taken as the field it was written
from. An entry that was cut, extended or changed in one byte fails at the header:
its magic number, its length or its digest is no longer right.
-/

namespace Vcache

open List

variable {i n : Nat} {parts : List (SectionKind × Str)} {blob result : Blob}

/-! ## Numbers -/

theorem toNat_charOfNat (hi : i < 256) : (Char.ofNat i).toNat = i := by
  rw [Char.ofNat, dif_pos (show i.isValidChar from .inl (by omega))]
  rfl

@[simp] theorem length_appendU64 (n : Nat) : (appendU64 n).length = 8 :=
  Framing.length_littleEndian ..

theorem decodeU64_littleEndian (width n : Nat) :
    decodeU64 (Framing.littleEndian Char.ofNat 256 width n) = n % 256 ^ width := by
  have hbyte : ∀ i < 256, (Char.ofNat i).toNat % 256 = i := fun i hi => by
    rw [toNat_charOfNat hi, Nat.mod_eq_of_lt hi]
  exact Framing.foldr_littleEndian hbyte (by decide) width n

theorem decodeU64_appendU64 (hn : n < 2 ^ 64) : decodeU64 (appendU64 n) = n := by
  rw [appendU64, decodeU64_littleEndian]
  exact Nat.mod_eq_of_lt (by simpa using hn)

theorem wrap_of_lt (h : n < 2 ^ 64) : wrap n = n := Nat.mod_eq_of_lt h

theorem readU64_of_le {data : Str} {pos : Nat} (hpos : pos + 8 ≤ data.length)
    (hsize : data.length < 2 ^ 64) :
    readU64 data pos = some (decodeU64 ((data.drop pos).take 8), pos + 8) := by
  rw [readU64, wrap_of_lt (by omega), if_neg (by omega)]

theorem readU64_append (pre rest : Str) (hn : n < 2 ^ 64)
    (hsize : (pre ++ (appendU64 n ++ rest)).length < 2 ^ 64) :
    readU64 (pre ++ (appendU64 n ++ rest)) pre.length = some (n, pre.length + 8) := by
  rw [readU64_of_le (by simp) hsize, drop_left,
    take_left' (length_appendU64 n), decodeU64_appendU64 hn]

/-! ## Sections -/

/-- The sections of an entry, in the order they are written. -/
def sectionsOf (blob : Blob) : List (SectionKind × Str) :=
  [(.object, blob.object)] ++
    (if blob.hasDepfile then [(.depFile, blob.depfile)] else []) ++
    (if blob.stderrText = [] then [] else [(.stderr, blob.stderrText)]) ++
    (if blob.metaText = [] then [] else [(.metaText, blob.metaText)]) ++
    (if blob.hasDepManifest then [(.depManifest, blob.depManifest)] else []) ++
    blob.files.map (fun file => (.file, filePayload file.name file.contents file.executable)) ++
    blob.sidecarFiles.map (fun file =>
      (.sidecarFile, filePayload file.name file.digest file.executable))

def sectionText (part : SectionKind × Str) : Str := appendSection part.1 part.2

theorem serializeBody_eq (blob : Blob) :
    serializeBody blob = (sectionsOf blob).flatMap sectionText := by
  simp only [serializeBody, sectionsOf, flatMap_append, flatMap_map]
  congr
  · simp [sectionText]
  · split <;> simp [sectionText]
  · split <;> simp [sectionText]
  · split <;> simp [sectionText]
  · split <;> simp [sectionText]

def Takes (parts : List (SectionKind × Str)) (blob result : Blob) : Prop :=
  parts.foldlM (fun blob part => takeSection (some part.1) part.2 blob) blob = .ok result

theorem Takes.nil (blob : Blob) : Takes [] blob blob := rfl

theorem takes_cons {part : SectionKind × Str}
    :
    Takes (part :: parts) blob result ↔
      ∃ next, takeSection (some part.1) part.2 blob = .ok next ∧ Takes parts next result := by
  rw [Takes, foldlM_cons]
  cases takeSection (some part.1) part.2 blob with
  | error e =>
    constructor
    · intro h
      cases h
    · rintro ⟨next, h, -⟩
      cases h
  | ok next =>
    constructor
    · exact fun h => ⟨next, rfl, h⟩
    · rintro ⟨_, hnext, h⟩
      obtain rfl := Except.ok.inj hnext
      exact h

theorem Takes.append {parts' : List (SectionKind × Str)} {next : Blob}
    (h : Takes parts blob next) (h' : Takes parts' next result) :
    Takes (parts ++ parts') blob result := by
  induction parts generalizing blob with
  | nil =>
    obtain rfl := Except.ok.inj h
    exact h'
  | cons part parts ih =>
    obtain ⟨middle, hpart, hrest⟩ := takes_cons.mp h
    exact takes_cons.mpr ⟨middle, hpart, ih hrest⟩

theorem ofCode_kindByte (kind : SectionKind) :
    SectionKind.ofCode ((kindByte kind).toNat % 256) = some kind := by
  cases kind <;> rfl

theorem readSection_sectionText (pre rest : Str) (part : SectionKind × Str) (blob : Blob)
    (hsize : (pre ++ (sectionText part ++ rest)).length < 2 ^ 64) :
    readSection (pre ++ (sectionText part ++ rest)) pre.length blob =
      (takeSection (some part.1) part.2 blob).map
        (fun next => ((pre ++ sectionText part).length, next)) := by
  obtain ⟨kind, payload⟩ := part
  have hbody : pre ++ (sectionText (kind, payload) ++ rest) =
      (pre ++ [kindByte kind]) ++ (appendU64 payload.length ++ (payload ++ rest)) := by
    simp [sectionText, appendSection]
  have hlength : (pre ++ (sectionText (kind, payload) ++ rest)).length =
      pre.length + 9 + payload.length + rest.length := by
    simp [sectionText, appendSection]
    omega
  have hread := readU64_append (pre ++ [kindByte kind]) (payload ++ rest)
    (n := payload.length) (by omega) (by rw [← hbody]; exact hsize)
  rw [← hbody, length_append, length_singleton] at hread
  have hkind : (pre ++ (sectionText (kind, payload) ++ rest)).getD pre.length '\x00' =
      kindByte kind := by
    simp [sectionText, appendSection]
  have hpayload : ((pre ++ (sectionText (kind, payload) ++ rest)).drop (pre.length + 1 + 8)).take
      payload.length = payload := by
    have hdrop : (pre ++ [kindByte kind] ++ appendU64 payload.length).length =
        pre.length + 1 + 8 := by simp
    rw [hbody, ← append_assoc (pre ++ [kindByte kind]), ← hdrop, drop_left, take_left]
  rw [readSection, hread]
  simp only [wrap_of_lt (show pre.length + 1 + 8 + payload.length < 2 ^ 64 by omega), hlength,
    if_neg (show ¬ pre.length + 1 + 8 + payload.length >
      pre.length + 9 + payload.length + rest.length by omega), hkind, hpayload, ofCode_kindByte]
  cases takeSection (some kind) payload blob with
  | error e => rfl
  | ok next =>
    simp [sectionText, appendSection, Except.map]
    omega

theorem readSections_of_takes (pre : Str) (htakes : Takes parts blob result)
    (hsize : (pre ++ parts.flatMap sectionText).length < 2 ^ 64) {fuel : Nat}
    (hfuel : parts.length < fuel) :
    readSections (pre ++ parts.flatMap sectionText) fuel pre.length blob =
      some (.accepted result) := by
  induction parts generalizing pre blob fuel with
  | nil =>
    obtain ⟨fuel, rfl⟩ := Nat.exists_eq_succ_of_ne_zero (Nat.ne_of_gt hfuel)
    obtain rfl := Except.ok.inj htakes
    simp [readSections]
  | cons part parts ih =>
    obtain ⟨fuel, rfl⟩ := Nat.exists_eq_succ_of_ne_zero (Nat.ne_of_gt (Nat.zero_lt_of_lt hfuel))
    obtain ⟨next, hpart, hrest⟩ := takes_cons.mp htakes
    have hstep := readSection_sectionText pre (parts.flatMap sectionText) part blob
      (by rwa [flatMap_cons] at hsize)
    rw [hpart] at hstep
    have hlt : pre.length < (pre ++ (sectionText part ++ parts.flatMap sectionText)).length := by
      simp [sectionText, appendSection]
    rw [flatMap_cons, readSections, if_pos hlt, hstep]
    simp only [Except.map]
    rw [← append_assoc]
    refine ih (pre ++ sectionText part) hrest ?_ (by simpa using hfuel)
    rwa [flatMap_cons, ← append_assoc] at hsize

/-! ## Files -/

theorem length_filePayload (name contents : Str) (executable : Bool) :
    (filePayload name contents executable).length = 9 + name.length + contents.length := by
  simp [filePayload]
  omega

theorem isExecutable_flagsByte (executable : Bool) :
    isExecutable (flagsByte executable) = executable := by
  cases executable <;> decide

theorem length_fileParts {lenBytes : Str} (hlen : lenBytes.length = 8) (name rest : Str)
    (flags : Char) :
    (lenBytes ++ (name ++ flags :: rest)).length = 8 + name.length + 1 + rest.length := by
  simp only [length_append, length_cons, hlen]
  omega

theorem readFile_parts (tooShort : Nat → Bool) {lenBytes name rest : Str} {flags : Char}
    (hlen : lenBytes.length = 8) (hname : decodeU64 lenBytes = name.length)
    (hsize : (lenBytes ++ (name ++ flags :: rest)).length ≤ kMaxStringSize)
    (hcheck : tooShort (8 + name.length + 1) = false) :
    readFile tooShort (lenBytes ++ (name ++ flags :: rest)) =
      .ok (name, isExecutable flags, rest) := by
  have hmax : kMaxStringSize < 2 ^ 64 := by decide
  have hlength := length_fileParts hlen name rest flags
  have hread : readU64 (lenBytes ++ (name ++ flags :: rest)) 0 = some (name.length, 8) := by
    rw [readU64_of_le (by omega) (by omega), drop_zero, take_left' hlen, hname]
  have hnamed : ((lenBytes ++ (name ++ flags :: rest)).drop 8).take name.length = name := by
    rw [drop_left' hlen, take_left]
  have hflags : (lenBytes ++ (name ++ flags :: rest)).getD (8 + name.length) '\x00' = flags := by
    rw [← append_assoc, ← hlen, ← length_append]
    simp
  have hrest : (lenBytes ++ (name ++ flags :: rest)).drop (8 + name.length + 1) = rest := by
    rw [← append_assoc, ← hlen, ← length_append, ← drop_drop, drop_left]
    rfl
  rw [readFile, hread]
  simp only [hcheck, Bool.false_eq_true, if_false,
    if_neg (show ¬ kMaxStringSize < name.length by omega), hnamed, hflags, hrest]

theorem readFile_filePayload (tooShort : Nat → Bool) {name contents : Str} {executable : Bool}
    (hsize : (filePayload name contents executable).length ≤ kMaxStringSize)
    (hcheck : tooShort (8 + name.length + 1) = false) :
    readFile tooShort (filePayload name contents executable) =
      .ok (name, executable, contents) := by
  have hname : name.length < 2 ^ 64 := by
    have hlength := length_filePayload name contents executable
    have hmax : kMaxStringSize < 2 ^ 64 := by decide
    omega
  rw [filePayload, append_assoc] at hsize ⊢
  rw [readFile_parts tooShort (length_appendU64 _) (decodeU64_appendU64 hname) hsize hcheck,
    isExecutable_flagsByte]

theorem takes_files (files : List BlobFile) (hsize : ∀ file ∈ files,
      (filePayload file.name file.contents file.executable).length ≤ kMaxStringSize)
    (blob : Blob) :
    Takes (files.map (fun file =>
        (.file, filePayload file.name file.contents file.executable)))
      blob { blob with files := blob.files ++ files } := by
  induction files generalizing blob with
  | nil => simp [Takes.nil]
  | cons file files ih =>
    have hfile := hsize file mem_cons_self
    have hmax : kMaxStringSize < 2 ^ 64 := by decide
    have hlength := length_filePayload file.name file.contents file.executable
    have hread := readFile_filePayload (fun size =>
        wrap size > (filePayload file.name file.contents file.executable).length) hfile
      (by rw [decide_eq_false_iff_not, wrap_of_lt (by omega)]; omega)
    rw [map_cons, takes_cons]
    refine ⟨{ blob with files := blob.files ++ [file] }, by simp only [takeSection, hread], ?_⟩
    simpa using ih (fun f hf => hsize f (mem_cons_of_mem _ hf))
      { blob with files := blob.files ++ [file] }

theorem takes_sidecarFiles (files : List BlobSidecarFile) (hsize : ∀ file ∈ files,
      (filePayload file.name file.digest file.executable).length ≤ kMaxStringSize)
    (hdigest : ∀ file ∈ files, file.digest.length = kDigestHexLen ∧ file.digest.all isHexDigit)
    (blob : Blob) :
    Takes (files.map (fun file =>
        (.sidecarFile, filePayload file.name file.digest file.executable)))
      blob { blob with sidecarFiles := blob.sidecarFiles ++ files } := by
  induction files generalizing blob with
  | nil => simp [Takes.nil]
  | cons file files ih =>
    have hfile := hsize file mem_cons_self
    obtain ⟨hlen, hhex⟩ := hdigest file mem_cons_self
    have hmax : kMaxStringSize < 2 ^ 64 := by decide
    have hlength := length_filePayload file.name file.digest file.executable
    have hread := readFile_filePayload (fun size =>
        wrap (size + kDigestHexLen) ≠
          (filePayload file.name file.digest file.executable).length) hfile
      (by rw [decide_eq_false_iff_not, wrap_of_lt (by omega)]; omega)
    rw [map_cons, takes_cons]
    refine ⟨{ blob with sidecarFiles := blob.sidecarFiles ++ [file] }, ?_, ?_⟩
    · simp only [takeSection, hread, hhex, if_true]
    · simpa using ih (fun f hf => hsize f (mem_cons_of_mem _ hf))
        (fun f hf => hdigest f (mem_cons_of_mem _ hf))
        { blob with sidecarFiles := blob.sidecarFiles ++ [file] }

/-! ## The whole body -/

/-- An entry whose optional parts are empty when they are not there, with digests as
`HexEncode` writes them. -/
structure Blob.Storable (blob : Blob) : Prop where
  depfile : blob.hasDepfile = false → blob.depfile = []
  depManifest : blob.hasDepManifest = false → blob.depManifest = []
  digests : ∀ file ∈ blob.sidecarFiles,
    file.digest.length = kDigestHexLen ∧ file.digest.all isHexDigit

theorem takes_one {kind : SectionKind} {payload : Str}
    (h : takeSection (some kind) payload blob = .ok result) :
    Takes [(kind, payload)] blob result :=
  takes_cons.mpr ⟨result, h, Takes.nil result⟩

theorem takes_sectionsOf (hblob : blob.Storable)
    (hsize : ∀ part ∈ sectionsOf blob, part.2.length ≤ kMaxStringSize) :
    Takes (sectionsOf blob) {} blob := by
  have hobject : Takes [(.object, blob.object)] {} { object := blob.object } := takes_one rfl
  have hdepfile : Takes (if blob.hasDepfile then [(.depFile, blob.depfile)] else [])
      { object := blob.object }
      { object := blob.object, depfile := blob.depfile, hasDepfile := blob.hasDepfile } := by
    cases hflag : blob.hasDepfile with
    | false =>
      rw [hblob.depfile hflag]
      exact Takes.nil _
    | true => exact takes_one rfl
  have hstderr : Takes (if blob.stderrText = [] then [] else [(.stderr, blob.stderrText)])
      { object := blob.object, depfile := blob.depfile, hasDepfile := blob.hasDepfile }
      { object := blob.object, depfile := blob.depfile, hasDepfile := blob.hasDepfile
        stderrText := blob.stderrText } := by
    split
    · rename_i hempty
      rw [hempty]
      exact Takes.nil _
    · exact takes_one rfl
  have hmeta : Takes (if blob.metaText = [] then [] else [(.metaText, blob.metaText)])
      { object := blob.object, depfile := blob.depfile, hasDepfile := blob.hasDepfile
        stderrText := blob.stderrText }
      { object := blob.object, depfile := blob.depfile, hasDepfile := blob.hasDepfile
        stderrText := blob.stderrText, metaText := blob.metaText } := by
    split
    · rename_i hempty
      rw [hempty]
      exact Takes.nil _
    · exact takes_one rfl
  have hmanifest : Takes (if blob.hasDepManifest then [(.depManifest, blob.depManifest)] else [])
      { object := blob.object, depfile := blob.depfile, hasDepfile := blob.hasDepfile
        stderrText := blob.stderrText, metaText := blob.metaText }
      { blob with files := [], sidecarFiles := [] } := by
    cases hflag : blob.hasDepManifest with
    | false =>
      rw [hblob.depManifest hflag]
      exact Takes.nil _
    | true => exact takes_one rfl
  have hfiles := takes_files blob.files
    (fun file hfile => hsize _ (mem_append_left _ (mem_append_right _
      (mem_map_of_mem hfile)))) { blob with files := [], sidecarFiles := [] }
  have hsidecars := takes_sidecarFiles blob.sidecarFiles
    (fun file hfile => hsize _ (mem_append_right _ (mem_map_of_mem hfile)))
    hblob.digests { blob with sidecarFiles := [] }
  exact (((((hobject.append hdepfile).append hstderr).append hmeta).append hmanifest).append
    hfiles).append hsidecars

theorem length_le_of_mem_parts {part : SectionKind × Str}
    (h : part ∈ parts) : part.2.length ≤ (parts.flatMap sectionText).length := by
  obtain ⟨before, after, rfl⟩ := append_of_mem h
  simp [sectionText, appendSection]
  omega

/-! ## The header -/

theorem checkHeader_parts (hash : Str → Str) {mark digest lenBytes rest : Str}
    (hmark : mark.length = kMagic.length) (hdigest : digest.length = kDigestHexLen)
    (hlen : lenBytes.length = 8) :
    checkHeader hash (mark ++ (digest ++ (lenBytes ++ rest))) =
      if mark ≠ kMagic then none
      else if wrap (80 + decodeU64 lenBytes) ≠ 80 + rest.length then none
      else if hash (rest.take (decodeU64 lenBytes)) ≠ digest then none
      else some (rest.take (decodeU64 lenBytes)) := by
  have hmagic : kMagic.length = 8 := rfl
  have hhex : kDigestHexLen = 64 := rfl
  have hlength : (mark ++ (digest ++ (lenBytes ++ rest))).length = 80 + rest.length := by
    simp [hmark, hdigest, hlen, hmagic, hhex]
    omega
  have htake : (mark ++ (digest ++ (lenBytes ++ rest))).take kMagic.length = mark := by
    rw [← hmark, take_left]
  have hdropMark : (mark ++ (digest ++ (lenBytes ++ rest))).drop kMagic.length =
      digest ++ (lenBytes ++ rest) := by
    rw [← hmark, drop_left]
  have hdropDigest : (mark ++ (digest ++ (lenBytes ++ rest))).drop
      (kMagic.length + kDigestHexLen) = lenBytes ++ rest := by
    rw [← drop_drop, hdropMark, ← hdigest, drop_left]
  have hdropLen : (mark ++ (digest ++ (lenBytes ++ rest))).drop 80 = rest := by
    rw [show 80 = kMagic.length + kDigestHexLen + 8 from rfl, ← drop_drop, hdropDigest,
      ← hlen, drop_left]
  have hread : readU64 (mark ++ (digest ++ (lenBytes ++ rest))) (kMagic.length + kDigestHexLen) =
      some (decodeU64 lenBytes, 80) := by
    rw [readU64, hdropDigest, take_left' hlen, if_neg]
    · rfl
    · rw [hlength]
      exact Nat.not_lt.mpr (Nat.le_add_right 80 rest.length)
  have hshort : ¬ 80 + rest.length < kMagic.length + kDigestHexLen + 8 := by
    rw [hmagic, hhex]
    omega
  rw [checkHeader, hlength, if_neg hshort, htake]
  split
  · rfl
  · rw [hread, hdropMark, take_left' hdigest]
    simp only [hdropLen]

theorem reads_rejected {hash : Str → Str} {data : Str} (h : checkHeader hash data = none) :
    Reads hash data (.failed .rejected) :=
  ⟨0, by rw [deserializeBlob, h]⟩

/-- What may become of an entry on its way: cut off, continued, or changed in one byte. -/
inductive Damaged (data : Str) : Str → Prop
  | cut {front rest : Str} : data = front ++ rest → rest ≠ [] → Damaged data front
  | extended {more : Str} : more ≠ [] → Damaged data (data ++ more)
  | changed {i : Nat} {c : Char} : i < data.length → c.toNat < 256 → data[i]? ≠ some c →
      Damaged data (data.set i c)

theorem set_ne_self {s : Str} {c : Char} (hi : i < s.length) (hc : s[i]? ≠ some c) :
    s.set i c ≠ s := by
  intro h
  apply hc
  rw [← h, getElem?_set_self hi]

theorem decodeU64_set_ne {c : Char} (hi : i < (appendU64 n).length)
    (hbyte : c.toNat < 256) (hc : (appendU64 n)[i]? ≠ some c) :
    decodeU64 ((appendU64 n).set i c) ≠ decodeU64 (appendU64 n) := by
  have hbytes : ∀ d ∈ appendU64 n, d.toNat < 256 := by
    have hall : ∀ width value, ∀ d ∈ Framing.littleEndian Char.ofNat 256 width value,
        d.toNat < 256 := by
      intro width
      induction width with
      | zero => exact fun value d hd => absurd hd not_mem_nil
      | succ width ih =>
        intro value d hd
        rcases mem_cons.mp hd with rfl | hd
        · rw [toNat_charOfNat (Nat.mod_lt _ (by decide))]
          exact Nat.mod_lt _ (by decide)
        · exact ih _ d hd
    exact hall 8 n
  have hset : ∀ d ∈ (appendU64 n).set i c, d.toNat < 256 := by
    intro d hd
    rcases mem_or_eq_of_mem_set hd with hd | rfl
    · exact hbytes d hd
    · exact hbyte
  intro h
  refine set_ne_self hi hc (Framing.foldr_value_inj (by simp) (fun d _ => ?_) (fun d _ => ?_) ?_ h)
  · exact Nat.mod_lt _ (by decide)
  · exact Nat.mod_lt _ (by decide)
  · intro d hd e he hde
    rw [Nat.mod_eq_of_lt (hset d hd), Nat.mod_eq_of_lt (hbytes e he)] at hde
    exact Char.toNat_inj.mp hde

theorem decodeU64_lt {bytes : Str} (h : bytes.length = 8) : decodeU64 bytes < 2 ^ 64 := by
  have hbytes : ∀ c ∈ bytes, c.toNat % 256 < 256 := fun c _ => Nat.mod_lt _ (by decide)
  have hlt := Framing.foldr_value_lt hbytes
  rwa [h] at hlt

section Damage

variable {hash : Str → Str} {body : Str}

theorem checkHeader_length_ne {digest : Str} (hdigest : digest.length = kDigestHexLen)
    {lenBytes rest : Str} (hlen : lenBytes.length = 8)
    (h : wrap (80 + decodeU64 lenBytes) ≠ 80 + rest.length) :
    checkHeader hash (kMagic ++ (digest ++ (lenBytes ++ rest))) = none := by
  rw [checkHeader_parts hash rfl hdigest hlen, if_neg (by simp), if_pos h]

theorem checkHeader_damaged (hlength : (hash body).length = kDigestHexLen)
    (hsize : 80 + body.length < 2 ^ 64)
    (hfree : ∀ i c, hash (body.set i c) = hash body → body.set i c = body) {damaged : Str}
    (h : Damaged (kMagic ++ (hash body ++ (appendU64 body.length ++ body))) damaged) :
    checkHeader hash damaged = none := by
  have hbodyLen : decodeU64 (appendU64 body.length) = body.length :=
    decodeU64_appendU64 (by omega)
  have hmagic : kMagic.length = 8 := rfl
  have hhex : kDigestHexLen = 64 := rfl
  cases h with
  | @cut _ rest hdata hrest =>
    by_cases hshort : damaged.length < kMagic.length + kDigestHexLen + 8
    · rw [checkHeader, if_pos hshort]
    · -- The header is whole, so the cut is in the body.
      have hheader : (kMagic ++ (hash body ++ appendU64 body.length)).length ≤ damaged.length := by
        simp [hlength]
        omega
      rw [← append_assoc, ← append_assoc] at hdata
      rw [← append_assoc] at hheader
      obtain ⟨front', rfl⟩ : kMagic ++ hash body ++ appendU64 body.length <+: damaged :=
        prefix_of_prefix_length_le (prefix_append _ body) ⟨rest, hdata.symm⟩ hheader
      rw [append_assoc _ front' rest] at hdata
      have hbody := append_cancel_left hdata
      rw [append_assoc, append_assoc]
      refine checkHeader_length_ne hlength (length_appendU64 _) ?_
      have hlt : front'.length < body.length := by
        rw [hbody, length_append]
        have := length_pos_iff.mpr hrest
        omega
      rw [hbodyLen, wrap_of_lt hsize]
      omega
  | @extended more hmore =>
    rw [append_assoc, append_assoc, append_assoc]
    refine checkHeader_length_ne hlength (length_appendU64 _) ?_
    have hpos := length_pos_iff.mpr hmore
    rw [hbodyLen, wrap_of_lt hsize, length_append]
    omega
  | @changed i c hi hbyte hc =>
    rw [set_append]
    split
    · rename_i hmark
      rw [checkHeader_parts hash (by simp) hlength (length_appendU64 _), if_pos]
      exact set_ne_self hmark (by rwa [getElem?_append_left hmark] at hc)
    · rename_i hmark
      rw [getElem?_append_right (Nat.le_of_not_lt hmark)] at hc
      rw [set_append]
      split
      · rename_i hin
        rw [getElem?_append_left hin] at hc
        rw [checkHeader_parts hash rfl (by simpa using hlength) (length_appendU64 _),
          if_neg (by simp), hbodyLen, if_neg (by rw [wrap_of_lt hsize]; simp), take_length,
          if_pos]
        exact (set_ne_self hin hc).symm
      · rename_i hout
        rw [getElem?_append_right (Nat.le_of_not_lt hout)] at hc
        rw [set_append]
        split
        · rename_i hin
          rw [getElem?_append_left hin] at hc
          refine checkHeader_length_ne hlength (by simp) ?_
          have hne := decodeU64_set_ne hin hbyte hc
          have hlt : decodeU64 ((appendU64 body.length).set
              (i - kMagic.length - (hash body).length) c) < 2 ^ 64 := decodeU64_lt (by simp)
          rw [hbodyLen] at hne
          rw [wrap]
          omega
        · rename_i hbody
          rw [getElem?_append_right (Nat.le_of_not_lt hbody)] at hc
          have hi' : i - kMagic.length - (hash body).length - (appendU64 body.length).length <
              body.length := by
            simp at hi hmark hout hbody ⊢
            omega
          rw [checkHeader_parts hash rfl hlength (length_appendU64 _), if_neg (by simp), hbodyLen,
            if_neg (by rw [wrap_of_lt hsize]; simp), if_pos]
          rw [take_of_length_le (by simp)]
          exact fun heq => set_ne_self hi' hc (hfree _ c heq)

end Damage

/-- An entry is read back as it was written, and a damaged one is rejected. -/
theorem deserializeBlob_serializeBlob (hash : Str → Str)
    (hlength : ∀ text, (hash text).length = kDigestHexLen) (blob : Blob) (hblob : blob.Storable)
    (hsize : (serializeBlob hash blob).length ≤ kMaxStringSize)
    (hfree : ∀ i c, hash ((serializeBody blob).set i c) = hash (serializeBody blob) →
      (serializeBody blob).set i c = serializeBody blob) :
    Reads hash (serializeBlob hash blob) (.accepted blob) ∧
      ∀ damaged, Damaged (serializeBlob hash blob) damaged →
        Reads hash damaged (.failed .rejected) := by
  have htext : serializeBlob hash blob = kMagic ++ (hash (serializeBody blob) ++
      (appendU64 (serializeBody blob).length ++ serializeBody blob)) := by
    simp [serializeBlob]
  have hhex : kDigestHexLen = 64 := rfl
  have hmagic : kMagic.length = 8 := rfl
  have hmax : kMaxStringSize < 2 ^ 64 := by decide
  have htotal : (serializeBlob hash blob).length = 80 + (serializeBody blob).length := by
    simp [htext, hlength, hmagic, hhex]
    omega
  have hbodySize : 80 + (serializeBody blob).length < 2 ^ 64 := by omega
  constructor
  · refine ⟨(sectionsOf blob).length + 1, ?_⟩
    have hheader : checkHeader hash (serializeBlob hash blob) = some (serializeBody blob) := by
      rw [htext, checkHeader_parts hash rfl (hlength _) (length_appendU64 _), if_neg (by simp),
        decodeU64_appendU64 (by omega), if_neg (by rw [wrap_of_lt hbodySize]; simp),
        take_length, if_neg (by simp)]
    have hparts : ∀ part ∈ sectionsOf blob, part.2.length ≤ kMaxStringSize := by
      intro part hpart
      have hle := length_le_of_mem_parts hpart
      rw [← serializeBody_eq] at hle
      omega
    rw [deserializeBlob, hheader]
    have hrun := readSections_of_takes [] (takes_sectionsOf hblob hparts)
      (by rw [nil_append, ← serializeBody_eq]; omega) (Nat.lt_succ_self _)
    rw [nil_append, ← serializeBody_eq] at hrun
    exact hrun
  · intro damaged hdamaged
    rw [htext] at hdamaged
    exact reads_rejected (checkHeader_damaged (hlength _) hbodySize hfree hdamaged)

/-! ## A checksum for concrete entries -/

def byteSum (text : Str) : Nat := (text.map Char.toNat).sum

/-- The sum of the bytes in 64 hexadecimal digits. -/
def checksum (text : Str) : Str := Framing.littleEndian Nat.digitChar 16 64 (byteSum text)

theorem byteSum_set {text : Str} {c d : Char} (h : text[i]? = some d) :
    byteSum (text.set i c) + d.toNat = byteSum text + c.toNat := by
  induction text generalizing i with
  | nil => cases h
  | cons e text ih =>
    cases i with
    | zero =>
      cases h
      simp only [byteSum, set_cons_zero, map_cons, sum_cons]
      omega
    | succ i =>
      have hrest := ih h
      simp only [byteSum, set_cons_succ, map_cons, sum_cons] at hrest ⊢
      omega

theorem checksum_set {text : Str} (hsize : byteSum text < 16 ^ 63) (i : Nat) (c : Char)
    (h : checksum (text.set i c) = checksum text) : text.set i c = text := by
  by_cases hi : i < text.length
  · obtain ⟨d, hd⟩ : ∃ d, text[i]? = some d := ⟨text[i], getElem?_eq_getElem hi⟩
    have hsum := byteSum_set (c := c) hd
    have hbound : c.toNat < 16 ^ 6 := by
      rcases c.valid with hlow | ⟨-, hhigh⟩
      · exact Nat.lt_trans hlow (by decide)
      · exact Nat.lt_trans hhigh (by decide)
    have heq := Framing.littleEndian_inj (by decide) Digest.digitChar_inj (by omega) (by omega) h
    have hcd : c = d := Char.toNat_inj.mp (by omega)
    rw [hcd]
    exact ext_getElem? (fun j => by
      by_cases hj : j = i
      · rw [hj, getElem?_set_self hi, hd]
      · rw [getElem?_set_ne (fun hij => hj hij.symm)])
  · exact set_eq_of_length_le (Nat.le_of_not_lt hi)

def mixedBlob : Blob where
  object := "obj".toList
  depfile := "a.o: a.c\n".toList
  hasDepfile := true
  stderrText := "warning".toList
  metaText := "language: c\n".toList
  depManifest := []
  hasDepManifest := true
  files := [⟨"libx.rlib".toList, "rlib".toList, false⟩, ⟨"build-script".toList, "elf".toList, true⟩]
  sidecarFiles := [⟨"libbig.rlib".toList, List.replicate 64 'a', false⟩]

theorem deserializeBlob_serializeBlob_mixed :
    Reads checksum (serializeBlob checksum mixedBlob) (.accepted mixedBlob) ∧
      ∀ damaged, Damaged (serializeBlob checksum mixedBlob) damaged →
        Reads checksum damaged (.failed .rejected) :=
  deserializeBlob_serializeBlob checksum (fun _ => Framing.length_littleEndian ..) mixedBlob
    ⟨by decide, by decide, by decide⟩ (by decide +kernel) (checksum_set (by decide +kernel))

end Vcache

import Vcache.Blob
import Vcache.RecordLines

/-!
# The text of a manifest

A manifest is a header line and, for each remembered state, a line with its key and one
line a record. The four kinds of manifest differ in the header, the keyword of the key's
line and the records (`core/manifest`, `core/cxx_manifest`, `core/link`,
`core/compile`, `rust/rust_manifest`).
-/

namespace Vcache

open List RecordLines

def IsKeyText (text : Str) : Prop := text.length = kDigestHexLen ∧ ' ' ∉ text ∧ '\n' ∉ text

instance (text : Str) : Decidable (IsKeyText text) := inferInstanceAs (Decidable (_ ∧ _))

/-- The digest comes first, so that a path with spaces is the rest of the line. -/
def renderManifestFile (path digest : Str) : Str := digest ++ " ".toList ++ path

def parseManifestFile (line : Str) : Option (Str × Str) :=
  match findChar ' ' line with
  | none => none
  | some space =>
    if space ≠ kDigestHexLen then none
    else some (line.drop (space + 1), line.take space)

theorem renderManifestFile_eq (path digest : Str) :
    renderManifestFile path digest = digest ++ ' ' :: path := by
  simp [renderManifestFile]

theorem parseManifestFile_render {digest : Str} (h : IsKeyText digest) (path : Str) :
    parseManifestFile (renderManifestFile path digest) = some (path, digest) := by
  have hfind : findChar ' ' (digest ++ ' ' :: path) = some kDigestHexLen := by
    rw [findChar_append h.2.1, h.1]
  rw [renderManifestFile_eq, parseManifestFile, hfind, ← h.1]
  simp

theorem line_of_keyword (keyword : Str) {rest : Str} (hkeyword : keyword ≠ [] ∧ '\n' ∉ keyword)
    (hrest : '\n' ∉ rest) : keyword ++ rest ≠ [] ∧ '\n' ∉ keyword ++ rest := by
  refine ⟨append_ne_nil_of_left_ne_nil hkeyword.1 rest, ?_⟩
  rw [mem_append, not_or]
  exact ⟨hkeyword.2, hrest⟩

/-- A line that starts with a digest starts with no keyword: the first blank stands too far
to the right. -/
theorem startsWith_renderManifestFile (keyword : Str) {digest : Str} (h : IsKeyText digest)
    (path : Str) (hkeyword : keyword.length < kDigestHexLen) :
    startsWith (renderManifestFile path digest) (keyword ++ [' ']) = false := by
  rw [Bool.eq_false_iff]
  intro hstarts
  obtain ⟨rest, hrest⟩ := startsWith_iff.mp hstarts
  rw [renderManifestFile_eq, append_assoc] at hrest
  rcases append_eq_append_iff.mp hrest with ⟨more, hmore, -⟩ | ⟨more, hmore, hblank⟩
  · have hlength := congrArg length hmore
    rw [length_append, h.1] at hlength
    omega
  · cases more with
    | nil =>
      have hlength := congrArg length hmore
      rw [append_nil, h.1] at hlength
      omega
    | cons c more =>
      obtain ⟨rfl, -⟩ := cons.inj hblank
      exact h.2.1 (hmore ▸ by simp)

section Read

variable {Entry Record : Type} {addLine : List Entry → Str → Option (List Entry)}

/-- The loop of a manifest's reader, with what it does with a line. -/
def readManifest (header : Str) (addLine : List Entry → Str → Option (List Entry)) (text : Str) :
    Option (List Entry) :=
  match splitSkipEmpty '\n' text with
  | [] => none
  | first :: lines => if first = header then lines.foldlM addLine [] else none

def writeManifest (f : Format Entry Record Str) (header : Str) (entries : List Entry) : Str :=
  (header :: entries.flatMap f.lines).flatMap (· ++ ['\n'])

theorem readManifest_writeManifest {f : Format Entry Record Str} {header : Str}
    {opened : Entry → Entry} {push : Entry → Record → Entry} {entries : List Entry}
    (hheader : header ≠ [] ∧ '\n' ∉ header) (hread : ∀ e ∈ entries, f.ReadBy addLine opened push e)
    (hlines : ∀ e ∈ entries, ∀ line ∈ f.lines e, line ≠ [] ∧ '\n' ∉ line) :
    readManifest header addLine (writeManifest f header entries) = some entries := by
  have hsplit : splitSkipEmpty '\n' (writeManifest f header entries) =
      header :: entries.flatMap f.lines := by
    apply splitSkipEmpty_lines
    intro line hline
    rcases mem_cons.mp hline with rfl | hline
    · exact hheader
    · obtain ⟨e, he, hline⟩ := mem_flatMap.mp hline
      exact hlines e he line hline
  rw [readManifest, hsplit]
  simp only [if_true]
  exact Format.foldlM_allLines hread []

end Read

end Vcache

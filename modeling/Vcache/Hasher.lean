import Vcache.Framing
import Vcache.Strings

/-!
# The hashed stream

A `Hasher` is the text it has been fed (`hash/hasher`). `UpdateDelimited` writes
a 64-bit little-endian length and then the bytes, so the stream determines the
sequence of pieces, but not where one group of pieces ends and the next begins.
-/

namespace Vcache

/-- `UpdateU64`: eight bytes, least significant first. -/
def updateU64 (value : Nat) : Str := Framing.littleEndian Char.ofNat 256 8 value

def updateDelimited (data : Str) : Str := Framing.lengthPrefixed updateU64 data

/-- The bytes fed to a hasher that is given `pieces` one after the other. -/
def delimitedStream (pieces : List Str) : Str := pieces.flatMap updateDelimited

def FitsSize (data : Str) : Prop := data.length < 2 ^ 64

instance (data : Str) : Decidable (FitsSize data) := inferInstanceAs (Decidable (_ < _))

theorem charOfNat_inj {i j : Nat} (hi : i < 256) (hj : j < 256)
    (h : Char.ofNat i = Char.ofNat j) : i = j := by
  have hi' : i.isValidChar := .inl (by omega)
  have hj' : j.isValidChar := .inl (by omega)
  rw [Char.ofNat, dif_pos hi', Char.ofNat, dif_pos hj'] at h
  exact congrArg Char.toNat h

theorem selfDelimiting_updateDelimited : Framing.SelfDelimiting FitsSize updateDelimited := by
  have hwidth : ∀ n, (updateU64 n).length = 8 := fun n => Framing.length_littleEndian ..
  apply Framing.selfDelimiting_lengthPrefixed hwidth
  intro m hm n hn h
  exact Framing.littleEndian_inj (by decide) (fun i hi j hj => charOfNat_inj hi hj)
    (by simpa using hm) (by simpa using hn) h

theorem updateDelimited_ne_nil (data : Str) : updateDelimited data ≠ [] := by
  simp [updateDelimited, Framing.lengthPrefixed, updateU64, Framing.littleEndian]

theorem delimitedStream_inj {xs ys : List Str} (hxs : ∀ x ∈ xs, FitsSize x)
    (hys : ∀ y ∈ ys, FitsSize y) (h : delimitedStream xs = delimitedStream ys) : xs = ys :=
  selfDelimiting_updateDelimited.flatMap_inj updateDelimited_ne_nil hxs hys h

theorem delimitedStream_append_inj {xs ys : List Str} {s t : Str} (hxs : ∀ x ∈ xs, FitsSize x)
    (hys : ∀ y ∈ ys, FitsSize y) (hlen : xs.length = ys.length)
    (h : delimitedStream xs ++ s = delimitedStream ys ++ t) : xs = ys :=
  (selfDelimiting_updateDelimited.flatMap_append_inj hxs hys hlen h).1

def isHexDigit (c : Char) : Bool := isDigit c || ('a' ≤ c && c ≤ 'f')

/-- A content digest without collisions, written in hexadecimal. -/
structure Digest where
  hash : Str → Str
  injective : Function.Injective hash
  hex : ∀ data, (hash data).all isHexDigit = true
  ne_nil : ∀ data, hash data ≠ []

namespace Digest

theorem hash_ne (digest : Digest) (data : Str) {text : Str} (h : text.all isHexDigit = false) :
    digest.hash data ≠ text := by
  rintro rfl
  rw [digest.hex] at h
  cases h

theorem ne_missing (digest : Digest) (data : Str) : digest.hash data ≠ "<missing>".toList :=
  digest.hash_ne data (by decide)

/-- The contents themselves, six hexadecimal digits a character. -/
def spelledOut (data : Str) : Str :=
  '0' :: data.flatMap (fun c => Framing.littleEndian Nat.digitChar 16 6 c.toNat)

theorem digitChar_inj : ∀ i < 16, ∀ j < 16, Nat.digitChar i = Nat.digitChar j → i = j := by
  decide

theorem spelledOut_injective : Function.Injective spelledOut := by
  intro s t h
  have hblocks := Framing.map_eq_of_flatMap_eq (by decide)
    (fun c : Char => Framing.length_littleEndian Nat.digitChar 16 6 c.toNat)
    (fun c : Char => Framing.length_littleEndian Nat.digitChar 16 6 c.toNat) (List.cons.inj h).2
  refine List.map_injective_iff.mpr ?_ hblocks
  intro c d hcd
  have hbound : ∀ c : Char, c.toNat < 16 ^ 6 := by
    intro c
    rcases c.valid with hlow | ⟨_, hhigh⟩
    · exact Nat.lt_trans hlow (by decide)
    · exact Nat.lt_trans hhigh (by decide)
  have hnat := Framing.littleEndian_inj (by decide) digitChar_inj (hbound c) (hbound d) hcd
  exact Char.toNat_inj.mp hnat

theorem isHexDigit_digitChar : ∀ i < 16, isHexDigit (Nat.digitChar i) = true := by decide

theorem all_isHexDigit_littleEndian (width value : Nat) :
    (Framing.littleEndian Nat.digitChar 16 width value).all isHexDigit = true := by
  induction width generalizing value with
  | zero => rfl
  | succ width ih =>
    rw [Framing.littleEndian, List.all_cons, ih,
      isHexDigit_digitChar _ (Nat.mod_lt value (by decide))]
    rfl

def ofContents : Digest where
  hash := spelledOut
  injective := spelledOut_injective
  hex data := by
    rw [spelledOut, List.all_cons, List.all_flatMap]
    simp [all_isHexDigit_littleEndian, isHexDigit, isDigit]
  ne_nil data := List.cons_ne_nil _ _

end Digest

end Vcache

import Vcache.BlobRoundTrip

/-!
# The daemon's wire format

`Writer` appends numbers in little-endian bytes, strings behind their length and lists
behind their count. `Reader` checks every length against what is left, and a read that
fails puts the position behind the end of the data, where every read fails.
-/

namespace Vcache

open List

inductive FieldType where
  | u8
  | u64
  | str
  | strList

inductive WireField where
  | u8 (value : UInt8)
  | u64 (value : UInt64)
  | str (text : Str)
  | strList (list : List Str)
deriving DecidableEq

def WireField.type : WireField → FieldType
  | .u8 _ => .u8
  | .u64 _ => .u64
  | .str _ => .str
  | .strList _ => .strList

/-! ## Writing -/

/-- `Writer::U8` and `Writer::U64`. -/
def writeNumber (width value : ℕ) : Str := Framing.littleEndian Char.ofNat 256 width value

def writeStr (text : Str) : Str := writeNumber 8 text.length ++ text

def writeStrList (list : List Str) : Str := writeNumber 8 list.length ++ list.flatMap writeStr

def WireField.bytes : WireField → Str
  | .u8 value => writeNumber 1 value.toNat
  | .u64 value => writeNumber 8 value.toNat
  | .str text => writeStr text
  | .strList list => writeStrList list

/-! ## Reading -/

/-- `Reader::U8` and `Reader::U64`: the number, and the new `pos_`. -/
def readNumber (width : ℕ) (data : Str) (pos : ℕ) : Option ℕ × ℕ :=
  if pos + width > data.length then (none, data.length + 1)
  else (some (decodeU64 ((data.drop pos).take width)), pos + width)

def readStr (data : Str) (pos : ℕ) : Option Str × ℕ :=
  match readNumber 8 data pos with
  | (none, pos) => (none, pos)
  | (some len, pos) =>
    if len > data.length - pos then (none, data.length + 1)
    else (some ((data.drop pos).take len), pos + len)

/-- The loop of `Reader::StrList`; the list is its out parameter. -/
def readStrs (data : Str) : ℕ → ℕ → List Str → Bool × List Str × ℕ
  | 0, pos, list => (true, list, pos)
  | n + 1, pos, list =>
    match readStr data pos with
    | (none, pos) => (false, list, pos)
    | (some text, pos) => readStrs data n pos (list ++ [text])

def readStrList (data : Str) (pos : ℕ) (list : List Str) : Bool × List Str × ℕ :=
  match readNumber 8 data pos with
  | (none, pos) => (false, list, pos)
  | (some n, pos) =>
    if n > (data.length - pos) / 8 then (false, list, data.length + 1)
    else readStrs data n pos []

def readField : FieldType → Str → ℕ → Option WireField × ℕ
  | .u8, data, pos => (readNumber 1 data pos).map (.map (.u8 <| .ofNat ·)) id
  | .u64, data, pos => (readNumber 8 data pos).map (.map (.u64 <| .ofNat ·)) id
  | .str, data, pos => (readStr data pos).map (.map .str) id
  | .strList, data, pos =>
    match readStrList data pos [] with
    | (true, list, pos) => (some (.strList list), pos)
    | (false, _, pos) => (none, pos)

/-- Reads one after the other, whether they succeed or not. -/
def readFields (data : Str) : List FieldType → ℕ → List (Option WireField) × ℕ
  | [], pos => ([], pos)
  | type :: types, pos =>
    let (field, pos) := readField type data pos
    let (fields, pos) := readFields data types pos
    (field :: fields, pos)

/-! ## Arbitrary data -/

/-- A read of any data fails and poisons the reader, or it succeeds within the data, and what
stands behind does not matter. -/
def StaysInside {α : Type} (read : Str → ℕ → Option α × ℕ) : Prop :=
  ∀ data pos, read data pos = (none, data.length + 1) ∨ ∃ value next,
    read data pos = (some value, next) ∧ pos ≤ next ∧ next ≤ data.length ∧
      ∀ more, read (data ++ more) pos = (some value, next)

theorem StaysInside.map {α β : Type} {read : Str → ℕ → Option α × ℕ} (h : StaysInside read)
    (f : α → β) : StaysInside (fun data pos => (read data pos).map (.map f) id) := by
  intro data pos
  rcases h data pos with hfail | ⟨value, next, hread, hle, hbound, hmore⟩
  · exact .inl (by simp [hfail])
  · exact .inr ⟨f value, next, by simp [hread], hle, hbound, fun more => by simp [hmore]⟩

theorem take_drop_append {data more : Str} {pos n : ℕ} (h : pos + n ≤ data.length) :
    ((data ++ more).drop pos).take n = (data.drop pos).take n := by
  rw [drop_append_of_le_length (by omega), take_append_of_le_length (by simp; omega)]

theorem staysInside_readNumber (width : ℕ) : StaysInside (readNumber width) := by
  intro data pos
  by_cases hlong : pos + width > data.length
  · exact .inl (if_pos hlong)
  · refine .inr ⟨_, _, if_neg hlong, Nat.le_add_right .., Nat.not_lt.mp hlong, fun more => ?_⟩
    rw [readNumber, if_neg (by simp; omega), take_drop_append (by omega)]

theorem staysInside_readStr : StaysInside readStr := by
  intro data pos
  rcases staysInside_readNumber 8 data pos with hfail | ⟨len, next, hread, hle, hbound, hmore⟩
  · exact .inl (by rw [readStr, hfail])
  · simp only [readStr, hread, hmore]
    by_cases hlong : len > data.length - next
    · exact .inl (if_pos hlong)
    · refine .inr ⟨_, _, if_neg hlong, by omega, by omega, fun more => ?_⟩
      rw [if_neg (by simp; omega), take_drop_append (by omega)]

theorem staysInside_readStrs (data : Str) (n pos : ℕ) (list : List Str)
    (hpos : pos ≤ data.length) : (∃ partly, readStrs data n pos list =
      (false, partly, data.length + 1)) ∨ ∃ texts next,
    readStrs data n pos list = (true, texts, next) ∧ pos ≤ next ∧ next ≤ data.length ∧
      ∀ more, readStrs (data ++ more) n pos list = (true, texts, next) := by
  induction n generalizing pos list with
  | zero => exact .inr ⟨list, pos, rfl, le_rfl, hpos, fun _ => rfl⟩
  | succ n ih =>
    simp only [readStrs]
    rcases staysInside_readStr data pos with hfail | ⟨text, next, hread, hle, hbound, hmore⟩
    · exact .inl ⟨list, by rw [hfail]⟩
    · simp only [hread, hmore]
      rcases ih next (list ++ [text]) hbound with hfail | ⟨texts, last, heq, hlast, hend, hall⟩
      · exact .inl hfail
      · exact .inr ⟨texts, last, heq, hle.trans hlast, hend, hall⟩

theorem staysInside_readField (type : FieldType) : StaysInside (readField type) := by
  cases type with
  | u8 => exact (staysInside_readNumber 1).map _
  | u64 => exact (staysInside_readNumber 8).map _
  | str => exact staysInside_readStr.map _
  | strList =>
    intro data pos
    simp only [readField, readStrList]
    rcases staysInside_readNumber 8 data pos with hfail | ⟨n, next, hread, hle, hbound, hmore⟩
    · exact .inl (by rw [hfail])
    · simp only [hread, hmore]
      by_cases hmany : n > (data.length - next) / 8
      · exact .inl (by rw [if_pos hmany])
      · rw [if_neg hmany]
        rcases staysInside_readStrs data n next [] hbound with
          ⟨partly, hfail⟩ | ⟨texts, last, heq, hlast, hend, hall⟩
        · exact .inl (by rw [hfail])
        · refine .inr ⟨.strList texts, last, by rw [heq], hle.trans hlast, hend, fun more => ?_⟩
          rw [if_neg (by rw [length_append]; omega), hall]

theorem readFields_poisoned (data : Str) (types : List FieldType) :
    readFields data types (data.length + 1) =
      (replicate types.length none, data.length + 1) := by
  induction types with
  | nil => rfl
  | cons type types ih =>
    rcases staysInside_readField type data (data.length + 1) with hfail | ⟨_, _, _, hle, hbound, _⟩
    · rw [readFields, hfail]
      simp only [ih]
      rfl
    · omega

theorem readFields_cases (data : Str) (types : List FieldType) (pos : ℕ)
    (hpos : pos ≤ data.length) : ∃ fields : List WireField,
      (∃ next ≤ data.length, ∀ more, readFields (data ++ more) types pos =
        (fields.map some, next)) ∨
      fields.length < types.length ∧ readFields data types pos = (fields.map some ++
        replicate (types.length - fields.length) none, data.length + 1) ∧
        ∀ more, ∃ rest next, readFields (data ++ more) types pos =
          (fields.map some ++ rest, next) := by
  induction types generalizing pos with
  | nil => exact ⟨[], .inl ⟨pos, hpos, fun _ => rfl⟩⟩
  | cons type types ih =>
    rcases staysInside_readField type data pos with hfail | ⟨field, next, hread, -, hbound, hmore⟩
    · refine ⟨[], .inr ⟨by simp, ?_, fun more => ⟨_, _, rfl⟩⟩⟩
      rw [readFields, hfail]
      simp only [readFields_poisoned]
      rfl
    · obtain ⟨fields, hall | ⟨hshort, hfail, hfront⟩⟩ := ih next hbound
      · obtain ⟨last, hlast, hall⟩ := hall
        refine ⟨field :: fields, .inl ⟨last, hlast, fun more => ?_⟩⟩
        rw [readFields, hmore]
        simp only [hall]
        rfl
      · refine ⟨field :: fields, .inr ⟨by simpa using hshort, ?_, fun more => ?_⟩⟩
        · rw [readFields, hread]
          simp [hfail]
        · obtain ⟨rest, last, heq⟩ := hfront more
          refine ⟨rest, last, ?_⟩
          rw [readFields, hmore]
          simp only [heq]
          rfl

/-! ## Written data -/

theorem readNumber_written (width value : ℕ) (h : value < 256 ^ width) (front rest : Str) :
    readNumber width (front ++ (writeNumber width value ++ rest)) front.length =
      (some value, front.length + width) := by
  have hlen : (writeNumber width value).length = width := Framing.length_littleEndian ..
  rw [readNumber, if_neg (by simp [hlen]), drop_left, take_left' hlen, writeNumber,
    decodeU64_littleEndian, Nat.mod_eq_of_lt h]

theorem readStr_written (text : Str) (h : text.length < 2 ^ 64) (front rest : Str) :
    readStr (front ++ (writeStr text ++ rest)) front.length =
      (some text, front.length + (writeStr text).length) := by
  have hlen : (writeNumber 8 text.length).length = 8 := Framing.length_littleEndian ..
  rw [readStr, writeStr, append_assoc, readNumber_written 8 _ (by simpa using h)]
  simp only
  rw [if_neg (by simp [hlen]; omega), ← append_assoc, drop_left' (by simp [hlen]), take_left,
    length_append, hlen, Nat.add_assoc]

theorem readStrs_written {list : List Str} (h : ∀ text ∈ list, text.length < 2 ^ 64)
    (front rest : Str) (done : List Str) :
    readStrs (front ++ (list.flatMap writeStr ++ rest)) list.length front.length done =
      (true, done ++ list, front.length + (list.flatMap writeStr).length) := by
  induction list generalizing front done with
  | nil => simp [readStrs]
  | cons text list ih =>
    obtain ⟨htext, hlist⟩ := forall_mem_cons.mp h
    have hnext := ih hlist (front ++ writeStr text) (done ++ [text])
    rw [length_cons, readStrs, flatMap_cons, append_assoc, readStr_written text htext]
    simp only [length_append, append_assoc, singleton_append, Nat.add_assoc] at hnext ⊢
    exact hnext

theorem length_le_flatMap_writeStr (list : List Str) :
    8 * list.length ≤ (list.flatMap writeStr).length ∧
      ∀ text ∈ list, text.length ≤ (list.flatMap writeStr).length := by
  induction list with
  | nil => simp
  | cons text list ih =>
    have hlen : (writeStr text).length = 8 + text.length := by
      rw [writeStr, length_append, writeNumber, Framing.length_littleEndian]
    rw [flatMap_cons, length_append, length_cons, forall_mem_cons, hlen]
    refine ⟨by omega, by omega, fun other hother => ?_⟩
    have := ih.2 other hother
    omega

theorem readField_written {field : WireField} (h : field.bytes.length < 2 ^ 64) (front rest : Str) :
    readField field.type (front ++ (field.bytes ++ rest)) front.length =
      (some field, front.length + field.bytes.length) := by
  have hlen : ∀ width value, (writeNumber width value).length = width :=
    Framing.length_littleEndian _ _
  cases field with
  | u8 value =>
    simp only [readField, WireField.type, WireField.bytes, hlen,
      readNumber_written 1 _ value.toNat_lt]
    simp
  | u64 value =>
    simp only [readField, WireField.type, WireField.bytes, hlen,
      readNumber_written 8 value.toNat (by simpa using value.toNat_lt)]
    simp
  | str text =>
    simp only [WireField.bytes, writeStr, length_append] at h
    simp only [readField, WireField.type, WireField.bytes, readStr_written text (by omega)]
    simp
  | strList list =>
    obtain ⟨hcount, htexts⟩ := length_le_flatMap_writeStr list
    simp only [WireField.bytes, writeStrList, length_append] at h
    have hread := readStrs_written (fun text htext => by have := htexts text htext; omega)
      (front ++ writeNumber 8 list.length) rest []
    simp only [readField, WireField.type, WireField.bytes, readStrList, writeStrList, append_assoc,
      readNumber_written 8 list.length (by omega)]
    rw [if_neg (by simp only [length_append, hlen]; omega)]
    simp only [length_append, append_assoc, hlen, nil_append, Nat.add_assoc] at hread ⊢
    rw [hread]

theorem readFields_written {fields : List WireField}
    (h : (fields.flatMap WireField.bytes).length < 2 ^ 64) (front : Str) :
    readFields (front ++ fields.flatMap WireField.bytes) (fields.map WireField.type)
      front.length = (fields.map some, front.length + (fields.flatMap WireField.bytes).length) := by
  induction fields generalizing front with
  | nil => rfl
  | cons field fields ih =>
    rw [flatMap_cons, length_append] at h
    have hnext := ih (by omega) (front ++ field.bytes)
    rw [flatMap_cons, map_cons, readFields, readField_written (by omega)]
    simp only [length_append, append_assoc, Nat.add_assoc] at hnext ⊢
    rw [hnext]
    rfl

/-- Written fields are read back, a cut off text fails at some field and from there on, and reads
of arbitrary data stay inside it; a count that cannot be right leaves the list alone. -/
theorem wire_exact (fields : List WireField)
    (h : (fields.flatMap WireField.bytes).length < 2 ^ 64) :
    let bytes := fields.flatMap WireField.bytes
    let types := fields.map WireField.type
    readFields bytes types 0 = (fields.map some, bytes.length) ∧
    (∀ data, data <+: bytes → data ≠ bytes → ∃ i < fields.length,
      readFields data types 0 = ((fields.take i).map some ++
        replicate (fields.length - i) none, data.length + 1) ∧
      ∀ more, readFields data more (data.length + 1) =
        (replicate more.length none, data.length + 1)) ∧
    (∀ type, StaysInside (readField type)) ∧
    ∀ data pos list n next, readNumber 8 data pos = (some n, next) → data.length - next < n →
      readStrList data pos list = (false, list, data.length + 1) := by
  intro bytes types
  have hall : readFields bytes types 0 = (fields.map some, bytes.length) :=
    (readFields_written h []).trans (by rw [length_nil, Nat.zero_add])
  refine ⟨hall, ?_, staysInside_readField, ?_⟩
  · rintro data ⟨rest, heq⟩ hne
    rw [← heq] at hall
    obtain ⟨read, ⟨next, hnext, hread⟩ | ⟨hshort, hfail, hfront⟩⟩ :=
      readFields_cases data types 0 (Nat.zero_le _)
    · have hend : next = (data ++ rest).length :=
        congrArg Prod.snd ((hread rest).symm.trans hall)
      rw [length_append] at hend
      rw [length_eq_zero_iff.mp (show rest.length = 0 by omega), append_nil] at heq
      exact absurd heq hne
    · obtain ⟨others, next, hothers⟩ := hfront rest
      have hmap := congrArg Prod.fst (hothers.symm.trans hall)
      have hread : read = fields.take read.length := by
        have htake := congrArg (take read.length) hmap
        rw [take_left' (length_map _), ← map_take] at htake
        exact (map_inj_right (fun _ _ => Option.some.inj)).mp htake
      rw [length_map] at hshort hfail
      refine ⟨read.length, hshort, ?_, readFields_poisoned data⟩
      rw [← hread]
      exact hfail
  · intro data pos list n next hcount hmany
    have hle : (data.length - next) / 8 ≤ data.length - next := Nat.div_le_self ..
    rw [readStrList, hcount]
    exact if_pos (by omega)

/-- A kind, a size and two names. -/
theorem wire_exact_message :
    let fields : List WireField := [.u8 3, .u64 300, .strList ["ab".toList, []]]
    readFields (fields.flatMap WireField.bytes) [.u8, .u64, .strList] 0 =
      (fields.map some, 35) :=
  (wire_exact [.u8 3, .u64 300, .strList ["ab".toList, []]] (by decide)).1

end Vcache

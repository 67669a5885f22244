import Mathlib.Data.Char
import Mathlib.Data.List.Dedup
import Mathlib.Data.List.Lex
import Mathlib.Data.List.Sort

/-!
# Byte strings and the string helpers of `util/str`

A `std::string` is a list of characters, one per byte, so `length` is `size()`
and lexicographic order is byte order. The helpers below are the ones the path,
argument and key code is written with.
-/

namespace Vcache

open List

/-- A `std::string`: one `Char` per byte. -/
abbrev Str := List Char

/-- One name for the law that membership tests on texts are decided with. -/
instance lawfulBEqStr : LawfulBEq Str := inferInstance

def startsWith (s pre : Str) : Bool := pre.isPrefixOf s

def endsWith (s suffix : Str) : Bool := suffix.isSuffixOf s

/-- `std::isspace` in the C locale. -/
def isSpace (c : Char) : Bool := c == ' ' || ('\t' ≤ c && c ≤ '\r')

def isBlank (c : Char) : Bool := c == ' ' || c == '\t'

def isDigit (c : Char) : Bool := '0' ≤ c && c ≤ '9'

def trimWhitespace (s : Str) : Str :=
  ((s.dropWhile isSpace).reverse.dropWhile isSpace).reverse

/-- `Split` without `skip_empty`: the fields between the delimiters, empty ones
included, so that there is always at least one. -/
def split (delim : Char) : Str → List Str
  | [] => [[]]
  | c :: s =>
    if c = delim then [] :: split delim s
    else match split delim s with
      | [] => [[c]]
      | field :: fields => (c :: field) :: fields

def splitSkipEmpty (delim : Char) (s : Str) : List Str :=
  (split delim s).filter (fun field => !field.isEmpty)

def join (sep : Str) : List Str → Str
  | [] => []
  | [part] => part
  | part :: parts => part ++ sep ++ join sep parts

/-- `s.find(c)`. -/
def findChar (c : Char) (s : Str) : Option Nat := s.findIdx? (· == c)

/-- `s.find(needle) != npos`. -/
def contains (needle : Str) : Str → Bool
  | [] => needle.isEmpty
  | c :: s => startsWith (c :: s) needle || contains needle s

def findStr (needle : Str) : Str → Option Nat
  | [] => if needle = [] then some 0 else none
  | c :: s => if startsWith (c :: s) needle then some 0 else (findStr needle s).map (· + 1)

/-- `text.find(needle, pos)`. -/
def findFrom (text needle : Str) (pos : Nat) : Option Nat :=
  (findStr needle (text.drop pos)).map (· + pos)

/-- `std::to_string` of a non-negative number. -/
def toDecimal (n : Nat) : Str := Nat.toDigits 10 n

/-- `std::sort` and then `std::unique`. -/
def sortUnique (texts : List Str) : List Str := (texts.insertionSort (· ≤ ·)).dedup

@[simp] theorem mem_sortUnique {texts : List Str} {text : Str} :
    text ∈ sortUnique texts ↔ text ∈ texts := by
  rw [sortUnique, mem_dedup, mem_insertionSort]

theorem nodup_sortUnique (texts : List Str) : (sortUnique texts).Nodup := List.nodup_dedup _

theorem pairwise_sortUnique (texts : List Str) : (sortUnique texts).Pairwise (· < ·) := by
  have hsorted : (sortUnique texts).Pairwise (· ≤ ·) :=
    (pairwise_insertionSort (· ≤ ·) texts).sublist (dedup_sublist _)
  exact hsorted.imp₂ (fun _ _ hle hne => lt_of_le_of_ne hle hne) (nodup_sortUnique texts)

theorem sortUnique_congr {texts texts' : List Str} (h : ∀ text, text ∈ texts ↔ text ∈ texts') :
    sortUnique texts = sortUnique texts' :=
  (pairwise_sortUnique texts).eq_of_mem_iff (pairwise_sortUnique texts') (fun text => by
    rw [mem_sortUnique, mem_sortUnique, h])

variable {s : Str} {c delim : Char}

theorem startsWith_iff {pre : Str} : startsWith s pre = true ↔ ∃ t, s = pre ++ t := by
  rw [startsWith, isPrefixOf_iff_prefix]
  constructor
  · rintro ⟨t, ht⟩
    exact ⟨t, ht.symm⟩
  · rintro ⟨t, ht⟩
    exact ⟨t, ht.symm⟩

@[simp] theorem startsWith_append (pre t : Str) : startsWith (pre ++ t) pre = true :=
  startsWith_iff.mpr ⟨t, rfl⟩

theorem contains_iff {needle : Str} : contains needle s = true ↔ needle <:+: s := by
  induction s with
  | nil => simp [contains]
  | cons c s ih =>
    rw [contains, Bool.or_eq_true, ih, startsWith, isPrefixOf_iff_prefix, infix_cons_iff]

theorem findChar_eq_some {i : Nat} (h : findChar c s = some i) :
    s = s.take i ++ c :: s.drop (i + 1) ∧ c ∉ s.take i := by
  obtain ⟨hi, hc, hfirst⟩ := findIdx?_eq_some_iff_getElem.mp h
  constructor
  · rw [← (by simpa using hc : s[i] = c), getElem_cons_drop, take_append_drop]
  · intro hmem
    obtain ⟨j, hj, hjc⟩ := mem_take_iff_getElem.mp hmem
    exact hfirst j (by omega) (by simp [hjc])

theorem findChar_of_notMem (h : c ∉ s) : findChar c s = none := by
  rw [findChar, findIdx?_eq_none_iff]
  intro d hd
  exact beq_eq_false_iff_ne.mpr (fun heq => h (heq ▸ hd))

theorem findChar_append (h : c ∉ s) (t : Str) :
    findChar c (s ++ c :: t) = some s.length := by
  have hs := findChar_of_notMem h
  rw [findChar] at hs ⊢
  rw [findIdx?_append, hs, findIdx?_cons]
  simp

theorem infix_append_cons_iff {needle t : Str} (h : c ∉ needle) :
    needle <:+: s ++ c :: t ↔ needle <:+: s ∨ needle <:+: t := by
  constructor
  case mp =>
    rintro ⟨before, after, heq⟩
    rcases append_eq_append_iff.mp heq with ⟨rest, hs, -⟩ | ⟨rest, hbefore, hrest⟩
    · exact .inl ⟨before, rest, hs.symm⟩
    · rcases append_eq_append_iff.mp hbefore with ⟨tail, hs, hneedle⟩ | ⟨tail, -, htail⟩
      · cases rest with
        | nil => exact .inl ⟨before, [], by rw [hs, hneedle]; simp⟩
        | cons d rest =>
          obtain ⟨rfl, -⟩ := cons.inj hrest
          exact absurd (hneedle ▸ by simp) h
      · cases tail with
        | nil =>
          cases needle with
          | nil => exact .inr nil_infix
          | cons d needle =>
            rw [htail] at hrest
            obtain ⟨rfl, -⟩ := cons.inj hrest
            exact absurd mem_cons_self h
        | cons d tail =>
          rw [htail] at hrest
          obtain ⟨-, rfl⟩ := cons.inj hrest
          exact .inr ⟨tail, after, rfl⟩
  case mpr =>
    rintro (⟨before, after, rfl⟩ | ⟨before, after, rfl⟩)
    · exact ⟨before, after ++ c :: t, by simp⟩
    · exact ⟨s ++ c :: before, after, by simp⟩

theorem split_ne_nil (delim : Char) (s : Str) : split delim s ≠ [] := by
  cases s with
  | nil => simp [split]
  | cons c s =>
    rw [split]
    split
    · simp
    · split <;> simp

theorem split_delim (delim : Char) (s : Str) : split delim (delim :: s) = [] :: split delim s := by
  simp [split]

theorem split_cons (hc : c ≠ delim) {field : Str} {fields : List Str}
    (h : split delim s = field :: fields) : split delim (c :: s) = (c :: field) :: fields := by
  rw [split, if_neg hc, h]

theorem split_append (delim : Char) (s t : Str) :
    split delim (s ++ delim :: t) = split delim s ++ split delim t := by
  induction s with
  | nil => exact split_delim delim t
  | cons c s ih =>
    by_cases hc : c = delim
    · rw [hc, cons_append, split_delim, split_delim, ih, cons_append]
    · obtain ⟨field, fields, h⟩ := exists_cons_of_ne_nil (split_ne_nil delim s)
      rw [cons_append, split_cons hc h, split_cons hc (ih.trans (by rw [h, cons_append])),
        cons_append]

theorem split_of_notMem (h : delim ∉ s) : split delim s = [s] := by
  induction s with
  | nil => rfl
  | cons c s ih =>
    rw [mem_cons, not_or] at h
    exact split_cons (fun hc => h.1 hc.symm) (ih h.2)

theorem notMem_of_mem_split {field : Str} (h : field ∈ split delim s) :
    delim ∉ field := by
  induction s generalizing field with
  | nil =>
    rw [split, mem_singleton] at h
    simp [h]
  | cons c s ih =>
    by_cases hc : c = delim
    · rw [hc, split_delim, mem_cons] at h
      rcases h with rfl | h
      · simp
      · exact ih h
    · obtain ⟨first, fields, hsplit⟩ := exists_cons_of_ne_nil (split_ne_nil delim s)
      rw [split_cons hc hsplit, mem_cons] at h
      rcases h with rfl | h
      · rw [mem_cons, not_or]
        exact ⟨fun heq => hc heq.symm, ih (hsplit ▸ mem_cons_self)⟩
      · exact ih (hsplit ▸ mem_cons_of_mem _ h)

theorem splitSkipEmpty_lines {lines : List Str} (h : ∀ line ∈ lines, line ≠ [] ∧ '\n' ∉ line) :
    splitSkipEmpty '\n' (lines.flatMap (· ++ ['\n'])) = lines := by
  induction lines with
  | nil => rfl
  | cons line lines ih =>
    obtain ⟨hne, hline⟩ := h line mem_cons_self
    have hrest := ih (fun l hl => h l (mem_cons_of_mem _ hl))
    rw [splitSkipEmpty] at hrest
    rw [splitSkipEmpty, flatMap_cons, append_assoc, singleton_append,
      split_append, split_of_notMem hline, filter_append, hrest]
    simp [hne]

theorem toDecimal_injective : Function.Injective toDecimal := by
  intro m n h
  rw [← Nat.ofDigitChars_ten_toDigits (n := m), ← Nat.ofDigitChars_ten_toDigits (n := n)]
  exact congrArg (fun ds => Nat.ofDigitChars 10 ds 0) h

/-! ## Maps that can fail -/

theorem mem_of_mapM {α β : Type*} {f : α → Option β} {xs : List α} {ys : List β}
    (h : xs.mapM f = some ys) :
    (∀ x ∈ xs, ∃ y ∈ ys, f x = some y) ∧ ∀ y ∈ ys, ∃ x ∈ xs, f x = some y := by
  induction xs generalizing ys with
  | nil =>
    obtain rfl : [] = ys := by simpa using h
    simp
  | cons x xs ih =>
    rw [mapM_cons] at h
    obtain ⟨y, hy, h⟩ := Option.bind_eq_some_iff.mp h
    obtain ⟨ys', hys, h⟩ := Option.bind_eq_some_iff.mp h
    cases h
    obtain ⟨hforward, hback⟩ := ih hys
    constructor
    · intro z hz
      rcases mem_cons.mp hz with rfl | hz
      · exact ⟨y, mem_cons_self, hy⟩
      · obtain ⟨v, hv, hfv⟩ := hforward z hz
        exact ⟨v, mem_cons_of_mem _ hv, hfv⟩
    · intro v hv
      rcases mem_cons.mp hv with rfl | hv
      · exact ⟨x, mem_cons_self, hy⟩
      · obtain ⟨z, hz, hfz⟩ := hback v hv
        exact ⟨z, mem_cons_of_mem _ hz, hfz⟩

theorem forall_mem_concat {α : Type*} {xs : List α} {x : α} {P : α → Prop} :
    (∀ y ∈ xs ++ [x], P y) ↔ (∀ y ∈ xs, P y) ∧ P x := by
  rw [forall_mem_append, forall_mem_singleton]

theorem exists_mapM {α β : Type*} {f : α → Option β} {xs : List α}
    (h : ∀ x ∈ xs, ∃ y, f x = some y) : ∃ ys, xs.mapM f = some ys := by
  induction xs with
  | nil => exact ⟨[], rfl⟩
  | cons x xs ih =>
    obtain ⟨y, hy⟩ := h x mem_cons_self
    obtain ⟨ys, hys⟩ := ih (fun z hz => h z (mem_cons_of_mem _ hz))
    exact ⟨y :: ys, by rw [mapM_cons, hy, hys]; rfl⟩

theorem mapM_congr {α β : Type*} {f g : α → Option β} {xs : List α}
    (h : ∀ x ∈ xs, f x = g x) : xs.mapM f = xs.mapM g := by
  induction xs with
  | nil => rfl
  | cons x xs ih =>
    rw [mapM_cons, mapM_cons, h x mem_cons_self, ih (fun y hy => h y (mem_cons_of_mem _ hy))]

end Vcache

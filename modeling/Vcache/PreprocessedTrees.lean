import Vcache.Hasher
import Vcache.PreprocessedReads
import Vcache.RootRoundTrip

/-!
# Preprocessor output of two trees

Two trees are preprocessed, and the outputs differ in where the trees lie. What the
hasher gets is the same for both exactly when every path that was moved keeps the
separator after its root. A root `/` already ends in one, and its canonical target
does not.
-/

namespace Vcache

open List Option

variable {s lead number : Str} {lines lines' : List Str}

/-! ## The path in a line -/

/-- How a line enters the stream. -/
inductive LineShape where
  | plain
  | malformed
  | around (front path back : Str)

def markerShape (line : Str) : LineShape :=
  match line with
  | '#' :: s =>
    let number := s.dropWhile isBlank
    if number.takeWhile isDigit = [] then .plain
    else match (number.dropWhile isDigit).dropWhile isBlank with
      | '"' :: quoted =>
        match scanQuoted quoted with
        | none => .plain
        | some (raw, tail) =>
          .around (line.take (line.length - quoted.length)) (unescape raw) tail
      | _ => .plain
  | _ => .plain

def lineShape (line : Str) : LineShape :=
  if startsWith line kPchPragma then
    if line.length ≤ kPchPragma.length ∨ line.getLast? ≠ some '"' then .malformed
    else .around kPchPragma (line.drop kPchPragma.length).dropLast ['"']
  else markerShape line

/-- The path that a linemarker or a `pch_preprocess` pragma names. -/
def linePath (line : Str) : Option Str :=
  match lineShape line with
  | .around _ path _ => some path
  | _ => none

def LineShape.text (roots : RootMap) (line : Str) : LineShape → Option Str
  | .plain => some line
  | .malformed => none
  | .around front path back => some (front ++ escape (roots.canonicalize path) ++ back)

theorem markerShape_plain {line : Str} (h : ∀ s, line ≠ '#' :: s) : markerShape line = .plain := by
  unfold markerShape
  split
  next s => exact absurd rfl (h s)
  next => rfl

theorem normalizeLinemarker_plain (roots : RootMap) {line : Str} (h : ∀ s, line ≠ '#' :: s) :
    normalizeLinemarker roots line = line := by
  unfold normalizeLinemarker
  split
  next s => exact absurd rfl (h s)
  next => rfl

theorem markerShape_unquoted (h : ∀ quoted, (s.dropWhile isBlank).takeWhile isDigit = [] ∨
    ((s.dropWhile isBlank).dropWhile isDigit).dropWhile isBlank ≠ '"' :: quoted) :
    markerShape ('#' :: s) = .plain := by
  unfold markerShape
  simp only
  split
  next => rfl
  next hnumber =>
    split
    next quoted hquoted => exact absurd hquoted ((h quoted).resolve_left hnumber)
    next => rfl

theorem normalizeLinemarker_unquoted (roots : RootMap)
    (h : ∀ quoted, (s.dropWhile isBlank).takeWhile isDigit = [] ∨
      ((s.dropWhile isBlank).dropWhile isDigit).dropWhile isBlank ≠ '"' :: quoted) :
    normalizeLinemarker roots ('#' :: s) = '#' :: s := by
  unfold normalizeLinemarker
  simp only
  split
  next => rfl
  next hnumber =>
    split
    next quoted hquoted => exact absurd hquoted ((h quoted).resolve_left hnumber)
    next => rfl

theorem normalizeLinemarker_text (roots : RootMap) (line : Str) :
    (markerShape line).text roots line = some (normalizeLinemarker roots line) := by
  by_cases hhash : ∃ s, line = '#' :: s
  · obtain ⟨s, rfl⟩ := hhash
    by_cases hquote : ∃ quoted, (s.dropWhile isBlank).takeWhile isDigit ≠ [] ∧
        ((s.dropWhile isBlank).dropWhile isDigit).dropWhile isBlank = '"' :: quoted
    · obtain ⟨quoted, hnumber, hquoted⟩ := hquote
      simp only [markerShape, normalizeLinemarker, if_neg hnumber, hquoted]
      cases scanQuoted quoted <;> rfl
    · have hplain : ∀ quoted, (s.dropWhile isBlank).takeWhile isDigit = [] ∨
          ((s.dropWhile isBlank).dropWhile isDigit).dropWhile isBlank ≠ '"' :: quoted := by
        intro quoted
        by_contra hboth
        rw [not_or, not_not] at hboth
        exact hquote ⟨quoted, hboth⟩
      rw [markerShape_unquoted hplain, normalizeLinemarker_unquoted roots hplain]
      rfl
  · have hplain : ∀ s, line ≠ '#' :: s := fun s hs => hhash ⟨s, hs⟩
    rw [markerShape_plain hplain, normalizeLinemarker_plain roots hplain]
    rfl

theorem feedLine_text (roots : RootMap) (line : Str) :
    (feedLine roots line).map NormalizedText.text = (lineShape line).text roots line := by
  unfold feedLine lineShape
  split
  next =>
    split
    next => rfl
    next => rfl
  next =>
    split
    next => rw [map_some, normalizeLinemarker_text]
    next hhash =>
      have hplain : ∀ s, line ≠ '#' :: s := by
        rintro s rfl
        exact hhash rfl
      rw [markerShape_plain hplain]
      rfl

/-! ## Escaped text ends at the quote -/

theorem escape_cons (c : Char) (s : Str) :
    escape (c :: s) = (if c = '\\' ∨ c = '"' then ['\\', c] else [c]) ++ escape s := rfl

theorem unescape_escape (s : Str) : unescape (escape s) = s := by
  induction s with
  | nil => rfl
  | cons c s ih =>
    rw [escape_cons]
    split
    next => rw [cons_append, cons_append, nil_append, unescape, ih]
    next hc =>
      rw [not_or] at hc
      rw [singleton_append, unescape, ih]
      intro d rest hd
      exact absurd hd hc.1

theorem scanQuoted_escape (s tail : Str) :
    scanQuoted (escape s ++ '"' :: tail) = some (escape s, '"' :: tail) := by
  induction s with
  | nil => rfl
  | cons c s ih =>
    rw [escape_cons]
    split
    next =>
      simp only [cons_append, nil_append, scanQuoted, ih, map_some]
    next hc =>
      rw [not_or] at hc
      rw [singleton_append, cons_append, scanQuoted, ih]
      · rfl
      · exact fun _ _ h _ => hc.1 h
      · exact fun h _ => hc.1 h
      · exact hc.2

theorem selfDelimiting_escape :
    Framing.SelfDelimiting (fun _ => True) (fun s : Str => escape s ++ ['"']) := by
  intro x y s t _ _ h
  rw [append_assoc, append_assoc, singleton_append, singleton_append] at h
  have hx := scanQuoted_escape x s
  rw [h, scanQuoted_escape y t] at hx
  obtain ⟨hescape, hrest⟩ := Prod.mk.inj (some.inj hx)
  refine ⟨?_, (cons.inj hrest).2.symm⟩
  rw [← unescape_escape x, ← hescape, unescape_escape]

/-! ## Moving a tree -/

/-- The path `below` the root, or the root itself. -/
def beneath (root : Str) : Option Str → Str
  | none => root
  | some below => if root = ['/'] then '/' :: below else root ++ '/' :: below

/-- A path under its most specific root, and the same path under the corresponding root of the
other map; a path under no root stays. -/
inductive MovedPath (m m' : RootMap) : Str → Str → Prop where
  | moved {r r' : Root} {below : Option Str} (hr : m.rootOf (beneath r.path below) = some r)
      (hr' : m'.rootOf (beneath r'.path below) = some r') (htarget : r.canonical = r'.canonical) :
      MovedPath m m' (beneath r.path below) (beneath r'.path below)
  | outside {path : Str} (h : m.rootOf path = none) : MovedPath m m' path path

def linemarker (lead number gap path flags : Str) : Str :=
  '#' :: (lead ++ (number ++ (gap ++ '"' :: (escape path ++ '"' :: flags))))

def pchPragma (path : Str) : Str := kPchPragma ++ (path ++ ['"'])

/-- The lines of two trees: the same, up to a path that was moved. -/
inductive MovedLine (m m' : RootMap) : Str → Str → Prop where
  | same {line : Str} (h : ∀ path, linePath line = some path → m.rootOf path = none) :
      MovedLine m m' line line
  | marker {lead number gap path path' flags : Str} (hlead : lead.all isBlank = true)
      (hnumber : number.all isDigit = true) (hne : number ≠ []) (hgap : gap.all isBlank = true)
      (h : MovedPath m m' path path') :
      MovedLine m m' (linemarker lead number gap path flags)
        (linemarker lead number gap path' flags)
  | pragma {path path' : Str} (h : MovedPath m m' path path') :
      MovedLine m m' (pchPragma path) (pchPragma path')

theorem isDigit_not_blank {c : Char} (h : isBlank c = true) : isDigit c = false := by
  rw [isBlank, Bool.or_eq_true, beq_iff_eq, beq_iff_eq] at h
  rcases h with rfl | rfl <;> rfl

theorem dropWhile_of_head {p : Char → Bool} (h : ∀ c ∈ s.head?, p c = false) :
    s.dropWhile p = s := by
  cases s with
  | nil => rfl
  | cons c s => rw [dropWhile_cons_of_neg (by simp [h c rfl])]

theorem dropWhile_append {p : Char → Bool} {t : Str} (hs : s.all p = true)
    (ht : ∀ c ∈ t.head?, p c = false) : (s ++ t).dropWhile p = t := by
  rw [dropWhile_append_of_pos (by simpa using hs), dropWhile_of_head ht]

theorem startsWith_marker (rest : Str) (hlead : lead.all isBlank = true)
    (hnumber : number.all isDigit = true) (hne : number ≠ []) :
    startsWith ('#' :: (lead ++ (number ++ rest))) kPchPragma = false := by
  rw [Bool.eq_false_iff]
  intro hstart
  obtain ⟨after, hafter⟩ := startsWith_iff.mp hstart
  have hp : (lead ++ (number ++ rest)).head? = some 'p' := by
    rw [(cons.inj hafter).2]
    rfl
  cases lead with
  | nil =>
    obtain ⟨d, digits, rfl⟩ := exists_cons_of_ne_nil hne
    obtain rfl : d = 'p' := by simpa using hp
    simp [isDigit] at hnumber
  | cons b lead =>
    obtain rfl : b = 'p' := by simpa using hp
    simp [isBlank] at hlead

theorem marker_front {gap : Str} (quoted : Str) (hlead : lead.all isBlank = true)
    (hnumber : number.all isDigit = true) (hne : number ≠ []) (hgap : gap.all isBlank = true) :
    let s := lead ++ (number ++ (gap ++ '"' :: quoted))
    (s.dropWhile isBlank).takeWhile isDigit ≠ [] ∧
      ((s.dropWhile isBlank).dropWhile isDigit).dropWhile isBlank = '"' :: quoted := by
  obtain ⟨d, digits, rfl⟩ := exists_cons_of_ne_nil hne
  have hd : isDigit d = true := by
    rw [all_cons, Bool.and_eq_true] at hnumber
    exact hnumber.1
  have hdblank : isBlank d = false := by
    rw [Bool.eq_false_iff]
    intro hblank
    rw [isDigit_not_blank hblank] at hd
    cases hd
  have hnumberAt : (lead ++ (d :: digits ++ (gap ++ '"' :: quoted))).dropWhile isBlank =
      d :: digits ++ (gap ++ '"' :: quoted) := dropWhile_append hlead (by simp [hdblank])
  have hgapAt : (d :: digits ++ (gap ++ '"' :: quoted)).dropWhile isDigit =
      gap ++ '"' :: quoted := by
    refine dropWhile_append hnumber ?_
    cases gap with
    | nil => simp [isDigit]
    | cons b gap =>
      rw [all_cons, Bool.and_eq_true] at hgap
      simp [isDigit_not_blank hgap.1]
  have hquoteAt : (gap ++ '"' :: quoted).dropWhile isBlank = '"' :: quoted :=
    dropWhile_append hgap (by simp [isBlank])
  simp only [hnumberAt, hgapAt, hquoteAt]
  exact ⟨by simp [takeWhile_cons_of_pos hd], trivial⟩

theorem take_marker (lead number gap quoted : Str) :
    ('#' :: (lead ++ (number ++ (gap ++ '"' :: quoted)))).take
      (('#' :: (lead ++ (number ++ (gap ++ '"' :: quoted)))).length - quoted.length) =
        '#' :: (lead ++ (number ++ (gap ++ ['"']))) := by
  have hfront : '#' :: (lead ++ (number ++ (gap ++ '"' :: quoted))) =
      '#' :: (lead ++ (number ++ (gap ++ ['"']))) ++ quoted := by simp
  rw [hfront, length_append, Nat.add_sub_cancel, take_left']
  rfl

theorem lineShape_linemarker {gap : Str} (path flags : Str)
    (hlead : lead.all isBlank = true) (hnumber : number.all isDigit = true) (hne : number ≠ [])
    (hgap : gap.all isBlank = true) :
    lineShape (linemarker lead number gap path flags) =
      .around ('#' :: (lead ++ (number ++ (gap ++ ['"'])))) path ('"' :: flags) := by
  generalize hquoted : escape path ++ '"' :: flags = quoted
  obtain ⟨hnumberAt, hquoteAt⟩ := marker_front quoted hlead hnumber hne hgap
  have hmarker := startsWith_marker (gap ++ '"' :: quoted) hlead hnumber hne
  rw [lineShape, linemarker, hquoted, hmarker, if_neg (by simp), markerShape]
  simp only [hquoteAt, take_marker]
  rw [if_neg hnumberAt, ← hquoted, scanQuoted_escape]
  simp only [unescape_escape]

theorem lineShape_pchPragma (path : Str) :
    lineShape (pchPragma path) = .around kPchPragma path ['"'] := by
  have hlength : ¬ ((pchPragma path).length ≤ kPchPragma.length ∨
      (pchPragma path).getLast? ≠ some '"') := by
    rw [not_or, not_not]
    constructor
    · rw [pchPragma, length_append, length_append, length_singleton]
      omega
    · rw [pchPragma, ← append_assoc, getLast?_append_of_ne_nil _ (by simp)]
      rfl
  have hstart : startsWith (pchPragma path) kPchPragma = true := startsWith_append _ _
  rw [lineShape, if_pos hstart, if_neg hlength, pchPragma, drop_left, dropLast_concat]

/-- Of the same shape, up to a path that was moved. -/
inductive MovedShape (m m' : RootMap) (line line' : Str) : Prop where
  | plain (h : lineShape line = .plain) (heq : line' = line)
  | malformed (h : lineShape line = .malformed) (h' : lineShape line' = .malformed)
  | around {front path path' flags : Str} (h : lineShape line = .around front path ('"' :: flags))
      (h' : lineShape line' = .around front path' ('"' :: flags))
      (hpath : MovedPath m m' path path')

theorem scanQuoted_tail {raw tail : Str} (h : scanQuoted s = some (raw, tail)) :
    ∃ flags, tail = '"' :: flags := by
  induction s using scanQuoted.induct generalizing raw tail with
  | case1 c s ih =>
    rw [scanQuoted] at h
    obtain ⟨⟨raw', tail'⟩, hrest, heq⟩ := map_eq_some_iff.mp h
    cases heq
    exact ih hrest
  | case2 => cases h
  | case3 s =>
    rw [scanQuoted] at h
    cases h
    exact ⟨s, rfl⟩
  | case4 c s hescape hend hquote ih =>
    rw [scanQuoted] at h
    · obtain ⟨⟨raw', tail'⟩, hrest, heq⟩ := map_eq_some_iff.mp h
      cases heq
      exact ih hrest
    · exact hescape
    · exact hend
    · exact hquote
  | case5 => cases h

theorem exists_flags_of_lineShape {line front path back : Str}
    (h : lineShape line = .around front path back) : ∃ flags, back = '"' :: flags := by
  revert h
  fun_cases lineShape line
  next => nofun
  next =>
    rintro ⟨⟩
    exact ⟨[], rfl⟩
  next =>
    fun_cases markerShape line <;> intro h
    all_goals first
      | cases h
        done
      | obtain ⟨-, -, rfl⟩ := LineShape.around.inj h
        exact scanQuoted_tail ‹_›

variable {m m' : RootMap} {line line' : Str}

theorem MovedLine.shape (h : MovedLine m m' line line') : MovedShape m m' line line' := by
  cases h with
  | same h =>
    cases hshape : lineShape line with
    | plain => exact .plain hshape rfl
    | malformed => exact .malformed hshape hshape
    | around front path back =>
      obtain ⟨flags, rfl⟩ := exists_flags_of_lineShape hshape
      refine .around hshape hshape (.outside (h path ?_))
      rw [linePath, hshape]
  | marker hlead hnumber hne hgap hpath =>
    exact .around (lineShape_linemarker _ _ hlead hnumber hne hgap)
      (lineShape_linemarker _ _ hlead hnumber hne hgap) hpath
  | pragma hpath => exact .around (lineShape_pchPragma _) (lineShape_pchPragma _) hpath

/-! ## The two streams -/

/-- Both paths lie under their roots in the same way, or the roots are rewritten to
themselves. -/
def PathsLineUp (m m' : RootMap) (path path' : Str) : Prop :=
  match m.rootOf path, m'.rootOf path' with
  | some r, some r' => (path = r.path ∧ path' = r'.path) ∨ (r.path = ['/'] ↔ r'.path = ['/'])
  | none, some r' => r'.canonical = r'.path
  | _, none => True

theorem drop_beneath (root below : Str) :
    (beneath root (some below)).drop root.length =
      if root = ['/'] then below else '/' :: below := by
  rw [beneath]
  split
  next h => rw [h]; rfl
  next => rw [drop_left]

theorem beneath_eq_root_iff (root below : Str) :
    beneath root (some below) = root ↔ root = ['/'] ∧ below = [] := by
  rw [beneath]
  split
  next h => simp [h]
  next h => simp [h]

theorem MovedPath.canonicalize_eq_iff {path path' : Str} (h : MovedPath m m' path path') :
    m.canonicalize path = m'.canonicalize path' ↔ PathsLineUp m m' path path' := by
  cases h with
  | @moved r r' below hr hr' htarget =>
    rw [RootMap.canonicalize, RootMap.canonicalize, PathsLineUp, hr, hr']
    simp only [htarget, append_cancel_left_eq]
    cases below with
    | none => simp [beneath]
    | some below =>
      rw [drop_beneath, drop_beneath, beneath_eq_root_iff, beneath_eq_root_iff]
      by_cases hslash : r.path = ['/']
      · by_cases hslash' : r'.path = ['/']
        · simp [hslash, hslash']
        · simp [hslash, hslash']
      · by_cases hslash' : r'.path = ['/']
        · simp [hslash, hslash']
        · simp [hslash, hslash']
  | outside h =>
    rw [RootMap.canonicalize, RootMap.canonicalize, PathsLineUp, h]
    cases hr' : m'.rootOf path with
    | none => simp
    | some r' =>
      obtain ⟨-, hunder, -⟩ := RootMap.find?_reverse_roots hr'
      obtain ⟨rest, hpath, -⟩ := isUnder_iff.mp hunder
      simp only
      rw [hpath, drop_left]
      constructor
      · intro heq
        exact (append_cancel_right heq).symm
      · intro heq
        rw [heq]

/-- The paths in the two lines lie under their roots in the same way. -/
def LineUp (m m' : RootMap) (line line' : Str) : Prop :=
  ∀ path path', linePath line = some path → linePath line' = some path' →
    PathsLineUp m m' path path'

def lineText (roots : RootMap) (stop line : Str) : Str :=
  ((feedLine roots line).map (fun n => n.text ++ stop)).getD []

theorem lineText_eq (roots : RootMap) (stop line : Str) :
    lineText roots stop line =
      (((lineShape line).text roots line).map (· ++ stop)).getD [] := by
  rw [← feedLine_text, Option.map_map]
  rfl

/-- The stream up to a line and after it: equal when the line's paths line up and the rest is
equal, and only then. -/
theorem MovedLine.append_eq_iff (h : MovedLine m m' line line') (stop rest rest' : Str) :
    lineText m stop line ++ rest = lineText m' stop line' ++ rest' ↔
      LineUp m m' line line' ∧ rest = rest' := by
  rw [lineText_eq, lineText_eq]
  cases h.shape with
  | plain hshape heq =>
    rw [heq, hshape, LineUp, linePath, hshape]
    simp [LineShape.text]
  | malformed hshape hshape' =>
    rw [hshape, hshape', LineUp, linePath, hshape]
    simp [LineShape.text]
  | @around front path path' flags hshape hshape' hpath =>
    have hpaths : LineUp m m' line line' ↔ PathsLineUp m m' path path' := by
      rw [LineUp, linePath, hshape, linePath, hshape']
      constructor
      · intro hup
        exact hup path path' rfl rfl
      · intro hup p p' hp hp'
        cases hp
        obtain rfl := some.inj hp'
        exact hup
    rw [hshape, hshape', hpaths, ← hpath.canonicalize_eq_iff]
    simp only [LineShape.text, map_some, getD_some, append_assoc,
      append_cancel_left_eq, cons_append]
    constructor
    · intro heq
      have hcode := selfDelimiting_escape (m.canonicalize path) (m'.canonicalize path')
        (flags ++ (stop ++ rest)) (flags ++ (stop ++ rest')) trivial trivial (by simpa using heq)
      exact ⟨hcode.1, append_cancel_left (append_cancel_left hcode.2)⟩
    · rintro ⟨hcanonical, rfl⟩
      rw [hcanonical]

theorem MovedLine.isSome_eq (h : MovedLine m m' line line') :
    (feedLine m line).isSome = (feedLine m' line').isSome := by
  have htext : ∀ (roots : RootMap) (line : Str),
      (feedLine roots line).isSome = ((lineShape line).text roots line).isSome := by
    intro roots line
    rw [← feedLine_text, isSome_map]
  rw [htext, htext]
  cases h.shape with
  | plain hshape heq =>
    rw [heq, hshape]
    rfl
  | malformed hshape hshape' | around hshape hshape' hpath =>
    rw [hshape, hshape']
    rfl

theorem flatMap_append_eq_iff
    (h : List.Forall₂ (MovedLine m m') lines lines') (rest rest' : Str) :
    lines.flatMap (lineText m ['\n']) ++ rest = lines'.flatMap (lineText m' ['\n']) ++ rest' ↔
      List.Forall₂ (LineUp m m') lines lines' ∧ rest = rest' := by
  induction h with
  | nil => simp
  | cons hline hlines ih =>
    rw [flatMap_cons, flatMap_cons, append_assoc, append_assoc,
      hline.append_eq_iff, ih, forall₂_cons, and_assoc]

theorem all_isSome_eq (h : List.Forall₂ (MovedLine m m') lines lines') :
    lines.all (fun line => (feedLine m line).isSome) =
      lines'.all (fun line => (feedLine m' line).isSome) := by
  induction h with
  | nil => rfl
  | cons hline hlines ih => rw [all_cons, all_cons, hline.isSome_eq, ih]

def isMalformedPragma (line : Str) : Bool :=
  startsWith line kPchPragma &&
    (line.length ≤ kPchPragma.length || line.getLast? != some '"')

theorem isSome_feedLine (roots : RootMap) (line : Str) :
    (feedLine roots line).isSome = !isMalformedPragma line := by
  rw [isMalformedPragma]
  fun_cases feedLine roots line
  next hpragma hbad => rcases hbad with hbad | hbad <;> simp [hpragma, hbad]
  all_goals simp_all

theorem any_isMalformedPragma (roots : RootMap) (lines : List Str) :
    lines.any isMalformedPragma = !lines.all (fun line => (feedLine roots line).isSome) := by
  rw [not_all_eq_any_not]
  simp only [isSome_feedLine, Bool.not_not]

/-- The lines that are fed: all of them, but for a last one without newline after a malformed
pragma. -/
def fedLines (lines : List Str) : List Str :=
  if lines.dropLast.any isMalformedPragma then lines.dropLast else lines

theorem forall₂_concat_iff {R : Str → Str → Prop} {rest rest' : Str} :
    List.Forall₂ R (lines ++ [rest]) (lines' ++ [rest']) ↔
      List.Forall₂ R lines lines' ∧ R rest rest' := by
  rw [← forall₂_reverse_iff, reverse_append, reverse_append,
    reverse_singleton, reverse_singleton, singleton_append, singleton_append,
    forall₂_cons, forall₂_reverse_iff, and_comm]

/-- Two trees feed the hasher the same stream, however the files are read, exactly when in
every line that is fed the paths lie under their roots in the same way. -/
theorem fed_eq_iff_lineUp (m m' : RootMap) (blocks blocks' : List Str)
    (h : List.Forall₂ (MovedLine m m') (split '\n' blocks.flatten)
      (split '\n' blocks'.flatten)) :
    (hashNormalizedPreprocessedOutput m blocks false).fed =
        (hashNormalizedPreprocessedOutput m' blocks' false).fed ↔
      List.Forall₂ (LineUp m m') (fedLines (split '\n' blocks.flatten))
        (fedLines (split '\n' blocks'.flatten)) := by
  obtain ⟨lines, rest, hsplit, hfile⟩ := exists_wholeFile true m blocks
  obtain ⟨lines', rest', hsplit', hfile'⟩ := exists_wholeFile true m' blocks'
  rw [lineFed_collecting] at hfile hfile'
  rw [hsplit, hsplit'] at h ⊢
  obtain ⟨hlines, hrest⟩ := forall₂_concat_iff.mp h
  have hwell := all_isSome_eq hlines
  rw [hfile.fed, hfile'.fed, fedText, fedText]
  change lines.flatMap (lineText m ['\n']) ++ _ = lines'.flatMap (lineText m' ['\n']) ++ _ ↔ _
  rw [flatMap_append_eq_iff hlines, ← hwell, fedLines, fedLines, dropLast_concat,
    dropLast_concat, any_isMalformedPragma m, any_isMalformedPragma m', ← hwell]
  cases lines.all (fun line => (feedLine m line).isSome) with
  | false => simp
  | true =>
    have hlast := hrest.append_eq_iff [] [] []
    simp only [lineText, append_nil, and_true] at hlast
    rw [Bool.not_true, if_pos rfl, if_pos rfl, if_neg (by simp), if_neg (by simp),
      forall₂_concat_iff, ← hlast]

def srcTree (dir : String) : RootMap := fromSpecs bareHost [dir.toList ++ "=src".toList]

def markerOf (path : String) : Str :=
  linemarker " ".toList "1".toList " ".toList path.toList " 1".toList

theorem movedLine_marker {dir dir' path path' : String} (below : Str) {r r' : Root}
    (hpath : path.toList = beneath r.path (some below))
    (hpath' : path'.toList = beneath r'.path (some below))
    (hr : (srcTree dir).rootOf path.toList = some r)
    (hr' : (srcTree dir').rootOf path'.toList = some r') (htarget : r.canonical = r'.canonical) :
    MovedLine (srcTree dir) (srcTree dir') (markerOf path) (markerOf path') := by
  refine .marker rfl rfl (by decide) rfl ?_
  rw [hpath] at hr ⊢
  rw [hpath'] at hr' ⊢
  exact .moved hr hr' htarget

/-- `/w/a.c` and `/b/a.c`, read in other blocks. -/
theorem fed_eq_iff_lineUp_moved :
    (hashNormalizedPreprocessedOutput (srcTree "/w")
        ["# 1 \"/w".toList, "/a.c\" 1\nint x;".toList] false).fed =
      (hashNormalizedPreprocessedOutput (srcTree "/b") ["# 1 \"/b/a.c\" 1\n".toList,
        "int x;".toList] false).fed := by
  have hsplit : split '\n' ["# 1 \"/w".toList, "/a.c\" 1\nint x;".toList].flatten =
      [markerOf "/w/a.c", "int x;".toList] := by decide +kernel
  have hsplit' : split '\n' ["# 1 \"/b/a.c\" 1\n".toList, "int x;".toList].flatten =
      [markerOf "/b/a.c", "int x;".toList] := by decide +kernel
  have hr : (srcTree "/w").rootOf "/w/a.c".toList =
      some ⟨"/w".toList, "/vcache/src".toList⟩ := by decide +kernel
  have hr' : (srcTree "/b").rootOf "/b/a.c".toList =
      some ⟨"/b".toList, "/vcache/src".toList⟩ := by decide +kernel
  have hplain : linePath "int x;".toList = none := by decide +kernel
  refine (fed_eq_iff_lineUp (srcTree "/w") (srcTree "/b") _ _ ?_).mpr ?_
  · rw [hsplit, hsplit']
    refine .cons (movedLine_marker "a.c".toList ?_ ?_ hr hr' rfl) (.cons (.same ?_) .nil)
    · decide
    · decide
    · intro path hpath
      rw [hplain] at hpath
      cases hpath
  · have hpaths : linePath (markerOf "/w/a.c") = some "/w/a.c".toList ∧
        linePath (markerOf "/b/a.c") = some "/b/a.c".toList := by decide +kernel
    have hfed : fedLines [markerOf "/w/a.c", "int x;".toList] =
        [markerOf "/w/a.c", "int x;".toList] := by decide +kernel
    have hfed' : fedLines [markerOf "/b/a.c", "int x;".toList] =
        [markerOf "/b/a.c", "int x;".toList] := by decide +kernel
    rw [hsplit, hsplit', hfed, hfed']
    refine .cons ?_ (.cons ?_ .nil)
    · intro path path' hpath hpath'
      cases hpaths.1.symm.trans hpath
      cases hpaths.2.symm.trans hpath'
      rw [PathsLineUp, hr, hr']
      exact .inr (by decide)
    · intro path path' hpath
      rw [hplain] at hpath
      cases hpath

/-- The tree in `/` and the tree in `/b`: the first one's path loses its separator. -/
theorem fed_ne_of_slash_root :
    let fed := (hashNormalizedPreprocessedOutput (srcTree "/") [markerOf "/a.c"] false).fed
    let fed' := (hashNormalizedPreprocessedOutput (srcTree "/b") [markerOf "/b/a.c"] false).fed
    List.Forall₂ (MovedLine (srcTree "/") (srcTree "/b")) [markerOf "/a.c"] [markerOf "/b/a.c"] ∧
      fed = markerOf "/vcache/srca.c" ∧ fed' = markerOf "/vcache/src/a.c" ∧ fed ≠ fed' := by
  have hr : (srcTree "/").rootOf "/a.c".toList =
      some ⟨"/".toList, "/vcache/src".toList⟩ := by decide +kernel
  have hr' : (srcTree "/b").rootOf "/b/a.c".toList =
      some ⟨"/b".toList, "/vcache/src".toList⟩ := by decide +kernel
  refine ⟨.cons (movedLine_marker "a.c".toList ?_ ?_ hr hr' rfl) .nil, ?_⟩
  · decide
  · decide
  · decide +kernel

end Vcache

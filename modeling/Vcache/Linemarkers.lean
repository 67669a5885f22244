import Vcache.PreprocessedTrees

/-!
# Linemarkers as the compiler quotes them

A compiler writes the path of a linemarker as a C string: a backslash before a
backslash or a quote, `\n` and `\t`, and three octal digits for every other byte that is
not printable. `NormalizeLinemarker` finds the end of that string and unescapes it by
dropping backslashes (`core/preprocessed`), which reads the first kind of escape only.
-/

namespace Vcache

open List

variable {c : Char} {path : Str}

/-! ## The compiler's rule -/

def isPrintable (c : Char) : Bool := ' ' ≤ c && c ≤ '~'

def octalDigit (n : ℕ) : Char := Char.ofNat (48 + n)

def octalDigits (n : ℕ) : Str := [octalDigit (n / 64), octalDigit (n / 8 % 8), octalDigit (n % 8)]

def quoteByte (c : Char) : Str :=
  if c = '\\' ∨ c = '"' then ['\\', c]
  else if c = '\n' then ['\\', 'n']
  else if c = '\t' then ['\\', 't']
  else if isPrintable c then [c]
  else '\\' :: octalDigits c.toNat

def quotePath (path : Str) : Str := path.flatMap quoteByte

def isOctal (c : Char) : Bool := '0' ≤ c && c ≤ '7'

def octalValue (a b c : Char) : ℕ := (a.toNat - 48) * 64 + (b.toNat - 48) * 8 + (c.toNat - 48)

/-- Where a reader of a quoted string stands: between bytes, after a backslash, or after the
first or the second digit of an octal escape. -/
inductive QuoteState where
  | between
  | escaped
  | octal (a : Char)
  | octals (a b : Char)

def readFrom : QuoteState → Str → Option Str
  | .between, [] => some []
  | _, [] => none
  | .between, c :: s =>
    if c = '\\' then readFrom .escaped s else (readFrom .between s).map (c :: ·)
  | .escaped, c :: s =>
    if c = '\\' ∨ c = '"' then (readFrom .between s).map (c :: ·)
    else if c = 'n' then (readFrom .between s).map ('\n' :: ·)
    else if c = 't' then (readFrom .between s).map ('\t' :: ·)
    else if isOctal c then readFrom (.octal c) s
    else none
  | .octal a, c :: s => if isOctal c then readFrom (.octals a c) s else none
  | .octals a b, c :: s =>
    if isOctal c then (readFrom .between s).map (Char.ofNat (octalValue a b c) :: ·) else none

/-- The path a quoted string stands for; `none` for an escape the rule does not know. -/
def readQuoted (s : Str) : Option Str := readFrom .between s

def quotedText (line : Str) : Option Str :=
  match line with
  | '#' :: s =>
    let number := s.dropWhile isBlank
    if number.takeWhile isDigit = [] then none
    else match (number.dropWhile isDigit).dropWhile isBlank with
      | '"' :: quoted => (scanQuoted quoted).map Prod.fst
      | _ => none
  | _ => none

def markerPath (line : Str) : Option Str := (quotedText line).bind readQuoted

def markerLine (lead number gap quoted flags : Str) : Str :=
  '#' :: (lead ++ (number ++ (gap ++ '"' :: (quoted ++ '"' :: flags))))

/-! ## Reading what was quoted -/

theorem readQuoted_plain (h : c ≠ '\\') (s : Str) :
    readQuoted (c :: s) = (readQuoted s).map (c :: ·) := by
  rw [readQuoted, readFrom, if_neg h]
  rfl

theorem readQuoted_escaped (h : c = '\\' ∨ c = '"') (s : Str) :
    readQuoted ('\\' :: c :: s) = (readQuoted s).map (c :: ·) := by
  rw [readQuoted, readFrom, if_pos rfl, readFrom, if_pos h]
  rfl

theorem isOctal_octalDigit {n : ℕ} (h : n < 8) :
    isOctal (octalDigit n) = true ∧ (octalDigit n).toNat - 48 = n := by
  have hall : ∀ m < 8, isOctal (octalDigit m) = true ∧ (octalDigit m).toNat - 48 = m := by decide
  exact hall n h

theorem octal_ne (h : isOctal c = true) :
    ¬ (c = '\\' ∨ c = '"') ∧ c ≠ 'n' ∧ c ≠ 't' := by
  refine ⟨?_, ?_, ?_⟩
  · rintro (rfl | rfl)
    · cases h
    · cases h
  · rintro rfl
    cases h
  · rintro rfl
    cases h

theorem readQuoted_octal {n : ℕ} (h : n < 256) (s : Str) :
    readQuoted ('\\' :: (octalDigits n ++ s)) = (readQuoted s).map (Char.ofNat n :: ·) := by
  obtain ⟨hfirst, hfirst'⟩ := isOctal_octalDigit (show n / 64 < 8 by omega)
  obtain ⟨hsecond, hsecond'⟩ := isOctal_octalDigit (show n / 8 % 8 < 8 by omega)
  obtain ⟨hthird, hthird'⟩ := isOctal_octalDigit (show n % 8 < 8 by omega)
  obtain ⟨hescape, hn, ht⟩ := octal_ne hfirst
  have hvalue : octalValue (octalDigit (n / 64)) (octalDigit (n / 8 % 8)) (octalDigit (n % 8)) =
      n := by
    rw [octalValue, hfirst', hsecond', hthird']
    omega
  rw [octalDigits, cons_append, cons_append, cons_append, nil_append,
    readQuoted, readFrom, if_pos rfl, readFrom, if_neg hescape, if_neg hn, if_neg ht, if_pos hfirst,
    readFrom, if_pos hsecond, readFrom, if_pos hthird, hvalue]
  rfl

def IsPathByte (c : Char) : Prop := 0 < c.toNat ∧ c.toNat < 256

instance (c : Char) : Decidable (IsPathByte c) := inferInstanceAs (Decidable (_ ∧ _))

theorem readQuoted_quoteByte (h : IsPathByte c) (s : Str) :
    readQuoted (quoteByte c ++ s) = (readQuoted s).map (c :: ·) := by
  rw [quoteByte]
  split
  next hescape => exact readQuoted_escaped hescape s
  next hescape =>
    split
    next hc =>
      rw [hc]
      rfl
    next =>
      split
      next hc =>
        rw [hc]
        rfl
      next =>
        split
        next => exact readQuoted_plain (fun hc => hescape (.inl hc)) s
        next =>
          rw [cons_append, readQuoted_octal h.2, Char.ofNat_toNat]

theorem readQuoted_quotePath (h : ∀ c ∈ path, IsPathByte c) :
    readQuoted (quotePath path) = some path := by
  induction path with
  | nil => rfl
  | cons c path ih =>
    have hpath := ih (fun d hd => h d (mem_cons_of_mem _ hd))
    rw [quotePath, flatMap_cons, readQuoted_quoteByte (h c mem_cons_self)]
    rw [quotePath] at hpath
    rw [hpath, Option.map_some]

theorem readQuoted_escape (path : Str) : readQuoted (escape path) = some path := by
  induction path with
  | nil => rfl
  | cons c path ih =>
    rw [escape_cons]
    split
    next hc =>
      rw [cons_append, singleton_append, readQuoted_escaped hc, ih, Option.map_some]
    next hc =>
      rw [singleton_append, readQuoted_plain (fun h => hc (.inl h)), ih, Option.map_some]

/-! ## What `NormalizeLinemarker` makes of it -/

/-- A quoted byte as `Unescape` takes it. -/
def misreadByte (c : Char) : Str :=
  if c = '\n' then ['n']
  else if c = '\t' then ['t']
  else if isPrintable c then [c]
  else octalDigits c.toNat

def misreadPath (path : Str) : Str := path.flatMap misreadByte

theorem isPrintable_escaped (h : c = '\\' ∨ c = '"') :
    misreadByte c = [c] := by
  rcases h with rfl | rfl <;> rfl

theorem unescape_plain (h : c ≠ '\\') (s : Str) :
    unescape (c :: s) = c :: unescape s := by
  rw [unescape]
  intro d rest hd
  exact absurd hd h

theorem scanQuoted_plain (h : ¬ (c = '\\' ∨ c = '"')) (s : Str) :
    scanQuoted (c :: s) = (scanQuoted s).map (fun (raw, tail) => (c :: raw, tail)) := by
  rw [not_or] at h
  rw [scanQuoted]
  · exact fun _ _ hc _ => h.1 hc
  · exact fun hc _ => h.1 hc
  · exact h.2

theorem octalDigits_ne {n : ℕ} (h : n < 256) :
    ∀ c ∈ octalDigits n, ¬ (c = '\\' ∨ c = '"') := by
  have hdigit : ∀ m < 8, ¬ (octalDigit m = '\\' ∨ octalDigit m = '"') := fun m hm =>
    (octal_ne (isOctal_octalDigit hm).1).1
  intro c hc
  simp only [octalDigits, mem_cons, not_mem_nil, or_false] at hc
  rcases hc with rfl | rfl | rfl
  · exact hdigit _ (by omega)
  · exact hdigit _ (by omega)
  · exact hdigit _ (by omega)

theorem unescape_quoteByte (h : IsPathByte c) (s : Str) :
    unescape (quoteByte c ++ s) = misreadByte c ++ unescape s := by
  rw [quoteByte]
  split
  next hescape =>
    rw [isPrintable_escaped hescape]
    rfl
  next hescape =>
    rw [misreadByte]
    split
    next => rfl
    next =>
      split
      next => rfl
      next =>
        split
        next => exact unescape_plain (fun hc => hescape (.inl hc)) s
        next =>
          have hdigits := octalDigits_ne h.2
          rw [octalDigits] at hdigits ⊢
          simp only [mem_cons, not_mem_nil, or_false, forall_eq_or_imp, forall_eq]
            at hdigits
          rw [cons_append, cons_append, unescape, cons_append, cons_append,
            unescape_plain (fun hc => hdigits.2.1 (.inl hc)),
            unescape_plain (fun hc => hdigits.2.2 (.inl hc))]
          rfl

theorem unescape_quotePath (h : ∀ c ∈ path, IsPathByte c) :
    unescape (quotePath path) = misreadPath path := by
  induction path with
  | nil => rfl
  | cons c path ih =>
    have hpath := ih (fun d hd => h d (mem_cons_of_mem _ hd))
    rw [quotePath] at hpath ⊢
    rw [misreadPath] at hpath ⊢
    rw [flatMap_cons, unescape_quoteByte (h c mem_cons_self), hpath, flatMap_cons]

theorem scanQuoted_quoteByte (h : IsPathByte c) (s : Str) :
    scanQuoted (quoteByte c ++ s) =
      (scanQuoted s).map (fun (raw, tail) => (quoteByte c ++ raw, tail)) := by
  rw [quoteByte]
  split
  next => rfl
  next hescape =>
    split
    next => rfl
    next =>
      split
      next => rfl
      next =>
        split
        next => exact scanQuoted_plain hescape s
        next =>
          have hdigits := octalDigits_ne h.2
          rw [octalDigits] at hdigits ⊢
          simp only [mem_cons, not_mem_nil, or_false, forall_eq_or_imp, forall_eq]
            at hdigits
          rw [cons_append, cons_append, scanQuoted, cons_append, cons_append,
            scanQuoted_plain hdigits.2.1, scanQuoted_plain hdigits.2.2, nil_append]
          cases scanQuoted s <;> rfl

theorem scanQuoted_quotePath (h : ∀ c ∈ path, IsPathByte c) (flags : Str) :
    scanQuoted (quotePath path ++ '"' :: flags) = some (quotePath path, '"' :: flags) := by
  induction path with
  | nil => rfl
  | cons c path ih =>
    have hpath := ih (fun d hd => h d (mem_cons_of_mem _ hd))
    rw [quotePath] at hpath ⊢
    rw [flatMap_cons, append_assoc, scanQuoted_quoteByte (h c mem_cons_self), hpath]
    rfl

section Marker

variable {lead number gap : Str}

theorem normalizeLinemarker_markerLine (roots : RootMap) {quoted flags : Str}
    (hlead : lead.all isBlank = true) (hnumber : number.all isDigit = true) (hne : number ≠ [])
    (hgap : gap.all isBlank = true)
    (hclosed : scanQuoted (quoted ++ '"' :: flags) = some (quoted, '"' :: flags)) :
    normalizeLinemarker roots (markerLine lead number gap quoted flags) =
      markerLine lead number gap (escape (roots.canonicalize (unescape quoted))) flags := by
  obtain ⟨hnumberAt, hquoteAt⟩ :=
    marker_front (quoted ++ '"' :: flags) hlead hnumber hne hgap
  rw [markerLine, normalizeLinemarker]
  simp only [hquoteAt, take_marker]
  rw [if_neg hnumberAt, hclosed]
  simp [markerLine]

theorem quotedText_markerLine {quoted flags : Str} (hlead : lead.all isBlank = true)
    (hnumber : number.all isDigit = true) (hne : number ≠ []) (hgap : gap.all isBlank = true)
    (hclosed : scanQuoted (quoted ++ '"' :: flags) = some (quoted, '"' :: flags)) :
    quotedText (markerLine lead number gap quoted flags) = some quoted := by
  obtain ⟨hnumberAt, hquoteAt⟩ :=
    marker_front (quoted ++ '"' :: flags) hlead hnumber hne hgap
  rw [markerLine, quotedText]
  simp only [hquoteAt]
  rw [if_neg hnumberAt, hclosed]
  rfl

theorem markerPath_normalizeLinemarker (roots : RootMap) (flags : Str)
    (hlead : lead.all isBlank = true) (hnumber : number.all isDigit = true) (hne : number ≠ [])
    (hgap : gap.all isBlank = true) (hpath : ∀ c ∈ path, IsPathByte c) :
    markerPath (normalizeLinemarker roots (markerLine lead number gap (quotePath path) flags)) =
      some (roots.canonicalize (misreadPath path)) := by
  have hclosed := scanQuoted_quotePath hpath flags
  rw [normalizeLinemarker_markerLine roots hlead hnumber hne hgap hclosed,
    unescape_quotePath hpath, markerPath,
    quotedText_markerLine hlead hnumber hne hgap (scanQuoted_escape _ flags), Option.bind_some,
    readQuoted_escape]

end Marker

/-! ## Which paths are read as they were meant -/

def PrintablePath (path : Str) : Prop := ∀ c ∈ path, isPrintable c = true

instance (path : Str) : Decidable (PrintablePath path) :=
  List.decidableBAll (fun c => isPrintable c = true) path

theorem misreadByte_printable (h : isPrintable c = true) : misreadByte c = [c] := by
  have hn : c ≠ '\n' := by
    rintro rfl
    cases h
  have ht : c ≠ '\t' := by
    rintro rfl
    cases h
  rw [misreadByte, if_neg hn, if_neg ht, if_pos h]

theorem misreadPath_printable (h : PrintablePath path) : misreadPath path = path := by
  induction path with
  | nil => rfl
  | cons c path ih =>
    have hpath := ih (fun d hd => h d (mem_cons_of_mem _ hd))
    rw [misreadPath] at hpath ⊢
    rw [flatMap_cons, misreadByte_printable (h c mem_cons_self), hpath, singleton_append]

theorem isPrintable_of_isOctal (h : isOctal c = true) : isPrintable c = true := by
  rw [isOctal, Bool.and_eq_true, decide_eq_true_eq, decide_eq_true_eq] at h
  rw [isPrintable, Bool.and_eq_true, decide_eq_true_eq, decide_eq_true_eq]
  exact ⟨le_trans (by decide) h.1, le_trans h.2 (by decide)⟩

theorem printablePath_misreadPath (h : ∀ c ∈ path, IsPathByte c) :
    PrintablePath (misreadPath path) := by
  intro c hc
  obtain ⟨b, hb, hc⟩ := mem_flatMap.mp hc
  have hbyte := (h b hb).2
  have hdigit : ∀ m < 8, isPrintable (octalDigit m) = true := fun m hm =>
    isPrintable_of_isOctal (isOctal_octalDigit hm).1
  rw [misreadByte] at hc
  split_ifs at hc with hn ht hp
  · rw [mem_singleton.mp hc]
    rfl
  · rw [mem_singleton.mp hc]
    rfl
  · rwa [mem_singleton.mp hc]
  · simp only [octalDigits, mem_cons, not_mem_nil, or_false] at hc
    rcases hc with rfl | rfl | rfl
    · exact hdigit _ (by omega)
    · exact hdigit _ (by omega)
    · exact hdigit _ (by omega)

def PrintableRoots (roots : RootMap) : Prop :=
  ∀ r ∈ roots.roots, PrintablePath r.path ∧ PrintablePath r.canonical

/-- Printable roots neither add nor hide a byte that is not printable. -/
theorem PrintableRoots.canonicalize_iff {roots : RootMap} (h : PrintableRoots roots)
    (path : Str) : PrintablePath (roots.canonicalize path) ↔ PrintablePath path := by
  rw [RootMap.canonicalize]
  split
  next => rfl
  next r hr =>
    obtain ⟨hmem, hunder, -⟩ := RootMap.rootOf_eq_some hr
    obtain ⟨hroot, hcanonical⟩ := h r hmem
    obtain ⟨rest, rfl, -⟩ := isUnder_iff.mp hunder
    rw [drop_left]
    constructor
    · intro hpath c hc
      rcases mem_append.mp hc with hc | hc
      · exact hroot c hc
      · exact hpath c (mem_append_right _ hc)
    · intro hpath c hc
      rcases mem_append.mp hc with hc | hc
      · exact hcanonical c hc
      · exact hpath c (mem_append_right _ hc)

theorem PrintableRoots.canonicalize_misreadPath_iff {roots : RootMap} (h : PrintableRoots roots)
    (hpath : ∀ c ∈ path, IsPathByte c) :
    roots.canonicalize (misreadPath path) = roots.canonicalize path ↔ PrintablePath path := by
  constructor
  · intro heq
    have hmisread := (h.canonicalize_iff _).mpr (printablePath_misreadPath hpath)
    rw [heq] at hmisread
    exact (h.canonicalize_iff path).mp hmisread
  · intro hprintable
    rw [misreadPath_printable hprintable]

/-- A marker keeps naming its path exactly when the misread path has the same canonical one:
when all its bytes are printable, and for printable roots only then. -/
theorem markerPath_normalize_iff (lead number gap path flags : Str)
    (hlead : lead.all isBlank = true) (hnumber : number.all isDigit = true) (hne : number ≠ [])
    (hgap : gap.all isBlank = true) (hpath : ∀ c ∈ path, IsPathByte c) :
    let line := markerLine lead number gap (quotePath path) flags
    let reads (roots : RootMap) : Prop :=
      markerPath (normalizeLinemarker roots line) = some (roots.canonicalize path)
    markerPath line = some path ∧
      (∀ roots, reads roots ↔
        roots.canonicalize (misreadPath path) = roots.canonicalize path) ∧
      (∀ roots, PrintableRoots roots → (reads roots ↔ PrintablePath path)) ∧
      ((∀ roots, reads roots) ↔ PrintablePath path) := by
  intro line reads
  have hline : markerPath line = some path := by
    rw [markerPath, quotedText_markerLine hlead hnumber hne hgap (scanQuoted_quotePath hpath flags),
      Option.bind_some, readQuoted_quotePath hpath]
  have hreads : ∀ roots, reads roots ↔
      roots.canonicalize (misreadPath path) = roots.canonicalize path := by
    intro roots
    have hmarker := markerPath_normalizeLinemarker roots flags hlead hnumber hne hgap hpath
    change markerPath _ = _ ↔ _
    rw [hmarker, Option.some_inj]
  refine ⟨hline, hreads, ?_, ?_⟩
  · intro roots hroots
    rw [hreads, hroots.canonicalize_misreadPath_iff hpath]
  · constructor
    · intro hall
      have hempty : PrintableRoots (RootMap.sortRoots []) := fun r hr => absurd hr (by simp)
      exact (hempty.canonicalize_misreadPath_iff hpath).mp ((hreads _).mp (hall _))
    · intro hprintable roots
      rw [hreads, misreadPath_printable hprintable]

def srcRoots : RootMap := RootMap.sortRoots [⟨"/w".toList, "/v".toList⟩]

/-- Quotes and backslashes are read back. -/
theorem markerPath_normalize_iff_quotes :
    markerPath (normalizeLinemarker srcRoots (markerLine " ".toList "1".toList " ".toList
      (quotePath "/w/a\"\\b.c".toList) " 1".toList)) = some "/v/a\"\\b.c".toList := by
  have hiff := markerPath_normalize_iff " ".toList "1".toList " ".toList "/w/a\"\\b.c".toList
    " 1".toList (by decide) (by decide) (by decide) (by decide) (by simp [IsPathByte])
  exact hiff.2.2.2.mpr (by decide) srcRoots

/-- The byte `e9` is quoted as `\351` and read as `351`. -/
theorem markerPath_normalize_octal :
    let line := markerLine " ".toList "1".toList " ".toList
      (quotePath "/w/\xe9.c".toList) " 1".toList
    line = "# 1 \"/w/\\351.c\" 1".toList ∧ markerPath line = some "/w/\xe9.c".toList ∧
      normalizeLinemarker srcRoots line = "# 1 \"/v/351.c\" 1".toList ∧
      markerPath (normalizeLinemarker srcRoots line) ≠
        some (srcRoots.canonicalize "/w/\xe9.c".toList) := by
  decide +kernel

end Vcache

import Mathlib.Data.List.TakeWhile
import Vcache.Strings

/-!
# Artifact messages

rustc announces each output on stderr as a JSON message with the key `"artifact"`. The
message names the directory the compile wrote to: on a miss it is rewritten to the output
directory for the caller and to a placeholder for the stored entry, and a hit rewrites the
placeholder to its own output directory (`rust/rust_compile`). The scan goes on inside a
value it does not rewrite and behind the directory in one it does.
-/

namespace Vcache

open List

/-! ## The rewrite -/

/-- Stands for the output directory in what is stored. -/
def kOutDirPlaceholder : Str := "/vcache-outdir".toList

def lowerHexDigit (n : ℕ) : Char := "0123456789abcdef".toList.getD n '0'

def jsonEscape (c : Char) : Str :=
  if c = '"' then "\\\"".toList
  else if c = '\\' then "\\\\".toList
  else if c.toNat = 8 then "\\b".toList
  else if c.toNat = 12 then "\\f".toList
  else if c = '\n' then "\\n".toList
  else if c = '\r' then "\\r".toList
  else if c = '\t' then "\\t".toList
  else if c.toNat < 0x20 then
    "\\u00".toList ++ [lowerHexDigit (c.toNat / 16), lowerHexDigit (c.toNat % 16)]
  else [c]

def jsonDirPrefix (dir : Str) : Str :=
  (dir.reverse.dropWhile (· == '/')).reverse.flatMap jsonEscape ++ "/".toList

def kArtifact : Str := "\"artifact\"".toList

def splitOnText (needle : Str) : Str → Option (Str × Str)
  | [] => none
  | c :: s =>
    if startsWith (c :: s) needle then some ([], (c :: s).drop needle.length)
    else (splitOnText needle s).map (fun around => (c :: around.1, around.2))

def isJsonSpace (c : Char) : Bool := c == ' ' || c == '\t' || c == '\r' || c == '\n'

/-- What is read behind a key: the text that was passed, what is left, and whether a value's
opening quote is the last thing that was passed. A character that does not fit is passed too. -/
structure AfterKey where
  passed : Str
  rest : Str
  inValue : Bool
deriving DecidableEq

def passQuote (passed text : Str) : AfterKey :=
  match text.dropWhile isJsonSpace with
  | [] => ⟨passed ++ text.takeWhile isJsonSpace, [], false⟩
  | c :: rest => ⟨passed ++ text.takeWhile isJsonSpace ++ [c], rest, c = '"'⟩

def passColon (text : Str) : AfterKey :=
  match text.dropWhile isJsonSpace with
  | [] => ⟨text.takeWhile isJsonSpace, [], false⟩
  | c :: rest =>
    if c = ':' then passQuote (text.takeWhile isJsonSpace ++ [c]) rest
    else ⟨text.takeWhile isJsonSpace ++ [c], rest, false⟩

/-- The loop from a position on; each turn passes a key. -/
def rewriteLoop (fromPrefix toPrefix : Str) : ℕ → Str → Str
  | 0, text => text
  | fuel + 1, text => match splitOnText kArtifact text with
    | none => text
    | some (before, after) =>
      let key := passColon after
      if key.inValue && startsWith key.rest fromPrefix then
        before ++ kArtifact ++ key.passed ++ toPrefix ++
          rewriteLoop fromPrefix toPrefix fuel (key.rest.drop fromPrefix.length)
      else before ++ kArtifact ++ key.passed ++ rewriteLoop fromPrefix toPrefix fuel key.rest

def rewritePrefix (fromPrefix toPrefix text : Str) : Str :=
  rewriteLoop fromPrefix toPrefix text.length text

def rewriteArtifactDir (text source target : Str) : Str :=
  rewritePrefix (jsonDirPrefix source) (jsonDirPrefix target) text

/-! ## The first key -/

theorem startsWith_append_of_le {needle front : Str} (h : needle.length ≤ front.length)
    (rest : Str) : startsWith (front ++ rest) needle = startsWith front needle := by
  rw [Bool.eq_iff_iff, startsWith, startsWith, isPrefixOf_iff_prefix, isPrefixOf_iff_prefix]
  constructor
  · exact fun hneedle => prefix_of_prefix_length_le hneedle (prefix_append front rest) h
  · exact fun hneedle => hneedle.trans (prefix_append front rest)

theorem eq_of_splitOnText {needle text before after : Str}
    (h : splitOnText needle text = some (before, after)) : text = before ++ needle ++ after := by
  induction text generalizing before with
  | nil => cases h
  | cons c text ih =>
    rw [splitOnText] at h
    split at h
    · rename_i hstarts
      obtain ⟨rest, hrest⟩ := startsWith_iff.mp hstarts
      cases h
      rw [hrest, drop_left]
      rfl
    · obtain ⟨around, haround, heq⟩ := Option.map_eq_some_iff.mp h
      cases heq
      rw [ih haround]
      rfl

theorem splitOnText_replace {needle text before after : Str} (hne : needle ≠ [])
    (h : splitOnText needle text = some (before, after)) (after' : Str) :
    splitOnText needle (before ++ needle ++ after') = some (before, after') := by
  induction text generalizing before with
  | nil => cases h
  | cons c text ih =>
    have htext := eq_of_splitOnText h
    rw [splitOnText] at h
    split at h
    · cases h
      obtain ⟨d, needle, rfl⟩ := exists_cons_of_ne_nil hne
      rw [nil_append, cons_append, splitOnText, ← cons_append,
        if_pos (startsWith_append _ after'), drop_left]
    · rename_i hstarts
      obtain ⟨⟨before', after''⟩, haround, heq⟩ := Option.map_eq_some_iff.mp h
      cases heq
      have hlength : needle.length ≤ (c :: before' ++ needle).length := by
        rw [length_append]
        omega
      have hfront : startsWith (c :: before' ++ needle) needle = false := by
        rw [htext, startsWith_append_of_le hlength] at hstarts
        simpa using hstarts
      have hnot : ¬ startsWith (c :: (before' ++ needle ++ after')) needle = true := by
        have heq := startsWith_append_of_le hlength after'
        rw [hfront] at heq
        simpa using heq
      rw [cons_append, cons_append, splitOnText, if_neg hnot, ih haround]
      rfl

/-! ## Behind a key -/

theorem space_cases (text : Str) :
    (∀ c ∈ text, isJsonSpace c = true) ∨ ∃ spaces c rest, text = spaces ++ c :: rest ∧
      (∀ d ∈ spaces, isJsonSpace d = true) ∧ isJsonSpace c = false := by
  induction text with
  | nil => exact .inl (by simp)
  | cons c text ih =>
    by_cases hc : isJsonSpace c = true
    · rcases ih with hall | ⟨spaces, d, rest, rfl, hspaces, hd⟩
      · exact .inl (forall_mem_cons.mpr ⟨hc, hall⟩)
      · exact .inr ⟨c :: spaces, d, rest, rfl, forall_mem_cons.mpr ⟨hc, hspaces⟩, hd⟩
    · exact .inr ⟨[], c, text, rfl, by simp, by simpa using hc⟩

section Spaces

variable {spaces : Str} (hspaces : ∀ d ∈ spaces, isJsonSpace d = true) {c : Char}
  (hc : isJsonSpace c = false) (rest : Str)

include hspaces

theorem dropWhile_spaces : spaces.dropWhile isJsonSpace = [] :=
  dropWhile_eq_nil_iff.mpr hspaces

theorem takeWhile_spaces : spaces.takeWhile isJsonSpace = spaces :=
  takeWhile_eq_self_iff.mpr hspaces

include hc

theorem dropWhile_spaces_append : (spaces ++ c :: rest).dropWhile isJsonSpace = c :: rest := by
  rw [dropWhile_append_of_pos hspaces, dropWhile_cons_of_neg (by simp [hc])]

theorem takeWhile_spaces_append : (spaces ++ c :: rest).takeWhile isJsonSpace = spaces := by
  rw [takeWhile_append_of_pos hspaces, takeWhile_cons_of_neg (by simp [hc]),
    append_nil]

end Spaces

def OpensValue (passed : Str) : Prop :=
  ∃ spaces₁ spaces₂ : Str, passed = spaces₁ ++ ':' :: spaces₂ ++ ['"'] ∧
    (∀ c ∈ spaces₁, isJsonSpace c = true) ∧ ∀ c ∈ spaces₂, isJsonSpace c = true

/-- Either the text ends behind the key, or what is passed does not depend on what is left. -/
theorem passColon_cases (text : Str) :
    passColon text = ⟨text, [], false⟩ ∨
    ∃ passed rest inValue, text = passed ++ rest ∧
      (∀ more, passColon (passed ++ more) = ⟨passed, more, inValue⟩) ∧
      (inValue = true → OpensValue passed) := by
  rcases space_cases text with hall | ⟨spaces, c, rest, rfl, hspaces, hc⟩
  · left
    rw [passColon, dropWhile_spaces hall, takeWhile_spaces hall]
  · by_cases hcolon : c = ':'
    · subst hcolon
      have hpass (more : Str) : passColon (spaces ++ ':' :: more) =
          passQuote (spaces ++ [':']) more := by
        rw [passColon, dropWhile_spaces_append hspaces hc, takeWhile_spaces_append hspaces hc]
        rfl
      rcases space_cases rest with hall | ⟨spaces', d, rest, rfl, hspaces', hd⟩
      · left
        rw [hpass, passQuote, dropWhile_spaces hall, takeWhile_spaces hall]
        simp
      · refine .inr ⟨spaces ++ ':' :: spaces' ++ [d], rest, d = '"', by simp, ?_, ?_⟩
        · intro more
          have hmore : spaces ++ ':' :: spaces' ++ [d] ++ more =
              spaces ++ ':' :: (spaces' ++ d :: more) := by simp
          rw [hmore, hpass, passQuote, dropWhile_spaces_append hspaces' hd,
            takeWhile_spaces_append hspaces' hd]
          simp
        · intro hquote
          obtain rfl : d = '"' := by simpa using hquote
          exact ⟨spaces, spaces', rfl, hspaces, hspaces'⟩
    · refine .inr ⟨spaces ++ [c], rest, false, by simp, ?_, by simp⟩
      intro more
      have hmore : spaces ++ [c] ++ more = spaces ++ c :: more := by simp
      rw [hmore, passColon, dropWhile_spaces_append hspaces hc, takeWhile_spaces_append hspaces hc]
      simp only [if_neg hcolon]

theorem length_passColon_rest (text : Str) : (passColon text).rest.length ≤ text.length := by
  rcases passColon_cases text with h | ⟨passed, rest, inValue, rfl, h, -⟩
  · rw [h]
    exact Nat.zero_le _
  · rw [h rest, length_append]
    exact Nat.le_add_left _ _

/-! ## One turn -/

section Turn

variable {p q text before after : Str}

theorem rewriteLoop_enough {n m : ℕ} (hn : text.length ≤ n) (hm : text.length ≤ m) :
    rewriteLoop p q n text = rewriteLoop p q m text := by
  induction n generalizing m text with
  | zero =>
    obtain rfl := length_eq_zero_iff.mp (Nat.le_zero.mp hn)
    cases m <;> rfl
  | succ n ih =>
    cases m with
    | zero =>
      obtain rfl := length_eq_zero_iff.mp (Nat.le_zero.mp hm)
      rfl
    | succ m =>
      rw [rewriteLoop, rewriteLoop]
      cases hsplit : splitOnText kArtifact text with
      | none => rfl
      | some around =>
        obtain ⟨before, after⟩ := around
        have hlength := congrArg length (eq_of_splitOnText hsplit)
        have hkey : kArtifact.length = 10 := rfl
        have hrest := length_passColon_rest after
        rw [length_append, length_append, hkey] at hlength
        have hdrop : ((passColon after).rest.drop p.length).length ≤ after.length := by
          rw [length_drop]
          omega
        simp only
        rw [ih (m := m) (by omega) (by omega), ih (m := m) (by omega) (by omega)]

theorem rewritePrefix_none (h : splitOnText kArtifact text = none) :
    rewritePrefix p q text = text := by
  rw [rewritePrefix]
  cases text.length with
  | zero => rfl
  | succ n => rw [rewriteLoop, h]

theorem rewritePrefix_some (h : splitOnText kArtifact text = some (before, after)) :
    rewritePrefix p q text =
      if (passColon after).inValue && startsWith (passColon after).rest p then
        before ++ kArtifact ++ (passColon after).passed ++ q ++
          rewritePrefix p q ((passColon after).rest.drop p.length)
      else before ++ kArtifact ++ (passColon after).passed ++
        rewritePrefix p q (passColon after).rest := by
  have hlength := congrArg length (eq_of_splitOnText h)
  have hkey : kArtifact.length = 10 := rfl
  have hrest := length_passColon_rest after
  rw [length_append, length_append, hkey] at hlength
  have hdrop : ((passColon after).rest.drop p.length).length ≤ after.length := by
    rw [length_drop]
    omega
  obtain ⟨n, hn⟩ : ∃ n, text.length = n + 1 := ⟨text.length - 1, by omega⟩
  rw [rewritePrefix, hn, rewriteLoop, h]
  simp only
  rw [rewritePrefix, rewritePrefix, rewriteLoop_enough (by omega) le_rfl,
    rewriteLoop_enough (n := n) (by omega) le_rfl]

theorem rewritePrefix_turn (h : splitOnText kArtifact text = some (before, after))
    {passed more : Str} {inValue : Bool}
    (hkey : passColon (passed ++ more) = ⟨passed, more, inValue⟩) :
    rewritePrefix p q (before ++ kArtifact ++ (passed ++ more)) =
      if inValue && startsWith more p then
        before ++ kArtifact ++ passed ++ q ++ rewritePrefix p q (more.drop p.length)
      else before ++ kArtifact ++ passed ++ rewritePrefix p q more := by
  rw [rewritePrefix_some (splitOnText_replace (by decide) h (passed ++ more)), hkey]

theorem rewritePrefix_nil : rewritePrefix p q [] = [] := rfl

theorem startsWith_of_rewritePrefix {r : Str} (hr : '"' ∉ r)
    (h : startsWith (rewritePrefix p q text) r = true) : startsWith text r = true := by
  cases hsplit : splitOnText kArtifact text with
  | none => rwa [rewritePrefix_none hsplit] at h
  | some around =>
    obtain ⟨before, after⟩ := around
    have hfront : ∃ rest, rewritePrefix p q text = before ++ '"' :: rest := by
      rw [rewritePrefix_some hsplit]
      split
      · exact ⟨_, by simp only [append_assoc]; rfl⟩
      · exact ⟨_, by simp only [append_assoc]; rfl⟩
    obtain ⟨rest, hrest⟩ := hfront
    rw [hrest] at h
    obtain ⟨tail, htail⟩ := startsWith_iff.mp h
    have hbefore : startsWith before r = true := by
      rcases append_eq_append_iff.mp htail with ⟨more, hmore, hquote⟩ | ⟨more, hmore, -⟩
      · cases more with
        | nil => exact startsWith_iff.mpr ⟨[], by rw [hmore, append_nil, append_nil]⟩
        | cons c more =>
          obtain ⟨rfl, -⟩ := cons.inj hquote
          exact absurd (hmore ▸ mem_append_right _ mem_cons_self) hr
      · exact startsWith_iff.mpr ⟨more, hmore⟩
    obtain ⟨tail', rfl⟩ := startsWith_iff.mp hbefore
    rw [eq_of_splitOnText hsplit, append_assoc, append_assoc]
    exact startsWith_append _ _

end Turn

/-! ## Two rewrites -/

/-- No value of an artifact key starts with the text. -/
def ArtifactFree (r text : Str) : Prop :=
  ∀ before passed value, text = before ++ kArtifact ++ passed ++ value → OpensValue passed →
    startsWith value r = false

theorem ArtifactFree.of_append {r front text : Str} (h : ArtifactFree r (front ++ text)) :
    ArtifactFree r text := by
  intro before passed value heq hpassed
  exact h (front ++ before) passed value (by rw [heq]; simp only [append_assoc]) hpassed

/-- Going through a directory no value names is going to the target at once. -/
theorem rewritePrefix_twice {p q r text : Str} (hr : '"' ∉ r) (hfree : ArtifactFree r text) :
    rewritePrefix r q (rewritePrefix p r text) = rewritePrefix p q text := by
  induction hlength : text.length using Nat.strong_induction_on generalizing text with
  | h length ih =>
    cases hsplit : splitOnText kArtifact text with
    | none => rw [rewritePrefix_none hsplit, rewritePrefix_none hsplit, rewritePrefix_none hsplit]
    | some around =>
      obtain ⟨before, after⟩ := around
      have htext := eq_of_splitOnText hsplit
      have hkey : kArtifact.length = 10 := rfl
      rcases passColon_cases after with hend | ⟨passed, rest, inValue, rfl, hpass, hopens⟩
      · -- The text ends behind the key.
        have hself (p q : Str) : rewritePrefix p q text = text := by
          rw [rewritePrefix_some hsplit, hend, htext]
          simp [rewritePrefix_nil]
        rw [hself, hself, hself]
      · have hshort : rest.length < length := by
          have h := congrArg List.length htext
          rw [List.length_append, List.length_append, List.length_append, hkey, hlength] at h
          omega
        have hfront : text = before ++ kArtifact ++ passed ++ rest := by
          rw [htext, List.append_assoc, List.append_assoc, List.append_assoc]
        have hrest : ArtifactFree r rest := (hfront ▸ hfree).of_append
        have hturn (p q more : Str) := rewritePrefix_turn (p := p) (q := q) hsplit (hpass more)
        by_cases hmatch : (inValue && startsWith rest p) = true
        · have hdrop : ArtifactFree r (rest.drop p.length) := by
            rw [← List.take_append_drop p.length rest] at hrest
            exact hrest.of_append
          have hdropped := ih _ (by rw [length_drop]; omega) hdrop rfl
          have hthere : (inValue && startsWith (r ++ rewritePrefix p r (rest.drop p.length)) r) =
              true := by
            rw [Bool.and_eq_true] at hmatch ⊢
            exact ⟨hmatch.1, startsWith_append _ _⟩
          rw [htext, hturn, hturn, if_pos hmatch, if_pos hmatch]
          simp only [append_assoc] at hturn ⊢
          rw [hturn, if_pos hthere, drop_left, hdropped]
        · have hnot : ¬ (inValue && startsWith (rewritePrefix p r rest) r) = true := by
            rw [Bool.and_eq_true]
            rintro ⟨hvalue, hstarts⟩
            have hno := hfree before passed rest hfront (hopens hvalue)
            rw [startsWith_of_rewritePrefix hr hstarts] at hno
            cases hno
          rw [htext, hturn, hturn, if_neg hmatch, if_neg hmatch]
          simp only [append_assoc] at hturn ⊢
          rw [hturn, if_neg hnot, ih _ hshort hrest rfl]

/-- Rewriting to the placeholder for the entry and from it at a hit gives the text the caller
of the compile got. -/
theorem rewriteArtifactDir_stored (text stage outDir : Str)
    (hfree : ArtifactFree (jsonDirPrefix kOutDirPlaceholder) text) :
    rewriteArtifactDir (rewriteArtifactDir text stage kOutDirPlaceholder) kOutDirPlaceholder
      outDir = rewriteArtifactDir text stage outDir :=
  rewritePrefix_twice (by decide) hfree

theorem artifactFree_of_not_contains {r text : Str} (h : contains r text = false) :
    ArtifactFree r text := by
  intro before passed value heq _
  rw [Bool.eq_false_iff]
  intro hstarts
  obtain ⟨rest, rfl⟩ := startsWith_iff.mp hstarts
  have hinfix : contains r text = true :=
    contains_iff.mpr ⟨before ++ kArtifact ++ passed, rest, by rw [heq, append_assoc]⟩
  rw [h] at hinfix
  cases hinfix

/-- Two messages, one of a file elsewhere whose name holds a key of its own. -/
theorem rewriteArtifactDir_stored_two :
    let text := "\x7b\"artifact\": \"/tmp/s/out/a.rlib\"\x7d\n".toList ++
      "\x7b\"artifact\":\"\"artifact\"\x7d".toList
    let outDir := "target/debug/".toList
    rewriteArtifactDir (rewriteArtifactDir text "/tmp/s/out".toList kOutDirPlaceholder)
        kOutDirPlaceholder outDir = rewriteArtifactDir text "/tmp/s/out".toList outDir ∧
      rewriteArtifactDir text "/tmp/s/out".toList outDir =
        "\x7b\"artifact\": \"target/debug/a.rlib\"\x7d\n".toList ++
          "\x7b\"artifact\":\"\"artifact\"\x7d".toList :=
  ⟨rewriteArtifactDir_stored _ _ _ (artifactFree_of_not_contains (by decide +kernel)),
    by decide +kernel⟩

end Vcache

import Vcache.LinkArgs

/-!
# Linker options behind a driver

A driver passes `-Wl,a,b` on as `a` and `b`, and `-Xlinker a` as `a`, so one linker command
can be grouped in many ways. `ParseLink` looks at one group at a time. It sees every
option exactly if no group hides one: a group with an option that writes a file holds that
option and nothing else but its file, and a random build id stands alone somewhere.
-/

namespace Vcache

open List Option

variable {flag file first : Str}

/-! ## What the linker reads -/

def joinedFile? (arg : Str) : Option Str :=
  if forwardedSideOutputPrefixes.any (startsWith arg) then some (afterFirst '=' arg) else none

/-- The files that options among the linker's arguments name, and whether the last option
lacks its file. `waiting` says that there is an option in front of the arguments. -/
def sideFiles : Bool → List Str → List Str × Bool
  | waiting, [] => ([], waiting)
  | true, arg :: args => (arg :: (sideFiles false args).1, (sideFiles false args).2)
  | false, arg :: args =>
    if arg ∈ sideOutputFlags then sideFiles true args
    else ((joinedFile? arg).toList ++ (sideFiles false args).1, (sideFiles false args).2)

def wordArgs (a : Str) : List Str :=
  if startsWith a "-Wl,".toList then split ',' (a.drop 4) else [a]

/-- The words behind `-Xlinker`: one argument, and the file of an option that needs one if it
stands behind an `-Xlinker` of its own. -/
def xlinkerGroup : List Str → Option (List Str × List Str)
  | [] => none
  | arg :: again :: path :: rest =>
    if arg ∈ sideOutputFlags ∧ again = xlinkerFlag then some ([arg, path], rest)
    else some ([arg], again :: path :: rest)
  | arg :: rest => some ([arg], rest)

/-- The arguments that the driver passes on for the word `a`, with the words left; `none` if
the word lacks its value. The values of `-o` and `-T` are no options, and a linker that is
called directly takes the word behind `-Map` as it is. -/
def nextLinkerGroup (a : Str) (rest : List Str) : Option (List Str × List Str) :=
  if a = "-o".toList ∨ a = "-T".toList then
    match rest with
    | [] => none
    | _ :: rest' => some ([], rest')
  else if a ∈ sideOutputFlags ∧ rest ≠ [] then some ([a, rest.headD []], rest.tail)
  else if a = xlinkerFlag then xlinkerGroup rest
  else some (wordArgs a, rest)

def linkerGroupsFuel : ℕ → List Str → Option (List (List Str))
  | 0, _ => some []
  | _ + 1, [] => some []
  | turns + 1, a :: rest =>
    match nextLinkerGroup a rest with
    | none => none
    | some (group, rest') => (linkerGroupsFuel turns rest').map (group :: ·)

/-- The linker's arguments as the words of a command group them. -/
def linkerGroups (words : List Str) : Option (List (List Str)) :=
  linkerGroupsFuel words.length words

/-- A group without an option that names a file, or with one such option and its file only. -/
def OptionsApart (group : List Str) : Prop :=
  (∀ arg ∈ group, arg ∉ sideOutputFlags ∧ joinedFile? arg = none) ∨
    (∃ arg file, group = [arg] ∧ joinedFile? arg = some file) ∨
    ∃ flag ∈ sideOutputFlags, ∃ file, group = [flag, file]

/-! ## Reading -/

theorem sideFiles_append (waiting : Bool) (args more : List Str) :
    sideFiles waiting (args ++ more) =
      ((sideFiles waiting args).1 ++ (sideFiles (sideFiles waiting args).2 more).1,
        (sideFiles (sideFiles waiting args).2 more).2) := by
  induction args generalizing waiting with
  | nil => rfl
  | cons arg args ih =>
    cases waiting with
    | true => rw [cons_append, sideFiles, sideFiles, ih, cons_append]
    | false =>
      rw [cons_append, sideFiles, sideFiles]
      split
      · rw [ih]
      · rw [ih, append_assoc]

theorem afterFirst_append {c : Char} {s : Str} (h : c ∉ s) (t : Str) :
    afterFirst c (s ++ c :: t) = t := by
  rw [afterFirst, dropWhile_append_of_pos, dropWhile_cons_of_neg, drop_one, tail_cons]
  · simp
  · intro d hd
    exact bne_iff_ne.mpr (fun heq => h (heq ▸ hd))

theorem notMem_sideOutputFlags (h : flag ∈ sideOutputFlags) :
    '=' ∉ flag ∧ ',' ∉ flag := by
  revert flag
  decide

theorem joinedFile?_eq_some {arg : Str} :
    joinedFile? arg = some file ↔ ∃ flag ∈ sideOutputFlags, arg = flag ++ '=' :: file := by
  have hforwarded (p : Str) : p ∈ forwardedSideOutputPrefixes ↔
      ∃ flag ∈ sideOutputFlags, p = flag ++ ['='] := by
    have hmap : forwardedSideOutputPrefixes = sideOutputFlags.map (· ++ ['=']) := by decide
    rw [hmap, List.mem_map]
    exact exists_congr (fun flag => and_congr_right (fun _ => eq_comm))
  rw [joinedFile?]
  constructor
  · intro h
    split at h
    · rename_i hany
      obtain ⟨p, hp, hstarts⟩ := List.any_eq_true.mp hany
      obtain ⟨flag, hflag, rfl⟩ := (hforwarded p).mp hp
      obtain ⟨t, rfl⟩ := startsWith_iff.mp hstarts
      rw [append_assoc] at h ⊢
      rw [singleton_append, afterFirst_append (notMem_sideOutputFlags hflag).1] at h
      exact ⟨flag, hflag, by rw [some.inj h, singleton_append]⟩
    · cases h
  · rintro ⟨flag, hflag, rfl⟩
    have hany : forwardedSideOutputPrefixes.any (startsWith (flag ++ '=' :: file)) = true := by
      refine any_eq_true.mpr ⟨_, (hforwarded _).mpr ⟨flag, hflag, rfl⟩, ?_⟩
      exact startsWith_iff.mpr ⟨file, by rw [append_assoc, singleton_append]⟩
    rw [if_pos hany, afterFirst_append (notMem_sideOutputFlags hflag).1]

theorem joinedFile?_of_mem (h : flag ∈ sideOutputFlags) : joinedFile? flag = none := by
  revert flag
  decide

theorem ne_of_joinedFile? {arg : Str} (h : joinedFile? arg = some file) : arg ≠ file := by
  obtain ⟨flag, -, rfl⟩ := joinedFile?_eq_some.mp h
  intro heq
  have hlength := congrArg length heq
  rw [length_append, length_cons] at hlength
  omega

theorem sideFiles_eq_nil {args : List Str} : sideFiles false args = ([], false) ↔
    ∀ arg ∈ args, arg ∉ sideOutputFlags ∧ joinedFile? arg = none := by
  induction args with
  | nil => simp [sideFiles]
  | cons arg args ih =>
    rw [forall_mem_cons, ← ih, sideFiles]
    by_cases hflag : arg ∈ sideOutputFlags
    · rw [if_pos hflag]
      cases args with
      | nil => simp [sideFiles, hflag]
      | cons file args => simp [sideFiles, hflag]
    · rw [if_neg hflag, Prod.mk.injEq, append_eq_nil_iff, toList_eq_nil_iff]
      simp only [hflag, not_false_eq_true, true_and, and_assoc]
      rw [← Prod.mk.injEq]

/-! ## One group -/

/-- What is recorded for a group against what the linker reads in it. -/
structure GroupSeen (group : List Str) (file? : Option Str) : Prop where
  /-- No more is recorded than is read. -/
  count : ∀ waiting, file?.toList.length ≤ (sideFiles waiting group).1.length
  /-- Behind an option that lacks its file the two differ, or the last one lacks its file. -/
  waits : (sideFiles true group).1 = file?.toList → (sideFiles true group).2 = true
  apart : sideFiles false group = (file?.toList, false) ↔ OptionsApart group

namespace GroupSeen

theorem nil : GroupSeen [] none :=
  ⟨fun _ => Nat.zero_le _, fun _ => rfl, ⟨fun _ => .inl (by simp), fun _ => rfl⟩⟩

theorem one (arg : Str) : GroupSeen [arg] (joinedFile? arg) where
  count waiting := by
    cases waiting with
    | true =>
      cases joinedFile? arg with
      | none => exact Nat.zero_le _
      | some file => exact le_rfl
    | false =>
      by_cases hflag : arg ∈ sideOutputFlags
      · rw [joinedFile?_of_mem hflag]
        exact Nat.zero_le _
      · rw [sideFiles, if_neg hflag, sideFiles, append_nil]
  waits h := by
    cases hfile : joinedFile? arg with
    | none =>
      rw [hfile] at h
      cases h
    | some file =>
      rw [hfile] at h
      exact absurd (cons.inj h).1 (ne_of_joinedFile? hfile)
  apart := by
    by_cases hflag : arg ∈ sideOutputFlags
    · rw [sideFiles, if_pos hflag, joinedFile?_of_mem hflag]
      refine ⟨fun h => (by cases h), ?_⟩
      rintro (hplain | ⟨_, file, heq, hfile⟩ | ⟨_, _, file, heq⟩)
      · exact absurd hflag (hplain arg mem_cons_self).1
      · obtain ⟨rfl, -⟩ := cons.inj heq
        rw [joinedFile?_of_mem hflag] at hfile
        cases hfile
      · cases heq
    · rw [sideFiles, if_neg hflag, sideFiles, append_nil]
      refine ⟨fun _ => ?_, fun _ => rfl⟩
      cases hfile : joinedFile? arg with
      | none => exact .inl (forall_mem_singleton.mpr ⟨hflag, hfile⟩)
      | some file => exact .inr (.inl ⟨arg, file, rfl, hfile⟩)

theorem pair (hflag : flag ∈ sideOutputFlags) (file : Str) :
    GroupSeen [flag, file] (some file) := by
  have hread : sideFiles false [flag, file] = ([file], false) := by
    rw [sideFiles, if_pos hflag]
    rfl
  have hapart : OptionsApart [flag, file] := .inr (.inr ⟨flag, hflag, file, rfl⟩)
  refine ⟨fun waiting => ?_, fun h => ?_, ⟨fun _ => hapart, fun _ => hread⟩⟩
  · cases waiting with
    | true => exact Nat.succ_le_succ (Nat.zero_le _)
    | false =>
      rw [hread]
      exact le_rfl
  · rw [sideFiles] at h ⊢
    obtain ⟨rfl, -⟩ := cons.inj h
    rw [sideFiles, if_pos hflag]
    rfl

end GroupSeen

/-- The file `ParseLink` records for the text behind `-Wl,`. -/
def wlFile? (text : Str) : Option Str :=
  (joinedFile? text).or
    (if sideOutputFlags.any (fun flag => startsWith text (flag ++ [','])) then
      some (afterFirst ',' text) else none)

theorem wlFile?_of_notMem {text : Str} (h : ',' ∉ text) : wlFile? text = joinedFile? text := by
  have hcomma : ¬ sideOutputFlags.any (fun flag => startsWith text (flag ++ [','])) = true := by
    intro hany
    obtain ⟨flag, -, hstarts⟩ := any_eq_true.mp hany
    obtain ⟨t, rfl⟩ := startsWith_iff.mp hstarts
    simp at h
  rw [wlFile?, if_neg hcomma, or_none]

theorem joinedFile?_append_comma (hfirst : ',' ∉ first) (rest : Str) :
    joinedFile? (first ++ ',' :: rest) = (joinedFile? first).map (· ++ ',' :: rest) := by
  refine ext (fun file => ?_)
  rw [joinedFile?_eq_some, map_eq_some_iff]
  constructor
  · rintro ⟨flag, hflag, heq⟩
    rcases append_eq_append_iff.mp heq with ⟨more, hlong, hmore⟩ | ⟨more, hshort, hmore⟩
    · -- the flag would hold the comma
      cases more with
      | nil => cases hmore
      | cons c more =>
        obtain ⟨rfl, -⟩ := cons.inj hmore
        exact absurd (hlong ▸ by simp) (notMem_sideOutputFlags hflag).2
    · cases more with
      | nil => cases hmore
      | cons c more =>
        obtain ⟨rfl, rfl⟩ := cons.inj hmore
        exact ⟨more, joinedFile?_eq_some.mpr ⟨flag, hflag, hshort⟩, rfl⟩
  · rintro ⟨file, hfile, rfl⟩
    obtain ⟨flag, hflag, rfl⟩ := joinedFile?_eq_some.mp hfile
    exact ⟨flag, hflag, by rw [append_assoc, cons_append]⟩

theorem wlFile?_append (hfirst : ',' ∉ first) (rest : Str) :
    wlFile? (first ++ ',' :: rest) = ((joinedFile? first).map (· ++ ',' :: rest)).or
      (if first ∈ sideOutputFlags then some rest else none) := by
  have hany : sideOutputFlags.any (fun flag => startsWith (first ++ ',' :: rest) (flag ++ [','])) =
      true ↔ first ∈ sideOutputFlags := by
    rw [List.any_eq_true]
    constructor
    · rintro ⟨flag, hflag, hstarts⟩
      obtain ⟨t, heq⟩ := startsWith_iff.mp hstarts
      rw [List.append_assoc, List.singleton_append] at heq
      have hsplit := congrArg (split ',') heq
      rw [split_append, split_append, split_of_notMem hfirst,
        split_of_notMem (notMem_sideOutputFlags hflag).2] at hsplit
      exact (List.cons.inj hsplit).1 ▸ hflag
    · intro hflag
      exact ⟨first, hflag, startsWith_iff.mpr ⟨rest, by simp⟩⟩
  rw [wlFile?, joinedFile?_append_comma hfirst, afterFirst_append hfirst]
  simp only [hany]

theorem eq_of_split_singleton {c : Char} {text field : Str} (h : split c text = [field]) :
    text = field ∧ c ∉ text := by
  by_cases hmem : c ∈ text
  · obtain ⟨first, rest, rfl, hfirst⟩ := eq_append_cons_of_mem hmem
    rw [split_append, split_of_notMem hfirst] at h
    exact absurd (cons.inj h).2 (split_ne_nil c rest)
  · rw [split_of_notMem hmem] at h
    exact ⟨(cons.inj h).1, hmem⟩

/-- The first file that is read is not the one that is recorded. -/
theorem GroupSeen.misread {other : Str} {group more : List Str}
    (hread : (sideFiles false (first :: group)).1 = other :: more) (hne : other ≠ file)
    (hfirst : first ≠ file) (hapart : ¬ OptionsApart (first :: group)) :
    GroupSeen (first :: group) (some file) where
  count waiting := by
    cases waiting with
    | true => exact Nat.succ_le_succ (Nat.zero_le _)
    | false =>
      rw [hread]
      exact Nat.succ_le_succ (Nat.zero_le _)
  waits h := absurd (cons.inj h).1 hfirst
  apart := ⟨fun h => absurd (cons.inj (hread.symm.trans (congrArg Prod.fst h))).1 hne,
    fun h => absurd h hapart⟩

/-- A comma and more behind a joined option: the recorded name runs over the comma. -/
theorem GroupSeen.joined_append (hfirst : ',' ∉ first)
    (hfile : joinedFile? first = some file) (rest : Str) :
    GroupSeen (first :: split ',' rest) (some (file ++ ',' :: rest)) := by
  have hflag : first ∉ sideOutputFlags := by
    intro hflag
    rw [joinedFile?_of_mem hflag] at hfile
    cases hfile
  have hread : (sideFiles false (first :: split ',' rest)).1 =
      file :: (sideFiles false (split ',' rest)).1 := by
    rw [sideFiles, if_neg hflag, hfile]
    rfl
  refine misread hread (fun heq => ?_) (fun heq => hfirst (heq ▸ by simp)) ?_
  · have hlength := congrArg length heq
    rw [length_append, length_cons] at hlength
    omega
  · rintro (hplain | ⟨_, _, heq, -⟩ | ⟨flag, hmem, _, heq⟩)
    · have hnone := (hplain first mem_cons_self).2
      rw [hfile] at hnone
      cases hnone
    · exact absurd (cons.inj heq).2 (split_ne_nil ',' rest)
    · exact absurd ((cons.inj heq).1 ▸ hmem) hflag

/-- A comma behind a separate option: its file runs to the end. -/
theorem GroupSeen.flag_append (hflag : flag ∈ sideOutputFlags) (rest : Str) :
    GroupSeen (flag :: split ',' rest) (some rest) := by
  by_cases hcomma : ',' ∈ rest
  · obtain ⟨first, more, hrest, hfirst⟩ := eq_append_cons_of_mem hcomma
    have hsplit : split ',' rest = first :: split ',' more := by
      rw [hrest, split_append, split_of_notMem hfirst, singleton_append]
    have hread : (sideFiles false (flag :: split ',' rest)).1 =
        first :: (sideFiles false (split ',' more)).1 := by
      rw [sideFiles, if_pos hflag, hsplit]
      rfl
    refine misread hread (fun heq => hfirst (heq ▸ hcomma)) (fun heq => ?_) ?_
    · exact (notMem_sideOutputFlags hflag).2 (heq ▸ hcomma)
    · rintro (hplain | ⟨_, _, heq, -⟩ | ⟨_, _, _, heq⟩)
      · exact absurd hflag (hplain flag mem_cons_self).1
      · exact absurd (cons.inj heq).2 (split_ne_nil ',' rest)
      · rw [hsplit] at heq
        exact absurd (cons.inj (cons.inj heq).2).2 (split_ne_nil ',' more)
  · rw [split_of_notMem hcomma]
    exact pair hflag rest

/-- A plain argument in front: nothing is recorded for the group. -/
theorem GroupSeen.plain_cons (hflag : first ∉ sideOutputFlags) {group : List Str}
    (hgroup : group ≠ []) : GroupSeen (first :: group) none := by
  refine ⟨fun _ => Nat.zero_le _, fun h => (by cases h), ?_⟩
  rw [toList_none, sideFiles_eq_nil]
  refine ⟨.inl, ?_⟩
  rintro (hplain | ⟨_, _, heq, -⟩ | ⟨flag, hmem, _, heq⟩)
  · exact hplain
  · exact absurd (cons.inj heq).2 hgroup
  · exact absurd ((cons.inj heq).1 ▸ hmem) hflag

theorem GroupSeen.wl (text : Str) : GroupSeen (split ',' text) (wlFile? text) := by
  by_cases hcomma : ',' ∈ text
  · obtain ⟨first, rest, rfl, hfirst⟩ := eq_append_cons_of_mem hcomma
    rw [wlFile?_append hfirst, split_append, split_of_notMem hfirst, singleton_append]
    cases hfile : joinedFile? first with
    | some file => exact joined_append hfirst hfile rest
    | none =>
      by_cases hflag : first ∈ sideOutputFlags
      · rw [if_pos hflag]
        exact flag_append hflag rest
      · rw [if_neg hflag]
        exact plain_cons hflag (split_ne_nil ',' rest)
  · rw [split_of_notMem hcomma, wlFile?_of_notMem hcomma]
    exact one text

/-! ## One turn -/

/-- What `ParseLink` records for a word that stands for itself. -/
def wordFile? (a : Str) : Option Str :=
  if startsWith a "-Wl,".toList then wlFile? (a.drop 4) else joinedFile? a

theorem seen_word (a : Str) : GroupSeen (wordArgs a) (wordFile? a) := by
  rw [wordArgs, wordFile?]
  split
  · exact GroupSeen.wl _
  · exact GroupSeen.one a

theorem wordArgs_eq_buildId {a : Str} : wordArgs a = [buildIdUuid] ↔
    a = "-Wl,".toList ++ buildIdUuid ∨ a = buildIdUuid := by
  rw [wordArgs]
  constructor
  · intro h
    split at h
    · rename_i hwl
      obtain ⟨text, rfl⟩ := startsWith_iff.mp hwl
      exact .inl (congrArg _ (eq_of_split_singleton h).1)
    · exact .inr (cons.inj h).1
  · rintro (rfl | rfl)
    · decide
    · decide

theorem startsWith_append_append (s t p : Str) : startsWith (s ++ t) (s ++ p) = startsWith t p := by
  rw [Bool.eq_iff_iff, startsWith_iff, startsWith_iff]
  exact exists_congr (fun more => by rw [append_assoc, append_cancel_left_eq])

theorem sideOutputEqPrefixes_eq : sideOutputEqPrefixes = forwardedSideOutputPrefixes ++
    forwardedSideOutputPrefixes.map ("-Wl,".toList ++ ·) := by
  decide

theorem sideOutputCommaPrefixes_eq : sideOutputCommaPrefixes =
    (sideOutputFlags.map (· ++ [','])).map ("-Wl,".toList ++ ·) := by
  decide

theorem wordFile?_eq (a : Str) : wordFile? a =
    if sideOutputEqPrefixes.any (startsWith a) then some (afterFirst '=' a)
    else if sideOutputCommaPrefixes.any (startsWith a) then some (afterFirst ',' (a.drop 4))
    else none := by
  rw [wordFile?, sideOutputEqPrefixes_eq, sideOutputCommaPrefixes_eq, any_append]
  split
  · rename_i hwl
    obtain ⟨text, rfl⟩ := startsWith_iff.mp hwl
    have hbare : forwardedSideOutputPrefixes.any (startsWith ("-Wl,".toList ++ text)) = false := by
      have hsecond : ∀ p ∈ forwardedSideOutputPrefixes, 1 < p.length ∧ p[1]? ≠ some 'W' := by decide
      refine any_eq_false.mpr (fun p hp hstarts => ?_)
      obtain ⟨more, heq⟩ := startsWith_iff.mp hstarts
      have hw : (p ++ more)[1]? = some 'W' := by
        rw [← heq]
        rfl
      rw [getElem?_append_left (hsecond p hp).1] at hw
      exact (hsecond p hp).2 hw
    rw [hbare, Bool.false_or, List.any_map, List.any_map, List.any_map]
    simp only [Function.comp_def, startsWith_append_append]
    change wlFile? text = if _ then some (afterFirst '=' text) else
      if _ then some (afterFirst ',' text) else none
    rw [wlFile?, joinedFile?]
    split <;> rfl
  · rename_i hwl
    have hnot (texts : List Str) :
        (texts.map ("-Wl,".toList ++ ·)).any (startsWith a) = false := by
      refine List.any_eq_false.mpr (fun p hp hstarts => hwl ?_)
      obtain ⟨text, -, rfl⟩ := mem_map.mp hp
      obtain ⟨more, rfl⟩ := startsWith_iff.mp hstarts
      rw [append_assoc]
      exact startsWith_append _ _
    rw [hnot, hnot, Bool.or_false, joinedFile?]
    rfl

structure LinkTurn (group : List Str) (item : LinkItem) : Prop where
  seen : GroupSeen group item.extraOutput?
  buildId : item.pending? = some ⟨.buildIdUuid, []⟩ ↔ group = [buildIdUuid]
  pending : OptionsApart group → item.pending? = none ∨ item.pending? = some ⟨.buildIdUuid, []⟩

theorem extraOutput?_ofPlainWord (a : Str) : (LinkItem.ofPlainWord a).extraOutput? = none ∧
    (LinkItem.ofPlainWord a).pending? = none := by
  unfold LinkItem.ofPlainWord
  split
  · exact ⟨rfl, rfl⟩
  · unfold LinkItem.ofBareWord
    split_ifs <;> exact ⟨rfl, rfl⟩

theorem nextLinkItem_word {a : Str} {rest : List Str} (ho : a ≠ "-o".toList)
    (hT : a ≠ "-T".toList) (hx : a ≠ xlinkerFlag) (hside : ¬ (a ∈ sideOutputFlags ∧ rest ≠ [])) :
    (nextLinkItem a rest).1.extraOutput? = wordFile? a ∧
      (nextLinkItem a rest).1.pending? =
        (if wordArgs a = [buildIdUuid] then some ⟨.buildIdUuid, []⟩ else none) ∧
      (nextLinkItem a rest).2 = rest := by
  have hplain : ∀ a ∈ otherPhaseFlags, wordFile? a = none ∧ wordArgs a ≠ [buildIdUuid] := by decide
  have hbuild : wordArgs a = [buildIdUuid] → ¬ sideOutputEqPrefixes.any (startsWith a) = true ∧
      ¬ sideOutputCommaPrefixes.any (startsWith a) = true := by
    intro hargs
    rcases wordArgs_eq_buildId.mp hargs with rfl | rfl <;> decide
  have hword := wordFile?_eq a
  fun_cases nextLinkItem a rest
  next hphase =>
    rw [(hplain a hphase).1, if_neg (hplain a hphase).2]
    exact ⟨rfl, rfl, rfl⟩
  next h => exact absurd h ho
  next h _ _ => exact absurd h ho
  next hjoined =>
    simp only [Bool.and_eq_true] at hjoined
    obtain ⟨path, rfl⟩ := startsWith_iff.mp hjoined.1.1
    exact ⟨rfl, rfl, rfl⟩
  next h => exact absurd h hside
  next heq _ =>
    rw [hword, if_pos heq, if_neg (fun h => (hbuild h).1 heq)]
    exact ⟨rfl, rfl, rfl⟩
  next heq hcomma _ =>
    rw [hword, if_neg heq, if_pos hcomma, if_neg (fun h => (hbuild h).2 hcomma)]
    exact ⟨rfl, rfl, rfl⟩
  next h _ => exact absurd h hx
  next heq hcomma _ hid _ =>
    rw [hword, if_neg heq, if_neg hcomma, if_pos (wordArgs_eq_buildId.mpr hid)]
    exact ⟨rfl, rfl, rfl⟩
  next h => exact absurd h.1 hT
  next heq hcomma _ hid _ _ =>
    rw [hword, if_neg heq, if_neg hcomma, if_neg (fun h => hid (wordArgs_eq_buildId.mp h))]
    exact ⟨(extraOutput?_ofPlainWord a).1, (extraOutput?_ofPlainWord a).2, rfl⟩

theorem turn_pair (hflag : flag ∈ sideOutputFlags) {item : LinkItem}
    (hfile : item.extraOutput? = some file) (hpending : item.pending? = none) :
    LinkTurn [flag, file] item := by
  refine ⟨hfile ▸ .pair hflag file, ?_, fun _ => .inl hpending⟩
  rw [hpending]
  exact ⟨fun h => (by cases h), fun h => absurd (congrArg length h) (by simp)⟩

theorem turn_nil {item : LinkItem} (hfile : item.extraOutput? = none)
    (hpending : item.pending? = none) : LinkTurn [] item := by
  refine ⟨hfile ▸ .nil, ?_, fun _ => .inl hpending⟩
  rw [hpending]
  exact ⟨fun h => (by cases h), fun h => absurd h.symm (cons_ne_nil _ _)⟩

theorem turn_xlinker (arg : Str) : LinkTurn [arg] (.xlinker arg) := by
  refine ⟨GroupSeen.one arg, ?_, fun _ => ?_⟩
  · by_cases hbuild : arg = buildIdUuid
    · rw [hbuild]
      decide
    · change (if arg = buildIdUuid then some _ else none) = _ ↔ _
      rw [if_neg hbuild]
      refine ⟨fun h => (by cases h), fun h => absurd (cons.inj h).1 hbuild⟩
  · change (if arg = buildIdUuid then some _ else none) = _ ∨
      (if arg = buildIdUuid then some _ else none) = _
    split
    · exact .inr rfl
    · exact .inl rfl

/-- An option behind `-Xlinker` without its file: the group is not apart. -/
theorem turn_xlinkerCut (hflag : flag ∈ sideOutputFlags) :
    LinkTurn [flag] (.xlinkerCut flag) := by
  have hfile : (LinkItem.xlinkerCut flag).extraOutput? = joinedFile? flag :=
    (joinedFile?_of_mem hflag).symm
  refine ⟨hfile ▸ GroupSeen.one flag, ⟨fun h => (by cases h), fun h => ?_⟩, fun hapart => ?_⟩
  · rw [(cons.inj h).1] at hflag
    exact absurd hflag (by decide)
  · have hread := (GroupSeen.one flag).apart.mpr hapart
    rw [sideFiles, if_pos hflag] at hread
    exact absurd (congrArg Prod.snd hread) Bool.false_ne_true.symm

theorem turn_ofXlinker {rest rest' group : List Str} (h : xlinkerGroup rest = some (group, rest')) :
    LinkTurn group (LinkItem.ofXlinker rest).1 ∧ (LinkItem.ofXlinker rest).2 = rest' := by
  have hlone {arg : Str} {rest : List Str} (hcut : arg ∈ sideOutputFlags →
      LinkItem.ofXlinker (arg :: rest) = (.xlinkerCut arg, rest)) :
      LinkTurn [arg] (LinkItem.ofXlinker (arg :: rest)).1 ∧
        (LinkItem.ofXlinker (arg :: rest)).2 = rest := by
    by_cases hflag : arg ∈ sideOutputFlags
    · rw [hcut hflag]
      exact ⟨turn_xlinkerCut hflag, rfl⟩
    · have hitem : LinkItem.ofXlinker (arg :: rest) = (.xlinker arg, rest) := if_neg hflag
      rw [hitem]
      exact ⟨turn_xlinker arg, rfl⟩
  match rest, h with
  | [arg], h =>
    cases h
    exact hlone (fun hflag => if_pos hflag)
  | [arg, again], h =>
    cases h
    exact hlone (fun hflag => if_pos hflag)
  | arg :: again :: path :: rest, h =>
    rw [xlinkerGroup] at h
    by_cases hpair : arg ∈ sideOutputFlags ∧ again = xlinkerFlag
    · rw [if_pos hpair] at h
      obtain ⟨rfl, rfl⟩ := Prod.mk.inj (some.inj h)
      have hitem : LinkItem.ofXlinker (arg :: again :: path :: rest) =
          (.xlinkerSideOutput arg path, rest) :=
        (if_pos hpair.1).trans (if_pos hpair.2)
      rw [hitem]
      exact ⟨turn_pair hpair.1 rfl rfl, rfl⟩
    · rw [if_neg hpair] at h
      cases h
      refine hlone (fun hflag => (if_pos hflag).trans ?_)
      exact if_neg (fun hagain => hpair ⟨hflag, hagain⟩)

/-- The parser's turns and the driver's take the same words. -/
theorem turn_of_nextLinkerGroup {a : Str} {rest rest' group : List Str} :
    nextLinkerGroup a rest = some (group, rest') →
      LinkTurn group (nextLinkItem a rest).1 ∧ (nextLinkItem a rest).2 = rest' := by
  fun_cases nextLinkerGroup a rest <;> intro h
  next => cases h
  next hown value rest =>
    cases h
    rcases hown with rfl | rfl
    · exact ⟨turn_nil rfl rfl, rfl⟩
    · exact ⟨turn_nil rfl rfl, rfl⟩
  next hside =>
    cases h
    have hitem : nextLinkItem a rest = (.sideOutput a (rest.headD []), rest.tail) := by
      obtain ⟨path, rest, rfl⟩ := exists_cons_of_ne_nil hside.2
      have hall : ∀ a ∈ sideOutputFlags,
          nextLinkItem a (path :: rest) = (.sideOutput a path, rest) := by
        intro a ha
        simp only [sideOutputFlags, map_cons, map_nil, mem_cons, not_mem_nil, or_false] at ha
        rcases ha with rfl | rfl | rfl
        · rfl
        · rfl
        · rfl
      exact hall a hside.1
    rw [hitem]
    exact ⟨turn_pair hside.1 rfl rfl, rfl⟩
  next hx _ =>
    have hitem : nextLinkItem a rest = LinkItem.ofXlinker rest := by
      rw [hx]
      rfl
    rw [hitem]
    exact turn_ofXlinker h
  next hown hx hside =>
    cases h
    rw [not_or] at hown
    obtain ⟨hfile, hpending, hrest⟩ := nextLinkItem_word hown.1 hown.2 hx hside
    refine ⟨⟨hfile ▸ seen_word a, ?_, fun _ => ?_⟩, hrest⟩ <;> rw [hpending] <;> split
    next hbuild => exact ⟨fun _ => hbuild, fun _ => rfl⟩
    next hbuild => exact ⟨fun h => (by cases h), fun h => absurd h hbuild⟩
    next => exact .inr rfl
    next => exact .inl rfl

/-! ## All turns -/

theorem turns_of_linkerGroupsFuel {turns : ℕ} {words : List Str} {gs : List (List Str)}
    (h : linkerGroupsFuel turns words = some gs) :
    List.Forall₂ LinkTurn gs (linkItemsFuel turns words) := by
  induction turns generalizing words gs with
  | zero =>
    cases h
    exact .nil
  | succ turns ih =>
    cases words with
    | nil =>
      cases h
      exact .nil
    | cons a rest =>
      rw [linkerGroupsFuel] at h
      cases hnext : nextLinkerGroup a rest with
      | none =>
        rw [hnext] at h
        cases h
      | some found =>
        obtain ⟨group, rest'⟩ := found
        obtain ⟨hturn, hrest⟩ := turn_of_nextLinkerGroup hnext
        simp only [hnext] at h
        obtain ⟨gs, hgs, rfl⟩ := map_eq_some_iff.mp h
        rw [linkItemsFuel, hrest]
        exact .cons hturn (ih hgs)

variable {gs : List (List Str)} {items : List LinkItem}

theorem length_recordedFiles_le (h : List.Forall₂ LinkTurn gs items) (waiting : Bool) :
    (recordedFiles items).length ≤ (sideFiles waiting gs.flatten).1.length := by
  induction h generalizing waiting with
  | nil => exact Nat.zero_le _
  | @cons group item gs items hturn _ ih =>
    have hhead := hturn.seen.count waiting
    have htail := ih (sideFiles waiting group).2
    rw [flatten_cons, sideFiles_append, length_append]
    change (item.extraOutput?.toList ++ recordedFiles items).length ≤ _
    rw [length_append]
    omega

/-- If the records are what the linker reads and no option lacks its file, then the groups
agree one by one: none of them records more than is read, so none records less. -/
theorem apart_of_read (h : List.Forall₂ LinkTurn gs items) {waiting : Bool}
    (hread : (sideFiles waiting gs.flatten).1 = recordedFiles items)
    (hend : (sideFiles waiting gs.flatten).2 = false) :
    waiting = false ∧ ∀ group ∈ gs, OptionsApart group := by
  induction h generalizing waiting with
  | nil => exact ⟨hend, by simp⟩
  | @cons group item gs items hturn hturns ih =>
    rw [flatten_cons, sideFiles_append] at hread hend
    change _ = item.extraOutput?.toList ++ recordedFiles items at hread
    have hhead := hturn.seen.count waiting
    have htail := length_recordedFiles_le hturns (sideFiles waiting group).2
    have hlength := congrArg length hread
    rw [length_append, length_append] at hlength
    obtain ⟨hgroup, hrest⟩ := append_inj hread (by omega)
    obtain ⟨hclosed, hapart⟩ := ih hrest hend
    cases waiting with
    | true =>
      rw [hturn.seen.waits hgroup] at hclosed
      cases hclosed
    | false =>
      refine ⟨rfl, forall_mem_cons.mpr ⟨hturn.seen.apart.mp ?_, hapart⟩⟩
      exact Prod.ext hgroup hclosed

theorem read_of_apart (h : List.Forall₂ LinkTurn gs items)
    (hapart : ∀ group ∈ gs, OptionsApart group) :
    sideFiles false gs.flatten = (recordedFiles items, false) := by
  induction h with
  | nil => rfl
  | @cons group item gs items hturn _ ih =>
    obtain ⟨hgroup, hgs⟩ := forall_mem_cons.mp hapart
    rw [flatten_cons, sideFiles_append, hturn.seen.apart.mpr hgroup, ih hgs]
    rfl

/-- With all groups apart a random build id is pending exactly if one stands alone. -/
theorem pendingOf_buildId (h : List.Forall₂ LinkTurn gs items)
    (hapart : ∀ group ∈ gs, OptionsApart group) (pending : Option Decision) :
    pendingOf items pending = some ⟨.buildIdUuid, []⟩ ↔
      [buildIdUuid] ∈ gs ∨ pending = some ⟨.buildIdUuid, []⟩ := by
  induction h generalizing pending with
  | nil => simp [pendingOf]
  | @cons group item gs items hturn _ ih =>
    obtain ⟨hgroup, hgs⟩ := forall_mem_cons.mp hapart
    have hbuild := hturn.buildId
    have hih := ih hgs (item.pending?.or pending)
    change pendingOf items (item.pending?.or pending) = _ ↔ _
    rw [hih, mem_cons]
    rcases hturn.pending hgroup with hitem | hitem
    · have hne : group ≠ [buildIdUuid] := by
        intro heq
        rw [hbuild.mpr heq] at hitem
        cases hitem
      rw [hitem, none_or, or_iff_right (Ne.symm hne)]
    · rw [hitem, some_or, hbuild.mp hitem]
      simp

/-! ## The whole command -/

/-- What is said of a link fits the arguments the linker gets: it is not cached for a random
build id exactly if one is asked for, and its side outputs are the files that are named. -/
def LinkArgs.SeesOptions (r : LinkArgs) (args : List Str) : Prop :=
  (r.uncacheable = some ⟨.buildIdUuid, []⟩ ↔ buildIdUuid ∈ args) ∧
    r.extraOutputs = (sideFiles false args).1

instance (r : LinkArgs) (args : List Str) : Decidable (r.SeesOptions args) :=
  inferInstanceAs (Decidable (_ ∧ _))

theorem parseLink_seesOptions_iff (readFile : ReadFile) (rawArgv : List Str) (driver : Str)
    (words : List Str) (hargv : expandResponseFiles readFile rawArgv = some (driver :: words))
    (hlink : (parseLink readFile rawArgv).isLink = true) (gs : List (List Str))
    (hgroups : linkerGroups words = some gs) (hcomplete : (sideFiles false gs.flatten).2 = false) :
    (parseLink readFile rawArgv).SeesOptions gs.flatten ↔
      (∀ group ∈ gs, OptionsApart group) ∧ (buildIdUuid ∈ gs.flatten → [buildIdUuid] ∈ gs) := by
  have hturns : List.Forall₂ LinkTurn gs (linkItems words) := turns_of_linkerGroupsFuel hgroups
  obtain ⟨argv, late, hexpand, hr⟩ := parseLink_link hlink
  obtain rfl := some.inj (hargv.symm.trans hexpand)
  have hbuild : (parseLink readFile rawArgv).uncacheable = some ⟨.buildIdUuid, []⟩ ↔
      pendingOf (linkItems words) none = some ⟨.buildIdUuid, []⟩ := by
    rw [hr.uncacheable, Option.or_eq_some_iff, tail_cons]
    exact or_iff_left (fun h => hr.late_ne h.2)
  rw [LinkArgs.SeesOptions, hr.extraOutputs, hbuild, tail_cons]
  constructor
  · rintro ⟨hasked, hread⟩
    obtain ⟨-, hapart⟩ := apart_of_read hturns hread.symm hcomplete
    refine ⟨hapart, fun hmem => ?_⟩
    exact ((pendingOf_buildId hturns hapart none).mp (hasked.mpr hmem)).resolve_right (by simp)
  · rintro ⟨hapart, halone⟩
    refine ⟨?_, by rw [read_of_apart hturns hapart]⟩
    rw [pendingOf_buildId hturns hapart none]
    constructor
    · rintro (hmem | hnone)
      · exact mem_flatten.mpr ⟨_, hmem, mem_singleton_self _⟩
      · cases hnone
    · exact fun hmem => .inl (halone hmem)

/-- Every option alone: by `-Wl,`, by `-Xlinker` and with its file. -/
def apartCommand : List Str :=
  ["cc", "a.o", "-o", "a", "-Wl,--build-id=uuid", "-Xlinker", "-Map", "-Xlinker", "a.map",
    "-Wl,--dependency-file=a.d"].map String.toList

def apartGroups : List (List Str) :=
  [["a.o".toList], [], [buildIdUuid], ["-Map".toList, "a.map".toList],
    ["--dependency-file=a.d".toList]]

theorem parseLink_seesOptions_apart :
    (parseLink (fun _ => none) apartCommand).SeesOptions apartGroups.flatten := by
  have hgroups : linkerGroups apartCommand.tail = some apartGroups := by decide +kernel
  refine (parseLink_seesOptions_iff (fun _ => none) apartCommand "cc".toList apartCommand.tail
    (by decide +kernel) (by decide +kernel) apartGroups hgroups (by decide +kernel)).mpr ⟨?_, ?_⟩
  · rw [apartGroups]
    simp only [forall_mem_cons]
    refine ⟨.inl (by decide), .inl (by decide), .inl (by decide), ?_, ?_, by simp⟩
    · exact .inr (.inr ⟨_, by decide, _, rfl⟩)
    · exact .inr (.inl ⟨_, "a.d".toList, rfl, by decide⟩)
  · exact fun _ => by decide

/-- A random build id and a map file behind another option of one word. -/
def hidingCommand : List Str :=
  ["cc", "a.o", "-o", "a", "-Wl,-O1,--build-id=uuid,-Map=a.map"].map String.toList

theorem not_seesOptions_hiding :
    (parseLink (fun _ => none) hidingCommand).Accepted ∧
      (parseLink (fun _ => none) hidingCommand).extraOutputs = [] ∧
      linkerGroups hidingCommand.tail = some [["a.o".toList], [],
        ["-O1", "--build-id=uuid", "-Map=a.map"].map String.toList] ∧
      ¬ (parseLink (fun _ => none) hidingCommand).SeesOptions
        (["a.o", "-O1", "--build-id=uuid", "-Map=a.map"].map String.toList) := by
  decide +kernel

end Vcache

import Vcache.Hasher
import Vcache.LinkArgs
import Vcache.RootText

/-!
# The link pre-key

`ComputePreKey` hashes the key arguments and then the named inputs with their
digests. The stream determines the pieces, and two commands with one stream and
the same layout, that is the same sequence of flags and file names in their
argument lists, have the same words in the same order. The layout itself is not
hashed.
-/

namespace Vcache

open LinkWord List

def kLinkKeyVersion : Str := "vcache-link-v4".toList

def kLinkEnvVars : List Str :=
  ["LIBRARY_PATH", "COMPILER_PATH", "GCC_EXEC_PREFIX", "LD_RUN_PATH", "SOURCE_DATE_EPOCH"].map
    String.toList

/-- What a link key takes from outside the command line. -/
structure LinkSetting where
  roots : RootMap
  driverFingerprint : Str
  env : Str → Str

namespace LinkSetting

def inputPieces (cfg : LinkSetting) (hashFile : Str → Option Str) (path : Str) : List Str :=
  [cfg.roots.canonicalizeText path, (hashFile path).getD "<missing>".toList]

def envPieces (cfg : LinkSetting) : List Str :=
  kLinkEnvVars.flatMap (fun name => [name, cfg.env name])

/-- The pieces `ComputePreKey` feeds its hasher, in order. -/
def preKeyPieces (cfg : LinkSetting) (hashFile : Str → Option Str) (p : LinkArgs) : List Str :=
  [kLinkKeyVersion, cfg.driverFingerprint, cfg.roots.fingerprint] ++
    p.keyArgs.map cfg.roots.canonicalizeText ++
    p.inputs.flatMap (cfg.inputPieces hashFile) ++ cfg.envPieces

def preKeyStream (cfg : LinkSetting) (hashFile : Str → Option Str) (p : LinkArgs) : Str :=
  delimitedStream (cfg.preKeyPieces hashFile p)

end LinkSetting

/-- One pre-key for two commands: the same stream, in pieces of a size a string can have. -/
def LinkSetting.SamePreKey (cfg : LinkSetting) (hashP : Str → Option Str) (p : LinkArgs)
    (hashQ : Str → Option Str) (q : LinkArgs) : Prop :=
  (∀ piece ∈ cfg.preKeyPieces hashP p, FitsSize piece) ∧
    (∀ piece ∈ cfg.preKeyPieces hashQ q, FitsSize piece) ∧
    cfg.preKeyStream hashP p = cfg.preKeyStream hashQ q

theorem LinkSetting.preKeyPieces_congr (cfg : LinkSetting) {hash hash' : Str → Option Str}
    {p : LinkArgs} (h : ∀ path ∈ p.inputs, hash path = hash' path) :
    cfg.preKeyPieces hash p = cfg.preKeyPieces hash' p := by
  have hinputs : p.inputs.flatMap (cfg.inputPieces hash) =
      p.inputs.flatMap (cfg.inputPieces hash') := by
    rw [flatMap_def, flatMap_def]
    congr 1
    exact map_congr_left (fun path hpath => by rw [inputPieces, inputPieces, h path hpath])
  rw [preKeyPieces, preKeyPieces, hinputs]

/-! ## Argument lists -/

/-- What a word of the command line is to a link: a flag or a flag's value, a file it is made
from, or a flag with a linker script in it. -/
inductive LinkRole where
  | key | input | script
deriving DecidableEq, Repr

def LinkWord.role : LinkWord → LinkRole
  | key _ => .key
  | input _ => .input
  | script _ _ => .script

/-- `-oname` -/
def isJoinedOutput (word : Str) : Bool :=
  startsWith word "-o".toList && 2 < word.length && (word.drop 2).head? != some '-'

def isJoinedScript (word : Str) : Bool :=
  scriptPrefixes.any (fun opt => startsWith word opt && opt.length < word.length)

/-- The role of a word that is no flag's value. -/
def wordRole (word : Str) : LinkRole :=
  if isJoinedScript word then .script
  else if word.head? ≠ some '-' ∧ looksLikeLinkInput word then .input
  else .key

/-- An argument list without `-o` and the values of `-Map`, `--Map` and `--dependency-file`,
every word with its role. -/
def argumentWords : List Str → List (LinkRole × Str)
  | [] => []
  | [word] => if isJoinedOutput word then [] else [(wordRole word, word)]
  | word :: value :: rest =>
    if word = "-o".toList then argumentWords rest
    else if isJoinedOutput word then argumentWords (value :: rest)
    else if word ∈ sideOutputFlags then (.key, word) :: argumentWords rest
    else if word = xlinkerFlag then (.key, word) :: (.key, value) :: argumentWords rest
    else if word = "-T".toList then (.key, word) :: (.input, value) :: argumentWords rest
    else (wordRole word, word) :: argumentWords (value :: rest)

/-- The order of flags and file names in an expanded command line. -/
def linkLayout (argv : List Str) : List LinkRole := (argumentWords argv.tail).map Prod.fst

/-- The command line without the driver, `-o` and the values of `-Map`, `--Map` and
`--dependency-file`, its words canonicalised. -/
def canonicalWords (roots : RootMap) (argv : List Str) : List Str :=
  (argumentWords argv.tail).map (fun word => roots.canonicalizeText word.2)

def canonicalTaggedWords (roots : RootMap) (argv : List Str) : List (LinkRole × Str) :=
  (argumentWords argv.tail).map (fun word => (word.1, roots.canonicalizeText word.2))

/-! ## The parser keeps the argument list -/

def LinkWord.tagged (word : LinkWord) : LinkRole × Str := (word.role, word.text)

theorem argumentWords_cons {word : Str} {rest : List Str} (ho : word ≠ "-o".toList)
    (hjoined : isJoinedOutput word = false) (hside : word ∈ sideOutputFlags → rest = [])
    (hx : word = xlinkerFlag → rest = []) (hT : word = "-T".toList → rest = []) :
    argumentWords (word :: rest) = (wordRole word, word) :: argumentWords rest := by
  cases rest with
  | nil => simp [argumentWords, hjoined]
  | cons value rest =>
    rw [argumentWords, if_neg ho, hjoined, if_neg Bool.false_ne_true,
      if_neg (fun h => cons_ne_nil _ _ (hside h)), if_neg (fun h => cons_ne_nil _ _ (hx h)),
      if_neg (fun h => cons_ne_nil _ _ (hT h))]

/-- A joined side output is a flag: none of its spellings begins like a linker script's. -/
theorem wordRole_sideOutput {word : Str}
    (h : (sideOutputEqPrefixes ++ sideOutputCommaPrefixes).any (startsWith word) = true) :
    wordRole word = .key := by
  have hapart : ∀ p ∈ sideOutputEqPrefixes ++ sideOutputCommaPrefixes,
      p.head? = some '-' ∧ ∀ q ∈ scriptPrefixes, ¬ (p <+: q ∨ q <+: p) := by decide
  obtain ⟨p, hp, hstart⟩ := any_eq_true.mp h
  have hscript : isJoinedScript word = false := by
    rw [isJoinedScript, any_eq_false]
    intro q hq hword
    rw [Bool.and_eq_true] at hword
    have hstart := isPrefixOf_iff_prefix.mp hstart
    have hcompare := prefix_or_prefix_of_prefix hstart <| isPrefixOf_iff_prefix.mp hword.1
    exact (hapart p hp).2 q hq hcompare
  have hhead : word.head? = some '-' := by
    obtain ⟨rest, rfl⟩ := startsWith_iff.mp hstart
    rw [head?_append, (hapart p hp).1]
    rfl
  simp [wordRole, hscript, hhead]

theorem argumentWords_sideOutput {word : Str} {rest : List Str}
    (h : (sideOutputEqPrefixes ++ sideOutputCommaPrefixes).any (startsWith word) = true)
    (ho : word ≠ "-o".toList) (hjoined : isJoinedOutput word = false)
    (hside : word ∈ sideOutputFlags → rest = []) :
    argumentWords (word :: rest) = (.key, word) :: argumentWords rest := by
  have hne : ∀ other, (sideOutputEqPrefixes ++ sideOutputCommaPrefixes).any (startsWith other) =
      false → word ≠ other := by
    rintro other hother rfl
    rw [h] at hother
    cases hother
  rw [argumentWords_cons ho hjoined hside (fun hx => absurd hx (hne _ (by decide)))
    (fun hT => absurd hT (hne _ (by decide))), wordRole_sideOutput h]

theorem tagged_ofPlainWord {word : Str} (h : (LinkItem.ofPlainWord word).goesOn = true) :
    (LinkItem.ofPlainWord word).kept.map LinkWord.tagged = [(wordRole word, word)] := by
  unfold LinkItem.ofPlainWord at h ⊢
  cases hfind : scriptPrefixes.find?
      (fun opt => startsWith word opt && opt.length < word.length) with
  | some opt =>
    have hstart := find?_some hfind
    have hscript : isJoinedScript word = true :=
      any_eq_true.mpr ⟨opt, mem_of_find?_eq_some hfind, hstart⟩
    rw [Bool.and_eq_true] at hstart
    obtain ⟨rest, rfl⟩ := startsWith_iff.mp hstart.1
    simp [LinkItem.kept, LinkWord.tagged, role, text, wordRole, hscript]
  | none =>
    have hscript : isJoinedScript word = false := by
      rw [isJoinedScript, any_eq_false]
      exact find?_eq_none.mp hfind
    rw [hfind] at h
    simp only at h ⊢
    unfold LinkItem.ofBareWord at h ⊢
    split_ifs at h ⊢ with hflag hsource hinput
    · simp [LinkItem.kept, LinkWord.tagged, role, text, wordRole, hscript, hflag]
    · cases h
    · simp [LinkItem.kept, LinkWord.tagged, role, text, wordRole, hscript, hflag, hinput]
    · simp [LinkItem.kept, LinkWord.tagged, role, text, wordRole, hscript, hinput]

theorem argumentWords_xlinker {rest : List Str} (h : (LinkItem.ofXlinker rest).1.goesOn = true) :
    argumentWords (xlinkerFlag :: rest) =
      (LinkItem.ofXlinker rest).1.kept.map LinkWord.tagged ++
        argumentWords (LinkItem.ofXlinker rest).2 := by
  have htwo : ∀ forwarded rest, argumentWords (xlinkerFlag :: forwarded :: rest) =
      (.key, xlinkerFlag) :: (.key, forwarded) :: argumentWords rest := fun _ _ => rfl
  revert h
  fun_cases LinkItem.ofXlinker rest <;> intro h
  next => cases h
  next =>
    rw [htwo, htwo]
    rfl
  next => cases h
  next => cases h
  next =>
    rw [htwo]
    rfl

/-- One turn of the loop keeps the words it took, in order. -/
theorem argumentWords_next (word : Str) (rest : List Str)
    (h : (nextLinkItem word rest).1.goesOn = true) :
    argumentWords (word :: rest) =
      (nextLinkItem word rest).1.kept.map LinkWord.tagged ++
        argumentWords (nextLinkItem word rest).2 := by
  revert h
  unfold nextLinkItem
  split_ifs with hphase ho hjoined hside heq hcomma hx hbuild hT <;> intro h
  · cases h
  · subst ho
    cases rest with
    | nil => cases h
    | cons path rest => rfl
  · have hjoined' : isJoinedOutput word = true := hjoined
    cases rest with
    | nil => simp [argumentWords, hjoined', LinkItem.kept]
    | cons value rest =>
      rw [argumentWords, if_neg ho, if_pos hjoined']
      rfl
  · obtain ⟨value, rest, rfl⟩ := exists_cons_of_ne_nil hside.2
    rw [argumentWords, if_neg ho, if_neg (show ¬ isJoinedOutput word = true from hjoined),
      if_pos hside.1]
    rfl
  all_goals
    have hjoined' : isJoinedOutput word = false := Bool.eq_false_iff.mpr hjoined
    have hnoSide : word ∈ sideOutputFlags → rest = [] := fun hmem => by
      by_contra hne
      exact hside ⟨hmem, hne⟩
  · exact argumentWords_sideOutput (by rw [any_append, heq]; rfl) ho hjoined' hnoSide
  · exact argumentWords_sideOutput (by rw [any_append, hcomma, Bool.or_true]) ho hjoined' hnoSide
  · subst hx
    exact argumentWords_xlinker h
  · cases h
  · obtain ⟨rfl, hne⟩ := hT
    obtain ⟨value, rest, rfl⟩ := exists_cons_of_ne_nil hne
    rfl
  · rw [argumentWords_cons ho hjoined' hnoSide (fun hmem => absurd hmem hx), tagged_ofPlainWord h]
    · rfl
    · rintro rfl
      by_contra hne
      exact hT ⟨rfl, hne⟩

theorem length_nextLinkItem_le (word : Str) (rest : List Str) :
    (nextLinkItem word rest).2.length ≤ rest.length := by
  have hx : ∀ rest : List Str, (LinkItem.ofXlinker rest).2.length ≤ rest.length := by
    intro rest
    fun_cases LinkItem.ofXlinker rest <;> simp
    omega
  fun_cases nextLinkItem word rest <;> simp [hx]

theorem argumentWords_linkItemsFuel {turns : Nat} {words : List Str} (hturns : words.length ≤ turns)
    (h : ∀ item ∈ linkItemsFuel turns words, item.goesOn = true) :
    argumentWords words =
      ((linkItemsFuel turns words).flatMap LinkItem.kept).map LinkWord.tagged := by
  induction turns generalizing words with
  | zero =>
    rw [length_eq_zero_iff.mp (Nat.le_zero.mp hturns)]
    rfl
  | succ turns ih =>
    cases words with
    | nil => rfl
    | cons word rest =>
      obtain ⟨hitem, hitems⟩ := forall_mem_cons.mp h
      have hle := length_nextLinkItem_le word rest
      rw [argumentWords_next word rest hitem, linkItemsFuel, flatMap_cons, map_append,
        ih (by rw [length_cons] at hturns; omega) hitems]

/-- The words an accepted link keeps are its argument list. -/
theorem argumentWords_keptWords {readFile : ReadFile} {rawArgv argv : List Str}
    (hexpand : expandResponseFiles readFile rawArgv = some argv)
    (h : (parseLink readFile rawArgv).Accepted) :
    argumentWords argv.tail = (keptWords argv).map LinkWord.tagged :=
  argumentWords_linkItemsFuel (Nat.le_refl _) (parseLink_accepted hexpand h).2.2

/-! ## Layout -/

theorem canonicalWords_eq_of_tagged {roots : RootMap} {argv argv' : List Str}
    (h : canonicalTaggedWords roots argv = canonicalTaggedWords roots argv') :
    canonicalWords roots argv = canonicalWords roots argv' := by
  have hsnd := congrArg (map Prod.snd) h
  simpa [canonicalTaggedWords, canonicalWords, Function.comp_def] using hsnd

theorem linkLayout_eq_of_tagged {roots : RootMap} {argv argv' : List Str}
    (h : canonicalTaggedWords roots argv = canonicalTaggedWords roots argv') :
    linkLayout argv = linkLayout argv' := by
  have hfst := congrArg (map Prod.fst) h
  simpa [canonicalTaggedWords, linkLayout, Function.comp_def] using hfst

/-- Where words that read alike were taken alike, equal sequences have one layout. -/
theorem roles_eq_of_texts {f : Str → Str} {ws ws' : List (LinkRole × Str)}
    (halike : ∀ w ∈ ws, ∀ w' ∈ ws', f w.2 = f w'.2 → w.1 = w'.1)
    (h : ws.map (fun w => f w.2) = ws'.map (fun w => f w.2)) :
    ws.map Prod.fst = ws'.map Prod.fst := by
  induction ws generalizing ws' with
  | nil => exact congrArg (map Prod.fst) (map_eq_nil_iff.mp h.symm).symm
  | cons w ws ih =>
    obtain ⟨w', ws', rfl, hhead, htail⟩ := map_eq_cons_iff.mp h.symm
    have hrest := ih (fun v hv v' hv' => halike v (mem_cons_of_mem _ hv) v'
      (mem_cons_of_mem _ hv')) htail.symm
    rw [map_cons, map_cons, hrest, halike w mem_cons_self w' mem_cons_self hhead.symm]

/-- The words of the two lists put back in the order of their roles. -/
def weave : List LinkRole → List Str → List Str → List (LinkRole × Str)
  | .key :: roles, text :: keys, inputs => (.key, text) :: weave roles keys inputs
  | .input :: roles, keys, path :: inputs => (.input, path) :: weave roles keys inputs
  | .script :: roles, text :: keys, _ :: inputs => (.script, text) :: weave roles keys inputs
  | _, _, _ => []

theorem weave_lists (f : Str → Str) (ws : List LinkWord) :
    weave (ws.map LinkWord.role) ((ws.filterMap LinkWord.keyArg?).map f)
      ((ws.filterMap LinkWord.input?).map f) = ws.map (fun w => (w.role, f w.text)) := by
  induction ws with
  | nil => rfl
  | cons w ws ih =>
    cases w <;> exact congrArg (_ :: ·) ih

theorem tagged_eq_of_lists (f : Str → Str) {ws ws' : List LinkWord}
    (hrole : ws.map LinkWord.role = ws'.map LinkWord.role)
    (hkeys : (ws.filterMap LinkWord.keyArg?).map f = (ws'.filterMap LinkWord.keyArg?).map f)
    (hinputs : (ws.filterMap LinkWord.input?).map f = (ws'.filterMap LinkWord.input?).map f) :
    ws.map (fun w => (w.role, f w.text)) = ws'.map (fun w => (w.role, f w.text)) := by
  rw [← weave_lists, ← weave_lists, hrole, hkeys, hinputs]

theorem length_filterMap_keyArg {ws ws' : List LinkWord}
    (hrole : ws.map LinkWord.role = ws'.map LinkWord.role) :
    (ws.filterMap LinkWord.keyArg?).length = (ws'.filterMap LinkWord.keyArg?).length := by
  have hcount : ∀ ws : List LinkWord, (ws.filterMap keyArg?).length =
      (ws.map role).countP (fun role => role ≠ .input) := by
    intro ws
    induction ws with
    | nil => rfl
    | cons w ws ih =>
      rw [map_cons, countP_cons, ← ih]
      cases w <;> simp [filterMap_cons, keyArg?, role]
  rw [hcount, hcount, hrole]

/-! ## What the stream determines -/

namespace LinkSetting

variable {cfg : LinkSetting} {hashP hashQ : Str → Option Str} {p q : LinkArgs}

/-- Two equal streams over commands with equally many key arguments agree on the key
arguments and, input by input, on the names and digests. -/
theorem preKeyStream_inj (hp : ∀ piece ∈ cfg.preKeyPieces hashP p, FitsSize piece)
    (hq : ∀ piece ∈ cfg.preKeyPieces hashQ q, FitsSize piece)
    (h : cfg.preKeyStream hashP p = cfg.preKeyStream hashQ q)
    (hlen : p.keyArgs.length = q.keyArgs.length) :
    p.keyArgs.map cfg.roots.canonicalizeText = q.keyArgs.map cfg.roots.canonicalizeText ∧
      p.inputs.map (cfg.inputPieces hashP) = q.inputs.map (cfg.inputPieces hashQ) := by
  have hpieces := delimitedStream_inj hp hq h
  simp only [preKeyPieces, append_assoc] at hpieces
  have hlists := append_cancel_left hpieces
  obtain ⟨hkeys, hrest⟩ := append_inj hlists (by simp [hlen])
  refine ⟨hkeys, ?_⟩
  have hwidth : ∀ hash path, (cfg.inputPieces hash path).length = 2 := fun _ _ => rfl
  exact Framing.map_eq_of_flatMap_eq Nat.two_pos (hwidth hashP) (hwidth hashQ)
    (append_cancel_right hrest)

theorem preKeyPieces_eq_flatten (hash : Str → Option Str) :
    cfg.preKeyPieces hash p =
      (([kLinkKeyVersion, cfg.driverFingerprint, cfg.roots.fingerprint] ++
          p.keyArgs.map cfg.roots.canonicalizeText).map (fun piece => [piece]) ++
        p.inputs.map (cfg.inputPieces hash) ++
        cfg.envPieces.map (fun piece => [piece])).flatten := by
  rw [flatten_append, flatten_append, Framing.flatten_map_singleton,
    Framing.flatten_map_singleton]
  rfl

end LinkSetting

/-- Under equal streams the argument lists of two accepted links have the same canonical
words, with the same roles, exactly when their layouts agree. The sequences of words are then
equal, and conversely equal sequences have one layout unless two words that canonicalise alike
have different roles. -/
theorem linkPreKey_determines_iff (cfg : LinkSetting) (hashP hashQ : Str → Option Str)
    {readP readQ : ReadFile} {rawP rawQ argvP argvQ : List Str}
    (hargvP : expandResponseFiles readP rawP = some argvP)
    (hargvQ : expandResponseFiles readQ rawQ = some argvQ)
    (hp : (parseLink readP rawP).Accepted) (hq : (parseLink readQ rawQ).Accepted)
    (hpfits : ∀ piece ∈ cfg.preKeyPieces hashP (parseLink readP rawP), FitsSize piece)
    (hqfits : ∀ piece ∈ cfg.preKeyPieces hashQ (parseLink readQ rawQ), FitsSize piece)
    (h : cfg.preKeyStream hashP (parseLink readP rawP) =
      cfg.preKeyStream hashQ (parseLink readQ rawQ)) :
    (canonicalTaggedWords cfg.roots argvP = canonicalTaggedWords cfg.roots argvQ ↔
      linkLayout argvP = linkLayout argvQ) ∧
    (linkLayout argvP = linkLayout argvQ →
      canonicalWords cfg.roots argvP = canonicalWords cfg.roots argvQ) ∧
    ((∀ w ∈ argumentWords argvP.tail, ∀ w' ∈ argumentWords argvQ.tail,
        cfg.roots.canonicalizeText w.2 = cfg.roots.canonicalizeText w'.2 → w.1 = w'.1) →
      canonicalWords cfg.roots argvP = canonicalWords cfg.roots argvQ →
      linkLayout argvP = linkLayout argvQ) := by
  obtain ⟨hpkeys, hpinputs, -⟩ := parseLink_accepted hargvP hp
  obtain ⟨hqkeys, hqinputs, -⟩ := parseLink_accepted hargvQ hq
  have htagged : linkLayout argvP = linkLayout argvQ →
      canonicalTaggedWords cfg.roots argvP = canonicalTaggedWords cfg.roots argvQ := by
    intro hlayout
    simp only [linkLayout, canonicalTaggedWords, argumentWords_keptWords hargvP hp,
      argumentWords_keptWords hargvQ hq, map_map] at hlayout ⊢
    have hlen : (parseLink readP rawP).keyArgs.length = (parseLink readQ rawQ).keyArgs.length := by
      rw [hpkeys, hqkeys]
      exact length_filterMap_keyArg hlayout
    obtain ⟨hkeys, hinputs⟩ := LinkSetting.preKeyStream_inj hpfits hqfits h hlen
    have hnames := congrArg (map (fun piece => piece.headD [])) hinputs
    simp only [map_map, Function.comp_def, LinkSetting.inputPieces, headD_cons] at hnames
    rw [hpkeys, hqkeys] at hkeys
    rw [hpinputs, hqinputs] at hnames
    exact tagged_eq_of_lists cfg.roots.canonicalizeText hlayout hkeys hnames
  refine ⟨⟨linkLayout_eq_of_tagged, htagged⟩, ?_, roles_eq_of_texts⟩
  intro hlayout
  exact canonicalWords_eq_of_tagged (htagged hlayout)

/-! ## A library before and after the object that needs it -/

def plainSetting : LinkSetting := ⟨⟨[], List.Pairwise.nil⟩, "driver".toList, fun _ => []⟩

def wordsOf (line : String) : List Str := splitSkipEmpty ' ' line.toList

/-- Where the output goes does not matter, nor which words come from a file. -/
theorem linkPreKey_determines_outputs :
    expandResponseFiles (fun _ => some "a.o -lfoo".toList) (wordsOf "cc @r -o x") =
        some (wordsOf "cc a.o -lfoo -o x") ∧
      canonicalWords plainSetting.roots (wordsOf "cc a.o -lfoo -o x") =
        canonicalWords plainSetting.roots (wordsOf "cc -oy a.o -lfoo") := by
  have hp : expandResponseFiles (fun _ => some "a.o -lfoo".toList) (wordsOf "cc @r -o x") =
      some (wordsOf "cc a.o -lfoo -o x") := by decide
  have hq : expandResponseFiles (fun _ => none) (wordsOf "cc -oy a.o -lfoo") =
      some (wordsOf "cc -oy a.o -lfoo") := by decide
  exact ⟨hp, (linkPreKey_determines_iff plainSetting (fun _ => none) (fun _ => none) hp hq
    (by decide) (by decide) (by decide) (by decide)
    (congrArg delimitedStream (by decide))).2.1 (by decide)⟩

/-- `-lfoo a.o` and `a.o -lfoo` are different links with one pre-key. -/
theorem linkPreKey_loses_order :
    let p := parseLink (fun _ => none) (wordsOf "cc -lfoo a.o -o x")
    let q := parseLink (fun _ => none) (wordsOf "cc a.o -lfoo -o x")
    p.Accepted ∧ q.Accepted ∧
      plainSetting.preKeyStream (fun _ => some "d".toList) p =
        plainSetting.preKeyStream (fun _ => some "d".toList) q ∧
      canonicalWords plainSetting.roots (wordsOf "cc -lfoo a.o -o x") ≠
        canonicalWords plainSetting.roots (wordsOf "cc a.o -lfoo -o x") :=
  ⟨by decide, by decide, congrArg delimitedStream (by decide), by decide⟩

end Vcache

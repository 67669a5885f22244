import Vcache.CommandLine

/-!
# Parsing of link command lines

`ParseLink` walks the expanded argument list once. Each turn of its loop takes
one, two or four words; `nextLinkItem` says which branch takes them, in the
source's order, and `LinkItem.kept` what the branch pushes to `key_args` and
`inputs`. The two lists are hashed one after the other, so the interleaving of
an item list survives only in the items.
-/

namespace Vcache

open List

/-! ## What words look like -/

def afterFirst (c : Char) (s : Str) : Str := (s.dropWhile (· != c)).drop 1

def firstAfter (needle : Str) : Str → Option Str
  | [] => if needle.isEmpty then some [] else none
  | c :: s => if startsWith (c :: s) needle then some ((c :: s).drop needle.length)
    else firstAfter needle s

/-- `.so`, `.so.1`, `.so.1.2.3`. -/
def looksLikeSharedLib (p : Str) : Bool :=
  match firstAfter ".so".toList p with
  | none => false
  | some version => version.all (fun c => c == '.' || isDigit c)

def sourceExtensions : List Str :=
  [".c", ".cc", ".cpp", ".cxx", ".c++", ".C", ".m", ".mm", ".s", ".S", ".i", ".ii"].map
    String.toList

def looksLikeSource (p : Str) : Bool := sourceExtensions.any (endsWith p)

def looksLikeLinkInput (p : Str) : Bool :=
  endsWith p ".o".toList || endsWith p ".obj".toList || endsWith p ".a".toList ||
    endsWith p ".lo".toList || looksLikeSharedLib p

def otherPhaseFlags : List Str :=
  ["-c", "-E", "-S", "-M", "-MM", "-fsyntax-only"].map String.toList

def sideOutputFlags : List Str := ["-Map", "--Map", "--dependency-file"].map String.toList

def sideOutputEqPrefixes : List Str :=
  ["-Map=", "--Map=", "--dependency-file=", "-Wl,-Map=", "-Wl,--Map=",
    "-Wl,--dependency-file="].map String.toList

def sideOutputCommaPrefixes : List Str :=
  ["-Wl,-Map,", "-Wl,--Map,", "-Wl,--dependency-file,"].map String.toList

def forwardedSideOutputPrefixes : List Str :=
  ["-Map=", "--Map=", "--dependency-file="].map String.toList

def scriptPrefixes : List Str :=
  ["-Wl,--version-script=", "-Wl,--dynamic-list=", "-Wl,-T,",
    "-Wl,--retain-symbols-file="].map String.toList

def xlinkerFlag : Str := "-Xlinker".toList

def buildIdUuid : Str := "--build-id=uuid".toList

/-! ## One turn of the loop -/

/-- The branch a turn of the loop takes, with the words it took. -/
inductive LinkItem where
  /-- `-c`, `-E`, ...: not a link at all -/
  | otherPhase (word : Str)
  /-- `-o` with nothing after it -/
  | outputMissing
  | output (path : Str)
  | outputJoined (path : Str)
  /-- `-Map path` -/
  | sideOutput (flag path : Str)
  /-- `-Map=path` or `-Wl,-Map,path` -/
  | sideOutputJoined (word path : Str)
  /-- `-Xlinker` with nothing after it -/
  | xlinkerMissing
  | xlinker (forwarded : Str)
  /-- `-Xlinker -Map` without `-Xlinker path` after it -/
  | xlinkerCut (forwarded : Str)
  /-- `-Xlinker -Map -Xlinker path` -/
  | xlinkerSideOutput (forwarded path : Str)
  | buildId (word : Str)
  /-- `-T path` -/
  | script (path : Str)
  /-- `-Wl,-T,path` and its siblings -/
  | scriptJoined (flag path : Str)
  | flag (word : Str)
  | source (word : Str)
  | input (path : Str)
  | other (word : Str)
deriving DecidableEq, Repr

namespace LinkItem

/-- A word of the command line that is neither a flag nor a flag's value. -/
def ofBareWord (a : Str) : LinkItem :=
  if looksLikeSource a then source a
  else if looksLikeLinkInput a then input a
  else other a

/-- A word no earlier branch of the loop took. -/
def ofPlainWord (a : Str) : LinkItem :=
  match scriptPrefixes.find? (fun opt => startsWith a opt && opt.length < a.length) with
  | some opt => scriptJoined opt (a.drop opt.length)
  | none => if a.head? = some '-' then flag a else ofBareWord a

/-- The `-Xlinker` branch, given the words after `-Xlinker`. -/
def ofXlinker : List Str → LinkItem × List Str
  | [] => (xlinkerMissing, [])
  | forwarded :: rest =>
    if forwarded ∈ sideOutputFlags then
      match rest with
      | again :: path :: rest' =>
        if again = xlinkerFlag then (xlinkerSideOutput forwarded path, rest')
        else (xlinkerCut forwarded, rest)
      | _ => (xlinkerCut forwarded, rest)
    else (xlinker forwarded, rest)

end LinkItem

open LinkItem in
/-- One turn of the loop of `ParseLink` at the word `a`, with the words left. -/
def nextLinkItem (a : Str) (rest : List Str) : LinkItem × List Str :=
  if a ∈ otherPhaseFlags then (otherPhase a, rest)
  else if a = "-o".toList then
    match rest with
    | [] => (outputMissing, [])
    | path :: rest' => (output path, rest')
  else if startsWith a "-o".toList && 2 < a.length && (a.drop 2).head? != some '-' then
    (outputJoined (a.drop 2), rest)
  else if a ∈ sideOutputFlags ∧ rest ≠ [] then (sideOutput a (rest.headD []), rest.tail)
  else if sideOutputEqPrefixes.any (startsWith a) then
    (sideOutputJoined a (afterFirst '=' a), rest)
  else if sideOutputCommaPrefixes.any (startsWith a) then
    (sideOutputJoined a (afterFirst ',' (a.drop 4)), rest)
  else if a = xlinkerFlag then ofXlinker rest
  else if a = "-Wl,".toList ++ buildIdUuid ∨ a = buildIdUuid then (buildId a, rest)
  else if a = "-T".toList ∧ rest ≠ [] then (script (rest.headD []), rest.tail)
  else (ofPlainWord a, rest)

/-- The turns the loop takes over the words after the driver. Every turn takes a
word, so as many turns as there are words are enough. -/
def linkItemsFuel : Nat → List Str → List LinkItem
  | 0, _ => []
  | _ + 1, [] => []
  | turns + 1, a :: rest =>
    (nextLinkItem a rest).1 :: linkItemsFuel turns (nextLinkItem a rest).2

def linkItems (words : List Str) : List LinkItem := linkItemsFuel words.length words

/-! ## What a turn records -/

/-- A word the parser keeps for the key. -/
inductive LinkWord where
  /-- pushed to `key_args` -/
  | key (text : Str)
  /-- pushed to `inputs` -/
  | input (path : Str)
  /-- pushed to `key_args` whole and to `inputs` without its flag -/
  | script (flag path : Str)
deriving DecidableEq, Repr

namespace LinkWord

def text : LinkWord → Str
  | key text => text
  | input path => path
  | script flag path => flag ++ path

def keyArg? : LinkWord → Option Str
  | key text => some text
  | input _ => none
  | script flag path => some (flag ++ path)

def input? : LinkWord → Option Str
  | key _ => none
  | input path => some path
  | script _ path => some path

end LinkWord

namespace LinkItem

/-- What the turn pushes to `key_args` and `inputs`. -/
def kept : LinkItem → List LinkWord
  | sideOutput opt _ => [.key opt]
  | sideOutputJoined word _ => [.key word]
  | xlinker forwarded => [.key xlinkerFlag, .key forwarded]
  | xlinkerCut forwarded => [.key xlinkerFlag, .key forwarded]
  | xlinkerSideOutput forwarded path =>
    [.key xlinkerFlag, .key forwarded, .key xlinkerFlag, .key path]
  | buildId word => [.key word]
  | script path => [.key "-T".toList, .input path]
  | scriptJoined opt path => [.script opt path]
  | flag word => [.key word]
  | input path => [.input path]
  | other word => [.key word]
  | otherPhase _ | outputMissing | output _ | outputJoined _ | xlinkerMissing | source _ => []

def extraOutput? : LinkItem → Option Str
  | sideOutput _ path => some path
  | sideOutputJoined _ path => some path
  | xlinkerSideOutput _ path => some path
  | xlinker forwarded =>
    if forwardedSideOutputPrefixes.any (startsWith forwarded) then some (afterFirst '=' forwarded)
    else none
  | _ => none

def output? : LinkItem → Option Str
  | output path => some path
  | outputJoined path => some path
  | _ => none

def pending? : LinkItem → Option Decision
  | xlinkerMissing => some ⟨.missingFlagValue, xlinkerFlag⟩
  | xlinkerCut forwarded => some ⟨.missingFlagValue, xlinkerFlag ++ " ".toList ++ forwarded⟩
  | xlinker forwarded => if forwarded = buildIdUuid then some ⟨.buildIdUuid, []⟩ else none
  | buildId _ => some ⟨.buildIdUuid, []⟩
  | _ => none

def isInput : LinkItem → Bool
  | input _ => true
  | _ => false

def isSource : LinkItem → Bool
  | source _ => true
  | _ => false

/-- The turn is a `return` inside the loop. -/
def returns : LinkItem → Bool
  | otherPhase _ | outputMissing => true
  | _ => false

/-- The turn neither returns nor keeps the command from being cached. -/
def goesOn (item : LinkItem) : Bool := !item.returns && item.pending?.isNone && !item.isSource

end LinkItem

structure LinkArgs where
  argv : List Str := []
  driver : Str := []
  output : Str := []
  inputs : List Str := []
  extraOutputs : List Str := []
  keyArgs : List Str := []
  isLink : Bool := false
  uncacheable : Option Decision := none
deriving DecidableEq, Repr

/-- The locals of `ParseLink` beside its result. -/
structure LinkParse where
  result : LinkArgs
  sawInput : Bool := false
  sawSource : Bool := false
  pendingUncacheable : Option Decision := none

/-- What every turn that does not return does. -/
def LinkParse.record (st : LinkParse) (item : LinkItem) : LinkParse where
  result := { st.result with
    output := item.output?.getD st.result.output
    inputs := st.result.inputs ++ item.kept.filterMap LinkWord.input?
    extraOutputs := st.result.extraOutputs ++ item.extraOutput?.toList
    keyArgs := st.result.keyArgs ++ item.kept.filterMap LinkWord.keyArg? }
  sawInput := st.sawInput || item.isInput
  sawSource := st.sawSource || item.isSource
  pendingUncacheable := item.pending?.or st.pendingUncacheable

/-- One turn on the parser's state; `error` is a `return` inside the loop. -/
def LinkParse.push (st : LinkParse) : LinkItem → Except LinkArgs LinkParse
  | .otherPhase _ => .error st.result
  | .outputMissing =>
    .error { st.result with uncacheable := some ⟨.missingFlagValue, "-o".toList⟩ }
  | item => .ok (st.record item)

def LinkParse.finish (st : LinkParse) : LinkArgs :=
  let r := st.result
  if !st.sawInput && r.inputs.isEmpty then r
  else
    let r := { r with isLink := true }
    match st.pendingUncacheable with
    | some decision => { r with uncacheable := some decision }
    | none =>
      if st.sawSource then { r with uncacheable := some ⟨.compileAndLink, []⟩ }
      else if r.output = [] then { r with uncacheable := some ⟨.noOutputFlag, []⟩ }
      else if r.output = "/dev/null".toList ∨ r.output = "-".toList then
        { r with uncacheable := some ⟨.outputNotAFile, []⟩ }
      else r

def runLinkItems (argv : List Str) : LinkArgs :=
  match (linkItems argv.tail).foldlM LinkParse.push ⟨{ argv, driver := argv.headD [] }, false,
    false, none⟩ with
  | .error result => result
  | .ok st => st.finish

def parseLink (readFile : ReadFile) (rawArgv : List Str) : LinkArgs :=
  if rawArgv = [] then { uncacheable := some ⟨.emptyCommandLine, []⟩ }
  else match expandResponseFiles readFile rawArgv with
    | none => { uncacheable := some ⟨.badResponseFile, []⟩ }
    | some argv => runLinkItems argv

/-- A link the caller goes on to cache. -/
def LinkArgs.Accepted (p : LinkArgs) : Prop := p.isLink = true ∧ p.uncacheable = none

instance (p : LinkArgs) : Decidable p.Accepted := inferInstanceAs (Decidable (_ ∧ _))

/-! ## What an accepted command recorded -/

def keptWords (argv : List Str) : List LinkWord := (linkItems argv.tail).flatMap LinkItem.kept

def recordedFiles (items : List LinkItem) : List Str :=
  items.flatMap (fun item => item.extraOutput?.toList)

/-- The decision that is pending behind the items. -/
def pendingOf (items : List LinkItem) (pending : Option Decision) : Option Decision :=
  items.foldl (fun pending item => item.pending?.or pending) pending

theorem pendingOf_eq_none {items : List LinkItem} {pending : Option Decision}
    (h : pendingOf items pending = none) :
    pending = none ∧ ∀ item ∈ items, item.pending? = none := by
  induction items generalizing pending with
  | nil => exact ⟨h, by simp⟩
  | cons item items ih =>
    obtain ⟨hfirst, hitems⟩ := ih h
    obtain ⟨hitem, hpending⟩ := Option.or_eq_none_iff.mp hfirst
    exact ⟨hpending, forall_mem_cons.mpr ⟨hitem, hitems⟩⟩

namespace LinkParse

theorem push_cases (st : LinkParse) (item : LinkItem) :
    item.returns = false ∧ st.push item = .ok (st.record item) ∨
      ∃ r, st.push item = .error r ∧ r.isLink = st.result.isLink := by
  cases item with
  | otherPhase word | outputMissing => exact .inr ⟨_, rfl, rfl⟩
  | _ => exact .inl ⟨rfl, rfl⟩

theorem foldlM_push (items : List LinkItem) (st : LinkParse) :
    (∀ item ∈ items, item.returns = false) ∧
        items.foldlM push st = .ok (items.foldl record st) ∨
      ∃ r, items.foldlM push st = .error r ∧ r.isLink = st.result.isLink := by
  induction items generalizing st with
  | nil => exact .inl ⟨by simp, rfl⟩
  | cons item items ih =>
    rw [foldlM_cons]
    rcases st.push_cases item with ⟨hitem, hpush⟩ | ⟨r, hpush, hlink⟩
    · rw [hpush]
      rcases ih (st.record item) with ⟨hitems, hrun⟩ | hrun
      · exact .inl ⟨forall_mem_cons.mpr ⟨hitem, hitems⟩, hrun⟩
      · exact .inr hrun
    · rw [hpush]
      exact .inr ⟨r, rfl, hlink⟩

/-- What the turns leave in the parser's state. -/
theorem foldl_record (items : List LinkItem) (st : LinkParse) :
    let st' := items.foldl record st
    st'.result.keyArgs =
        st.result.keyArgs ++ (items.flatMap LinkItem.kept).filterMap LinkWord.keyArg? ∧
      st'.result.inputs =
        st.result.inputs ++ (items.flatMap LinkItem.kept).filterMap LinkWord.input? ∧
      st'.result.extraOutputs = st.result.extraOutputs ++ recordedFiles items ∧
      st'.pendingUncacheable = pendingOf items st.pendingUncacheable ∧
      st'.sawSource = (st.sawSource || items.any LinkItem.isSource) ∧
      st'.result.argv = st.result.argv ∧ st'.result.uncacheable = st.result.uncacheable ∧
      st'.result.isLink = st.result.isLink := by
  induction items generalizing st with
  | nil => exact ⟨by simp, by simp, by simp [recordedFiles], rfl, by simp, rfl, rfl, rfl⟩
  | cons item items ih =>
    obtain ⟨hkeys, hinputs, hfiles, hpending, hsource, hkept⟩ := ih (st.record item)
    refine ⟨hkeys.trans ?_, hinputs.trans ?_, hfiles.trans (append_assoc ..), hpending,
      hsource.trans (Bool.or_assoc ..), hkept⟩
    · rw [flatMap_cons, filterMap_append]
      exact append_assoc ..
    · rw [flatMap_cons, filterMap_append]
      exact append_assoc ..

theorem finish_link {st : LinkParse} (hresult : st.result.isLink = false)
    (hnone : st.result.uncacheable = none) (hlink : st.finish.isLink = true) :
    ∃ late, st.finish =
        { st.result with isLink := true, uncacheable := st.pendingUncacheable.or late } ∧
      late ≠ some ⟨.buildIdUuid, []⟩ ∧ (late = none → st.sawSource = false) := by
  unfold finish at hlink ⊢
  by_cases hno : (!st.sawInput && st.result.inputs.isEmpty) = true
  · simp only [if_pos hno, hresult] at hlink
    cases hlink
  · simp only [if_neg hno]
    cases st.pendingUncacheable with
    | some decision => exact ⟨some ⟨.compileAndLink, []⟩, rfl, by simp, by simp⟩
    | none =>
      simp only
      split_ifs with hsource
      · exact ⟨_, rfl, by simp, by simp⟩
      · exact ⟨_, rfl, by simp, by simp⟩
      · exact ⟨_, rfl, by simp, by simp⟩
      · exact ⟨none, by rw [Option.or_none, hnone], by simp, fun _ => Bool.eq_false_iff.mpr hsource⟩

end LinkParse

/-- What is recorded for a link; a decision made behind the loop comes after the pending one. -/
structure LinkRecorded (argv : List Str) (r : LinkArgs) (late : Option Decision) : Prop where
  argv_eq : r.argv = argv
  keyArgs : r.keyArgs = (keptWords argv).filterMap LinkWord.keyArg?
  inputs : r.inputs = (keptWords argv).filterMap LinkWord.input?
  extraOutputs : r.extraOutputs = recordedFiles (linkItems argv.tail)
  uncacheable : r.uncacheable = (pendingOf (linkItems argv.tail) none).or late
  late_ne : late ≠ some ⟨.buildIdUuid, []⟩
  source : late = none → (linkItems argv.tail).any LinkItem.isSource = false
  stays : ∀ item ∈ linkItems argv.tail, item.returns = false

theorem runLinkItems_link {argv : List Str} (hlink : (runLinkItems argv).isLink = true) :
    ∃ late, LinkRecorded argv (runLinkItems argv) late := by
  unfold runLinkItems at hlink ⊢
  rcases LinkParse.foldlM_push (linkItems argv.tail)
    ⟨{ argv, driver := argv.headD [] }, false, false, none⟩ with ⟨hstays, hrun⟩ | ⟨r, hrun, hr⟩
  · rw [hrun] at hlink ⊢
    obtain ⟨hkeys, hinputs, hfiles, hpending, hsource, hargv, hnone, hresult⟩ :=
      LinkParse.foldl_record (linkItems argv.tail)
        ⟨{ argv, driver := argv.headD [] }, false, false, none⟩
    obtain ⟨late, hfinish, hne, hlate⟩ := LinkParse.finish_link hresult hnone hlink
    refine ⟨late, ?_⟩
    simp only [hfinish]
    exact ⟨hargv, hkeys, hinputs, hfiles, congrArg (Option.or · late) hpending, hne,
      fun h => hsource.symm.trans (hlate h), hstays⟩
  · rw [hrun] at hlink
    exact absurd (hr.symm.trans hlink) Bool.false_ne_true

theorem parseLink_link {readFile : ReadFile} {rawArgv : List Str}
    (hlink : (parseLink readFile rawArgv).isLink = true) :
    ∃ argv late, expandResponseFiles readFile rawArgv = some argv ∧
      LinkRecorded argv (parseLink readFile rawArgv) late := by
  unfold parseLink at hlink ⊢
  split_ifs at hlink ⊢ with hempty
  cases hexpand : expandResponseFiles readFile rawArgv with
  | none =>
    rw [hexpand] at hlink
    cases hlink
  | some argv =>
    rw [hexpand] at hlink
    obtain ⟨late, hrecorded⟩ := runLinkItems_link hlink
    exact ⟨argv, late, rfl, hrecorded⟩

/-- The key arguments and named inputs of an accepted link are its kept words, and every turn
went on. -/
theorem parseLink_accepted {readFile : ReadFile} {rawArgv argv : List Str}
    (hexpand : expandResponseFiles readFile rawArgv = some argv)
    (h : (parseLink readFile rawArgv).Accepted) :
    (parseLink readFile rawArgv).keyArgs = (keptWords argv).filterMap LinkWord.keyArg? ∧
      (parseLink readFile rawArgv).inputs = (keptWords argv).filterMap LinkWord.input? ∧
      ∀ item ∈ linkItems argv.tail, item.goesOn = true := by
  obtain ⟨argv', late, hexpand', hr⟩ := parseLink_link h.1
  obtain rfl : argv = argv' := Option.some.inj (hexpand.symm.trans hexpand')
  refine ⟨hr.keyArgs, hr.inputs, fun item hitem => ?_⟩
  obtain ⟨hpending, hlate⟩ := Option.or_eq_none_iff.mp (hr.uncacheable.symm.trans h.2)
  have hsource := Bool.eq_false_iff.mpr (any_eq_false.mp (hr.source hlate) item hitem)
  simp [LinkItem.goesOn, hr.stays item hitem, (pendingOf_eq_none hpending).2 item hitem, hsource]

end Vcache

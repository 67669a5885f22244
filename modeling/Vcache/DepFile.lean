import Vcache.Peg
import Vcache.Roots

/-!
# Dependency files

`ParseDepFile` reads a Makefile fragment with a grammar over characters: escapes
and `$$` inside tokens, blanks and continued lines between them, one rule a line.
`RenderDepFile` writes one line a rule (`core/depfile`). rustc's `# env-dep:`
lines are taken out before the grammar runs.
-/

namespace Vcache

open Peg

structure DepRule where
  targets : List Str
  prerequisites : List Str
deriving DecidableEq

structure DepEnv where
  name : Str
  value : Option Str
deriving DecidableEq

structure DepFile where
  rules : List DepRule
  envDeps : List DepEnv := []
deriving DecidableEq

/-! ## The grammar -/

def eol : Parser Char Unit
  | '\r' :: '\n' :: s => some ((), s)
  | '\r' :: s => some ((), s)
  | '\n' :: s => some ((), s)
  | _ => none

/-- A backslash before a line end continues the line and counts as a blank. -/
def skipper : Parser Char Unit :=
  choice (value (fun _ => ()) (satisfy isBlank)) (value (fun _ => ()) (seq (lit '\\') eol))

def pathChar : Parser Char Char :=
  choice (value Prod.snd (seq (lit '\\') (satisfy (fun c => c ∈ [' ', '\t', '\\', '#', ':']))))
    (choice (value (fun _ => '$') (seq (lit '$') (lit '$')))
      (satisfy (fun c => !isSpace c && c != ':' && c != '\\')))

/-- Nothing is skipped inside a token. -/
def pathToken : Parser Char Str := skipping skipper (many1 pathChar)

def ruleTargets : Parser Char (List Str) := many1 pathToken

def rulePrereqs : Parser Char (List Str) := many pathToken

def depRule : Parser Char DepRule :=
  value (fun r => ⟨r.1, r.2.2⟩) (seq ruleTargets (seq (skipping skipper (lit ':')) rulePrereqs))

def depFile : Parser Char (List DepRule) :=
  value (fun r => r.2.1.getD []) (seq (many (skipping skipper eol))
    (seq (optional (sepBy1 depRule (many1 (skipping skipper eol)))) (many (skipping skipper eol))))

/-- `phrase_parse` up to the end of the input. -/
def parseDepRules (text : Str) : Option (List DepRule) :=
  match depFile text with
  | none => none
  | some (rules, rest) => if skip skipper rest = [] then some rules else none

/-! ## Environment lines -/

def kEnvDepPrefix : Str := "# env-dep:".toList

def envDepOf (line : Str) : Option DepEnv :=
  if startsWith line kEnvDepPrefix then
    let entry := line.drop kEnvDepPrefix.length
    match findChar '=' entry with
    | none => some ⟨entry, none⟩
    | some eq => some ⟨entry.take eq, some (entry.drop (eq + 1))⟩
  else none

def extractEnvLines : List Str → Str × List DepEnv
  | [] => ([], [])
  | [line] => match envDepOf line with
    | some env => ([], [env])
    | none => (line, [])
  | line :: lines =>
    let rest := extractEnvLines lines
    match envDepOf line with
    | some env => (rest.1, env :: rest.2)
    | none => (line ++ '\n' :: rest.1, rest.2)

def extractEnvDeps (text : Str) : Str × List DepEnv := extractEnvLines (split '\n' text)

def parseDepFile (text : Str) : Option DepFile :=
  let extracted := extractEnvDeps text
  let grammarInput := if extracted.2 = [] then text else extracted.1
  (parseDepRules grammarInput).map (fun rules => ⟨rules, extracted.2⟩)

/-! ## Writing -/

def escapeDepChar (c : Char) : Str :=
  if c = ' ' ∨ c = '\t' ∨ c = '#' ∨ c = '\\' then ['\\', c]
  else if c = '$' then ['$', '$']
  else [c]

def escapeDepPath (path : Str) : Str := path.flatMap escapeDepChar

def renderDepRule (rule : DepRule) : Str :=
  match rule.targets with
  | [] => []
  | target :: targets =>
    escapeDepPath target ++ targets.flatMap (fun t => ' ' :: escapeDepPath t) ++
      ':' :: rule.prerequisites.flatMap (fun p => ' ' :: escapeDepPath p) ++ ['\n']

def renderDepEnv (env : DepEnv) : Str :=
  kEnvDepPrefix ++ env.name ++ (match env.value with
    | none => []
    | some value => '=' :: value) ++ ['\n']

def renderDepFile (dep : DepFile) : Str :=
  dep.rules.flatMap renderDepRule ++ (if dep.envDeps = [] then [] else ['\n']) ++
    dep.envDeps.flatMap renderDepEnv

/-! ## Mapping -/

inductive MapDirection where
  | canonicalize
  | localize

def mapPath (roots : RootMap) : MapDirection → Str → Str
  | .canonicalize => roots.canonicalize
  | .localize => roots.localize

/-- An environment dependency that holds a path takes this process's own value where that
names the same canonical path. -/
def remapDepEnv (roots : RootMap) (direction : MapDirection) (pathEnvVars : List Str)
    (getenv : Str → Option Str) (env : DepEnv) : DepEnv :=
  match env.value with
  | none => env
  | some value =>
    if env.name ∉ pathEnvVars then env
    else match direction, getenv env.name with
      | .localize, some current =>
        if roots.canonicalize current = value then { env with value := some current }
        else { env with value := some (mapPath roots direction value) }
      | _, _ => { env with value := some (mapPath roots direction value) }

def remapDepRule (map : Str → Str) (rule : DepRule) : DepRule :=
  ⟨rule.targets.map map, rule.prerequisites.map map⟩

def remapDepFile (roots : RootMap) (direction : MapDirection) (pathEnvVars : List Str)
    (getenv : Str → Option Str) (dep : DepFile) : DepFile where
  rules := dep.rules.map (remapDepRule (mapPath roots direction))
  envDeps := dep.envDeps.map (remapDepEnv roots direction pathEnvVars getenv)

end Vcache

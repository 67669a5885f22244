import Vcache.Roots

/-!
# Rewriting roots inside text

`Canonicalize` rewrites a string that is a path; flags and diagnostics carry
paths inside other text. `ReplaceAll` looks for a root from left to right and
accepts an occurrence only where a path token can begin and the root's last
component can end.
-/

namespace Vcache

def endsPathToken (c : Char) : Bool :=
  [':', ',', ';', '\'', '"', ')', ']', '}', '>', ' ', '\t', '\n', '\r'].contains c

def precedesPathToken (c : Char) : Bool :=
  ['(', '[', '{', '<', '='].contains c || endsPathToken c

/-- `StartsPathToken`, walking left over the text before the match, given
nearest character first. -/
def startsPathToken : Str → Bool
  | [] => true
  | c :: before => if c = '/' then false else if precedesPathToken c then true
    else startsPathToken before

/-- `IsPathTokenBoundary`, given the text after the match. -/
def isPathTokenBoundary : Str → Bool
  | [] => true
  | '/' :: _ => true
  | '.' :: [] => true
  | '.' :: c :: _ => c == ' ' || c == '\t' || c == '\n' || c == '\r'
  | c :: _ => endsPathToken c

/-- The scan of `ReplaceAll`: `before` is the text already passed, nearest
character first, and `skip` how much of the last match is still to be passed. -/
def replaceAllFrom (old new : Str) : Nat → Str → Str → Str
  | _, _, [] => []
  | skip + 1, before, c :: text => replaceAllFrom old new skip (c :: before) text
  | 0, before, c :: text =>
    if startsWith (c :: text) old then
      (if startsPathToken before && isPathTokenBoundary ((c :: text).drop old.length)
        then new else old) ++ replaceAllFrom old new (old.length - 1) (c :: before) text
    else c :: replaceAllFrom old new 0 (c :: before) text

def replaceAll (text old new : Str) : Str :=
  if old = [] then text else replaceAllFrom old new 0 [] text

/-- Most specific root first. -/
def RootMap.canonicalizeText (m : RootMap) (text : Str) : Str :=
  m.roots.reverse.foldl (fun out r => replaceAll out r.path r.canonical) text

/-- The order in which `LocalizeText` takes the roots: longest canonical prefix first, then the
shorter path. -/
def Root.TextBefore (a b : Root) : Prop :=
  b.canonical.length < a.canonical.length ∨ (a.canonical.length = b.canonical.length ∧ a.Before b)

instance : DecidableRel Root.TextBefore := fun _ _ => inferInstanceAs (Decidable (_ ∨ _))

def RootMap.localizeText (m : RootMap) (text : Str) : Str :=
  (m.roots.insertionSort Root.TextBefore).foldl (fun out r => replaceAll out r.canonical r.path)
    text

example : replaceAll "-I/p/inc:/p-old:/opt/p".toList "/p".toList "/c".toList =
    "-I/c/inc:/p-old:/opt/p".toList := by decide

end Vcache

import Mathlib.Data.List.Induction

/-!
# Trees of files with symbolic links

A path is a list of steps taken from the root. Every step is taken from a
directory; a step into a symbolic link goes on with the link's own steps, at most
a fixed number of times. What is found is a node, or nothing is there, or the
walk is refused. Two facts carry over from walks to paths: nothing is below a
path with no entry, and steps that stay where they are matter only at the end.
-/

namespace FileTree

open List

variable {N C : Type*}

inductive Step (N : Type*) where
  | stay
  | up
  | into (name : N)
deriving DecidableEq

def Step.moves : Step N → Bool
  | .stay => false
  | .up | .into _ => true

theorem Step.moves_of_ne {step : Step N} (h : step ≠ .stay) : step.moves = true := by
  cases step with
  | stay => exact absurd rfl h
  | up => rfl
  | into name => rfl

inductive Node (N C : Type*) where
  | file (contents : C)
  | directory
  | special
  | link (absolute : Bool) (target : List (Step N))
deriving DecidableEq

structure Tree (N C : Type*) where
  node : List N → Option (Node N C)
  root : node [] = some .directory

/-- The outcome of a lookup; only `missing` shows that nothing is there. -/
inductive Lookup (α : Type*) where
  | found (value : α)
  | missing
  | refused
deriving DecidableEq

def Lookup.isFound {α : Type*} : Lookup α → Bool
  | .found _ => true
  | .missing | .refused => false

namespace Tree

variable (t : Tree N C)

/-- What one step from a place comes to. -/
inductive Move (N : Type*) where
  | goto (dir : List N)
  | follow (base : List N) (target : List (Step N))
  | blocked

def move (dir : List N) (step : Step N) : Move N :=
  match t.node dir with
  | some .directory => match step with
    | .stay => .goto dir
    | .up => .goto dir.dropLast
    | .into name => match t.node (dir ++ [name]) with
      | none => .blocked
      | some (.link absolute target) => .follow (if absolute then [] else dir) target
      | some _ => .goto (dir ++ [name])
  | _ => .blocked

/-- A walk that hands the steps after a symbolic link to `follow`. -/
def walkWith (follow : List N → List (Step N) → Lookup (List N)) :
    List N → List (Step N) → Lookup (List N)
  | dir, [] => .found dir
  | dir, step :: rest => match t.move dir step with
    | .goto next => walkWith follow next rest
    | .follow base target => follow base (target ++ rest)
    | .blocked => .missing

/-- The walk that follows at most as many links as its first argument. -/
def walk : ℕ → List N → List (Step N) → Lookup (List N)
  | 0 => t.walkWith (fun _ _ => .refused)
  | links + 1 => t.walkWith (walk links)

/-- The walk to an entry that may be a link itself. -/
def entryWith (follow : List N → List (Step N) → Lookup Unit) :
    List N → List (Step N) → Lookup Unit
  | _, [] => .found ()
  | dir, step :: rest => match t.move dir step with
    | .goto next => entryWith follow next rest
    | .follow base target => if rest = [] then .found () else follow base (target ++ rest)
    | .blocked => .missing

def entry : ℕ → List N → List (Step N) → Lookup Unit
  | 0 => t.entryWith (fun _ _ => .refused)
  | links + 1 => t.entryWith (entry links)

def requireDirectory : Lookup (List N) → Lookup (List N)
  | .found dir => match t.node dir with
    | some .directory => .found dir
    | _ => .missing
  | .missing => .missing
  | .refused => .refused

variable {t}

/-! ## Below a path with no entry -/

variable {dir : List N}

theorem walkWith_of_entryWith {follow : List N → List (Step N) → Lookup (List N)}
    {followEntry : List N → List (Step N) → Lookup Unit}
    (hfollow : ∀ dir steps more, followEntry dir steps = .missing →
      follow dir (steps ++ more) = .missing)
    {steps : List (Step N)} (more : List (Step N))
    (h : t.entryWith followEntry dir steps = .missing) :
    t.walkWith follow dir (steps ++ more) = .missing := by
  induction steps generalizing dir with
  | nil => cases h
  | cons step rest ih =>
    rw [entryWith] at h
    rw [cons_append, walkWith]
    cases hmove : t.move dir step with
    | goto next => exact ih (by simpa only [hmove] using h)
    | follow base target =>
      simp only [hmove] at h
      split at h
      · cases h
      · simp only [← append_assoc]
        exact hfollow _ _ more h
    | blocked => rfl

theorem walk_of_entry (links : ℕ) {steps : List (Step N)} (more : List (Step N))
    (h : t.entry links dir steps = .missing) : t.walk links dir (steps ++ more) = .missing := by
  induction links generalizing dir steps more with
  | zero => exact walkWith_of_entryWith (fun _ _ _ hrefused => by cases hrefused) more h
  | succ links ih => exact walkWith_of_entryWith (fun _ _ more' h' => ih more' h') more h

theorem entryWith_append {follow : List N → List (Step N) → Lookup Unit}
    (hfollow : ∀ dir steps more, follow dir steps = .missing →
      follow dir (steps ++ more) = .missing)
    {steps : List (Step N)} (more : List (Step N)) (h : t.entryWith follow dir steps = .missing) :
    t.entryWith follow dir (steps ++ more) = .missing := by
  induction steps generalizing dir with
  | nil => cases h
  | cons step rest ih =>
    rw [entryWith] at h
    rw [cons_append, entryWith]
    cases hmove : t.move dir step with
    | goto next => exact ih (by simpa only [hmove] using h)
    | follow base target =>
      simp only [hmove] at h
      split at h
      · cases h
      · rename_i hrest
        have hmore : rest ++ more ≠ [] := append_ne_nil_of_left_ne_nil hrest more
        simp only [if_neg hmore, ← append_assoc]
        exact hfollow _ _ more h
    | blocked => rfl

theorem entry_append (links : ℕ) {steps : List (Step N)} (more : List (Step N))
    (h : t.entry links dir steps = .missing) : t.entry links dir (steps ++ more) = .missing := by
  induction links generalizing dir steps more with
  | zero => exact entryWith_append (fun _ _ _ hrefused => by cases hrefused) more h
  | succ links ih => exact entryWith_append (fun _ _ more' h' => ih more' h') more h

/-! ## Steps that stay -/

theorem move_stay (hdir : t.node dir = some .directory) :
    t.move dir .stay = .goto dir := by
  rw [move, hdir]

theorem move_not_directory (hdir : t.node dir ≠ some .directory) (step : Step N) :
    t.move dir step = .blocked := by
  unfold move
  split
  · rename_i hnode
    exact absurd hnode hdir
  · rfl

theorem requireDirectory_found (hdir : t.node dir = some .directory) :
    t.requireDirectory (.found dir) = .found dir := by
  rw [requireDirectory, hdir]

theorem requireDirectory_not (hdir : t.node dir ≠ some .directory) :
    t.requireDirectory (.found dir) = .missing := by
  rw [requireDirectory]
  split
  · rename_i hnode
    exact absurd hnode hdir
  · rfl

theorem walkWith_append_congr {follow : List N → List (Step N) → Lookup (List N)}
    {left right : List (Step N)} {after : Lookup (List N) → Lookup (List N)}
    (hmissing : after .missing = .missing)
    (hfollow : ∀ dir steps, follow dir (steps ++ left) = after (follow dir (steps ++ right)))
    (hhere : ∀ dir, t.walkWith follow dir left = after (t.walkWith follow dir right))
    (dir : List N) (steps : List (Step N)) :
    t.walkWith follow dir (steps ++ left) = after (t.walkWith follow dir (steps ++ right)) := by
  induction steps generalizing dir with
  | nil => exact hhere dir
  | cons step rest ih =>
    rw [cons_append, cons_append, walkWith, walkWith]
    cases hmove : t.move dir step with
    | goto next => exact ih next
    | follow base target =>
      simp only [← append_assoc]
      exact hfollow _ _
    | blocked => exact hmissing.symm

theorem walk_append_congr {left right : List (Step N)}
    (after : Lookup (List N) → Lookup (List N)) (hmissing : after .missing = .missing)
    (hrefused : after .refused = .refused)
    (hhere : ∀ follow dir, t.walkWith follow dir left = after (t.walkWith follow dir right))
    (links : ℕ) (dir : List N) (steps : List (Step N)) :
    t.walk links dir (steps ++ left) = after (t.walk links dir (steps ++ right)) := by
  induction links generalizing dir steps with
  | zero => exact walkWith_append_congr hmissing (fun _ _ => hrefused.symm) (hhere _) dir steps
  | succ links ih => exact walkWith_append_congr hmissing ih (hhere _) dir steps

theorem walk_stay (links : ℕ) (dir : List N) (steps : List (Step N)) (step : Step N)
    (rest : List (Step N)) :
    t.walk links dir (steps ++ .stay :: step :: rest) =
      t.walk links dir (steps ++ step :: rest) := by
  refine walk_append_congr id rfl rfl ?_ links dir steps
  intro follow dir
  by_cases hdir : t.node dir = some .directory
  · rw [walkWith, move_stay hdir]
    rfl
  · rw [walkWith, walkWith, move_not_directory hdir, move_not_directory hdir]
    rfl

theorem walk_stay_last (links : ℕ) (dir : List N) (steps : List (Step N)) :
    t.walk links dir (steps ++ [.stay]) = t.requireDirectory (t.walk links dir steps) := by
  have hhere : ∀ follow dir, t.walkWith follow dir [.stay] =
      t.requireDirectory (t.walkWith follow dir []) := by
    intro follow dir
    by_cases hdir : t.node dir = some .directory
    · simp only [walkWith, move_stay hdir, requireDirectory_found hdir]
    · simp only [walkWith, move_not_directory hdir, requireDirectory_not hdir]
  have h := walk_append_congr t.requireDirectory rfl rfl hhere links dir steps
  rwa [append_nil] at h

theorem requireDirectory_idem (r : Lookup (List N)) :
    t.requireDirectory (t.requireDirectory r) = t.requireDirectory r := by
  cases r with
  | found dir =>
    by_cases hdir : t.node dir = some .directory
    · rw [requireDirectory_found hdir, requireDirectory_found hdir]
    · rw [requireDirectory_not hdir]
      rfl
  | missing => rfl
  | refused => rfl

def moving (steps : List (Step N)) : List (Step N) := steps.filter Step.moves

def endsStaying (steps : List (Step N)) : Bool := steps.getLast?.any (fun step => !step.moves)

theorem walk_moving_append (links : ℕ) (dir : List N) (steps : List (Step N)) {last : Step N}
    (done : List (Step N)) :
    t.walk links dir (done ++ steps ++ [last]) =
      t.walk links dir (done ++ moving steps ++ [last]) := by
  induction steps generalizing done with
  | nil => rfl
  | cons step rest ih =>
    by_cases hstay : step = .stay
    · subst hstay
      have hskip : t.walk links dir (done ++ .stay :: rest ++ [last]) =
          t.walk links dir (done ++ rest ++ [last]) := by
        cases rest with
        | nil => simpa using walk_stay links dir done last []
        | cons next rest => simpa using walk_stay links dir done next (rest ++ [last])
      rw [hskip, ih]
      rfl
    · have hmoving : moving (step :: rest) = step :: moving rest := by
        simp [moving, Step.moves_of_ne hstay]
      have h := ih (done ++ [step])
      simpa [hmoving] using h

/-- A walk is the walk of its moving steps; if it ends by staying, in a directory. -/
theorem walk_eq_moving (links : ℕ) (dir : List N) (steps : List (Step N)) :
    t.walk links dir steps =
      if endsStaying steps then t.requireDirectory (t.walk links dir (moving steps))
      else t.walk links dir (moving steps) := by
  induction steps using reverseRecOn with
  | nil => rfl
  | append_singleton steps last ih =>
    have hends : endsStaying (steps ++ [last]) = !last.moves := by simp [endsStaying]
    rw [hends]
    by_cases hstay : last = .stay
    · subst hstay
      have hmoving : moving (steps ++ [Step.stay]) = moving steps := by simp [moving, Step.moves]
      rw [if_pos (by rfl), walk_stay_last, hmoving, ih]
      split
      · exact requireDirectory_idem _
      · rfl
    · have hmoving : moving (steps ++ [last]) = moving steps ++ [last] := by
        simp [moving, Step.moves_of_ne hstay]
      rw [if_neg (by simp [Step.moves_of_ne hstay]), hmoving]
      exact walk_moving_append links dir steps []

/-! ## Walks that meet no link -/

theorem entry_found {P : List N → List (Step N) → Prop}
    (hstep : ∀ dir step rest, P dir (step :: rest) → ∃ next, t.move dir step = .goto next ∧
      P next rest)
    (links : ℕ) {steps : List (Step N)} (h : P dir steps) :
    t.entry links dir steps = .found () := by
  have hwith (follow) : t.entryWith follow dir steps = .found () := by
    induction steps generalizing dir with
    | nil => rfl
    | cons step rest ih =>
      obtain ⟨next, hmove, hnext⟩ := hstep dir step rest h
      rw [entryWith, hmove]
      exact ih hnext
  cases links with
  | zero | succ links => exact hwith _

theorem entry_missing {P : List N → List (Step N) → Prop} (hend : ∀ dir, ¬ P dir [])
    (hstep : ∀ dir step rest, P dir (step :: rest) →
      t.move dir step = .blocked ∨ ∃ next, t.move dir step = .goto next ∧ P next rest)
    (links : ℕ) {steps : List (Step N)} (h : P dir steps) :
    t.entry links dir steps = .missing := by
  have hwith (follow) : t.entryWith follow dir steps = .missing := by
    induction steps generalizing dir with
    | nil => exact absurd h (hend dir)
    | cons step rest ih =>
      rcases hstep dir step rest h with hmove | ⟨next, hmove, hnext⟩
      · rw [entryWith, hmove]
      · rw [entryWith, hmove]
        exact ih hnext
  cases links with
  | zero | succ links => exact hwith _

theorem move_up (hdir : t.node dir = some .directory) :
    t.move dir .up = .goto dir.dropLast := by
  rw [move, hdir]

theorem move_into_none {name : N} (hnone : t.node (dir ++ [name]) = none) :
    t.move dir (.into name) = .blocked := by
  unfold move
  split
  · simp only [hnone]
  · rfl

theorem move_into_directory {name : N} (hdir : t.node dir = some .directory)
    (hnext : t.node (dir ++ [name]) = some .directory) :
    t.move dir (.into name) = .goto (dir ++ [name]) := by
  rw [move, hdir]
  simp only [hnext]

theorem move_into_file {name : N} {contents : C} (hdir : t.node dir = some .directory)
    (hnext : t.node (dir ++ [name]) = some (.file contents)) :
    t.move dir (.into name) = .goto (dir ++ [name]) := by
  rw [move, hdir]
  simp only [hnext]

/-! ## What is at a path -/

variable (t) in
/-- The node a path leads to, through links. -/
def stat (links : ℕ) (steps : List (Step N)) : Lookup (Node N C) :=
  match t.walk links [] steps with
  | .found place => match t.node place with
    | some node => .found node
    | none => .missing
  | .missing => .missing
  | .refused => .refused

variable (t) in
/-- Whether the path has an entry, which may be a link itself. -/
def lstat (links : ℕ) (steps : List (Step N)) : Lookup Unit := t.entry links [] steps

variable {links : ℕ} {steps : List (Step N)}

theorem stat_of_lstat_missing (more : List (Step N)) (h : t.lstat links steps = .missing) :
    t.stat links (steps ++ more) = .missing := by
  rw [stat, walk_of_entry links more h]

theorem lstat_of_lstat_missing (more : List (Step N)) (h : t.lstat links steps = .missing) :
    t.lstat links (steps ++ more) = .missing := entry_append links more h

theorem stat_of_moves (h : endsStaying steps = false) :
    t.stat links steps = t.stat links (moving steps) := by
  rw [stat, walk_eq_moving, h]
  rfl

theorem stat_staying (h : endsStaying steps = true) :
    t.stat links steps = match t.stat links (moving steps) with
      | .found .directory => .found .directory
      | .refused => .refused
      | _ => .missing := by
  rw [stat, stat, walk_eq_moving, if_pos h]
  cases t.walk links [] (moving steps) with
  | missing => rfl
  | refused => rfl
  | found place =>
    by_cases hdir : t.node place = some .directory
    · simp only [requireDirectory_found hdir, hdir]
    · rw [requireDirectory_not hdir]
      cases hnode : t.node place with
      | none => simp only [hnode]
      | some node =>
        cases node with
        | directory => exact absurd hnode hdir
        | file contents => simp only [hnode]
        | special => simp only [hnode]
        | link absolute target => simp only [hnode]

theorem stat_eq_file_iff {contents : C} :
    t.stat links steps = .found (.file contents) ↔
      endsStaying steps = false ∧ t.stat links (moving steps) = .found (.file contents) := by
  cases hends : endsStaying steps with
  | false => simp [stat_of_moves hends]
  | true =>
    rw [stat_staying hends]
    constructor
    · intro h
      split at h <;> cases h
    · rintro ⟨hfalse, -⟩
      cases hfalse

theorem stat_missing_of_moving (h : t.stat links (moving steps) = .missing) :
    t.stat links steps = .missing := by
  cases hends : endsStaying steps with
  | false => rw [stat_of_moves hends, h]
  | true => rw [stat_staying hends, h]

end Tree

end FileTree

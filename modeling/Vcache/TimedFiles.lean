import Mathlib.Algebra.Order.Group.Nat
import Mathlib.Data.List.Infix

/-!
# Files with time stamps

Names stand for files, and every change of a file, of its contents, its times or the
names it has, stamps it with the clock rounded down to a granule. A clock that never
goes back then tells from the stamp alone that nothing happened: once the clock's own
stamp is past a bound, a file stamped no later than the bound has not been changed
since, and a name that leads to it has led to it all along. A reader that takes the file
block by block has then read what is there.
-/

namespace TimedFiles

variable {ν ι α : Type*}

/-- A time rounded down to the granule; granule zero does not round. -/
def stamp (granule time : ℕ) : ℕ := if granule = 0 then time else time / granule * granule

theorem stamp_mono (granule : ℕ) {time time' : ℕ} (h : time ≤ time') :
    stamp granule time ≤ stamp granule time' := by
  rw [stamp, stamp]
  split
  · exact h
  · exact Nat.mul_le_mul_right granule (Nat.div_le_div_right h)

theorem lt_stamp_add {granule window : ℕ} (h : granule < window) (time : ℕ) :
    time < stamp granule time + window := by
  rw [stamp]
  split
  case isTrue => omega
  case isFalse hpos =>
    have hlt := Nat.lt_div_mul_add (a := time) (Nat.pos_of_ne_zero hpos)
    omega

structure Inode (α : Type*) where
  content : List α
  mtime : ℕ
  ctime : ℕ

structure Files (ν ι α : Type*) where
  clock : ℕ
  names : ν → Option ι
  inodes : ι → Inode α

inductive Change (ν ι α : Type*) where
  | tick (time : ℕ)
  /-- One step of writing in place. -/
  | write (id : ι) (content : List α)
  | setMtime (id : ι) (mtime : ℕ)
  | rename (src dst : ν)
  /-- A new file, whose number may have been that of an old one. -/
  | create (name : ν) (id : ι)
  | unlink (name : ν)

namespace Files

section Parts

variable {bound : ℕ} {s : Files ν ι α} {name : ν} {id : ι}

def put [DecidableEq ι] (s : Files ν ι α) (id : ι) (inode : Inode α) : Files ν ι α :=
  { s with inodes := Function.update s.inodes id inode }

def bind [DecidableEq ν] (s : Files ν ι α) (name : ν) (id : Option ι) : Files ν ι α :=
  { s with names := Function.update s.names name id }

/-- A file that a change left with an old stamp is as it was. -/
theorem put_untouched [DecidableEq ι] {inode : Inode α} {other : ι} (hstamp : bound < inode.ctime)
    (h : ((s.put other inode).inodes id).ctime ≤ bound) :
    id ≠ other ∧ (s.put other inode).inodes id = s.inodes id := by
  by_cases hid : id = other
  case pos =>
    simp only [put, hid, Function.update_self] at h
    omega
  case neg => exact ⟨hid, Function.update_of_ne hid _ _⟩

theorem names_of_bind [DecidableEq ν] {other : ν} {file : Option ι}
    (h : (s.bind other file).names name = some id) (hfile : some id ≠ file) :
    s.names name = some id := by
  by_cases hname : name = other
  case pos =>
    simp only [bind, hname, Function.update_self] at h
    exact absurd h.symm hfile
  case neg =>
    simp only [bind, Function.update_of_ne hname] at h
    exact h

end Parts

variable [DecidableEq ν] [DecidableEq ι]

def change (granule : ℕ) (s : Files ν ι α) (c : Change ν ι α) : Files ν ι α :=
  let now := stamp granule s.clock
  match c with
  | .tick time => { s with clock := s.clock + time }
  | .write id content => s.put id ⟨content, now, now⟩
  | .setMtime id mtime => s.put id ⟨(s.inodes id).content, mtime, now⟩
  | .rename src dst =>
    match s.names src with
    | none => s
    | some id =>
      -- Two names of one file: `rename` does nothing.
      if s.names dst = some id then s
      else ((s.bind src none).bind dst (some id)).put id { s.inodes id with ctime := now }
  | .create name id => (s.bind name (some id)).put id ⟨[], now, now⟩
  | .unlink name => s.bind name none

variable {granule bound : ℕ} {s : Files ν ι α} {name : ν} {id : ι}

theorem clock_le_change (granule : ℕ) (s : Files ν ι α) (c : Change ν ι α) :
    s.clock ≤ (s.change granule c).clock := by
  cases c with
  | tick time => exact Nat.le_add_right _ _
  | rename src dst =>
    simp only [change]
    split
    · exact le_rfl
    · split
      · exact le_rfl
      · exact le_rfl
  | _ => exact le_rfl

theorem inode_untouched (c : Change ν ι α) (hclock : bound < stamp granule s.clock)
    (h : ((s.change granule c).inodes id).ctime ≤ bound) :
    (s.change granule c).inodes id = s.inodes id := by
  cases c with
  | tick time => rfl
  | write other content | setMtime other mtime => exact (put_untouched hclock h).2
  | rename src dst =>
    simp only [change] at h ⊢
    split at h
    next => rfl
    next =>
      split at h
      next hsame => rw [if_pos hsame]
      next hdiff =>
        rw [if_neg hdiff]
        exact (put_untouched hclock h).2
  | create other file => exact (put_untouched hclock h).2
  | unlink other => rfl

theorem name_untouched (c : Change ν ι α) (hclock : bound < stamp granule s.clock)
    (hname : (s.change granule c).names name = some id)
    (h : ((s.change granule c).inodes id).ctime ≤ bound) : s.names name = some id := by
  cases c with
  | tick time | write other content | setMtime other mtime => exact hname
  | rename src dst =>
    simp only [change] at h hname
    split at h
    next hnone =>
      rw [hnone] at hname
      exact hname
    next file hsrc =>
      rw [hsrc] at hname
      simp only at hname
      split at h
      next hsame =>
        rw [if_pos hsame] at hname
        exact hname
      next hdiff =>
        rw [if_neg hdiff] at hname
        obtain ⟨hid, -⟩ := put_untouched hclock h
        exact names_of_bind (names_of_bind hname (by simpa using hid)) (by simp)
  | create other file =>
    obtain ⟨hid, -⟩ := put_untouched hclock h
    exact names_of_bind hname (by simpa using hid)
  | unlink other => exact names_of_bind hname (by simp)

end Files

/-! ## Reading block by block -/

structure Reader (ι α : Type*) where
  file : ι
  seen : List α
deriving DecidableEq

namespace Reader

def read (s : Files ν ι α) (r : Reader ι α) (bytes : ℕ) : Reader ι α :=
  { r with seen := r.seen ++ ((s.inodes r.file).content.drop r.seen.length).take bytes }

def AtEnd (s : Files ν ι α) (r : Reader ι α) : Prop :=
  (s.inodes r.file).content.length ≤ r.seen.length

instance (s : Files ν ι α) (r : Reader ι α) : Decidable (r.AtEnd s) := Nat.decLe _ _

/-- The file is what is read, and what was read is the beginning of it. -/
def Reads (s : Files ν ι α) (id : ι) (r : Reader ι α) : Prop :=
  r.file = id ∧ r.seen <+: (s.inodes id).content

theorem reads_start (s : Files ν ι α) (id : ι) : Reads s id ⟨id, []⟩ := ⟨rfl, List.nil_prefix⟩

theorem Reads.read {s : Files ν ι α} {id : ι} {r : Reader ι α} (h : Reads s id r) (bytes : ℕ) :
    Reads s id (r.read s bytes) := by
  obtain ⟨hfile, rest, hrest⟩ := h
  refine ⟨hfile, ?_⟩
  rw [Reader.read, hfile, ← hrest, List.drop_left]
  exact (List.prefix_append_right_inj _).mpr (List.take_prefix _ _)

theorem Reads.eq_content {s : Files ν ι α} {id : ι} {r : Reader ι α} (h : Reads s id r)
    (hend : r.AtEnd s) : r.seen = (s.inodes id).content := by
  rw [AtEnd, h.1] at hend
  exact h.2.eq_of_length_le hend

/-- If the name leads to a file stamped no later than `bound`, that file is read. -/
def Follows (bound : ℕ) (s : Files ν ι α) (name : ν) (r : Reader ι α) : Prop :=
  ∀ id, s.names name = some id → (s.inodes id).ctime ≤ bound → r.Reads s id

variable {granule bound : ℕ} {s : Files ν ι α} {name : ν} {r : Reader ι α}

theorem follows_start {file : ι} (h : s.names name = some file) :
    Follows bound s name ⟨file, []⟩ := by
  intro id hid _
  cases h.symm.trans hid
  exact reads_start s file

theorem Follows.read (h : Follows bound s name r) (bytes : ℕ) :
    Follows bound s name (r.read s bytes) :=
  fun id hid hold => (h id hid hold).read bytes

theorem Follows.change [DecidableEq ν] [DecidableEq ι] (h : Follows bound s name r)
    (hclock : bound < stamp granule s.clock) (c : Change ν ι α) :
    Follows bound (s.change granule c) name r := by
  intro id hid hold
  have hinode := Files.inode_untouched c hclock hold
  have hname := Files.name_untouched c hclock hid hold
  rw [Reads, hinode]
  exact h id hname (hinode ▸ hold)

end Reader

end TimedFiles

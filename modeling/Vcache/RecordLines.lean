import Mathlib.Data.List.Basic

/-!
# Entries written as lines

An entry is written as a first line and one line for each of its records. A reader goes
through the lines and adds each record to the entry it opened last. If it reads each
line of an entry as the record it was written for, it reads back any list of entries.
-/

namespace RecordLines

open List

variable {Entry Record Line : Type*}

structure Format (Entry Record Line : Type*) where
  firstLine : Entry → Line
  records : Entry → List Record
  recordLine : Record → Line

namespace Format

def lines (f : Format Entry Record Line) (e : Entry) : List Line :=
  f.firstLine e :: (f.records e).map f.recordLine

/-- The reader opens the entry at its first line and pushes its records onto the last entry, and
the records make up the entry. -/
structure ReadBy (f : Format Entry Record Line)
    (addLine : List Entry → Line → Option (List Entry)) (opened : Entry → Entry)
    (push : Entry → Record → Entry) (e : Entry) : Prop where
  first : ∀ before, addLine before (f.firstLine e) = some (before ++ [opened e])
  record : ∀ before last, ∀ r ∈ f.records e,
    addLine (before ++ [last]) (f.recordLine r) = some (before ++ [push last r])
  whole : (f.records e).foldl push (opened e) = e

variable {f : Format Entry Record Line} {addLine : List Entry → Line → Option (List Entry)}
  {opened : Entry → Entry} {push : Entry → Record → Entry}

/-- Records pushed one after the other are appended, where pushing one puts it in front of those
that are appended later. -/
theorem foldl_push (extend : Entry → List Record → Entry) (hnil : ∀ e, extend e [] = e)
    (hpush : ∀ e r rs, extend (push e r) rs = extend e (r :: rs)) (e : Entry) (rs : List Record) :
    rs.foldl push e = extend e rs := by
  induction rs generalizing e with
  | nil => exact (hnil e).symm
  | cons r rs ih => rw [foldl_cons, ih, hpush]

theorem foldlM_recordLines {before : List Entry} {last : Entry} {rs : List Record}
    (h : ∀ last, ∀ r ∈ rs,
      addLine (before ++ [last]) (f.recordLine r) = some (before ++ [push last r])) :
    (rs.map f.recordLine).foldlM addLine (before ++ [last]) =
      some (before ++ [rs.foldl push last]) := by
  induction rs generalizing last with
  | nil => rfl
  | cons r rs ih =>
    rw [map_cons, foldlM_cons, h last r mem_cons_self]
    exact ih (fun last r hr => h last r (mem_cons_of_mem _ hr))

theorem ReadBy.foldlM_lines {e : Entry} (h : f.ReadBy addLine opened push e)
    (before : List Entry) : (f.lines e).foldlM addLine before = some (before ++ [e]) := by
  rw [lines, foldlM_cons, h.first before]
  change ((f.records e).map f.recordLine).foldlM addLine (before ++ [opened e]) = _
  rw [foldlM_recordLines (h.record before), h.whole]

theorem foldlM_allLines {entries : List Entry}
    (h : ∀ e ∈ entries, f.ReadBy addLine opened push e) (before : List Entry) :
    (entries.flatMap f.lines).foldlM addLine before = some (before ++ entries) := by
  induction entries generalizing before with
  | nil => rw [flatMap_nil, foldlM_nil, append_nil]; rfl
  | cons e entries ih =>
    rw [flatMap_cons, foldlM_append, (h e mem_cons_self).foldlM_lines before]
    change (entries.flatMap f.lines).foldlM addLine (before ++ [e]) = _
    rw [ih (fun e he => h e (mem_cons_of_mem _ he)), append_assoc, singleton_append]

end Format

end RecordLines

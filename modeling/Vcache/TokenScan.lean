import Mathlib.Data.List.Basic

/-!
# Scanning a flat token list

A scan walks a list once and decides for each token it comes to whether to keep
it, drop it, or drop it with the token that follows. It knows nothing about
which tokens belong together, so a token that another reader took as a value is
judged like any other.
-/

namespace TokenScan

open List

variable {α : Type*}

inductive Verdict where
  | keep
  | drop
  | dropValue
deriving DecidableEq

def scan (judge : α → Verdict) : List α → List α
  | [] => []
  | [a] => match judge a with
    | .keep => [a]
    | _ => []
  | a :: b :: rest => match judge a with
    | .keep => a :: scan judge (b :: rest)
    | .drop => scan judge (b :: rest)
    | .dropValue => scan judge rest

variable {judge : α → Verdict} {a : α}

theorem scan_keep (h : judge a = .keep) (rest : List α) :
    scan judge (a :: rest) = a :: scan judge rest := by
  cases rest <;> simp [scan, h]

theorem scan_drop (h : judge a = .drop) (rest : List α) :
    scan judge (a :: rest) = scan judge rest := by
  cases rest <;> simp [scan, h]

theorem scan_dropValue (h : judge a = .dropValue) (value : α) (rest : List α) :
    scan judge (a :: value :: rest) = scan judge rest := by
  simp [scan, h]

theorem scan_last (h : judge a ≠ .keep) : scan judge [a] = [] := by
  cases hj : judge a with
  | keep => exact absurd hj h
  | drop | dropValue => simp [scan, hj]

theorem keep_of_mem_scan (tokens : List α) : ∀ x ∈ scan judge tokens, judge x = .keep := by
  induction tokens using scan.induct judge with
  | case1 => simp [scan]
  | case2 a hkeep => simp [scan, hkeep]
  | case3 a hkeep => simp [scan_last hkeep]
  | case4 a b rest hkeep ih =>
    rw [scan_keep hkeep]
    intro x hx
    rcases mem_cons.mp hx with rfl | hx
    · exact hkeep
    · exact ih x hx
  | case5 a b rest hdrop ih => rwa [scan_drop hdrop]
  | case6 a b rest hdrop ih => rwa [scan_dropValue hdrop]

/-- A list that goes on with something the first part of the target does not hold goes
on in the second. -/
theorem sublist_of_not_mem {x : α} {xs front back : List α} (hx : x ∉ front)
    (h : List.Sublist (x :: xs) (front ++ back)) : List.Sublist (x :: xs) back := by
  obtain ⟨l₁, l₂, heq, hfront, hback⟩ := sublist_append_iff.mp h
  cases l₁ with
  | nil => exact heq ▸ hback
  | cons y l₁ =>
    rw [cons_append] at heq
    obtain ⟨rfl, -⟩ := cons.inj heq
    exact absurd (hfront.subset mem_cons_self) hx

end TokenScan

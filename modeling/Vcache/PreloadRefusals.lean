import Vcache.Strings

/-!
# The loader's refusals of the tracer

A process that cannot load the tracer says so on its standard error, between whatever else is
written there. `WithoutPreloadRefusals` (`core/link_trace`) takes these messages out, and
nothing else as long as the message stands in the text only where the loader wrote it.
-/

namespace Vcache

open List

/-! ## The scan -/

def kPreloadIgnoredMessage : Str := "from LD_PRELOAD cannot be preloaded".toList

def kLead : Str := "ERROR: ld.so: object ".toList

def kEnd : Str := ": ignored.".toList

/-- The tracer in quotes and the message. -/
def refusalCore (tracer : Str) : Str :=
  "'".toList ++ tracer ++ "' ".toList ++ kPreloadIgnoredMessage

/-- `text.compare(pos, part.size(), part) == 0` -/
def standsAt (text : Str) (pos : ℕ) (part : Str) : Bool := startsWith (text.drop pos) part

def refusalBegin (text : Str) (found : ℕ) : ℕ :=
  if kLead.length ≤ found ∧ standsAt text (found - kLead.length) kLead = true then
    found - kLead.length
  else found

def reasonEnd (text : Str) (after : ℕ) : ℕ :=
  if standsAt text after " (".toList then
    match findFrom text (")".toList ++ kEnd) after, findFrom text "\n".toList after with
    | none, _ => after
    | some close, none => close + 1
    | some close, some newline => if close < newline then close + 1 else after
  else after

def refusalEnd (text : Str) (after : ℕ) : ℕ :=
  if standsAt text after kEnd then
    if standsAt text (after + kEnd.length) "\n".toList then after + kEnd.length + 1
    else after + kEnd.length
  else match findFrom text "\n".toList after with
    | none => text.length
    | some newline => newline + 1

/-- `kept.append(text, start, stop - start)`, where a negative count is a huge one. -/
def textBetween (text : Str) (start stop : ℕ) : Str :=
  if start ≤ stop then (text.drop start).take (stop - start) else text.drop start

def withoutRefusals (text core : Str) : ℕ → ℕ → Str × Bool
  | 0, start => (text.drop start, false)
  | turns + 1, start => match findFrom text core start with
    | none => (text.drop start, false)
    | some found =>
      let after := refusalEnd text (reasonEnd text (found + core.length))
      (textBetween text start (refusalBegin text found) ++
        (withoutRefusals text core turns after).1, true)

/-- A turn passes a message, so one turn a character is enough. -/
def withoutPreloadRefusals (text tracer : Str) : Str × Bool :=
  withoutRefusals text (refusalCore tracer) (text.length + 1) 0

/-! ## Searching -/

variable {needle front back done text rest : Str} {c : Char}

theorem findStr_eq_none (h : ¬ needle <:+: text) : findStr needle text = none := by
  induction text with
  | nil =>
    refine if_neg ?_
    rintro rfl
    exact h infix_rfl
  | cons c text ih =>
    rw [infix_cons_iff, not_or] at h
    rw [findStr, ih h.2, startsWith,
      if_neg (fun hstarts => h.1 ( isPrefixOf_iff_prefix.mp hstarts))]
    rfl

theorem findStr_eq_some (hfirst : ∀ front' back', front ++ needle ++ back =
      front' ++ needle ++ back' → front.length ≤ front'.length) :
    findStr needle (front ++ needle ++ back) = some front.length := by
  induction front with
  | nil =>
    rw [nil_append]
    cases hneedle : needle ++ back with
    | nil => rw [(append_eq_nil_iff.mp hneedle).1]; rfl
    | cons c text => exact if_pos (hneedle ▸ startsWith_append needle back)
  | cons c front ih =>
    have hnot : ¬ startsWith (c :: (front ++ needle ++ back)) needle = true := by
      intro hstarts
      obtain ⟨back', hback'⟩ := startsWith_iff.mp hstarts
      exact absurd (hfirst [] back' hback') (by simp)
    have hrest := ih (fun front' back' h => Nat.le_of_succ_le_succ
      (hfirst (c :: front') back' (congrArg (c :: ·) h)))
    rw [cons_append, cons_append, findStr, if_neg hnot, hrest]
    rfl

/-- A text whose first character does not come again in it cannot begin inside itself. -/
theorem findStr_append (hc : c ∉ rest) (hfront : ¬ c :: rest <:+: front) :
    findStr (c :: rest) (front ++ c :: rest ++ back) = some front.length := by
  refine findStr_eq_some (fun front' back' h => ?_)
  by_contra hlt
  rw [append_assoc, append_assoc] at h
  rcases append_eq_append_iff.mp h with ⟨more, rfl, -⟩ | ⟨more, rfl, hmore⟩
  · exact hlt (by simp)
  · rcases append_eq_append_iff.mp hmore with ⟨extra, rfl, -⟩ | ⟨extra, hextra, hback⟩
    · exact hfront ⟨front', extra, by simp⟩
    · cases more with
      | nil => exact hlt (by simp)
      | cons d more =>
        cases extra with
        | nil =>
          rw [append_nil] at hextra
          exact hfront ⟨front', [], by rw [hextra, append_nil]⟩
        | cons e extra =>
          obtain ⟨rfl, -⟩ := cons.inj hback
          obtain ⟨-, rfl⟩ := cons.inj hextra
          exact hc (by simp)

theorem findFrom_append (done text needle : Str) :
    findFrom (done ++ text) needle done.length =
      (findStr needle text).map (· + done.length) := by
  rw [findFrom, drop_left]

theorem standsAt_append (done text part : Str) :
    standsAt (done ++ text) done.length part = startsWith text part := by
  rw [standsAt, drop_left]

/-! ## One refusal -/

/-- Why the loader does not take the tracer, as it stands in parentheses. -/
structure RefusalReason where
  text : Str
  oneLine : '\n' ∉ text
  unclosed : ¬ ")".toList ++ kEnd <:+: text

def inParentheses (reason : Option RefusalReason) : Str :=
  match reason with
  | none => []
  | some reason => " (".toList ++ reason.text ++ ")".toList

def refusal (tracer : Str) (reason : Option RefusalReason) : Str :=
  kLead ++ refusalCore tracer ++ inParentheses reason ++ kEnd ++ "\n".toList

theorem findStr_close (reason : RefusalReason) (tail : Str) :
    findStr (")".toList ++ kEnd) (inParentheses (some reason) ++ (kEnd ++ tail)) =
      some (" (".toList ++ reason.text).length := by
  have hopen : ¬ ")".toList ++ kEnd <:+: " (".toList ++ reason.text := by
    change ¬ _ <:+: ' ' :: '(' :: reason.text
    rw [infix_cons_iff, infix_cons_iff]
    rintro (h | h | h)
    · exact absurd (cons_prefix_cons.mp h).1 (by decide)
    · exact absurd (cons_prefix_cons.mp h).1 (by decide)
    · exact reason.unclosed h
  rw [inParentheses, append_assoc, ← append_assoc _ kEnd]
  exact (congrArg _ (append_assoc _ _ _).symm).trans (findStr_append (by decide) hopen)

theorem findStr_newline (reason : Option RefusalReason) (tail : Str) :
    findStr "\n".toList (inParentheses reason ++ (kEnd ++ ("\n".toList ++ tail))) =
      some (inParentheses reason ++ kEnd).length := by
  have hline : '\n' ∉ inParentheses reason ++ kEnd := by
    intro hmem
    rcases mem_append.mp hmem with h | h
    · cases reason with
      | none => cases h
      | some reason =>
        rcases mem_append.mp h with h | h
        · rcases mem_append.mp h with h | h
          · exact absurd h (by decide)
          · exact reason.oneLine h
        · exact absurd h (by decide)
    · exact absurd h (by decide)
  rw [← append_assoc, ← append_assoc]
  exact findStr_append not_mem_nil (fun h => hline (h.subset mem_cons_self))

theorem reasonEnd_eq (done : Str) (reason : Option RefusalReason) (tail : Str)
    (htext : text = done ++ (inParentheses reason ++ (kEnd ++ ("\n".toList ++ tail)))) :
    reasonEnd text done.length = (done ++ inParentheses reason).length := by
  rw [reasonEnd, htext, standsAt_append, findFrom_append, findFrom_append, findStr_newline]
  cases reason with
  | none => exact congrArg length (append_nil done).symm
  | some reason =>
    have hlength : (inParentheses (some reason)).length =
        (" (".toList ++ reason.text).length + 1 := length_append
    rw [findStr_close]
    refine (if_pos rfl).trans ((if_pos ?_).trans ?_) <;>
      simp only [length_append, hlength]
    · omega
    · omega

theorem refusalEnd_eq (done tail : Str)
    (htext : text = done ++ (kEnd ++ ("\n".toList ++ tail))) :
    refusalEnd text done.length = (done ++ kEnd ++ "\n".toList).length := by
  have hend : standsAt text done.length kEnd = true := by
    rw [htext, standsAt_append, startsWith_append]
  have hline : standsAt text (done ++ kEnd).length "\n".toList = true := by
    rw [htext, ← append_assoc, standsAt_append, startsWith_append]
  rw [length_append] at hline
  rw [refusalEnd, if_pos hend, if_pos hline, length_append, length_append]
  rfl

theorem refusalBegin_eq (done tail : Str) (htext : text = done ++ (kLead ++ tail)) :
    refusalBegin text (done ++ kLead).length = done.length := by
  rw [refusalBegin, length_append, Nat.add_sub_cancel, htext, standsAt_append]
  exact if_pos ⟨Nat.le_add_left _ _, startsWith_append _ _⟩

theorem textBetween_append (done kept tail : Str) :
    textBetween (done ++ (kept ++ tail)) done.length (done ++ kept).length = kept := by
  rw [textBetween, length_append, if_pos (Nat.le_add_right _ _), drop_left,
    Nat.add_sub_cancel_left, take_left]

/-! ## Every refusal -/

def refusals (tracer : Str) (pieces : List (Option RefusalReason × Str)) : Str :=
  pieces.flatMap fun piece => refusal tracer piece.1 ++ piece.2

/-- From a point of the text on, the message stands only in the refusals. -/
def OnlyRefusals (text tracer done first : Str) (pieces : List (Option RefusalReason × Str)) :
    Prop :=
  ∀ front back, text = front ++ refusalCore tracer ++ back → done.length ≤ front.length →
    ∃ before piece after, pieces = before ++ piece :: after ∧
      front = done ++ (first ++ (refusals tracer before ++ kLead))

variable {tracer first : Str} {piece : Option RefusalReason × Str}
  {pieces : List (Option RefusalReason × Str)}

theorem OnlyRefusals.findFrom_nil (h : OnlyRefusals text tracer done first [])
    (htext : text = done ++ first) : findFrom text (refusalCore tracer) done.length = none := by
  rw [htext, findFrom_append, findStr_eq_none]
  · rfl
  · rintro ⟨front, back, rfl⟩
    obtain ⟨before, piece, after, hnil, -⟩ := h (done ++ front) back
      (by rw [htext, append_assoc, append_assoc, append_assoc]) (by simp)
    exact absurd hnil.symm (by simp)

theorem OnlyRefusals.findFrom_cons (h : OnlyRefusals text tracer done first (piece :: pieces))
    (tail : Str) (htext : text = done ++ (first ++ (kLead ++ (refusalCore tracer ++ tail)))) :
    findFrom text (refusalCore tracer) done.length = some (done ++ first ++ kLead).length := by
  have hfind : findStr (refusalCore tracer) (first ++ kLead ++ refusalCore tracer ++ tail) =
      some (first ++ kLead).length := by
    refine findStr_eq_some (fun front back heq => ?_)
    obtain ⟨before, -, -, -, hfront⟩ := h (done ++ front) back
      (by rw [htext, append_assoc, append_assoc, ← append_assoc front, ← heq]; simp) (by simp)
    rw [append_cancel_left hfront]
    simp
  rw [htext, findFrom_append, ← append_assoc, ← append_assoc, hfind, append_assoc done,
    Option.map_some, length_append, length_append, length_append, Nat.add_comm]

theorem OnlyRefusals.next (h : OnlyRefusals text tracer done first (piece :: pieces)) :
    OnlyRefusals text tracer (done ++ first ++ refusal tracer piece.1) piece.2 pieces := by
  intro front back htext hlength
  obtain ⟨before, piece', after, hpieces, rfl⟩ :=
    h front back htext (le_trans (by simp) hlength)
  cases before with
  | nil =>
    have hend : (kEnd ++ "\n".toList).length = 11 := rfl
    simp only [refusal, refusals, flatMap_nil, nil_append, length_append] at hlength hend
    omega
  | cons _ before =>
    obtain ⟨rfl, hrest⟩ := cons.inj hpieces
    exact ⟨before, piece', after, hrest, by simp [refusals]⟩

theorem withoutRefusals_eq (done : Str) {turns : ℕ} (hturns : pieces.length < turns)
    (htext : text = done ++ (first ++ refusals tracer pieces))
    (h : OnlyRefusals text tracer done first pieces) :
    withoutRefusals text (refusalCore tracer) turns done.length =
      (first ++ pieces.flatMap Prod.snd, !pieces.isEmpty) := by
  induction pieces generalizing done first turns with
  | nil =>
    cases turns with
    | zero => cases hturns
    | succ turns =>
      rw [refusals, flatMap_nil, append_nil] at htext
      rw [withoutRefusals, h.findFrom_nil htext, htext, drop_left]
      simp
  | cons piece pieces ih =>
    cases turns with
    | zero => cases hturns
    | succ turns =>
      obtain ⟨tail, htail⟩ : ∃ tail, tail = piece.2 ++ refusals tracer pieces := ⟨_, rfl⟩
      have hlead : text = done ++ (first ++ (kLead ++ (refusalCore tracer ++
          (inParentheses piece.1 ++ (kEnd ++ ("\n".toList ++ tail)))))) := by
        rw [htext, htail, refusals, flatMap_cons, refusal]
        simp [refusals]
      have hreason := reasonEnd_eq (done ++ first ++ kLead ++ refusalCore tracer) piece.1 tail
        (hlead.trans (by simp))
      have hend := refusalEnd_eq (done ++ first ++ kLead ++ refusalCore tracer ++
        inParentheses piece.1) tail (hlead.trans (by simp))
      have hrest := ih _ (Nat.lt_of_succ_lt_succ hturns) (by rw [hlead, refusal, htail]; simp)
        h.next
      have hafter : refusalEnd text (reasonEnd text ((done ++ first ++ kLead).length +
          (refusalCore tracer).length)) = (done ++ first ++ refusal tracer piece.1).length := by
        rw [← length_append, hreason, hend, refusal]
        simp only [append_assoc]
      have hkept : textBetween text done.length
          (refusalBegin text (done ++ first ++ kLead).length) = first := by
        rw [refusalBegin_eq (done ++ first) _ (hlead.trans (append_assoc _ _ _).symm), hlead,
          textBetween_append]
      rw [withoutRefusals, h.findFrom_cons _ hlead]
      simp only [hafter, hkept, hrest, flatMap_cons]
      rfl

theorem length_le_length_refusals (tracer : Str) (pieces : List (Option RefusalReason × Str)) :
    pieces.length ≤ (refusals tracer pieces).length := by
  induction pieces with
  | nil => exact Nat.zero_le _
  | cons piece pieces ih =>
    have hrefusals : refusals tracer (piece :: pieces) =
        refusal tracer piece.1 ++ piece.2 ++ refusals tracer pieces := flatMap_cons
    have hline : (refusal tracer piece.1).length = _ + 1 := length_append
    rw [hrefusals, length_append, length_append, length_cons]
    omega

/-- Where the message stands only in the loader's refusals, these are taken out and all that is
between them is kept. -/
theorem withoutPreloadRefusals_exact (tracer first : Str)
    (pieces : List (Option RefusalReason × Str))
    (h : ∀ front back, first ++ refusals tracer pieces = front ++ refusalCore tracer ++ back →
      ∃ before piece after, pieces = before ++ piece :: after ∧
        front = first ++ (refusals tracer before ++ kLead)) :
    withoutPreloadRefusals (first ++ refusals tracer pieces) tracer =
      (first ++ pieces.flatMap Prod.snd, !pieces.isEmpty) := by
  have hturns := length_le_length_refusals tracer pieces
  refine withoutRefusals_eq [] ?_ rfl (fun front back htext _ => h front back htext)
  rw [length_append]
  omega

/-- The loader speaks twice in the middle of a diagnostic, once with its reason and once without. -/
def interruptions : List (Option RefusalReason × Str) :=
  [(some ⟨"x (y)".toList, by decide, by decide⟩, "b".toList), (none, "c".toList)]

theorem withoutPreloadRefusals_exact_interruptions :
    withoutPreloadRefusals ("a: ".toList ++ refusals "/t".toList interruptions) "/t".toList =
      ("a: bc".toList, true) := by
  refine withoutPreloadRefusals_exact _ _ interruptions (fun front back htext => ?_)
  have hplaces : ∀ i < ("a: ".toList ++ refusals "/t".toList interruptions).length,
      standsAt ("a: ".toList ++ refusals "/t".toList interruptions) i
        (refusalCore "/t".toList) = true → i = 24 ∨ i = 105 := by decide +kernel
  have hfront : front.length = 24 ∨ front.length = 105 := by
    refine hplaces _ ?_ ?_ <;> rw [htext, append_assoc]
    · rw [length_append]
      exact Nat.lt_add_of_pos_right (Nat.succ_pos _)
    · rw [standsAt_append, startsWith_append]
  have htake : ("a: ".toList ++ refusals "/t".toList interruptions).take front.length = front := by
    rw [htext, append_assoc, take_left]
  rcases hfront with hfirst | hsecond
  · rw [hfirst] at htake
    exact ⟨[], _, interruptions.tail, rfl, htake.symm⟩
  · rw [hsecond] at htake
    exact ⟨interruptions.take 1, _, [], rfl, htake.symm⟩

end Vcache

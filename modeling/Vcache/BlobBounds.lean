import Vcache.BlobRoundTrip

/-!
# What a section's length can do to the loop

The loop of `DeserializeBlob` compares a position plus a declared length with the
size of the body, and both the sum and the next position are 64-bit. While no sum
reaches `2 ^ 64` the position only grows, so the loop ends, and it accepts exactly
rows of complete sections. A length that makes the sum wrap passes the comparison
and sends the loop back to an earlier position; the loop is then safe only if it
comes to a section it refuses.
-/

namespace Vcache

open List

variable {p n : Nat} {data : Str} {blob : Blob}

/-! ## Rows of complete sections -/

/-- A name with its length, a flags byte and `rest` fill the payload. -/
def HoldsFile (payload : Str) (ok : Str → Prop) : Prop :=
  ∃ lenBytes name flags rest, payload = lenBytes ++ (name ++ flags :: rest) ∧
    lenBytes.length = 8 ∧ decodeU64 lenBytes = name.length ∧ ok rest

def FileInside (kind : Char) (payload : Str) : Prop :=
  match SectionKind.ofCode (kind.toNat % 256) with
  | some .file => HoldsFile payload (fun _ => True)
  | some .sidecarFile => HoldsFile payload (fun digest => digest.length = kDigestHexLen)
  | _ => True

inductive Sections : Str → Prop
  | nil : Sections []
  | cons {kind : Char} {lenBytes payload rest : Str} : lenBytes.length = 8 →
      decodeU64 lenBytes = payload.length → FileInside kind payload → Sections rest →
      Sections (kind :: (lenBytes ++ (payload ++ rest)))

/-! ## Where the lengths lead -/

/-- The length declared by a section that starts at `p`. -/
def declaredLen (body : Str) (p : Nat) : Nat := decodeU64 ((body.drop (p + 1)).take 8)

/-- A payload the loop takes something from. A sidecar's digest is hexadecimal. -/
def Readable (kind : Char) (payload : Str) : Prop :=
  match SectionKind.ofCode (kind.toNat % 256) with
  | some .sidecarFile => HoldsFile payload (fun digest =>
      digest.length = kDigestHexLen ∧ digest.all isHexDigit = true)
  | _ => FileInside kind payload

/-- The section at `p` has its header and a readable payload, and its 64-bit end is not
behind the body. -/
structure Followed (body : Str) (p : Nat) : Prop where
  header : p + 9 ≤ body.length
  fits : wrap (p + 9 + declaredLen body p) ≤ body.length
  readable : Readable (body.getD p '\x00') ((body.drop (p + 9)).take (declaredLen body p))

/-- The positions that the declared lengths lead to from the start of the body. -/
inductive Reaches (body : Str) : Nat → Prop
  | start : Reaches body 0
  | next {p : Nat} : Reaches body p → Followed body p →
      Reaches body (wrap (p + 9 + declaredLen body p))

/-- The lengths lead to no section whose end reaches `2 ^ 64`, or they lead to one that
cannot be followed. -/
def LeadsSafely (body : Str) : Prop :=
  (∀ p, Reaches body p → p + 9 ≤ body.length → p + 9 + declaredLen body p < 2 ^ 64) ∨
    ∃ p, Reaches body p ∧ p < body.length ∧ ¬ Followed body p

theorem Reaches.le {body : Str} (h : Reaches body p) : p ≤ body.length := by
  cases h with
  | start => exact Nat.zero_le _
  | next _ hfollowed => exact hfollowed.fits

theorem Readable.fileInside {kind : Char} {payload : Str} (h : Readable kind payload) :
    FileInside kind payload := by
  rw [Readable] at h
  split at h
  next hkind =>
    obtain ⟨lenBytes, name, flags, digest, heq, hlen, hname, hdigest, -⟩ := h
    rw [FileInside, hkind]
    exact ⟨lenBytes, name, flags, digest, heq, hlen, hname, hdigest⟩
  next => exact h

theorem drop_eq_getD_cons {text : Str} (h : n < text.length) :
    text.drop n = text.getD n '\x00' :: text.drop (n + 1) := by
  rw [drop_eq_getElem_cons h]
  simp [getD, h]

theorem eq_take_append_drop {text : Str} (h : 8 + n + 1 ≤ text.length) :
    text = text.take 8 ++ ((text.drop 8).take n ++
      text.getD (8 + n) '\x00' :: text.drop (8 + n + 1)) := by
  rw [← drop_eq_getD_cons (show 8 + n < text.length by omega), ← drop_drop,
    take_append_drop, take_append_drop]

theorem readU64_eq_some {pos next : Nat} (h : readU64 data pos = some (n, next)) :
    wrap (pos + 8) ≤ data.length ∧ n = decodeU64 ((data.drop pos).take 8) ∧ next = pos + 8 := by
  revert h
  fun_cases readU64 data pos <;> rintro ⟨⟩
  next hfits => exact ⟨Nat.le_of_not_lt hfits, rfl, rfl⟩

theorem readFile_eq_ok {tooShort : Nat → Bool} {payload name rest : Str} {executable : Bool}
    (hcheck : ∀ n ≤ kMaxStringSize, tooShort (8 + n + 1) = false → 8 + n + 1 ≤ payload.length)
    (h : readFile tooShort payload = .ok (name, executable, rest)) :
    ∃ lenBytes flags, payload = lenBytes ++ (name ++ flags :: rest) ∧ lenBytes.length = 8 ∧
      decodeU64 lenBytes = name.length ∧ tooShort (8 + name.length + 1) = false := by
  revert h
  fun_cases readFile tooShort payload <;> rintro ⟨⟩
  next nameLen fpos hread hshort hmax =>
    obtain ⟨-, hlen, rfl⟩ := readU64_eq_some hread
    have hshort' := Bool.eq_false_iff.mpr hshort
    have hle := hcheck nameLen (Nat.le_of_not_lt hmax) hshort'
    have hnameLen : ((payload.drop 8).take nameLen).length = nameLen := by
      rw [length_take, length_drop]
      omega
    refine ⟨payload.take 8, payload.getD (8 + nameLen) '\x00', eq_take_append_drop hle, ?_,
      hlen.symm.trans hnameLen.symm, ?_⟩
    · rw [length_take]
      omega
    · exact hnameLen.symm ▸ hshort'

theorem takeSection_ok_iff {kind : Char} {payload : Str} (blob : Blob)
    (hsize : payload.length ≤ kMaxStringSize) :
    (∃ next, takeSection (SectionKind.ofCode (kind.toNat % 256)) payload blob = .ok next) ↔
      Readable kind payload := by
  have hmax : kMaxStringSize + 73 < 2 ^ 64 := by decide
  have hhex : kDigestHexLen = 64 := rfl
  rw [Readable]
  cases hkind : SectionKind.ofCode (kind.toNat % 256) with
  | none => simp [takeSection, FileInside, hkind]
  | some section' =>
    cases section' with
    | file =>
      simp only [takeSection, FileInside, hkind]
      constructor
      · rintro ⟨next, h⟩
        split at h
        · cases h
        · rename_i name executable contents hread
          obtain ⟨lenBytes, flags, heq, hlen, hname, -⟩ := readFile_eq_ok (fun n hn hc => by
            rw [decide_eq_false_iff_not, wrap_of_lt (by omega)] at hc
            omega) hread
          exact ⟨lenBytes, name, flags, contents, heq, hlen, hname, trivial⟩
      · rintro ⟨lenBytes, name, flags, contents, rfl, hlen, hname, -⟩
        have hlength := length_fileParts hlen name contents flags
        rw [readFile_parts _ hlen hname hsize
          (by rw [decide_eq_false_iff_not, wrap_of_lt (by omega)]; omega)]
        exact ⟨_, rfl⟩
    | sidecarFile =>
      simp only [takeSection]
      constructor
      · rintro ⟨next, h⟩
        split at h
        · cases h
        · rename_i name executable digest hread
          obtain ⟨lenBytes, flags, heq, hlen, hname, hc⟩ := readFile_eq_ok (fun n hn hc => by
            rw [decide_eq_false_iff_not, not_not, wrap_of_lt (by omega)] at hc
            omega) hread
          split at h
          · rename_i hdigits
            refine ⟨lenBytes, name, flags, digest, heq, hlen, hname, ?_, hdigits⟩
            have hlength := length_fileParts hlen name digest flags
            rw [← heq] at hlength
            rw [decide_eq_false_iff_not, not_not, wrap_of_lt (by omega)] at hc
            omega
          · cases h
      · rintro ⟨lenBytes, name, flags, digest, rfl, hlen, hname, hdigest, hdigits⟩
        have hlength := length_fileParts hlen name digest flags
        rw [readFile_parts _ hlen hname hsize
          (by rw [decide_eq_false_iff_not, not_not, wrap_of_lt (by omega)]; omega)]
        simp only [hdigits, if_true]
        exact ⟨_, rfl⟩
    | _ => simp [takeSection, FileInside, hkind]

/-! ## The loop -/

section Loop

variable {body : Str}

/-- One turn of the loop goes on exactly where the section is followed. -/
theorem readSection_eq_ok (hsize : body.length ≤ kMaxStringSize) (hp : p ≤ body.length)
    (blob : Blob) {next : Nat} :
    (∃ blob', readSection body p blob = .ok (next, blob')) ↔
      Followed body p ∧ next = wrap (p + 9 + declaredLen body p) := by
  have hmax : kMaxStringSize + 73 < 2 ^ 64 := by decide
  have hpayload : ((body.drop (p + 9)).take (declaredLen body p)).length ≤ kMaxStringSize := by
    rw [length_take, length_drop]
    omega
  constructor
  · rintro ⟨blob', h⟩
    revert h
    fun_cases readSection body p blob <;> rintro ⟨⟩
    next len start hread hfits htaken =>
      obtain ⟨hheader, rfl, rfl⟩ := readU64_eq_some hread
      rw [wrap_of_lt (by omega)] at hheader
      exact ⟨⟨hheader, Nat.le_of_not_lt hfits,
        (takeSection_ok_iff blob hpayload).mp ⟨_, htaken⟩⟩, rfl⟩
  · rintro ⟨hfollowed, rfl⟩
    obtain ⟨blob', htaken⟩ := (takeSection_ok_iff blob hpayload).mpr hfollowed.readable
    have hheader := hfollowed.header
    have hread := readU64_of_le (show p + 1 + 8 ≤ body.length by omega) (by omega)
    refine ⟨blob', ?_⟩
    rw [readSection, hread]
    change (if wrap (p + 9 + declaredLen body p) > body.length then _ else _) = _
    rw [if_neg (Nat.not_lt.mpr hfollowed.fits)]
    simp only [declaredLen] at htaken
    simp only [htaken]
    rfl

/-- The loop comes to every position the lengths lead to. -/
theorem Reaches.turns (hsize : body.length ≤ kMaxStringSize) (h : Reaches body p) :
    ∃ turns blob, ∀ fuel,
      readSections body (fuel + turns) 0 {} = readSections body fuel p blob := by
  induction h with
  | start => exact ⟨0, {}, fun _ => rfl⟩
  | @next p hreaches hfollowed ih =>
    obtain ⟨turns, blob, hturns⟩ := ih
    obtain ⟨blob', hread⟩ := (readSection_eq_ok hsize hreaches.le blob).mpr
      ⟨hfollowed, rfl⟩
    refine ⟨turns + 1, blob', fun fuel => ?_⟩
    have hlt : p < body.length := Nat.lt_of_lt_of_le (by omega) hfollowed.header
    rw [show fuel + (turns + 1) = fuel + 1 + turns by omega, hturns, readSections, if_pos hlt,
      hread]

theorem refused_of_failed (hsize : body.length ≤ kMaxStringSize) {fuel : Nat}
    (hreaches : Reaches body p) {failure : ReadFailure}
    (h : readSections body fuel p blob = some (.failed failure)) :
    ∃ q, Reaches body q ∧ q < body.length ∧ ¬ Followed body q := by
  induction fuel generalizing p blob with
  | zero => cases h
  | succ fuel ih =>
    rw [readSections] at h
    split at h
    next hp =>
      by_cases hfollowed : Followed body p
      · obtain ⟨blob', hread⟩ := (readSection_eq_ok hsize hreaches.le blob).mpr
          ⟨hfollowed, rfl⟩
        rw [hread] at h
        exact ih (.next hreaches hfollowed) h
      · exact ⟨p, hreaches, hp, hfollowed⟩
    next => cases h

/-! ## While nothing wraps -/

theorem readSections_ends (hsize : body.length ≤ kMaxStringSize)
    (hlow : ∀ p, Reaches body p → p + 9 ≤ body.length → p + 9 + declaredLen body p < 2 ^ 64)
    (hreaches : Reaches body p) (blob : Blob) :
    ∃ fuel result, readSections body fuel p blob = some result := by
  induction hleft : body.length - p using Nat.strong_induction_on generalizing p blob with
  | _ left ih =>
    by_cases hp : p < body.length
    · cases hread : readSection body p blob with
      | error failure => exact ⟨1, .failed failure, by simp only [readSections, if_pos hp, hread]⟩
      | ok next =>
        obtain ⟨q, blob'⟩ := next
        obtain ⟨hfollowed, rfl⟩ := (readSection_eq_ok hsize hreaches.le blob).mp ⟨blob', hread⟩
        have hend := wrap_of_lt (hlow p hreaches hfollowed.header)
        obtain ⟨fuel, result, hrun⟩ := ih _ (by omega) (.next hreaches hfollowed) blob' rfl
        exact ⟨fuel + 1, result, by simp only [readSections, if_pos hp, hread, hrun]⟩
    · exact ⟨1, .accepted blob, by simp only [readSections, if_neg hp]⟩

theorem sections_cons_at (hp : p + 9 + declaredLen body p ≤ body.length)
    (hfile : FileInside (body.getD p '\x00') ((body.drop (p + 9)).take (declaredLen body p)))
    (hrest : Sections (body.drop (p + 9 + declaredLen body p))) : Sections (body.drop p) := by
  have hdrop : body.drop p = body.getD p '\x00' :: ((body.drop (p + 1)).take 8 ++
      ((body.drop (p + 9)).take (declaredLen body p) ++
        body.drop (p + 9 + declaredLen body p))) := by
    have hpayload := take_append_drop (declaredLen body p) (body.drop (p + 9))
    have hlen := take_append_drop 8 (body.drop (p + 1))
    rw [drop_drop] at hpayload hlen
    rw [hpayload, hlen]
    exact drop_eq_getD_cons (show p < body.length by omega)
  rw [hdrop]
  refine .cons ?_ ?_ hfile hrest
  · rw [length_take, length_drop]
    omega
  · rw [length_take, length_drop, Nat.min_eq_left (by omega)]
    rfl

theorem sections_of_accepted (hsize : body.length ≤ kMaxStringSize)
    (hlow : ∀ p, Reaches body p → p + 9 ≤ body.length → p + 9 + declaredLen body p < 2 ^ 64)
    {fuel : Nat} (hreaches : Reaches body p) {result : Blob}
    (h : readSections body fuel p blob = some (.accepted result)) : Sections (body.drop p) := by
  induction fuel generalizing p blob with
  | zero => cases h
  | succ fuel ih =>
    rw [readSections] at h
    split at h
    · split at h
      · cases h
      · rename_i next blob' hread
        obtain ⟨hfollowed, rfl⟩ := (readSection_eq_ok hsize hreaches.le blob).mp ⟨blob', hread⟩
        have hnext := Reaches.next hreaches hfollowed
        have hend := wrap_of_lt (hlow p hreaches hfollowed.header)
        have hrest := ih hnext h
        rw [hend] at hrest
        exact sections_cons_at (hend ▸ hnext.le) hfollowed.readable.fileInside hrest
    · rename_i hp
      rw [drop_eq_nil_of_le (Nat.le_of_not_lt hp)]
      exact .nil

/-! ## Sections are cut off a text in one way -/

theorem sections_at (hp : p < body.length) (h : Sections (body.drop p)) :
    p + 9 + declaredLen body p ≤ body.length ∧
      Sections (body.drop (p + 9 + declaredLen body p)) := by
  cases htext : body.drop p with
  | nil =>
    have hle := drop_eq_nil_iff.mp htext
    omega
  | cons kind text =>
    rw [htext] at h
    cases h with
    | @cons _ lenBytes payload rest hlen hdeclared hfile hrest =>
      have hdrop : body.drop (p + 1) = lenBytes ++ (payload ++ rest) := by
        rw [← drop_drop, htext]
        rfl
      have hdeclaredLen : declaredLen body p = payload.length := by
        rw [declaredLen, hdrop, take_left' hlen, hdeclared]
      have hlength := congrArg length hdrop
      simp only [length_drop, length_append, hlen] at hlength
      refine ⟨by omega, ?_⟩
      have hnext : body.drop (p + 9 + declaredLen body p) = rest := by
        rw [show p + 9 + declaredLen body p = p + 1 + (8 + payload.length) by omega,
          ← drop_drop, hdrop, ← drop_drop, ← hlen, drop_left, drop_left]
      rwa [hnext]

theorem Sections.low (hsize : body.length ≤ kMaxStringSize) (h : Sections (body.drop p))
    (hp : p < body.length) : p + 9 + declaredLen body p < 2 ^ 64 := by
  have hle := (sections_at hp h).1
  have hmax : kMaxStringSize < 2 ^ 64 := by decide
  omega

theorem Sections.at_reached (hsize : body.length ≤ kMaxStringSize) (h : Sections body)
    (hreaches : Reaches body p) : Sections (body.drop p) := by
  induction hreaches with
  | start => exact h
  | @next p _ hfollowed ih =>
    have hp : p < body.length := Nat.lt_of_lt_of_le (by omega) hfollowed.header
    rw [wrap_of_lt (ih.low hsize hp)]
    exact (sections_at hp ih).2

end Loop

/-! ## Every text -/

theorem readSections_mono {body : Str} {fuel fuel' : Nat} {result : ReadResult}
    (h : readSections body fuel p blob = some result) (hle : fuel ≤ fuel') :
    readSections body fuel' p blob = some result := by
  induction fuel generalizing fuel' p blob with
  | zero => cases h
  | succ fuel ih =>
    obtain ⟨fuel', rfl⟩ := Nat.exists_eq_succ_of_ne_zero (show fuel' ≠ 0 by omega)
    rw [readSections] at h ⊢
    split
    · rename_i hp
      rw [if_pos hp] at h
      cases hread : readSection body p blob with
      | error failure => simpa only [hread] using h
      | ok next =>
        simp only [hread] at h ⊢
        exact ih h (Nat.le_of_succ_le_succ hle)
    · rename_i hp
      rwa [if_neg hp] at h

theorem Reads.unique {hash : Str → Str} {result result' : ReadResult}
    (h : Reads hash data result) (h' : Reads hash data result') : result = result' := by
  obtain ⟨fuel, h⟩ := h
  obtain ⟨fuel', h'⟩ := h'
  cases hheader : checkHeader hash data with
  | none =>
    rw [deserializeBlob, hheader] at h h'
    exact Option.some.inj (h.symm.trans h')
  | some body =>
    rw [deserializeBlob, hheader] at h h'
    exact Option.some.inj ((readSections_mono h (Nat.le_max_left fuel fuel')).symm.trans
      (readSections_mono h' (Nat.le_max_right fuel fuel')))

/-- Reading ends, and what is accepted is a row of complete sections. -/
def ReadsWellFormed (hash : Str → Str) (data : Str) : Prop :=
  (∃ result, Reads hash data result) ∧
    ∀ blob, Reads hash data (.accepted blob) →
      ∃ body, checkHeader hash data = some body ∧ Sections body

theorem length_le_of_checkHeader {hash : Str → Str} {body : Str}
    (h : checkHeader hash data = some body) : body.length ≤ data.length := by
  revert h
  fun_cases checkHeader hash data <;> intro h
  next => cases h
  next => cases h
  next => cases h
  next => cases h
  next => cases h
  next =>
    rw [← Option.some.inj h, length_take, length_drop]
    omega

/-- Reading a text ends, and accepts only complete sections, exactly when the lengths in
its body lead nowhere that wraps, or somewhere that is refused. -/
theorem readsWellFormed_iff (hash : Str → Str) (data : Str) (hsize : data.length ≤ kMaxStringSize) :
    ReadsWellFormed hash data ↔
      ∀ body, checkHeader hash data = some body → LeadsSafely body := by
  cases hheader : checkHeader hash data with
  | none =>
    have hrejected := reads_rejected hheader
    refine ⟨fun _ body h => by simp at h, fun _ => ⟨⟨_, hrejected⟩, fun blob h => ?_⟩⟩
    cases hrejected.unique h
  | some body =>
    have hbody := (length_le_of_checkHeader hheader).trans hsize
    have hread : ∀ fuel, deserializeBlob hash fuel data {} = readSections body fuel 0 {} :=
      fun fuel => by rw [deserializeBlob, hheader]
    constructor
    · rintro ⟨⟨result, fuel, hresult⟩, haccepted⟩ _ ⟨⟩
      cases result with
      | failed failure =>
        exact .inr (refused_of_failed hbody .start ((hread fuel).symm.trans hresult))
      | accepted blob =>
        obtain ⟨body', hheader', hsections⟩ := haccepted blob ⟨fuel, hresult⟩
        cases hheader.symm.trans hheader'
        exact .inl (fun p hp hle => (hsections.at_reached hbody hp).low hbody (by omega))
    · intro h
      rcases h body rfl with hlow | ⟨p, hreaches, hp, hrefused⟩
      · constructor
        · obtain ⟨fuel, result, hrun⟩ := readSections_ends hbody hlow .start {}
          exact ⟨result, fuel, (hread fuel).trans hrun⟩
        · rintro blob ⟨fuel, hrun⟩
          rw [hread] at hrun
          exact ⟨body, hheader, sections_of_accepted hbody hlow .start hrun⟩
      · obtain ⟨turns, blob, hturns⟩ := hreaches.turns hbody
        have hfailed : ∃ failure, Reads hash data (.failed failure) := by
          cases hsection : readSection body p blob with
          | error failure =>
            refine ⟨failure, 1 + turns, ?_⟩
            rw [hread, hturns, readSections, if_pos hp, hsection]
          | ok next =>
            have hok := (readSection_eq_ok hbody hreaches.le blob).mp ⟨next.2, hsection⟩
            exact absurd hok.1 hrefused
        obtain ⟨failure, hfailed⟩ := hfailed
        exact ⟨⟨_, hfailed⟩, fun blob h => by cases hfailed.unique h⟩

def newerBody : Str := Char.ofNat 9 :: appendU64 2 ++ "ab".toList

def entryText (body : Str) : Str := kMagic ++ checksum body ++ appendU64 body.length ++ body

theorem readsWellFormed_newer :
    (entryText newerBody).length ≤ kMaxStringSize ∧
      ReadsWellFormed checksum (entryText newerBody) := by
  have hsize : (entryText newerBody).length ≤ kMaxStringSize := by decide +kernel
  refine ⟨hsize, (readsWellFormed_iff checksum (entryText newerBody) hsize).mpr ?_⟩
  intro body hheader
  have hbody : checkHeader checksum (entryText newerBody) = some newerBody := by decide +kernel
  cases hbody.symm.trans hheader
  refine .inl (fun p _ hp => ?_)
  have hlength : newerBody.length = 11 := by decide
  have hp' : p = 0 ∨ p = 1 ∨ p = 2 := by omega
  rcases hp' with rfl | rfl | rfl <;> decide +kernel

/-- A section whose length leads the position back to the section itself. -/
def loopingBody : Str := Char.ofNat 9 :: appendU64 (2 ^ 64 - 9)

theorem not_readsWellFormed_looping : ¬ ReadsWellFormed checksum (entryText loopingBody) := by
  have hheader : checkHeader checksum (entryText loopingBody) = some loopingBody := by
    decide +kernel
  have hstep : readSection loopingBody 0 {} = .ok (0, {}) := by decide +kernel
  have hloop : ∀ fuel, readSections loopingBody fuel 0 {} = none := by
    intro fuel
    induction fuel with
    | zero => rfl
    | succ fuel ih =>
      rw [readSections, if_pos (by decide), hstep]
      exact ih
  rintro ⟨⟨result, fuel, hrun⟩, -⟩
  rw [deserializeBlob, hheader] at hrun
  exact absurd ((hloop fuel).symm.trans hrun) (by simp)

end Vcache

import Mathlib.Data.List.Basic

/-!
# Greedy parsing expressions

A parser takes a prefix of the input or fails, repetition takes as much as it can
and never gives back, and a choice is settled by the first alternative that
succeeds. Two rules carry the proofs about a grammar. What `write` wrote is read
back by a repetition as long as each element is read back in front of what can
follow it (`star_flatMap`). And a parser is judged by what holds of the rest of the
input before and after it and of the value it returns (`Triple`).
-/

namespace Peg

open List Option

variable {σ α β γ : Type*}

abbrev Parser (σ α : Type*) := List σ → Option (α × List σ)

def satisfy (p : σ → Bool) : Parser σ σ
  | [] => none
  | c :: s => if p c then some (c, s) else none

def lit [DecidableEq σ] (c : σ) : Parser σ σ := satisfy (fun d => d = c)

def value (f : α → β) (p : Parser σ α) : Parser σ β := fun s =>
  (p s).map (fun r => (f r.1, r.2))

def seq (p : Parser σ α) (q : Parser σ β) : Parser σ (α × β) := fun s =>
  (p s).bind (fun r => (q r.2).map (fun r' => ((r.1, r'.1), r'.2)))

def choice (p q : Parser σ α) : Parser σ α := fun s => (p s).or (q s)

def optional (p : Parser σ α) : Parser σ (Option α) := fun s =>
  some (match p s with
    | some (a, t) => (some a, t)
    | none => (none, s))

def upTo (p : Parser σ α) : Nat → List σ → List α × List σ
  | 0, s => ([], s)
  | n + 1, s => match p s with
    | none => ([], s)
    | some (a, t) => (a :: (upTo p n t).1, (upTo p n t).2)

/-- As often as `p` succeeds. A parser that consumes something each time can do so at most
once an element. -/
def star (p : Parser σ α) (s : List σ) : List α × List σ := upTo p s.length s

def many (p : Parser σ α) : Parser σ (List α) := fun s => some (star p s)

def many1 (p : Parser σ α) : Parser σ (List α) := value (fun r => r.1 :: r.2) (seq p (many p))

/-- A separator with no element after it is given back. -/
def sepBy1 (p : Parser σ α) (sep : Parser σ β) : Parser σ (List α) :=
  value (fun r => r.1 :: r.2) (seq p (many (value Prod.snd (seq sep p))))

def skip (skipper : Parser σ β) (s : List σ) : List σ := (star skipper s).2

def skipping (skipper : Parser σ β) (p : Parser σ α) : Parser σ α := fun s => p (skip skipper s)

/-! ## What the parsers return -/

variable {p : Parser σ α} {q : Parser σ β} {f : α → β} {s t u rest : List σ} {a : α} {b : β}

theorem satisfy_eq_some {p : σ → Bool} {c : σ} (h : satisfy p s = some (c, t)) :
    s = c :: t ∧ p c = true := by
  cases s with
  | nil => cases h
  | cons d s =>
    rw [satisfy] at h
    split at h
    · rename_i hd
      cases h
      exact ⟨rfl, hd⟩
    · cases h

theorem seq_eq_some {r : (α × β) × List σ} (h : seq p q s = some r) :
    ∃ a t b u, p s = some (a, t) ∧ q t = some (b, u) ∧ r = ((a, b), u) := by
  obtain ⟨⟨a, t⟩, hp, h⟩ := bind_eq_some_iff.mp h
  obtain ⟨⟨b, u⟩, hq, h⟩ := map_eq_some_iff.mp h
  exact ⟨a, t, b, u, hp, hq, h.symm⟩

theorem value_eq_some (h : value f p s = some (b, t)) : ∃ a, p s = some (a, t) ∧ f a = b := by
  obtain ⟨⟨a, u⟩, hp, h⟩ := map_eq_some_iff.mp h
  obtain ⟨hb, ht⟩ := Prod.mk.inj h
  exact ⟨a, by rw [hp, ← ht], hb⟩

theorem seq_of_some
    (hp : p s = some (a, t)) (hq : q t = some (b, u)) : seq p q s = some ((a, b), u) := by
  simp [seq, hp, hq]

theorem seq_of_none (q : Parser σ β) (h : p s = none) :
    seq p q s = none := by
  simp [seq, h]

theorem value_of_some (h : p s = some (a, t)) : value f p s = some (f a, t) := by
  simp [value, h]

theorem value_of_none (h : p s = none) :
    value f p s = none := by
  simp [value, h]

/-! ## Repetition -/

def Consumes (p : Parser σ α) : Prop := ∀ s a t, p s = some (a, t) → t.length < s.length

theorem upTo_eq_star (hp : Consumes p) {n : Nat} (hn : s.length ≤ n) : upTo p n s = star p s := by
  have hmore : ∀ n m (s : List σ), s.length ≤ n → s.length ≤ m → upTo p n s = upTo p m s := by
    intro n
    induction n with
    | zero =>
      intro m s hn hm
      obtain rfl := length_eq_zero_iff.mp (Nat.le_zero.mp hn)
      cases m with
      | zero => rfl
      | succ m =>
        cases hs : p [] with
        | none => simp [upTo, hs]
        | some r => exact absurd (hp [] r.1 r.2 hs) (Nat.not_lt_zero _)
    | succ n ih =>
      intro m s hn hm
      cases m with
      | zero =>
        obtain rfl := length_eq_zero_iff.mp (Nat.le_zero.mp hm)
        cases hs : p [] with
        | none => simp [upTo, hs]
        | some r => exact absurd (hp [] r.1 r.2 hs) (Nat.not_lt_zero _)
      | succ m =>
        cases hs : p s with
        | none => simp [upTo, hs]
        | some r =>
          have hlt := hp s r.1 r.2 hs
          simp only [upTo, hs, ih m r.2 (by omega) (by omega)]
  exact hmore n s.length s hn (Nat.le_refl _)

theorem star_of_none (h : p s = none) : star p s = ([], s) := by
  rw [star]
  cases s.length with
  | zero => rfl
  | succ n => simp [upTo, h]

theorem star_of_some (hp : Consumes p)
    (h : p s = some (a, t)) : star p s = (a :: (star p t).1, (star p t).2) := by
  have hlt := hp s a t h
  obtain ⟨n, hn⟩ := Nat.exists_eq_succ_of_ne_zero (Nat.ne_of_gt (Nat.zero_lt_of_lt hlt))
  rw [star, hn, upTo, h]
  simp only [upTo_eq_star hp (show t.length ≤ n by omega)]

/-- What `write` wrote is read back, each element in front of whatever may follow one. -/
theorem star_flatMap (hp : Consumes p) (follows : List σ → Prop)
    {write : α → List σ} {as : List α} {stop : List σ}
    (hread : ∀ a ∈ as, ∀ rest, follows rest → p (write a ++ rest) = some (a, rest))
    (hwrite : ∀ a ∈ as, ∀ rest, follows (write a ++ rest))
    (hfollows : follows stop) (hstop : p stop = none) :
    star p (as.flatMap write ++ stop) = (as, stop) := by
  have hrest : ∀ bs : List α, (∀ b ∈ bs, b ∈ as) → follows (bs.flatMap write ++ stop) := by
    intro bs hbs
    cases bs with
    | nil => exact hfollows
    | cons b bs =>
      rw [flatMap_cons, append_assoc]
      exact hwrite b (hbs b mem_cons_self) _
  have hall : ∀ bs : List α, (∀ b ∈ bs, b ∈ as) →
      star p (bs.flatMap write ++ stop) = (bs, stop) := by
    intro bs hbs
    induction bs with
    | nil => exact star_of_none hstop
    | cons b bs ih =>
      have hmem : ∀ c ∈ bs, c ∈ as := fun c hc => hbs c (mem_cons_of_mem _ hc)
      rw [flatMap_cons, append_assoc,
        star_of_some hp (hread b (hbs b mem_cons_self) _ (hrest bs hmem)), ih hmem]
  exact hall as (fun _ h => h)

theorem star_length_le (hp : Consumes p) (s : List σ) :
    (star p s).2.length ≤ s.length := by
  have hle : ∀ n (s : List σ), (upTo p n s).2.length ≤ s.length := by
    intro n
    induction n with
    | zero => exact fun s => Nat.le_refl _
    | succ n ih =>
      intro s
      rw [upTo]
      split
      · exact Nat.le_refl _
      · rename_i a t h
        exact Nat.le_trans (ih t) (Nat.le_of_lt (hp s a t h))
  exact hle s.length s

theorem consumes_satisfy (p : σ → Bool) : Consumes (satisfy p) := by
  intro s a t h
  obtain ⟨rfl, -⟩ := satisfy_eq_some h
  exact Nat.lt_succ_self _

theorem consumes_value (hp : Consumes p) : Consumes (value f p) := by
  intro s b t h
  obtain ⟨a, ha, -⟩ := value_eq_some h
  exact hp s a t ha

theorem consumes_choice {q : Parser σ α} (hp : Consumes p) (hq : Consumes q) :
    Consumes (choice p q) := by
  intro s a t h
  rw [choice, or_eq_some_iff] at h
  rcases h with h | ⟨-, h⟩
  · exact hp s a t h
  · exact hq s a t h

theorem consumes_seq (hp : Consumes p)
    (hq : ∀ s b t, q s = some (b, t) → t.length ≤ s.length) : Consumes (seq p q) := by
  intro s r u h
  obtain ⟨a, t, b, u', ha, hb, heq⟩ := seq_eq_some h
  cases heq
  exact Nat.lt_of_le_of_lt (hq t b u hb) (hp s a t ha)

theorem consumes_many1 (hp : Consumes p) : Consumes (many1 p) := by
  refine consumes_value (consumes_seq hp ?_)
  intro s as t h
  obtain ⟨-, rfl⟩ := Prod.mk.inj (some.inj h)
  exact star_length_le hp s

theorem consumes_skipping {skipper : Parser σ β} (hs : Consumes skipper)
    (hp : Consumes p) : Consumes (skipping skipper p) := by
  intro s a t h
  exact Nat.lt_of_lt_of_le (hp _ a t h) (star_length_le hs s)

theorem many1_of_some (h : p s = some (a, t)) :
    many1 p s = some (a :: (star p t).1, (star p t).2) :=
  value_of_some (seq_of_some h rfl)

theorem many1_of_none (h : p s = none) : many1 p s = none :=
  value_of_none (seq_of_none _ h)

/-! ## What holds of the rest of the input -/

/-- From a rest of the input that satisfies `pre`, `p` leaves one that satisfies `post` and
returns a value that satisfies `P`. -/
def Triple (pre post : List σ → Prop) (P : α → Prop) (p : Parser σ α) : Prop :=
  ∀ s a t, pre s → p s = some (a, t) → post t ∧ P a

abbrev Keeps (I : List σ → Prop) (P : α → Prop) (p : Parser σ α) : Prop := Triple I I P p

section Triple

variable {pre mid post I : List σ → Prop} {P : α → Prop} {Q : β → Prop}

theorem triple_true (p : Parser σ α) : Triple pre (fun _ => True) (fun _ => True) p :=
  fun _ _ _ _ _ => ⟨trivial, trivial⟩

theorem Triple.imp {R : α → Prop} (hp : Triple pre post P p)
    (h : ∀ a, P a → R a) : Triple pre post R p := fun s a t hs ha =>
  ⟨(hp s a t hs ha).1, h a (hp s a t hs ha).2⟩

theorem Triple.value (hp : Triple pre post P p)
    (hf : ∀ a, P a → Q (f a)) : Triple pre post Q (value f p) := by
  intro s b t hs h
  obtain ⟨a, ha, rfl⟩ := value_eq_some h
  obtain ⟨ht, hPa⟩ := hp s a t hs ha
  exact ⟨ht, hf a hPa⟩

theorem Triple.seq (hp : Triple pre mid P p)
    (hq : Triple mid post Q q) : Triple pre post (fun r => P r.1 ∧ Q r.2) (seq p q) := by
  intro s r u hs h
  obtain ⟨a, t, b, u', ha, hb, heq⟩ := seq_eq_some h
  cases heq
  obtain ⟨ht, hPa⟩ := hp s a t hs ha
  obtain ⟨hu, hQb⟩ := hq t b u ht hb
  exact ⟨hu, hPa, hQb⟩

theorem Triple.choice {q : Parser σ α} (hp : Triple pre post P p) (hq : Triple pre post P q) :
    Triple pre post P (choice p q) := by
  intro s a t hs h
  rw [Peg.choice, or_eq_some_iff] at h
  rcases h with h | ⟨-, h⟩
  · exact hp s a t hs h
  · exact hq s a t hs h

theorem Keeps.upTo (hp : Keeps I P p) (n : Nat) (hs : I s) :
    I (upTo p n s).2 ∧ ∀ a ∈ (upTo p n s).1, P a := by
  induction n generalizing s with
  | zero => exact ⟨hs, fun a ha => absurd ha not_mem_nil⟩
  | succ n ih =>
    rw [Peg.upTo]
    split
    · exact ⟨hs, fun a ha => absurd ha not_mem_nil⟩
    · rename_i b t hb
      obtain ⟨ht, hPb⟩ := hp s b t hs hb
      obtain ⟨hrest, hall⟩ := ih ht
      exact ⟨hrest, forall_mem_cons.mpr ⟨hPb, hall⟩⟩

theorem Keeps.many (hp : Keeps I P p) :
    Keeps I (fun as => ∀ a ∈ as, P a) (many p) := by
  intro s as t hs h
  obtain ⟨rfl, rfl⟩ := Prod.mk.inj (some.inj h)
  exact hp.upTo s.length hs

theorem Triple.many1 (hp : Triple pre I P p) (hrest : Keeps I P p) :
    Triple pre I (fun as => as ≠ [] ∧ ∀ a ∈ as, P a) (many1 p) :=
  (hp.seq hrest.many).value
    (fun _ h => ⟨cons_ne_nil _ _, forall_mem_cons.mpr h⟩)

/-- An element leads from `pre` to `post`, and a separator with the next element keeps `post`. -/
theorem Triple.sepBy1 {sep : Parser σ β} (hp : Triple pre post P p)
    (hsep : Triple post pre Q sep) : Triple pre post (fun as => ∀ a ∈ as, P a) (sepBy1 p sep) :=
  (hp.seq (Keeps.many ((hsep.seq hp).value (fun _ h => h.2)))).value
    (fun _ h => forall_mem_cons.mpr h)

theorem Triple.optional (hp : Triple pre post P p) :
    Triple pre (fun s => pre s ∨ post s) (fun a => ∀ b ∈ a, P b) (optional p) := by
  intro s a t hs h
  rw [Peg.optional, some.injEq] at h
  split at h
  · rename_i b u hb
    obtain ⟨rfl, rfl⟩ := Prod.mk.inj h
    obtain ⟨hu, hPb⟩ := hp s b u hs hb
    exact ⟨.inr hu, fun c hc => mem_some_iff.mp hc ▸ hPb⟩
  · cases h
    exact ⟨.inl hs, fun c hc => absurd hc (not_mem_none c)⟩

theorem Triple.skipping {skipper : Parser σ β} (hskip : Keeps pre Q skipper)
    (hp : Triple pre post P p) : Triple pre post P (skipping skipper p) := by
  intro s a t hs h
  exact hp _ a t (hskip.upTo s.length hs).1 h

end Triple

end Peg

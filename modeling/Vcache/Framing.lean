import Mathlib.Data.List.Basic
import Mathlib.Data.Nat.Digits.Defs

/-!
# Self-delimiting codes

A code is self-delimiting on a set of values when a codeword can be cut off the
front of any text in one way. Concatenations of such codewords determine the
sequence of values. Prefixing a list with its length in a fixed number of
little-endian digits is such a code for the lists whose length fits.
-/

namespace Framing

open List

variable {width base : ℕ}

variable {α β : Type*}

def SelfDelimiting (valid : β → Prop) (code : β → List α) : Prop :=
  ∀ x y s t, valid x → valid y → code x ++ s = code y ++ t → x = y ∧ s = t

theorem SelfDelimiting.flatMap_inj {valid : β → Prop} {code : β → List α}
    (hcode : SelfDelimiting valid code) (hne : ∀ x, code x ≠ []) {xs ys : List β}
    (hxs : ∀ x ∈ xs, valid x) (hys : ∀ y ∈ ys, valid y)
    (h : xs.flatMap code = ys.flatMap code) : xs = ys := by
  induction xs generalizing ys with
  | nil =>
    cases ys with
    | nil => rfl
    | cons y ys => simp [hne y] at h
  | cons x xs ih =>
    cases ys with
    | nil => simp [hne x] at h
    | cons y ys =>
      rw [flatMap_cons, flatMap_cons] at h
      obtain ⟨rfl, htail⟩ := hcode x y _ _ (hxs x mem_cons_self)
        (hys y mem_cons_self) h
      rw [ih (fun z hz => hxs z (mem_cons_of_mem _ hz))
        (fun z hz => hys z (mem_cons_of_mem _ hz)) htail]

theorem SelfDelimiting.flatMap_append_inj {valid : β → Prop} {code : β → List α}
    (hcode : SelfDelimiting valid code) {xs ys : List β} {s t : List α}
    (hxs : ∀ x ∈ xs, valid x) (hys : ∀ y ∈ ys, valid y) (hlen : xs.length = ys.length)
    (h : xs.flatMap code ++ s = ys.flatMap code ++ t) : xs = ys ∧ s = t := by
  induction xs generalizing ys with
  | nil =>
    cases ys with
    | nil => exact ⟨rfl, h⟩
    | cons y ys => cases hlen
  | cons x xs ih =>
    cases ys with
    | nil => cases hlen
    | cons y ys =>
      rw [flatMap_cons, flatMap_cons, append_assoc, append_assoc] at h
      obtain ⟨rfl, htail⟩ := hcode x y _ _ (hxs x mem_cons_self)
        (hys y mem_cons_self) h
      obtain ⟨rfl, hrest⟩ := ih (fun z hz => hxs z (mem_cons_of_mem _ hz))
        (fun z hz => hys z (mem_cons_of_mem _ hz)) (Nat.succ.inj hlen) htail
      exact ⟨rfl, hrest⟩

theorem flatten_inj (hwidth : 0 < width) {bs cs : List (List α)}
    (hbs : ∀ b ∈ bs, b.length = width) (hcs : ∀ c ∈ cs, c.length = width)
    (h : bs.flatten = cs.flatten) : bs = cs := by
  induction bs generalizing cs with
  | nil =>
    cases cs with
    | nil => rfl
    | cons c cs =>
      have hlen := congrArg length h
      rw [flatten_cons, length_append, hcs c mem_cons_self] at hlen
      simp only [flatten_nil, length_nil] at hlen
      omega
  | cons b bs ih =>
    cases cs with
    | nil =>
      have hlen := congrArg length h
      rw [flatten_cons, length_append, hbs b mem_cons_self] at hlen
      simp only [flatten_nil, length_nil] at hlen
      omega
    | cons c cs =>
      rw [flatten_cons, flatten_cons] at h
      obtain ⟨hblock, hrest⟩ := append_inj h
        (by rw [hbs b mem_cons_self, hcs c mem_cons_self])
      rw [hblock, ih (fun x hx => hbs x (mem_cons_of_mem _ hx))
        (fun x hx => hcs x (mem_cons_of_mem _ hx)) hrest]

theorem map_eq_of_flatMap_eq {γ : Type*} {f : β → List α} {g : γ → List α}
    (hwidth : 0 < width) (hf : ∀ x, (f x).length = width) (hg : ∀ y, (g y).length = width)
    {xs : List β} {ys : List γ} (h : xs.flatMap f = ys.flatMap g) : xs.map f = ys.map g := by
  rw [flatMap_def, flatMap_def] at h
  refine flatten_inj hwidth ?_ ?_ h
  · simpa using fun x _ => hf x
  · simpa using fun y _ => hg y

theorem append_inj_of_test {test : β → Bool} {xs ys xs' ys' : List β}
    (hxs : ∀ x ∈ xs, test x = true) (hys : ∀ y ∈ ys, test y = false)
    (hxs' : ∀ x ∈ xs', test x = true) (hys' : ∀ y ∈ ys', test y = false)
    (h : xs ++ ys = xs' ++ ys') : xs = xs' ∧ ys = ys' := by
  have htake : ∀ {l m : List β}, (∀ x ∈ l, test x = true) → (∀ y ∈ m, test y = false) →
      (l ++ m).filter test = l := by
    intro l m hl hm
    rw [filter_append, filter_eq_self.mpr hl,
      filter_eq_nil_iff.mpr (fun y hy => by simp [hm y hy]), append_nil]
  have hfirst : xs = xs' := by rw [← htake hxs hys, h, htake hxs' hys']
  subst hfirst
  exact ⟨rfl, append_cancel_left h⟩

theorem pair_infix_append {a b : α} {xs ys : List α} (h : [a, b] <:+: xs ++ ys) :
    [a, b] <:+: xs ∨ ys.head? = some b ∨ [a, b] <:+: ys := by
  induction xs with
  | nil => exact .inr (.inr h)
  | cons x xs ih =>
    rcases infix_cons_iff.mp h with hstart | hrest
    · obtain ⟨rfl, hnext⟩ := cons_prefix_cons.mp hstart
      cases xs with
      | nil => exact .inr (.inl (singleton_prefix_iff_head?_eq_some.mp hnext))
      | cons y xs =>
        obtain ⟨rfl, -⟩ := cons_prefix_cons.mp hnext
        exact .inl ⟨[], xs, rfl⟩
    · exact (ih hrest).imp_left infix_cons

/-- Of two neighbours in a row of blocks the second begins a block, or both are in one. -/
theorem pair_infix_flatten {a b : α} {blocks : List (List α)} (h : [a, b] <:+: blocks.flatten) :
    ∃ block ∈ blocks, block.head? = some b ∨ [a, b] <:+: block := by
  induction blocks with
  | nil => simp at h
  | cons block blocks ih =>
    rcases pair_infix_append h with hblock | hhead | hrest
    · exact ⟨block, mem_cons_self, .inr hblock⟩
    · rw [head?_flatten] at hhead
      obtain ⟨found, hmem, hfound⟩ := exists_of_findSome?_eq_some hhead
      exact ⟨found, mem_cons_of_mem _ hmem, .inl hfound⟩
    · obtain ⟨found, hmem, hfound⟩ := ih hrest
      exact ⟨found, mem_cons_of_mem _ hmem, hfound⟩
theorem flatten_map_singleton (xs : List α) : (xs.map (fun x => [x])).flatten = xs := by
  rw [← flatMap_def, flatMap_singleton']

theorem eq_of_pair_in_one {a b x : α} (h : [x].head? = some b ∨ [a, b] <:+: [x]) : b = x := by
  rcases h with hhead | hinfix
  · exact (Option.some.inj hhead).symm
  · exact absurd hinfix.length_le (by simp)

theorem eq_of_pair_in_two {a b x y : α} (h : [x, y].head? = some b ∨ [a, b] <:+: [x, y]) :
    b = x ∨ a = x ∧ b = y := by
  rcases h with hhead | hinfix
  · exact .inl (Option.some.inj hhead).symm
  · have heq := hinfix.eq_of_length rfl
    simp only [cons.injEq, and_true] at heq
    exact .inr heq

/-- The lowest `width` digits of a number in the given base, least significant first. -/
def littleEndian (digit : ℕ → α) (base : ℕ) : ℕ → ℕ → List α
  | 0, _ => []
  | width + 1, value => digit (value % base) :: littleEndian digit base width (value / base)

@[simp] theorem length_littleEndian (digit : ℕ → α) (base width value : ℕ) :
    (littleEndian digit base width value).length = width := by
  induction width generalizing value with
  | zero => rfl
  | succ width ih => simp [littleEndian, ih]

theorem littleEndian_inj {digit : ℕ → α} (hbase : 0 < base)
    (hdigit : ∀ i < base, ∀ j < base, digit i = digit j → i = j) {m n : ℕ}
    (hm : m < base ^ width) (hn : n < base ^ width)
    (h : littleEndian digit base width m = littleEndian digit base width n) : m = n := by
  induction width generalizing m n with
  | zero => simp_all
  | succ width ih =>
    obtain ⟨hlow, hhigh⟩ := cons.inj h
    have hmod := hdigit _ (Nat.mod_lt m hbase) _ (Nat.mod_lt n hbase) hlow
    have hdiv := ih (Nat.div_lt_of_lt_mul (by rwa [pow_succ'] at hm))
      (Nat.div_lt_of_lt_mul (by rwa [pow_succ'] at hn)) hhigh
    rw [← Nat.div_add_mod m base, ← Nat.div_add_mod n base, hmod, hdiv]

theorem foldr_littleEndian {digit : ℕ → α} {value : α → ℕ}
    (hvalue : ∀ i < base, value (digit i) = i) (hbase : 0 < base) (width n : ℕ) :
    (littleEndian digit base width n).foldr (fun d v => value d + base * v) 0 =
      n % base ^ width := by
  induction width generalizing n with
  | zero => simp [littleEndian, Nat.mod_one]
  | succ width ih =>
    rw [littleEndian, foldr_cons, ih, hvalue _ (Nat.mod_lt n hbase), pow_succ', Nat.mod_mul]

theorem foldr_value_lt {value : α → ℕ} {xs : List α} (hxs : ∀ x ∈ xs, value x < base) :
    xs.foldr (fun d v => value d + base * v) 0 < base ^ xs.length := by
  induction xs with
  | nil => simp
  | cons x xs ih =>
    have hx := hxs x mem_cons_self
    have hrest := ih (fun y hy => hxs y (mem_cons_of_mem _ hy))
    rw [foldr_cons, length_cons, pow_succ']
    calc value x + base * xs.foldr (fun d v => value d + base * v) 0
        < base + base * xs.foldr (fun d v => value d + base * v) 0 := by omega
      _ = base * (xs.foldr (fun d v => value d + base * v) 0 + 1) := by rw [mul_add]; omega
      _ ≤ base * base ^ xs.length := Nat.mul_le_mul_left _ hrest

theorem foldr_value_inj {value : α → ℕ} {xs ys : List α}
    (hlength : xs.length = ys.length) (hxs : ∀ x ∈ xs, value x < base)
    (hys : ∀ y ∈ ys, value y < base) (hinj : ∀ x ∈ xs, ∀ y ∈ ys, value x = value y → x = y)
    (h : xs.foldr (fun d v => value d + base * v) 0 = ys.foldr (fun d v => value d + base * v) 0) :
    xs = ys := by
  induction xs generalizing ys with
  | nil => exact (length_eq_zero_iff.mp hlength.symm).symm
  | cons x xs ih =>
    cases ys with
    | nil => cases hlength
    | cons y ys =>
      have hx := hxs x mem_cons_self
      have hy := hys y mem_cons_self
      rw [foldr_cons, foldr_cons] at h
      have hlow := congrArg (· % base) h
      simp only [Nat.add_mul_mod_self_left, Nat.mod_eq_of_lt hx, Nat.mod_eq_of_lt hy] at hlow
      rw [hlow] at h
      have hhigh := Nat.eq_of_mul_eq_mul_left (Nat.zero_lt_of_lt hx) (Nat.add_left_cancel h)
      rw [hinj x mem_cons_self y mem_cons_self hlow,
        ih (Nat.succ.inj hlength) (fun z hz => hxs z (mem_cons_of_mem _ hz))
          (fun z hz => hys z (mem_cons_of_mem _ hz))
          (fun z hz w hw => hinj z (mem_cons_of_mem _ hz) w (mem_cons_of_mem _ hw)) hhigh]

def lengthPrefixed (header : ℕ → List α) (x : List α) : List α := header x.length ++ x

theorem selfDelimiting_lengthPrefixed {header : ℕ → List α} {bound : ℕ}
    (hwidth : ∀ n, (header n).length = width)
    (hinj : ∀ m < bound, ∀ n < bound, header m = header n → m = n) :
    SelfDelimiting (fun x : List α => x.length < bound) (lengthPrefixed header) := by
  intro x y s t hx hy h
  simp only [lengthPrefixed, append_assoc] at h
  obtain ⟨hheader, hrest⟩ := append_inj h (by rw [hwidth, hwidth])
  have hlen := hinj _ hx _ hy hheader
  exact append_inj hrest hlen

end Framing

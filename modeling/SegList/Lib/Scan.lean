import Mathlib.Data.List.TakeWhile

/-!
# Reading words and numbers from a text

The input conversions of C's `scanf` as functions on lists of characters: `word` is `%s`, `number`
is the decimal `%d` and `%u`, `literal` is an ordinary character of the format.  A conversion skips
white space first; a literal does not.  A number ends where its digits do, also inside a word, and
the rest of the word is left for the next conversion.

`words` are the words of a text.  Two texts are `Alike` when they are inside the same word, with the
same rest of it and the same words behind:

* `word_cons`, `word_nil`   `%s` takes the first word;
* `number_alike`            the same words give the same number, and leave texts that are alike;
* `number_decimal`          a printed number is read back;
* `Agree.bind`              conversions one after the other, from texts with the same words.
-/

namespace Scan

def isSpace (c : Char) : Bool := c = ' ' ∨ 9 ≤ c.toNat ∧ c.toNat ≤ 13

def skipSpace (s : List Char) : List Char := s.dropWhile isSpace

/-- `%s`: the next word and the text behind it; `none` at the end of the text -/
def word (s : List Char) : Option (List Char × List Char) :=
  if skipSpace s = [] then none
  else some ((skipSpace s).takeWhile (fun c => !isSpace c),
    (skipSpace s).dropWhile (fun c => !isSpace c))

/-- the optional sign: whether it is a minus, and the text behind it -/
def sign : List Char → Bool × List Char
  | '-' :: s => (true, s)
  | '+' :: s => (false, s)
  | s => (false, s)

/-- the digits in front, as a number, if there are any, and the text behind them -/
def digits (s : List Char) : Option Nat × List Char :=
  (if s.takeWhile Char.isDigit = [] then none
    else some (Nat.ofDigitChars 10 (s.takeWhile Char.isDigit) 0), s.dropWhile Char.isDigit)

def signed (minus : Bool) (n : Nat) : Int := if minus then -n else n

/-- `%d`, `%u` up to the width of the type: the next number, if there is one, and the text behind.
A sign without a digit is used up. -/
def number (s : List Char) : Option Int × List Char :=
  ((digits (sign (skipSpace s)).2).1.map (signed (sign (skipSpace s)).1),
    (digits (sign (skipSpace s)).2).2)

/-- a character of the format: used up if it comes next -/
def literal (c : Char) : List Char → List Char
  | [] => []
  | d :: s => if d = c then s else d :: s

def words (s : List Char) : List (List Char) := (s.splitOnP isSpace).filter (fun w => w ≠ [])

/-- no white space in it -/
def Solid (w : List Char) : Prop := ∀ c ∈ w, isSpace c = false

/-- the text does not go on with the word -/
def Apart (s : List Char) : Prop := ∀ c t, s = c :: t → isSpace c = true

/-- inside the same word, with the same words behind -/
def Alike (s s' : List Char) : Prop :=
  ∃ w r r', Solid w ∧ Apart r ∧ Apart r' ∧ words r = words r' ∧ s = w ++ r ∧ s' = w ++ r'

/-- an integer in decimal -/
def decimal (i : Int) : List Char :=
  if i < 0 then '-' :: Nat.toDigits 10 i.natAbs else Nat.toDigits 10 i.natAbs

section
variable {s s' r r' w v : List Char} {ws : List (List Char)} {c : Char} {n : Nat} {i : Int}

/-! ## words -/

theorem apart_nil : Apart [] := fun c t h => absurd h (by simp)

theorem words_space (hc : isSpace c = true) : words (c :: s) = words s := by
  unfold words
  rw [List.splitOnP_cons_eq_if_modifyHead, if_pos hc, List.filter_cons_of_neg (by simp)]

theorem words_skipSpace : words (skipSpace s) = words s := by
  induction s with
  | nil => rfl
  | cons c s ih =>
    unfold skipSpace at ih ⊢
    cases hc : isSpace c with
    | true => rw [List.dropWhile_cons_of_pos hc, ih, words_space hc]
    | false => rw [List.dropWhile_cons_of_neg (by simp [hc])]

theorem words_append (hw : Solid w) (h0 : w ≠ []) (hr : Apart r) :
    words (w ++ r) = w :: words r := by
  cases r with
  | nil =>
    unfold words
    rw [List.append_nil, List.splitOnP_eq_singleton hw, List.filter_cons_of_pos (by simpa using h0)]
    rfl
  | cons c r =>
    have hc := hr c r rfl
    rw [words_space hc]
    unfold words
    rw [List.splitOnP_append_cons_of_forall_mem hw c hc, List.filter_cons_of_pos (by simpa using h0)]

theorem head_dropWhile {p : Char → Bool} {t : List Char} (h : s.dropWhile p = c :: t) :
    p c = false := by
  have hne : s.dropWhile p ≠ [] := by simp [h]
  have h1 := List.head_dropWhile_not p hne
  simpa only [h, List.head_cons] using h1

theorem skipSpace_skipSpace : skipSpace (skipSpace s) = skipSpace s := by
  cases h : skipSpace s with
  | nil => rfl
  | cons c t => exact List.dropWhile_cons_of_neg (by simp [show isSpace c = false from head_dropWhile h])

/-- without white space in front a text is empty or starts with a word -/
theorem skipSpace_cases (s : List Char) : skipSpace s = [] ∨
    ∃ w r, skipSpace s = w ++ r ∧ Solid w ∧ w ≠ [] ∧ Apart r := by
  cases h : skipSpace s with
  | nil => exact Or.inl rfl
  | cons c t =>
    have hc : isSpace c = false := head_dropWhile h
    refine Or.inr ⟨(c :: t).takeWhile (fun c => !isSpace c), (c :: t).dropWhile (fun c => !isSpace c),
      List.takeWhile_append_dropWhile.symm, fun d hd => ?_, ?_, fun d u hd => ?_⟩
    · simpa using List.mem_takeWhile_imp hd
    · rw [List.takeWhile_cons_of_pos (by simpa using hc)]
      exact List.cons_ne_nil _ _
    · simpa using head_dropWhile hd

theorem skipSpace_solid (hw : Solid w) (h0 : w ≠ []) : skipSpace (w ++ r) = w ++ r := by
  cases w with
  | nil => exact absurd rfl h0
  | cons c w => exact List.dropWhile_cons_of_neg (by simp [hw c List.mem_cons_self])

theorem skipSpace_of_nil (h : words s = []) : skipSpace s = [] := by
  rcases skipSpace_cases s with h1 | ⟨w, r, h1, hw, h0, hr⟩
  · exact h1
  · rw [← words_skipSpace, h1, words_append hw h0 hr] at h
    exact absurd h (by simp)

theorem skipSpace_of_cons (h : words s = w :: ws) :
    ∃ r, skipSpace s = w ++ r ∧ Solid w ∧ w ≠ [] ∧ Apart r ∧ words r = ws := by
  rw [← words_skipSpace] at h
  rcases skipSpace_cases s with h1 | ⟨v, r, h1, hv, h0, hr⟩
  · rw [h1] at h
    exact absurd h (by simp [words])
  · rw [h1, words_append hv h0 hr] at h
    obtain ⟨rfl, rfl⟩ := List.cons.inj h
    exact ⟨r, h1, hv, h0, hr, rfl⟩

/-! ## `%s` -/

theorem word_nil (h : words s = []) : word s = none := if_pos (skipSpace_of_nil h)

theorem word_cons (h : words s = w :: ws) :
    ∃ r, word s = some (w, r) ∧ words r = ws ∧ r.length < s.length := by
  obtain ⟨r, h1, hw, h0, hr, h2⟩ := skipSpace_of_cons h
  have hlen : r.length < s.length := by
    have h3 : (skipSpace s).length ≤ s.length := (List.dropWhile_sublist isSpace).length_le
    have h4 := List.length_pos_iff.mpr h0
    rw [h1, List.length_append] at h3
    omega
  refine ⟨r, ?_, h2, hlen⟩
  have hall : ∀ c ∈ w, (!isSpace c) = true := fun c hc => by simpa using hw c hc
  unfold word
  rw [h1, if_neg (by simp [h0]), List.takeWhile_append_of_pos hall, List.dropWhile_append_of_pos hall]
  cases r with
  | nil => simp
  | cons c r =>
    have hc := hr c r rfl
    rw [List.takeWhile_cons_of_neg (by simpa using hc), List.dropWhile_cons_of_neg (by simpa using hc),
      List.append_nil]

/-- two texts with the same words: no word in either, or the same one and the same ones behind -/
theorem word_alike (h : words s = words s') : word s = none ∧ word s' = none ∨
    ∃ w r r', word s = some (w, r) ∧ word s' = some (w, r') ∧ words r = words r' := by
  cases hs : words s with
  | nil => exact Or.inl ⟨word_nil hs, word_nil (h.symm.trans hs)⟩
  | cons w ws =>
    obtain ⟨r, h1, h2, -⟩ := word_cons hs
    obtain ⟨r', h3, h4, -⟩ := word_cons (h.symm.trans hs)
    exact Or.inr ⟨w, r, r', h1, h3, h2.trans h4.symm⟩

theorem word_length (h : word s = some (w, r)) : r.length < s.length := by
  cases hs : words s with
  | nil =>
    rw [word_nil hs] at h
    exact absurd h (by simp)
  | cons v ws =>
    obtain ⟨r', h1, -, h2⟩ := word_cons hs
    rw [h1] at h
    obtain ⟨-, rfl⟩ := Prod.mk.inj (Option.some.inj h)
    exact h2

/-! ## `%d` and `%u` -/

theorem sign_append (h0 : w ≠ []) : sign (w ++ r) = ((sign w).1, (sign w).2 ++ r) := by
  cases w with
  | nil => exact absurd rfl h0
  | cons c w =>
    rw [List.cons_append]
    unfold sign
    split
    · rename_i h
      obtain ⟨rfl, rfl⟩ := List.cons.inj h
      rfl
    · rename_i h
      obtain ⟨rfl, rfl⟩ := List.cons.inj h
      rfl
    · rename_i h1 h2
      split
      · rename_i h
        exact absurd (congrArg (· ++ r) h) (h1 _)
      · rename_i h
        exact absurd (congrArg (· ++ r) h) (h2 _)
      · rfl

theorem isDigit_of_isSpace (h : isSpace c = true) : c.isDigit = false := by
  have h1 : c = ' ' ∨ 9 ≤ c.toNat ∧ c.toNat ≤ 13 := of_decide_eq_true h
  rcases h1 with rfl | h1
  · rfl
  · have h2 : ¬ 48 ≤ c.val.toNat := by
      have : c.val.toNat = c.toNat := rfl
      omega
    unfold Char.isDigit
    rw [Bool.and_eq_false_iff]
    exact Or.inl (decide_eq_false h2)

theorem digits_append (hr : Apart r) : digits (w ++ r) = ((digits w).1, (digits w).2 ++ r) := by
  have hboth : (w ++ r).takeWhile Char.isDigit = w.takeWhile Char.isDigit ∧
      (w ++ r).dropWhile Char.isDigit = w.dropWhile Char.isDigit ++ r := by
    induction w with
    | nil =>
      cases r with
      | nil => exact ⟨rfl, rfl⟩
      | cons c r =>
        have hc := isDigit_of_isSpace (hr c r rfl)
        rw [List.nil_append, List.takeWhile_cons_of_neg (by simp [hc]),
          List.dropWhile_cons_of_neg (by simp [hc])]
        exact ⟨rfl, rfl⟩
    | cons c w ih =>
      rw [List.cons_append]
      cases hc : c.isDigit with
      | true =>
        rw [List.takeWhile_cons_of_pos hc, List.takeWhile_cons_of_pos hc,
          List.dropWhile_cons_of_pos hc, List.dropWhile_cons_of_pos hc, ih.1]
        exact ⟨rfl, ih.2⟩
      | false =>
        have hc' : ¬ c.isDigit = true := by simp [hc]
        rw [List.takeWhile_cons_of_neg hc', List.takeWhile_cons_of_neg hc',
          List.dropWhile_cons_of_neg hc', List.dropWhile_cons_of_neg hc']
        exact ⟨rfl, rfl⟩
  unfold digits
  rw [hboth.1, hboth.2]

theorem sign_suffix (w : List Char) : (sign w).2 <:+ w := by
  unfold sign
  split
  · exact List.suffix_cons ..
  · exact List.suffix_cons ..
  · exact List.suffix_refl _

theorem digits_suffix (w : List Char) : (digits w).2 <:+ w := List.dropWhile_suffix _

theorem number_suffix (w : List Char) : (number w).2 <:+ w :=
  ((digits_suffix _).trans (sign_suffix _)).trans (List.dropWhile_suffix _)

theorem Solid.suffix (hw : Solid w) (h : v <:+ w) : Solid v := fun c hc => hw c (h.mem hc)

theorem number_append (hw : Solid w) (h0 : w ≠ []) (hr : Apart r) :
    number (w ++ r) = ((number w).1, (number w).2 ++ r) := by
  have hw0 := skipSpace_solid (r := []) hw h0
  rw [List.append_nil] at hw0
  unfold number
  rw [skipSpace_solid hw h0, hw0, sign_append h0, digits_append hr]

theorem number_nil (h : words s = []) : number s = (none, []) := by
  unfold number
  rw [skipSpace_of_nil h]
  rfl

theorem number_cons (h : words s = w :: ws) : ∃ r, number s = ((number w).1, (number w).2 ++ r) ∧
    Solid (number w).2 ∧ Apart r ∧ words r = ws := by
  obtain ⟨r, h1, hw, h0, hr, h2⟩ := skipSpace_of_cons h
  have h3 : number s = number (w ++ r) := by
    unfold number
    rw [← h1, skipSpace_skipSpace]
  exact ⟨r, by rw [h3, number_append hw h0 hr], hw.suffix (number_suffix w), hr, h2⟩

/-- **The same words give the same number**, and leave texts that are alike. -/
theorem number_alike (h : words s = words s') :
    (number s).1 = (number s').1 ∧ Alike (number s).2 (number s').2 := by
  cases hs : words s with
  | nil =>
    rw [number_nil hs, number_nil (h.symm.trans hs)]
    exact ⟨rfl, [], [], [], fun c hc => absurd hc List.not_mem_nil, apart_nil, apart_nil, rfl, rfl, rfl⟩
  | cons w ws =>
    obtain ⟨r, h1, h2, h3, h4⟩ := number_cons hs
    obtain ⟨r', h5, -, h6, h7⟩ := number_cons (h.symm.trans hs)
    rw [h1, h5]
    exact ⟨rfl, _, r, r', h2, h3, h6, h4.trans h7.symm, rfl, rfl⟩

theorem number_length (s : List Char) : (number s).2.length ≤ s.length :=
  (number_suffix s).length_le

/-! ## characters of the format -/

theorem Alike.words (h : Alike s s') : words s = words s' := by
  obtain ⟨w, r, r', hw, hr, hr', he, rfl, rfl⟩ := h
  by_cases h0 : w = []
  · rw [h0]
    exact he
  · rw [words_append hw h0 hr, words_append hw h0 hr', he]

theorem literal_apart (hc : isSpace c = false) (hr : Apart r) : literal c r = r := by
  cases r with
  | nil => rfl
  | cons d r =>
    refine if_neg ?_
    rintro rfl
    rw [hr _ r rfl] at hc
    exact absurd hc (by simp)

theorem literal_alike (hc : isSpace c = false) (h : Alike s s') :
    Scan.words (literal c s) = Scan.words (literal c s') := by
  obtain ⟨w, r, r', hw, hr, hr', he, rfl, rfl⟩ := h
  cases w with
  | nil =>
    rw [List.nil_append, List.nil_append, literal_apart hc hr, literal_apart hc hr', he]
  | cons d w =>
    have hw' : Solid w := fun e he => hw e (List.mem_cons_of_mem _ he)
    by_cases hd : d = c
    · show Scan.words (if d = c then w ++ r else _) = Scan.words (if d = c then w ++ r' else _)
      rw [if_pos hd, if_pos hd]
      exact Alike.words ⟨w, r, r', hw', hr, hr', he, rfl, rfl⟩
    · show Scan.words (if d = c then _ else d :: w ++ r) = Scan.words (if d = c then _ else d :: w ++ r')
      rw [if_neg hd, if_neg hd]
      exact Alike.words ⟨d :: w, r, r', hw, hr, hr', he, rfl, rfl⟩

theorem literal_length (c : Char) (s : List Char) : (literal c s).length ≤ s.length := by
  unfold literal
  split
  · exact le_refl _
  · split
    · simp
    · exact le_refl _

/-! ## printed numbers -/

theorem digits_toDigits (n : Nat) : digits (Nat.toDigits 10 n) = (some n, []) := by
  have hall : ∀ c ∈ Nat.toDigits 10 n, c.isDigit = true := fun c hc =>
    Nat.isDigit_of_mem_toDigits (by decide) (by decide) hc
  unfold digits
  rw [List.takeWhile_eq_self_iff.mpr hall, List.dropWhile_eq_nil_iff.mpr hall,
    if_neg Nat.toDigits_ne_nil, Nat.ofDigitChars_ten_toDigits]

theorem sign_toDigits (n : Nat) : sign (Nat.toDigits 10 n) = (false, Nat.toDigits 10 n) := by
  have hall : ∀ c ∈ Nat.toDigits 10 n, c.isDigit = true := fun c hc =>
    Nat.isDigit_of_mem_toDigits (by decide) (by decide) hc
  unfold sign
  split
  · rename_i h
    exact absurd (hall '-' (by rw [h]; exact List.mem_cons_self)) (by decide)
  · rename_i h
    exact absurd (hall '+' (by rw [h]; exact List.mem_cons_self)) (by decide)
  · rfl

theorem sign_decimal (i : Int) : sign (decimal i) = (decide (i < 0), Nat.toDigits 10 i.natAbs) := by
  unfold decimal
  by_cases hi : i < 0
  · rw [if_pos hi, decide_eq_true hi]
    rfl
  · rw [if_neg hi, decide_eq_false hi, sign_toDigits]

/-- **A printed number is read back.** -/
theorem number_decimal (h : words s = decimal i :: ws) :
    ∃ r, number s = (some i, r) ∧ Apart r ∧ words r = ws := by
  obtain ⟨r, h1, -, hr, h2⟩ := number_cons h
  obtain ⟨_, -, hw, h0, -⟩ := skipSpace_of_cons h
  have hword : number (decimal i) = (some i, []) := by
    have h3 := skipSpace_solid (r := []) hw h0
    rw [List.append_nil] at h3
    have hi : signed (decide (i < 0)) i.natAbs = i := by
      unfold signed
      by_cases hneg : i < 0
      · rw [decide_eq_true hneg, if_pos rfl]
        omega
      · rw [decide_eq_false hneg, if_neg Bool.false_ne_true]
        omega
    unfold number
    rw [h3, sign_decimal, digits_toDigits, Option.map_some, hi]
  rw [hword] at h1
  exact ⟨r, h1, hr, h2⟩

end

/-! ## one conversion after the other -/

/-- two readings with the same outcome: the same error, or the same result and texts related by `R` -/
inductive Agree {ε α : Type} (R : List Char → List Char → Prop) :
    Except ε (α × List Char) → Except ε (α × List Char) → Prop where
  | error (e : ε) : Agree R (.error e) (.error e)
  | ok (a : α) {r r' : List Char} : R r r' → Agree R (.ok (a, r)) (.ok (a, r'))

def SameWords (s s' : List Char) : Prop := words s = words s'

section
variable {ε α β : Type} {R R' : List Char → List Char → Prop} {x y : Except ε (α × List Char)}

theorem Agree.bind (h : Agree R x y) {f g : α × List Char → Except ε (β × List Char)}
    (hf : ∀ a r r', R r r' → Agree R' (f (a, r)) (g (a, r'))) : Agree R' (x >>= f) (y >>= g) := by
  cases h with
  | error e => exact .error e
  | ok a hr => exact hf a _ _ hr

theorem bind_eq_ok {x : Except ε α} {f : α → Except ε β} {b : β} :
    (x >>= f) = .ok b ↔ ∃ a, x = .ok a ∧ f a = .ok b := by
  cases x with
  | error e =>
    constructor
    · intro h
      exact nomatch h
    · rintro ⟨a, h, -⟩
      exact nomatch h
  | ok a =>
    constructor
    · intro h
      exact ⟨a, rfl, h⟩
    · rintro ⟨_, h, hb⟩
      obtain rfl := Except.ok.inj h
      exact hb

end

end Scan

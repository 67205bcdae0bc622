import Clausal.Proofs.Numeral

/-!
What a text spells. A numeral is read as an integer just if it is one of the ways to
write it: the digits, after zeros and a sign or after neither. And the words of a text
are some words just if the text holds these, with blanks between each two. Main
statements: `integer?_eq_some_iff` and `words_eq_iff`.
-/

namespace Clausal.Text

section Numerals

variable {cs : List Char} {n : Nat} {z w : Int}

/-- The digits of a number, after any number of zeros. -/
def Digits (n : Nat) (cs : List Char) : Prop :=
  ∃ zeros, cs = List.replicate zeros '0' ++ (toString n).toList

/-- The digits of a number, after a plus sign or not. -/
def Unsigned (n : Nat) (cs : List Char) : Prop := Digits n cs ∨ ∃ ds, cs = '+' :: ds ∧ Digits n ds

/-- The digits of the absolute value, after a sign that can be left out for a minus sign only. -/
inductive Numeral : Int → List Char → Prop where
  | unsigned {n : Nat} {cs : List Char} (digits : Unsigned n cs) : Numeral n cs
  | minus {n : Nat} {cs : List Char} (digits : Digits n cs) : Numeral (-n) ('-' :: cs)

theorem digit?_some {c : Char} {d : Nat} (read : digit? c = some d) : d < 10 ∧ c = d.digitChar := by
  unfold digit? at read
  split at read
  · next bounds =>
    rw [Char.le_def, Char.le_def, UInt32.le_iff_toNat_le, UInt32.le_iff_toNat_le] at bounds
    change 48 ≤ c.toNat ∧ c.toNat ≤ 57 at bounds
    have value : c.toNat - 48 = d := Option.some.inj read
    have small : d < 10 := by omega
    refine ⟨small, Char.toNat_inj.mp ?_⟩
    rw [Nat.toNat_digitChar_of_lt_ten small]
    omega
  · cases read

/-- By induction on the digits: they continue the ones of the number before them. -/
theorem toDigits_of_digitsFrom? {m : Nat} (positive : 0 < m) (read : digitsFrom? m cs = some n) :
    Nat.toDigits 10 n = Nat.toDigits 10 m ++ cs := by
  induction cs generalizing m with
  | nil =>
    cases read
    exact (List.append_nil _).symm
  | cons c cs ih =>
    obtain ⟨d, first, rest⟩ := Option.bind_eq_some_iff.mp read
    obtain ⟨small, rfl⟩ := digit?_some first
    have split := Nat.toDigits_append_toDigits (b := 10) (by decide) positive small
    rw [Nat.toDigits_of_lt_base small] at split
    rw [ih (by omega) rest, ← split, List.append_assoc, List.singleton_append]

theorem natural?_zero_cons (some : cs ≠ []) : natural? ('0' :: cs) = natural? cs := by
  rw [natural?, natural?, if_neg (by simp), if_neg (by simpa using some), digitsFrom?]
  rfl

theorem natural?_eq_some_iff : natural? cs = some n ↔ Digits n cs := by
  constructor
  · intro read
    induction cs with
    | nil => cases read
    | cons c cs ih =>
      by_cases zero : c = '0'
      · subst zero
        rcases List.eq_nil_or_concat cs with rfl | ⟨_, _, last⟩
        · cases read
          exact ⟨0, rfl⟩
        · rw [natural?_zero_cons (by simp [last])] at read
          obtain ⟨zeros, rfl⟩ := ih read
          exact ⟨zeros + 1, rfl⟩
      · rw [natural?, if_neg (by simp)] at read
        obtain ⟨d, first, rest⟩ := Option.bind_eq_some_iff.mp read
        obtain ⟨small, rfl⟩ := digit?_some first
        have positive : 0 < d := by
          refine Nat.pos_of_ne_zero ?_
          rintro rfl
          exact zero rfl
        have whole := toDigits_of_digitsFrom? (by omega) rest
        rw [Nat.mul_zero, Nat.zero_add, Nat.toDigits_of_lt_base small] at whole
        have digits : (toString n).toList = Nat.toDigits 10 n := Nat.toList_repr
        exact ⟨0, (digits.trans whole).symm⟩
  · rintro ⟨zeros, rfl⟩
    induction zeros with
    | zero => exact natural?_toString n
    | succ zeros ih =>
      rw [List.replicate_succ, List.cons_append, natural?_zero_cons (by simp), ih]

/-- Digits start with a digit, and so with no sign. -/
theorem natural?_sign {sign : Char} (notDigit : digit? sign = none) : natural? (sign :: cs) = none := by
  rw [natural?, if_neg (by simp), digitsFrom?, notDigit]
  rfl

theorem Unsigned.ne_minus (spelt : Unsigned n cs) : ∀ ds, cs ≠ '-' :: ds := by
  rintro ds rfl
  rcases spelt with digits | ⟨_, same, -⟩
  · rw [← natural?_eq_some_iff, natural?_sign rfl] at digits
    cases digits
  · cases same

theorem unsigned_plus {ds : List Char} : Unsigned n ('+' :: ds) ↔ Digits n ds := by
  constructor
  · rintro (digits | ⟨_, same, digits⟩)
    · rw [← natural?_eq_some_iff, natural?_sign rfl] at digits
      cases digits
    · cases same
      exact digits
  · exact fun digits => .inr ⟨ds, rfl, digits⟩

theorem unsigned_bare (bare : ∀ ds, cs ≠ '+' :: ds) : Unsigned n cs ↔ Digits n cs := by
  constructor
  · rintro (digits | ⟨ds, rfl, -⟩)
    · exact digits
    · exact absurd rfl (bare ds)
  · exact .inl

theorem count?_eq_some_iff : count? cs = some n ↔ Unsigned n cs ∧ n ≤ Word.greatestCount := by
  unfold count?
  simp only [Option.filter_eq_some_iff, decide_eq_true_eq]
  split
  · rw [natural?_eq_some_iff, unsigned_plus]
  · next bare => rw [natural?_eq_some_iff, unsigned_bare fun ds => bare ds]

/-- An integer is read of its numerals only, and of each of them. -/
theorem integer?_eq_some_iff : integer? cs = some z ↔ Numeral z cs := by
  unfold integer?
  split
  · next ds =>
    constructor
    · intro read
      cases digits : natural? ds with
      | none =>
        rw [digits] at read
        cases read
      | some n =>
        rw [digits] at read
        cases read
        exact .minus (natural?_eq_some_iff.mp digits)
    · intro spelt
      cases spelt with
      | unsigned spelt => exact absurd rfl (spelt.ne_minus ds)
      | minus digits =>
        rw [natural?_eq_some_iff.mpr digits]
        rfl
  · next ds =>
    rw [Option.map_eq_some_iff]
    constructor
    · rintro ⟨n, digits, rfl⟩
      exact .unsigned (unsigned_plus.mpr (natural?_eq_some_iff.mp digits))
    · intro spelt
      cases spelt with
      | unsigned spelt => exact ⟨_, natural?_eq_some_iff.mpr (unsigned_plus.mp spelt), rfl⟩
  · next minus plus =>
    rw [Option.map_eq_some_iff]
    constructor
    · rintro ⟨n, digits, rfl⟩
      exact .unsigned (.inl (natural?_eq_some_iff.mp digits))
    · intro spelt
      cases spelt with
      | unsigned spelt =>
        exact ⟨_, natural?_eq_some_iff.mpr ((unsigned_bare fun ds => plus ds).mp spelt), rfl⟩
      | minus digits => exact absurd rfl (minus _)

theorem signedWord?_eq_some_iff : signedWord? cs = some z ↔ Numeral z cs ∧ Word.Fits z := by
  rw [signedWord?, Option.bind_eq_some_iff]
  constructor
  · rintro ⟨w, read, fits⟩
    unfold Word.check? at fits
    split at fits
    · next inside =>
      cases fits
      exact ⟨integer?_eq_some_iff.mp read, inside⟩
    · cases fits
  · rintro ⟨spelt, inside⟩
    exact ⟨z, integer?_eq_some_iff.mpr spelt, if_pos inside⟩

/-- A numeral is one of one integer. -/
theorem Numeral.unique (spelt : Numeral z cs) (spelt' : Numeral w cs) : z = w := by
  have read := integer?_eq_some_iff.mpr spelt
  rw [integer?_eq_some_iff.mpr spelt'] at read
  exact (Option.some.inj read).symm

/-- A numeral starts with a digit or a sign. -/
theorem Numeral.head (spelt : Numeral z cs) : ∃ c rest, cs = c :: rest ∧
    isBlank c = false ∧ c ≠ 'c' ∧ c ≠ '%' ∧ c ≠ 'p' := by
  have start : ∀ {n : Nat} {ds : List Char}, Digits n ds → ∃ c rest, ds = c :: rest ∧ c.isDigit = true := by
    rintro n ds ⟨zeros, rfl⟩
    cases zeros with
    | zero =>
      rcases digits : (toString n).toList with _ | ⟨c, rest⟩
      · simp at digits
      · exact ⟨c, rest, rfl, isDigit_of_mem_toString (digits ▸ List.mem_cons_self)⟩
    | succ zeros => exact ⟨'0', _, rfl, rfl⟩
  have marks : ∀ {c : Char}, c.isDigit = true → isBlank c = false ∧ c ≠ 'c' ∧ c ≠ '%' ∧ c ≠ 'p' := by
    intro c digit
    refine ⟨isBlank_of_isDigit digit, ?_, ?_, ?_⟩ <;> rintro rfl <;> cases digit
  cases spelt with
  | unsigned spelt =>
    rcases spelt with digits | ⟨ds, rfl, -⟩
    · obtain ⟨c, rest, same, digit⟩ := start digits
      exact ⟨c, rest, same, marks digit⟩
    · exact ⟨'+', ds, rfl, by decide⟩
  | minus digits => exact ⟨'-', _, rfl, by decide⟩

end Numerals

section Words

variable {ws : List (List Char)} {cs rest w : List Char} {b : Char}

/-- A text of blanks only. -/
def Blanks (cs : List Char) : Prop := ∀ c ∈ cs, isBlank c = true

/-- A text that holds some words in order, with blanks between each two and maybe around them. -/
inductive Spaced : List (List Char) → List Char → Prop where
  | nil {gap : List Char} (blank : Blanks gap) : Spaced [] gap
  | last {gap w : List Char} (blank : Blanks gap) (inked : Inked w) : Spaced [w] (gap ++ w)
  | cons {gap w rest : List Char} {b : Char} {ws : List (List Char)} (blank : Blanks gap)
    (inked : Inked w) (apart : isBlank b = true) (more : Spaced ws rest) :
    Spaced (w :: ws) (gap ++ w ++ b :: rest)

theorem words_blank_cons (blank : isBlank b = true) : words (b :: rest) = words rest := by
  have nothing : ∀ c ∈ ([] : List Char), isBlank c = false := by simp
  have split : (b :: rest).splitOnP isBlank = [] :: rest.splitOnP isBlank :=
    List.splitOnP_append_cons_of_forall_mem nothing b blank rest
  rw [words, split, List.filter_cons_of_neg (by simp), words]

theorem words_blanks_append {gap : List Char} (blank : Blanks gap) : words (gap ++ rest) = words rest := by
  induction gap with
  | nil => rfl
  | cons b gap ih =>
    obtain ⟨first, more⟩ := List.forall_mem_cons.mp blank
    rw [List.cons_append, words_blank_cons first, ih more]

theorem words_inked (inked : Inked w) : words w = [w] := by
  rw [words, List.splitOnP_eq_singleton inked.2, List.filter_cons_of_pos (by simpa using inked.1), List.filter_nil]

theorem words_inked_cons (inked : Inked w) (blank : isBlank b = true) :
    words (w ++ b :: rest) = w :: words rest := by
  rw [words, List.splitOnP_append_cons_of_forall_mem inked.2 b blank rest,
    List.filter_cons_of_pos (by simpa using inked.1), words]

/-- Blanks in front of a text change nothing about what it holds. -/
theorem Spaced.blank_cons (blank : isBlank b = true) (spaced : Spaced ws rest) : Spaced ws (b :: rest) := by
  cases spaced with
  | nil gap => exact .nil (List.forall_mem_cons.mpr ⟨blank, gap⟩)
  | last gap inked => exact .last (List.forall_mem_cons.mpr ⟨blank, gap⟩) inked
  | cons gap inked apart more => exact .cons (List.forall_mem_cons.mpr ⟨blank, gap⟩) inked apart more

/-- By induction on the length: a text is blank, or starts with a blank, or with a word that ends with the
text or before a blank. -/
theorem spaced_words (cs : List Char) : Spaced (words cs) cs := by
  have nothing : Blanks [] := by simp [Blanks]
  induction len : cs.length using Nat.strongRecOn generalizing cs with
  | _ n ih =>
    subst len
    rcases cs with _ | ⟨c, cs⟩
    · exact .nil nothing
    · cases blank : isBlank c with
      | true =>
        rw [words_blank_cons blank]
        exact (ih cs.length (Nat.lt_succ_self _) cs rfl).blank_cons blank
      | false =>
        let ink := (c :: cs).takeWhile (!isBlank ·)
        let tail := (c :: cs).dropWhile (!isBlank ·)
        have whole : ink ++ tail = c :: cs := List.takeWhile_append_dropWhile
        have inked : Inked ink := by
          refine ⟨by simp [ink, blank], fun d member => ?_⟩
          simpa using List.all_eq_true.mp List.all_takeWhile d member
        rcases left : tail with _ | ⟨b, rest⟩
        · rw [← whole, left, List.append_nil, words_inked inked]
          exact .last nothing inked
        · have apart : isBlank b = true := by
            have stop := List.head?_dropWhile_not (!isBlank ·) (c :: cs)
            rw [show (c :: cs).dropWhile (!isBlank ·) = b :: rest from left] at stop
            simpa using stop
          have shorter : rest.length < (c :: cs).length := by
            rw [← whole, left, List.length_append, List.length_cons]
            omega
          rw [← whole, left, words_inked_cons inked apart]
          exact .cons nothing inked apart (ih _ shorter rest rfl)

/-- The words of a text are the ones that it holds. -/
theorem words_eq_iff : words cs = ws ↔ Spaced ws cs := by
  constructor
  · rintro rfl
    exact spaced_words cs
  · intro spaced
    induction spaced with
    | nil blank =>
      rename_i gap
      rw [← List.append_nil gap, words_blanks_append blank]
      rfl
    | last blank inked => rw [words_blanks_append blank, words_inked inked]
    | cons blank inked apart more ih =>
      rw [List.append_assoc, words_blanks_append blank, words_inked_cons inked apart, ih]

end Words

section Marks

variable {ws : List (List Char)} {cs gap rest w : List Char} {c : Char}

/-- A text that starts with a character, after blanks or not. -/
def Opens (c : Char) (cs : List Char) : Prop := ∃ gap rest, Blanks gap ∧ cs = gap ++ c :: rest

theorem firstInked?_eq_none_iff : firstInked? cs = none ↔ Blanks cs := by
  rw [firstInked?, List.find?_eq_none]
  exact forall₂_congr fun c _ => by simp

theorem firstInked?_eq_some_iff : firstInked? cs = some c ↔ isBlank c = false ∧ Opens c cs := by
  constructor
  · intro found
    obtain ⟨inked, gap, rest, same, blank⟩ := List.find?_eq_some_iff_append.mp found
    refine ⟨by simpa using inked, gap, rest, fun b member => ?_, same⟩
    simpa using blank b member
  · rintro ⟨inked, gap, rest, blank, rfl⟩
    have skipped : gap.find? (!isBlank ·) = none := by
      refine List.find?_eq_none.mpr fun b member => ?_
      rw [blank b member]
      decide
    rw [firstInked?, List.find?_append, skipped, Option.none_or, List.find?_cons, inked]
    rfl

/-- A text starts as its first word does. -/
theorem Spaced.opens (spaced : Spaced ((c :: w) :: ws) cs) : Opens c cs := by
  cases spaced with
  | last blank inked => exact ⟨_, w, blank, rfl⟩
  | cons blank inked apart more => exact ⟨_, _, blank, List.append_assoc _ _ _⟩

theorem Spaced.blanks (spaced : Spaced [] cs) : Blanks cs := by
  cases spaced with
  | nil blank => exact blank

end Marks

end Clausal.Text

import Clausal.Dimacs.Reader
import Clausal.Dimacs.Writer

/-!
Decimal numerals are read back as the numbers they were written for, if these fit.
They are words: not empty, and without blanks.
-/

namespace Clausal.Text

section Digits

theorem digit?_digitChar {d : Nat} (small : d < 10) : digit? d.digitChar = some d := by
  have code := Nat.toNat_digitChar_of_lt_ten small
  have bounds : '0' ≤ d.digitChar ∧ d.digitChar ≤ '9' := by
    rw [Char.le_def, Char.le_def, UInt32.le_iff_toNat_le, UInt32.le_iff_toNat_le]
    change 48 ≤ d.digitChar.toNat ∧ d.digitChar.toNat ≤ 57
    omega
  have zero : '0'.toNat = 48 := rfl
  rw [digit?, if_pos bounds, code, zero, Nat.add_sub_cancel_left]

theorem digitsFrom?_append (n : Nat) (cs ds : List Char) :
    digitsFrom? n (cs ++ ds) = (digitsFrom? n cs).bind (digitsFrom? · ds) := by
  induction cs generalizing n with
  | nil => rfl
  | cons c cs ih =>
    rw [List.cons_append, digitsFrom?, digitsFrom?]
    cases digit? c with
    | none => rfl
    | some d => exact ih _

/-- By induction on the number: its last digit continues what the digits before it say. -/
theorem digitsFrom?_toDigits (n : Nat) : digitsFrom? 0 (Nat.toDigits 10 n) = some n := by
  induction n using Nat.strongRecOn with
  | _ n ih =>
    rcases Nat.lt_or_ge n 10 with small | large
    · rw [Nat.toDigits_of_lt_base small]
      simp [digitsFrom?, digit?_digitChar small]
    · have last : n % 10 < 10 := Nat.mod_lt n (by decide)
      have whole : 10 * (n / 10) + n % 10 = n := Nat.div_add_mod n 10
      have split := Nat.toDigits_append_toDigits (b := 10) (by decide)
        (Nat.div_pos large (by decide)) last
      rw [whole, Nat.toDigits_of_lt_base last] at split
      rw [← split, digitsFrom?_append, ih _ (Nat.div_lt_self (by omega) (by decide))]
      simp [digitsFrom?, digit?_digitChar last, whole]

theorem natural?_toString (n : Nat) : natural? (toString n).toList = some n := by
  have digits : (toString n).toList = Nat.toDigits 10 n := Nat.toList_repr
  rw [natural?, digits, if_neg (by simp), digitsFrom?_toDigits]

theorem toString_inj {n m : Nat} : toString n = toString m ↔ n = m := by
  refine ⟨fun same => ?_, congrArg _⟩
  have values := natural?_toString n
  rw [same, natural?_toString, Option.some.injEq] at values
  exact values.symm

theorem isDigit_of_mem_toString {n : Nat} {c : Char} (member : c ∈ (toString n).toList) :
    c.isDigit = true := by
  have digits : (toString n).toList = Nat.toDigits 10 n := Nat.toList_repr
  exact Nat.isDigit_of_mem_toDigits (by decide) (by decide) (digits ▸ member)

end Digits

section Signs

/-- The first character of a numeral without a sign is no sign. -/
private theorem unsigned {n : Nat} : ∃ c cs, (toString n).toList = c :: cs ∧ c.isDigit = true := by
  rcases digits : (toString n).toList with _ | ⟨c, cs⟩
  · have read := natural?_toString n
    rw [digits] at read
    cases read
  · exact ⟨c, cs, rfl, isDigit_of_mem_toString (digits ▸ List.mem_cons_self)⟩

private theorem toList_negSucc (n : Nat) :
    (toString (Int.negSucc n)).toList = '-' :: (toString (n + 1)).toList := by
  change ("-" ++ toString (n + 1)).toList = _
  rw [String.toList_append]
  rfl

/-- A numeral starts with a digit or with a minus sign. -/
theorem head_integer (z : Int) : ∃ c cs, (toString z).toList = c :: cs ∧ (c.isDigit = true ∨ c = '-') := by
  cases z with
  | ofNat n =>
    obtain ⟨c, cs, digits, digit⟩ := unsigned (n := n)
    exact ⟨c, cs, digits, .inl digit⟩
  | negSucc n => exact ⟨'-', _, toList_negSucc n, .inr rfl⟩

theorem integer?_toString (z : Int) : integer? (toString z).toList = some z := by
  cases z with
  | ofNat n =>
    have plain : toString (Int.ofNat n) = toString n := rfl
    have value := natural?_toString n
    obtain ⟨c, cs, digits, digit⟩ := unsigned (n := n)
    rw [plain, digits]
    rw [digits] at value
    unfold integer?
    split
    · next same =>
      cases same
      cases digit
    · next same =>
      cases same
      cases digit
    · rw [value]
      rfl
  | negSucc n =>
    rw [toList_negSucc, integer?, natural?_toString]
    rfl

theorem toString_integer_inj {z w : Int} : toString z = toString w ↔ z = w := by
  refine ⟨fun same => ?_, congrArg _⟩
  have values := integer?_toString z
  rw [same, integer?_toString, Option.some.injEq] at values
  exact values.symm

theorem signedWord?_toString {z : Int} (fits : Word.Fits z) : signedWord? (toString z).toList = some z := by
  rw [signedWord?, integer?_toString, Option.bind_some, Word.check?, if_pos fits]

theorem count?_toString {n : Nat} (fits : n ≤ Word.greatestCount) : count? (toString n).toList = some n := by
  have value := natural?_toString n
  obtain ⟨c, cs, digits, digit⟩ := unsigned (n := n)
  rw [digits] at value ⊢
  unfold count?
  split
  · next same =>
    cases same
    cases digit
  · simp [value, fits]

end Signs

/-- A text that is not empty and has no blanks. -/
def Inked (cs : List Char) : Prop := cs ≠ [] ∧ ∀ c ∈ cs, isBlank c = false

theorem isBlank_of_isDigit {c : Char} (digit : c.isDigit = true) : isBlank c = false := by
  have bounds : 48 ≤ c.toNat ∧ c.toNat ≤ 57 := by
    simpa [Char.isDigit, UInt32.le_iff_toNat_le] using digit
  simp only [isBlank, blankRanges, List.any_cons, List.any_nil, Bool.or_false, Bool.or_eq_false_iff,
    Bool.and_eq_false_iff, decide_eq_false_iff_not]
  omega

theorem inked_natural (n : Nat) : Inked (toString n).toList := by
  exact ⟨by simp, fun c member => isBlank_of_isDigit (isDigit_of_mem_toString member)⟩

theorem inked_integer (z : Int) : Inked (toString z).toList := by
  cases z with
  | ofNat n => exact inked_natural n
  | negSucc n =>
    rw [toList_negSucc]
    exact ⟨by simp, List.forall_mem_cons.mpr ⟨by decide, (inked_natural (n + 1)).2⟩⟩

end Clausal.Text

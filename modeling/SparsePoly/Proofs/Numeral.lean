import SparsePoly.Text.Numeral

/-!
# Numerals are read exactly

A run of digits has a value without bound, the natural number `Nat.ofDigitChars 10`. A coefficient
is read digit by digit in words, a negative one downwards from zero, and every step can fail. Since
magnitudes only grow, a step fails exactly when the value of the whole run under its sign is no
word: so no numeral is refused for an intermediate result, and the least coefficient is read like
any other.

* `Coefficient.ofDigits_eq_checked`: reading the digits is coming back to a word from their value.
* `Coefficient.exists_steps_of_fits`: every step on the way to a value that fits succeeds.
* `Coefficient.ofDigits_exact`: both together, for all rows of digits.
-/

namespace SparsePoly

/-- The integer of a given magnitude, which is below zero when `negative` holds. -/
def signed (negative : Bool) (n : Nat) : Int := if negative then -n else n

@[simp] theorem signed_false (n : Nat) : signed false n = n := rfl

@[simp] theorem signed_true (n : Nat) : signed true n = -n := rfl

/-- An integer has its magnitude and its sign. -/
theorem signed_natAbs (n : Int) : signed (decide (n < 0)) n.natAbs = n := by
  by_cases h : n < 0
  · rw [decide_eq_true h, signed_true]
    omega
  · rw [decide_eq_false h, signed_false]
    omega

/-- More digits make a number of a greater magnitude. -/
private theorem le_ofDigitChars (digits : List Char) (n : Nat) :
    n ≤ Nat.ofDigitChars 10 digits n := by
  induction digits generalizing n with
  | nil => exact Nat.le_of_eq Nat.ofDigitChars_nil.symm
  | cons d digits ih =>
    have hstep : n ≤ 10 * n + (d.toNat - '0'.toNat) := by omega
    rw [Nat.ofDigitChars_cons]
    exact Nat.le_trans hstep (ih _)

namespace Coefficient

variable {negative : Bool} {c : Coefficient} {n k : Nat}

/-- What does not fit does not fit with a greater magnitude. -/
private theorem not_fits_of_le (h : n ≤ k) (hn : ¬ Fits (signed negative n)) :
    ¬ Fits (signed negative k) := by
  cases negative with
  | false =>
    rw [signed_false] at *
    omega
  | true =>
    rw [signed_true] at *
    omega

/-- What fits fits with a smaller magnitude. -/
private theorem fits_of_le (h : n ≤ k) (hk : Fits (signed negative k)) :
    Fits (signed negative n) :=
  Decidable.byContradiction fun hn => not_fits_of_le h hn hk

private theorem signed_mul_ten : signed negative (10 * n) = signed negative n * 10 := by
  unfold signed
  split
  · omega
  · omega

private theorem signed_appendDigit (d : Char) :
    signed negative (10 * n + (d.toNat - '0'.toNat)) =
      if negative then signed negative n * 10 - digitValue d
      else signed negative n * 10 + digitValue d := by
  unfold signed digitValue
  split
  · omega
  · omega

/-- A digit is appended exactly when the number with that digit fits. -/
private theorem appendDigit_eq (hc : c.toInt = signed negative n) (d : Char) :
    appendDigit negative c d =
      checked .coefficient (signed negative (10 * n + (d.toNat - '0'.toNat))) := by
  have hten : c.toInt * 10 = signed negative (10 * n) := by
    rw [hc, signed_mul_ten]
  unfold appendDigit
  cases hshift : checked .coefficient (c.toInt * 10) with
  | ok shifted =>
    have hshifted : shifted.toInt = signed negative n * 10 := by
      rw [checked_eq_ok_iff.1 hshift, hc]
    rw [signed_appendDigit, ← hshifted]
    rfl
  | error e =>
    -- the shift alone has left the range, and the digit leads further out of it
    obtain ⟨hfits, rfl⟩ := checked_eq_error_iff.1 hshift
    rw [hten] at hfits
    exact (checked_eq_error_iff.2 ⟨not_fits_of_le (Nat.le_add_right _ _) hfits, rfl⟩).symm

private theorem foldlM_appendDigit_eq (digits : List Char) (hc : c.toInt = signed negative n) :
    digits.foldlM (appendDigit negative) c =
      checked .coefficient (signed negative (Nat.ofDigitChars 10 digits n)) := by
  -- the word `c` holds the value `n` of the digits read so far, under the sign
  induction digits generalizing c n with
  | nil =>
    rw [List.foldlM_nil, Nat.ofDigitChars_nil, ← hc, checked_toInt]
    rfl
  | cons d digits ih =>
    rw [List.foldlM_cons, appendDigit_eq hc, Nat.ofDigitChars_cons]
    cases happend : checked .coefficient (signed negative (10 * n + (d.toNat - '0'.toNat))) with
    | ok c' => exact ih (checked_eq_ok_iff.1 happend)
    | error e =>
      obtain ⟨hfits, rfl⟩ := checked_eq_error_iff.1 happend
      exact (checked_eq_error_iff.2 ⟨not_fits_of_le (le_ofDigitChars _ _) hfits, rfl⟩).symm

/-- A coefficient is read exactly when the value of its digits under its sign fits, and then as the
word of that value. -/
theorem ofDigits_eq_checked (negative : Bool) (digits : List Char) :
    ofDigits negative digits =
      checked .coefficient (signed negative (Nat.ofDigitChars 10 digits 0)) := by
  refine foldlM_appendDigit_eq digits ?_
  cases negative <;> rfl

/-- On the way to a value that fits no step fails: the digits before any digit are read, the shift
that makes room for the digit succeeds, and so does appending it. -/
theorem exists_steps_of_fits {before after : List Char} {d : Char}
    (h : Fits (signed negative (Nat.ofDigitChars 10 (before ++ d :: after) 0))) :
    ∃ c shifted next, ofDigits negative before = .ok c ∧
      checked .coefficient (c.toInt * 10) = .ok shifted ∧
      checked .coefficient
        (if negative then shifted.toInt - digitValue d else shifted.toInt + digitValue d) =
          .ok next ∧
      ofDigits negative (before ++ [d]) = .ok next := by
  -- the three magnitudes on the way lie one below another and below that of the value
  have hvalue : 10 * Nat.ofDigitChars 10 before 0 + (d.toNat - '0'.toNat) ≤
      Nat.ofDigitChars 10 (before ++ d :: after) 0 := by
    rw [Nat.ofDigitChars_append, Nat.ofDigitChars_cons]
    exact le_ofDigitChars _ _
  have hnext := fits_of_le hvalue h
  have hshift := fits_of_le (Nat.le_add_right _ _) hnext
  have hread := fits_of_le (Nat.le_mul_of_pos_left _ (Nat.zero_lt_succ 9)) hshift
  obtain ⟨c, hc⟩ := exists_checked_eq_ok_iff.2 hread
  obtain ⟨shifted, hshifted⟩ := exists_checked_eq_ok_iff.2 hshift
  obtain ⟨next, hnext⟩ := exists_checked_eq_ok_iff.2 hnext
  have hten : c.toInt * 10 = signed negative (10 * Nat.ofDigitChars 10 before 0) := by
    rw [checked_eq_ok_iff.1 hc, signed_mul_ten]
  refine ⟨c, shifted, next, ?_, ?_, ?_, ?_⟩
  · rw [ofDigits_eq_checked, hc]
  · rw [hten, hshifted]
  · rw [checked_eq_ok_iff.1 hshifted, signed_mul_ten, ← signed_appendDigit, hnext]
  · rw [ofDigits_eq_checked, Nat.ofDigitChars_append, Nat.ofDigitChars_cons, Nat.ofDigitChars_nil,
      hnext]

/-- **Coefficients are read exactly.** Digits of any number, under either sign, are read as the
word of their value exactly when the value is in the range of words, and are an overflow otherwise.
When it is in the range, no step on the way to it leaves the range: neither the shift that makes
room for a digit nor adding the digit, or taking it away under a minus. So a numeral with any
leading zeros is read as the number that it writes, and the least word is read as well. -/
theorem ofDigits_exact (negative : Bool) (digits : List Char) :
    let value := signed negative (Nat.ofDigitChars 10 digits 0)
    (∀ c, ofDigits negative digits = .ok c ↔ c.toInt = value) ∧
    ((∃ c, ofDigits negative digits = .ok c) ↔ Fits value) ∧
    (∀ e, ofDigits negative digits = .error e ↔ ¬ Fits value ∧ e = .overflow .coefficient) ∧
    (Fits value → ∀ before d after, digits = before ++ d :: after →
      ∃ c shifted next, ofDigits negative before = .ok c ∧
        checked .coefficient (c.toInt * 10) = .ok shifted ∧
        checked .coefficient
          (if negative then shifted.toInt - digitValue d else shifted.toInt + digitValue d) =
            .ok next ∧
        ofDigits negative (before ++ [d]) = .ok next) ∧
    (∀ zeros n, ofDigits negative (List.replicate zeros '0' ++ Nat.toDigits 10 n) =
      checked .coefficient (signed negative n)) ∧
    ofDigits true (Nat.toDigits 10 9223372036854775808) = .ok Int64.minValue := by
  intro value
  have hzeros : ∀ zeros n (s : Bool),
      ofDigits s (List.replicate zeros '0' ++ Nat.toDigits 10 n) =
        checked .coefficient (signed s n) := by
    intro zeros n s
    rw [ofDigits_eq_checked, Nat.ofDigitChars_append, Nat.ofDigitChars_replicate_zero, Nat.mul_zero,
      Nat.ofDigitChars_ten_toDigits]
  refine ⟨fun c => ?_, ?_, fun e => ?_, ?_, fun zeros n => hzeros zeros n negative, ?_⟩
  · rw [ofDigits_eq_checked, checked_eq_ok_iff]
  · rw [ofDigits_eq_checked]
    exact exists_checked_eq_ok_iff
  · rw [ofDigits_eq_checked, checked_eq_error_iff]
  · rintro hvalue before d after rfl
    exact exists_steps_of_fits hvalue
  · rw [← List.nil_append (Nat.toDigits 10 _), ← List.replicate_zero, hzeros]
    rfl

/-- The least word, behind two zeros: its last digit is taken away from ten times a word. -/
theorem ofDigits_exact_least :
    let before := ['0', '0', '9', '2', '2', '3', '3', '7', '2', '0', '3', '6', '8', '5', '4', '7',
      '7', '5', '8', '0']
    Fits (signed true (Nat.ofDigitChars 10 (before ++ ['8']) 0)) ∧
    ofDigits true (before ++ ['8']) = .ok Int64.minValue ∧
    (∃ c shifted next, ofDigits true before = .ok c ∧
      checked .coefficient (c.toInt * 10) = .ok shifted ∧
      checked .coefficient (shifted.toInt - digitValue '8') = .ok next ∧
      ofDigits true (before ++ ['8']) = .ok next) ∧
    ofDigits false (before ++ ['8']) = .error (.overflow .coefficient) := by
  intro before
  have hfits : Fits (signed true (Nat.ofDigitChars 10 (before ++ ['8']) 0)) := by decide
  have hgreater : ¬ Fits (signed false (Nat.ofDigitChars 10 (before ++ ['8']) 0)) := by decide
  obtain ⟨hok, -, -, hsteps, -⟩ := ofDigits_exact true (before ++ ['8'])
  obtain ⟨-, -, herror, -⟩ := ofDigits_exact false (before ++ ['8'])
  exact ⟨hfits, (hok _).2 (by decide), hsteps hfits before '8' [] rfl,
    (herror _).2 ⟨hgreater, rfl⟩⟩

end Coefficient

end SparsePoly

import SparsePoly.Proofs.Grammar
import SparsePoly.Text.Reading

/-!
# Reading tokens is reading written terms

The readers count the tokens that they take and look one token ahead to see what comes next. On the
tokens of separated terms neither matters: a body ends where the next sign stands, so the readers
take exactly the lexemes of one written term at a time. What is left is a recursion over the
written terms themselves, `WrittenTerm.readAll`, which keeps track of the position only to report
it. The equations between the two hold for failures as well as for results.

* `readPowers_place`, `readTerm_place`, `readTerms_place`: each reader on the tokens of what it
  reads.
* `Polynomial.ofText_eq_readAll`: reading a text that is made up of separated terms.
-/

namespace SparsePoly

open Token (place place_cons)

namespace Token

theorem length_place (n : Nat) (lexemes : List Lexeme) :
    (place n lexemes).length = lexemes.length := by
  rw [← List.length_map, map_lexeme_place]

theorem place_append (n : Nat) (first second : List Lexeme) :
    place n (first ++ second) =
      place n first ++ place (n + (first.flatMap Lexeme.text).length) second := by
  induction first generalizing n with
  | nil => rfl
  | cons l first ih =>
    rw [List.cons_append, place_cons, ih, place_cons, List.cons_append, List.flatMap_cons,
      List.length_append, Nat.add_assoc]

end Token

/-! ### Powers -/

/-- Reads powers that are written one after another from a position on. -/
def WrittenPower.readAll (used : LetterSet) (position : Nat) :
    List WrittenPower → Except Error (List Power)
  | [] => .ok []
  | p :: ps => do
    let q ← readPower used p.letter position (Degree.checked p.degree)
    return q :: (← readAll (used.insert p.letter) (position + p.chars.length) ps)

/-- Lexemes before which a term ends: none or those of a further term with its sign. -/
def TermEnd (rest : List Lexeme) : Prop :=
  rest = [] ∨ ∃ negative more, rest = .sign negative :: more

section

variable {used : LetterSet} {n : Nat} {rest : List Lexeme}

theorem TermEnd.noNumber (h : TermEnd rest) : Lexeme.NoNumber rest := by
  rcases h with rfl | ⟨negative, more, rfl⟩
  · exact nofun
  · exact Lexeme.noNumber_cons rfl more

/-- A letter without a number is read with the degree one. -/
private theorem readPowers_letter (used : LetterSet) (n : Nat) (x : Char)
    (hrest : Lexeme.NoNumber rest) :
    readPowers used (place n (.letter x :: rest)) = do
      let p ← readPower used x n (pure 1)
      let (powers, taken) ← readPowers (used.insert x) (place (n + 1) rest)
      return (p :: powers, taken + 1) := by
  cases rest with
  | nil => rfl
  | cons k rest =>
    cases k with
    | number digits => exact absurd (hrest _ rfl) nofun
    | sign _ => rfl
    | letter _ => rfl

/-- A written power is read as its letter with its degree, where that is one. -/
private theorem readPowers_cons (p : WrittenPower) (hrest : Lexeme.NoNumber rest) :
    readPowers used (place n (p.lexemes ++ rest)) = do
      let q ← readPower used p.letter n (Degree.checked p.degree)
      let (powers, taken) ←
        readPowers (used.insert p.letter) (place (n + p.chars.length) rest)
      return (q :: powers, taken + p.lexemes.length) := by
  obtain ⟨x, digits⟩ := p
  cases digits with
  | nil =>
    have hone : (pure 1 : Except Error Degree) = Degree.checked 1 :=
      (Degree.checked_eq_ok_iff.2 rfl).symm
    have hletter := readPowers_letter used n x hrest
    rw [hone] at hletter
    exact hletter
  | cons d digits =>
    have hlength : n + (d :: digits).length + 1 = n + 1 + (d :: digits).length := by omega
    simp only [WrittenPower.lexemes, Lexeme.numeral, WrittenPower.chars, List.length_cons,
      ← Nat.add_assoc] at hlength ⊢
    rw [hlength]
    rfl

/-- Reading powers takes the lexemes of the powers that are written before the end of a term. -/
theorem readPowers_place (ps : List WrittenPower) (hrest : TermEnd rest) (used : LetterSet)
    (n : Nat) :
    readPowers used (place n (ps.flatMap WrittenPower.lexemes ++ rest)) =
      (WrittenPower.readAll used n ps).map fun powers =>
        (powers, (ps.flatMap WrittenPower.lexemes).length) := by
  induction ps generalizing used n with
  | nil =>
    rcases hrest with rfl | ⟨negative, more, rfl⟩
    · rfl
    · rfl
  | cons p ps ih =>
    -- what follows a power is another letter or the end of the term, never a number
    have hhead : Lexeme.NoNumber (ps.flatMap WrittenPower.lexemes ++ rest) := by
      cases ps with
      | nil => exact hrest.noNumber
      | cons p ps => exact Lexeme.noNumber_cons rfl _
    rw [List.flatMap_cons, List.append_assoc, readPowers_cons p hhead, ih, WrittenPower.readAll,
      List.length_append, Nat.add_comm p.lexemes.length]
    cases readPower used p.letter n (Degree.checked p.degree) with
    | error e => rfl
    | ok q =>
      cases WrittenPower.readAll (used.insert p.letter) (n + p.chars.length) ps with
      | error e => rfl
      | ok qs => rfl

end

/-! ### Terms -/

namespace WrittenTerm

/-- Reads a written term that begins at a position. -/
def read (position : Nat) (t : WrittenTerm) : Except Error Term := do
  let c ← Coefficient.checked .coefficient t.coefficient
  let powers ←
    WrittenPower.readAll .empty (position + (signChars t.sign ++ t.digits).length) t.powers
  if t.bodyLexemes = [] then .error (.malformed (position + 1) .loneSign)
  else Term.ofPowers c powers

/-- Reads written terms that follow one another from a position on. -/
def readAll (position : Nat) : List WrittenTerm → Except Error (List Term)
  | [] => .ok []
  | t :: ts => do
    let u ← t.read position
    return u :: (← readAll (position + t.chars.length) ts)

end WrittenTerm

section

variable {n : Nat} {rest : List Lexeme} {t : WrittenTerm} {ts : List WrittenTerm}

/-- The coefficient that a body begins with, if it does. -/
private def bodyCoefficient (negative : Bool) (digits : List Char) :
    Except Error (Option Coefficient) :=
  if digits = [] then .ok none else (Coefficient.ofDigits negative digits).map some

/-- Reading a body takes the lexemes of the body that is written before the end of a term. -/
private theorem readBody_place (negative : Bool) (n : Nat) (t : WrittenTerm)
    (hrest : TermEnd rest) :
    readBody negative (place n (t.bodyLexemes ++ rest)) = do
      let c ← bodyCoefficient negative t.digits
      let powers ← WrittenPower.readAll .empty (n + t.digits.length) t.powers
      return (c, powers, t.bodyLexemes.length) := by
  obtain ⟨sign, digits, powers⟩ := t
  have hpowers := readPowers_place powers hrest .empty (n + digits.length)
  -- the first lexeme decides: a number is the coefficient, and without one there is none
  cases digits with
  | nil =>
    have hbody : readBody negative (place n (powers.flatMap WrittenPower.lexemes ++ rest)) = do
        let (powers, taken) ←
          readPowers .empty (place n (powers.flatMap WrittenPower.lexemes ++ rest))
        return (none, powers, taken) := by
      cases powers with
      | nil =>
        rcases hrest with rfl | ⟨negative, more, rfl⟩
        · rfl
        · rfl
      | cons p powers => rfl
    rw [List.length_nil, Nat.add_zero] at hpowers
    rw [WrittenTerm.bodyLexemes, Lexeme.numeral, List.nil_append, hbody, hpowers]
    simp only [bodyCoefficient, List.length_nil, Nat.add_zero]
    cases WrittenPower.readAll .empty n powers with
    | error e => rfl
    | ok qs => rfl
  | cons d digits =>
    have hbody :
        readBody negative
            (place n (WrittenTerm.bodyLexemes ⟨sign, d :: digits, powers⟩ ++ rest)) = do
        let c ← Coefficient.ofDigits negative (d :: digits)
        let (powers, taken) ←
          readPowers .empty
            (place (n + (d :: digits).length) (powers.flatMap WrittenPower.lexemes ++ rest))
        return (some c, powers, taken + 1) := rfl
    rw [hbody, hpowers]
    simp only [bodyCoefficient, reduceCtorEq, if_false]
    cases Coefficient.ofDigits negative (d :: digits) with
    | error e => rfl
    | ok c =>
      cases WrittenPower.readAll .empty (n + (d :: digits).length) powers with
      | error e => rfl
      | ok qs => rfl

/-- A missing coefficient counts as one with the sign of its term. -/
private theorem map_bodyCoefficient (negative : Bool) (digits : List Char) :
    (bodyCoefficient negative digits).map (·.getD (if negative then -1 else 1)) =
      Coefficient.checked .coefficient
        (signed negative (if digits = [] then 1 else Nat.ofDigitChars 10 digits 0)) := by
  by_cases hdigits : digits = []
  · rw [bodyCoefficient, if_pos hdigits, if_pos hdigits]
    cases negative with
    | false => exact (Coefficient.checked_eq_ok_iff.2 rfl).symm
    | true => exact (Coefficient.checked_eq_ok_iff.2 rfl).symm
  · rw [bodyCoefficient, if_neg hdigits, if_neg hdigits, ← Coefficient.ofDigits_eq_checked]
    cases Coefficient.ofDigits negative digits with
    | error e => rfl
    | ok c => rfl

/-- A term with a sign is the sign and then a body, which must not be missing. -/
private theorem readTerm_signed (negative : Bool) (digits : List Char)
    (powers : List WrittenPower) (hrest : TermEnd rest) (n : Nat) :
    readTerm (place n (WrittenTerm.lexemes ⟨some negative, digits, powers⟩ ++ rest)) =
      (WrittenTerm.read n ⟨some negative, digits, powers⟩).map fun u =>
        (u, (WrittenTerm.lexemes ⟨some negative, digits, powers⟩).length) := by
  have hterm : readTerm (place n (WrittenTerm.lexemes ⟨some negative, digits, powers⟩ ++ rest)) = do
      let body ← readBody negative
        (place (n + 1) (WrittenTerm.bodyLexemes ⟨some negative, digits, powers⟩ ++ rest))
      if body.2.2 = 0 then .error (.malformed (n + 1) .loneSign)
      else
        let t ← Term.ofPowers (body.1.getD (if negative then -1 else 1)) body.2.1
        return (t, body.2.2 + 1) := by
    cases negative with
    | false => rfl
    | true => rfl
  have hlength : n + (WrittenTerm.signChars (some negative) ++ digits).length =
      n + 1 + digits.length := by
    rw [List.length_append, ← Nat.add_assoc]
    cases negative with
    | false => rfl
    | true => rfl
  rw [hterm, readBody_place negative (n + 1) _ hrest, WrittenTerm.read, WrittenTerm.coefficient,
    Option.getD_some, ← map_bodyCoefficient, hlength]
  cases bodyCoefficient negative digits with
  | error e => rfl
  | ok c =>
    cases WrittenPower.readAll .empty (n + 1 + digits.length) powers with
    | error e => rfl
    | ok qs =>
      simp only [bind, Except.bind, pure, Except.pure, Except.map, List.length_eq_zero_iff]
      split
      · rfl
      · cases Term.ofPowers (c.getD (if negative then -1 else 1)) qs with
        | error e => rfl
        | ok u => rfl

/-- A term without a sign is a body. -/
private theorem readTerm_unsigned (digits : List Char) (powers : List WrittenPower)
    (hne : WrittenTerm.lexemes ⟨none, digits, powers⟩ ≠ []) (hrest : TermEnd rest) (n : Nat) :
    readTerm (place n (WrittenTerm.lexemes ⟨none, digits, powers⟩ ++ rest)) =
      (WrittenTerm.read n ⟨none, digits, powers⟩).map fun u =>
        (u, (WrittenTerm.lexemes ⟨none, digits, powers⟩).length) := by
  have hterm : readTerm (place n (WrittenTerm.lexemes ⟨none, digits, powers⟩ ++ rest)) = do
      let body ← readBody false
        (place n (WrittenTerm.bodyLexemes ⟨none, digits, powers⟩ ++ rest))
      let t ← Term.ofPowers (body.1.getD 1) body.2.1
      return (t, body.2.2) := by
    cases digits with
    | nil =>
      cases powers with
      | nil => contradiction
      | cons p powers => rfl
    | cons d digits => rfl
  rw [hterm, readBody_place false n _ hrest, WrittenTerm.read, WrittenTerm.coefficient,
    Option.getD_none, ← map_bodyCoefficient]
  cases bodyCoefficient false digits with
  | error e => rfl
  | ok c =>
    simp only [WrittenTerm.signChars, List.nil_append]
    cases WrittenPower.readAll .empty (n + digits.length) powers with
    | error e => rfl
    | ok qs =>
      simp only [bind, Except.bind, pure, Except.pure, Except.map]
      have hbody : WrittenTerm.bodyLexemes ⟨none, digits, powers⟩ ≠ [] := hne
      rw [if_neg hbody, if_neg Bool.false_ne_true]
      cases Term.ofPowers (c.getD 1) qs with
      | error e => rfl
      | ok u => rfl

/-- Reading a term takes the lexemes of the term that is written before the end of a term. -/
theorem readTerm_place (t : WrittenTerm) (ht : t.lexemes ≠ []) (hrest : TermEnd rest) (n : Nat) :
    readTerm (place n (t.lexemes ++ rest)) = (t.read n).map fun u => (u, t.lexemes.length) := by
  obtain ⟨sign, digits, powers⟩ := t
  cases sign with
  | none => exact readTerm_unsigned digits powers ht hrest n
  | some negative => exact readTerm_signed negative digits powers hrest n

/-- Reading all terms is reading one separated term after another. -/
theorem readTerms_place (hts : WrittenTerm.Separated ts) (n : Nat) :
    readTerms (place n (ts.flatMap WrittenTerm.lexemes)) = WrittenTerm.readAll n ts := by
  induction ts generalizing n with
  | nil =>
    rw [List.flatMap_nil, Token.place_nil, readTerms]
    rfl
  | cons t ts ih =>
    obtain ⟨-, hne, htail, hsigned⟩ := WrittenTerm.separated_cons_iff.1 hts
    -- the term ends where the sign of the next one stands
    have hend : TermEnd (ts.flatMap WrittenTerm.lexemes) := by
      cases ts with
      | nil => exact .inl rfl
      | cons u ts =>
        obtain ⟨negative, hsign⟩ := Option.isSome_iff_exists.1 (hsigned u (.head ts))
        rw [List.flatMap_cons, WrittenTerm.lexemes, hsign]
        exact .inr ⟨negative, _, rfl⟩
    have hfirst := readTerm_place t hne hend n
    have hchars : (t.lexemes.flatMap Lexeme.text).length = t.chars.length := by
      have htext := WrittenTerm.flatMap_lexemes [t]
      rw [List.flatMap_singleton, List.flatMap_singleton] at htext
      rw [htext]
    obtain ⟨first, tokens, htokens⟩ :
        ∃ first tokens,
          place n (t.lexemes ++ ts.flatMap WrittenTerm.lexemes) = first :: tokens := by
      obtain ⟨l, more, hl⟩ := List.exists_cons_of_ne_nil hne
      rw [hl]
      exact ⟨_, _, rfl⟩
    rw [List.flatMap_cons, WrittenTerm.readAll]
    cases hread : t.read n with
    | error e =>
      rw [hread, htokens] at hfirst
      rw [htokens, readTerms, hfirst]
      rfl
    | ok u =>
      rw [hread, htokens] at hfirst
      rw [htokens, readTerms_of_readTerm hfirst, ← htokens, Token.place_append, hchars,
        List.drop_left' (Token.length_place _ _), ih htail]
      cases WrittenTerm.readAll (n + t.chars.length) ts with
      | error e => rfl
      | ok us => rfl

/-- Reading a text is reading the separated terms that make it up, and then adding these up. -/
theorem Polynomial.ofText_eq_readAll {text : String} (hts : WrittenTerm.Separated ts)
    (hne : ts ≠ []) (htext : text.toList = ts.flatMap WrittenTerm.chars) :
    ofText text = WrittenTerm.readAll 0 ts >>= ofTerms := by
  have hscan := Token.scan_eq_ok_iff_separated.2 ⟨ts, hts, htext, rfl⟩
  have htokens : (place 0 (ts.flatMap WrittenTerm.lexemes)).isEmpty = false := by
    obtain ⟨t, ts, rfl⟩ := List.exists_cons_of_ne_nil hne
    obtain ⟨l, more, hl⟩ := List.exists_cons_of_ne_nil (hts.ne_nil t (.head ts))
    rw [List.flatMap_cons, hl]
    rfl
  rw [ofText, hscan]
  simp only [bind, Except.bind, htokens, Bool.false_eq_true, if_false, readTerms_place hts]

end

end SparsePoly

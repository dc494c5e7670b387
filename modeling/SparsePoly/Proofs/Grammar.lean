import Mathlib.Algebra.GroupWithZero.Nat
import Mathlib.Algebra.Ring.Int.Defs
import SparsePoly.Monomial
import SparsePoly.Proofs.Numeral
import SparsePoly.Proofs.Scan

/-!
# The grammar of polynomial texts

A text is a row of terms, `[sign] body (sign body)*`, and a body is a coefficient, a row of letters
with optional degrees, or both. `WrittenTerm` is a term with everything that its text says and
nothing that it only stands for: whether there is a sign, the digits as they are, the letters in
their order. `Writes` says that a text is a row of such terms, and `WrittenTerm.sumAt` which
coefficient they give a monomial.

The grammar does not say how to find the terms in a text. Every list of readable lexemes falls into
terms at its signs (`WrittenTerm.exists_separated`), though such a term may lack a body or repeat a
letter; `Token.scan_eq_ok_iff_separated` is this for texts.
-/

namespace SparsePoly

/-! ### Powers -/

/-- A letter with its degree as it is written. -/
structure WrittenPower where
  /-- The letter. -/
  letter : Char
  /-- The digits of the degree, which are missing when no degree is written. -/
  digits : List Char
deriving DecidableEq, Repr

namespace WrittenPower

/-- The text of a written power. -/
def chars (p : WrittenPower) : List Char := p.letter :: p.digits

/-- The degree that is written, or one when none is. -/
def degree (p : WrittenPower) : Nat :=
  if p.digits = [] then 1 else Nat.ofDigitChars 10 p.digits 0

/-- A letter is lowercase and a degree is written in decimal digits. -/
structure Lexical (p : WrittenPower) : Prop where
  /-- The letter is lowercase. -/
  letter : p.letter.isLower = true
  /-- The degree is written in decimal digits. -/
  digit : ∀ d ∈ p.digits, d.isDigit = true

instance (p : WrittenPower) : Decidable p.Lexical :=
  decidable_of_iff (p.letter.isLower = true ∧ p.digits.all Char.isDigit = true)
    ⟨fun ⟨hletter, hdigit⟩ => ⟨hletter, List.all_eq_true.1 hdigit⟩,
      fun h => ⟨h.letter, List.all_eq_true.2 h.digit⟩⟩

end WrittenPower

/-! ### Terms -/

/-- A term as it is written. -/
structure WrittenTerm where
  /-- The sign, where there is one: whether it is a minus. -/
  sign : Option Bool
  /-- The digits of the coefficient, which are missing when no coefficient is written. -/
  digits : List Char
  /-- The letters in their order. -/
  powers : List WrittenPower
deriving DecidableEq, Repr

namespace WrittenTerm

/-- The text of a sign. -/
def signChars : Option Bool → List Char
  | none => []
  | some false => ['+']
  | some true => ['-']

/-- The text of a written term. -/
def chars (t : WrittenTerm) : List Char :=
  signChars t.sign ++ (t.digits ++ t.powers.flatMap WrittenPower.chars)

/-- The signed coefficient that is written, where a missing coefficient counts as one. -/
def coefficient (t : WrittenTerm) : Int :=
  signed (t.sign.getD false) (if t.digits = [] then 1 else Nat.ofDigitChars 10 t.digits 0)

/-- The degree of a letter, which is zero when the letter is not written. -/
def degree (t : WrittenTerm) (x : Char) : Nat :=
  ((t.powers.filter fun p => p.letter = x).map WrittenPower.degree).sum

/-- A coefficient is written in decimal digits and so are the degrees of lowercase letters. -/
structure Lexical (t : WrittenTerm) : Prop where
  /-- The coefficient is written in decimal digits. -/
  digit : ∀ d ∈ t.digits, d.isDigit = true
  /-- The letters are lowercase and the degrees written in decimal digits. -/
  power : ∀ p ∈ t.powers, p.Lexical

/-- A term of the grammar: it has a coefficient or a letter, and no letter twice. -/
structure WellFormed (t : WrittenTerm) : Prop extends Lexical t where
  /-- A coefficient or a letter is written. -/
  body : t.digits ≠ [] ∨ t.powers ≠ []
  /-- No letter is written twice. -/
  distinct : (t.powers.map WrittenPower.letter).Nodup

/-- The signed coefficient and all degrees are in the range of their words. -/
structure InRange (t : WrittenTerm) : Prop where
  /-- The coefficient fits, together with its sign. -/
  coefficient : Coefficient.Fits t.coefficient
  /-- Every degree fits. -/
  degree : ∀ p ∈ t.powers, Degree.Fits p.degree

instance (t : WrittenTerm) : Decidable t.Lexical :=
  decidable_of_iff (t.digits.all Char.isDigit = true ∧ ∀ p ∈ t.powers, p.Lexical)
    ⟨fun ⟨hdigit, hpower⟩ => ⟨List.all_eq_true.1 hdigit, hpower⟩,
      fun h => ⟨List.all_eq_true.2 h.digit, h.power⟩⟩

instance (t : WrittenTerm) : Decidable t.WellFormed :=
  decidable_of_iff (t.Lexical ∧ (t.digits ≠ [] ∨ t.powers ≠ []) ∧
      (t.powers.map WrittenPower.letter).Nodup)
    ⟨fun ⟨hlexical, hbody, hdistinct⟩ => ⟨hlexical, hbody, hdistinct⟩,
      fun h => ⟨h.toLexical, h.body, h.distinct⟩⟩

/-- A written term denotes the monomial in which every letter has the degree written for it. A
letter raised to zero is the factor one. -/
def Denotes (t : WrittenTerm) (m : Monomial) : Prop :=
  ∀ x ∈ letters, (m.degree x).toNat = t.degree x

instance (t : WrittenTerm) (m : Monomial) : Decidable (t.Denotes m) :=
  List.decidableBAll _ letters

/-- The exact sum of the signed coefficients of those terms that denote a monomial. -/
def sumAt (m : Monomial) (ts : List WrittenTerm) : Int :=
  ((ts.filter fun t => t.Denotes m).map coefficient).sum

end WrittenTerm

/-- A text is written as a row of terms, at least one, all but the first with a sign. -/
structure Writes (ts : List WrittenTerm) (text : List Char) : Prop where
  /-- There is a term. -/
  ne_nil : ts ≠ []
  /-- Every term is one of the grammar. -/
  wellFormed : ∀ t ∈ ts, t.WellFormed
  /-- All terms but the first have a sign. -/
  signed : ∀ t ∈ ts.tail, t.sign.isSome = true
  /-- The text is made up of the terms. -/
  text_eq : text = ts.flatMap WrittenTerm.chars

instance (ts : List WrittenTerm) (text : List Char) : Decidable (Writes ts text) :=
  decidable_of_iff (ts ≠ [] ∧ (∀ t ∈ ts, t.WellFormed) ∧ (∀ t ∈ ts.tail, t.sign.isSome = true) ∧
      text = ts.flatMap WrittenTerm.chars)
    ⟨fun ⟨hne, hwf, hsigned, htext⟩ => ⟨hne, hwf, hsigned, htext⟩,
      fun h => ⟨h.ne_nil, h.wellFormed, h.signed, h.text_eq⟩⟩

/-! ### Lexemes -/

namespace Lexeme

/-- The lexemes of a numeral that may be missing. -/
def numeral : List Char → List Lexeme
  | [] => []
  | d :: digits => [.number (d :: digits)]

theorem flatMap_numeral (digits : List Char) : (numeral digits).flatMap text = digits := by
  cases digits with
  | nil => rfl
  | cons d digits => exact List.append_nil _

/-- Lexemes that a number can stand before. -/
def NoNumber (lexemes : List Lexeme) : Prop := ∀ k ∈ lexemes.head?, k.isNumber = false

theorem noNumber_cons {l : Lexeme} (h : l.isNumber = false) (lexemes : List Lexeme) :
    NoNumber (l :: lexemes) := by
  intro k hk
  obtain rfl : l = k := Option.some.inj hk
  exact h

private theorem readable_numeral_append {digits : List Char} {lexemes : List Lexeme}
    (hdigits : ∀ d ∈ digits, d.isDigit = true) (h : Readable lexemes) (hnumber : NoNumber lexemes) :
    Readable (numeral digits ++ lexemes) := by
  cases digits with
  | nil => exact h
  | cons d digits =>
    exact readable_cons_iff.2 ⟨⟨nofun, hdigits⟩, fun k hk _ => hnumber k hk, h⟩

end Lexeme

open Lexeme (NoNumber noNumber_cons readable_numeral_append)

namespace WrittenPower

/-- The lexemes of a written power. -/
def lexemes (p : WrittenPower) : List Lexeme := .letter p.letter :: Lexeme.numeral p.digits

theorem flatMap_lexemes (ps : List WrittenPower) :
    (ps.flatMap lexemes).flatMap Lexeme.text = ps.flatMap chars := by
  induction ps with
  | nil => rfl
  | cons p ps ih =>
    rw [List.flatMap_cons, List.flatMap_append, ih, lexemes, List.flatMap_cons,
      Lexeme.flatMap_numeral, List.flatMap_cons]
    rfl

/-- Powers are readable before everything but a number. -/
private theorem readable_append {ps : List WrittenPower} {rest : List Lexeme}
    (hps : ∀ p ∈ ps, p.Lexical) (h : Lexeme.Readable rest) (hrest : NoNumber rest) :
    Lexeme.Readable (ps.flatMap lexemes ++ rest) ∧ NoNumber (ps.flatMap lexemes ++ rest) := by
  induction ps with
  | nil => exact ⟨h, hrest⟩
  | cons p ps ih =>
    obtain ⟨hp, hps⟩ := List.forall_mem_cons.1 hps
    obtain ⟨hread, hnumber⟩ := ih hps
    rw [List.flatMap_cons, List.append_assoc, lexemes, List.cons_append]
    refine ⟨Lexeme.readable_cons_iff.2 ⟨hp.letter, fun k _ hletter => (nomatch hletter), ?_⟩,
      noNumber_cons rfl _⟩
    exact readable_numeral_append hp.digit hread hnumber

end WrittenPower

namespace WrittenTerm

/-- The lexeme of a sign that may be missing. -/
def signLexemes : Option Bool → List Lexeme
  | none => []
  | some negative => [.sign negative]

/-- The lexemes of what follows the sign of a term. -/
def bodyLexemes (t : WrittenTerm) : List Lexeme :=
  Lexeme.numeral t.digits ++ t.powers.flatMap WrittenPower.lexemes

theorem bodyLexemes_ne_nil_iff {t : WrittenTerm} :
    t.bodyLexemes ≠ [] ↔ t.digits ≠ [] ∨ t.powers ≠ [] := by
  obtain ⟨sign, digits, powers⟩ := t
  cases digits with
  | cons d digits => exact iff_of_true nofun (.inl nofun)
  | nil =>
    cases powers with
    | cons p powers => exact iff_of_true nofun (.inr nofun)
    | nil => exact iff_of_false (fun h => h rfl) (fun h => h.elim (fun h => h rfl) fun h => h rfl)

/-- The lexemes of a written term. -/
def lexemes (t : WrittenTerm) : List Lexeme := signLexemes t.sign ++ t.bodyLexemes

theorem flatMap_lexemes (ts : List WrittenTerm) :
    (ts.flatMap lexemes).flatMap Lexeme.text = ts.flatMap chars := by
  induction ts with
  | nil => rfl
  | cons t ts ih =>
    have hsign : (signLexemes t.sign).flatMap Lexeme.text = signChars t.sign := by
      match t.sign with
      | none => rfl
      | some false => rfl
      | some true => rfl
    rw [List.flatMap_cons, List.flatMap_append, ih, lexemes, bodyLexemes, List.flatMap_append,
      List.flatMap_append, hsign, Lexeme.flatMap_numeral, WrittenPower.flatMap_lexemes,
      List.flatMap_cons]
    rfl

/-- Written terms that stand apart by their signs: none is empty and all but the first have one. -/
structure Separated (ts : List WrittenTerm) : Prop where
  /-- Every term is made of digits and lowercase letters. -/
  lexical : ∀ t ∈ ts, t.Lexical
  /-- No term is empty. -/
  ne_nil : ∀ t ∈ ts, t.lexemes ≠ []
  /-- All terms but the first have a sign. -/
  signed : ∀ t ∈ ts.tail, t.sign.isSome = true

variable {t : WrittenTerm} {ts : List WrittenTerm} {l : Lexeme} {lexemes : List Lexeme}

theorem separated_nil : Separated [] := ⟨nofun, nofun, nofun⟩

theorem separated_cons_iff :
    Separated (t :: ts) ↔
      t.Lexical ∧ t.lexemes ≠ [] ∧ Separated ts ∧ ∀ u ∈ ts, u.sign.isSome = true := by
  constructor
  · rintro ⟨hlexical, hne, hsigned⟩
    obtain ⟨ht, hts⟩ := List.forall_mem_cons.1 hlexical
    obtain ⟨htne, htsne⟩ := List.forall_mem_cons.1 hne
    exact ⟨ht, htne, ⟨hts, htsne, fun u hu => hsigned u (List.mem_of_mem_tail hu)⟩, hsigned⟩
  · rintro ⟨ht, htne, ⟨hts, htsne, -⟩, hsigned⟩
    exact ⟨List.forall_mem_cons.2 ⟨ht, hts⟩, List.forall_mem_cons.2 ⟨htne, htsne⟩, hsigned⟩

/-- Terms that all have a sign can follow a number. -/
private theorem noNumber_of_signed (hsigned : ∀ t ∈ ts, t.sign.isSome = true) :
    NoNumber (ts.flatMap WrittenTerm.lexemes) := by
  cases ts with
  | nil => exact nofun
  | cons t ts =>
    obtain ⟨negative, hsign⟩ := Option.isSome_iff_exists.1 (hsigned t (.head ts))
    rw [List.flatMap_cons, WrittenTerm.lexemes, hsign]
    exact noNumber_cons rfl _

/-- The lexemes of separated terms are readable. -/
theorem readable_flatMap_lexemes (h : Separated ts) :
    Lexeme.Readable (ts.flatMap WrittenTerm.lexemes) := by
  induction ts with
  | nil => exact Lexeme.readable_nil
  | cons t ts ih =>
    obtain ⟨ht, -, hts, hsigned⟩ := separated_cons_iff.1 h
    obtain ⟨hpowers, hnumber⟩ :=
      WrittenPower.readable_append ht.power (ih hts) (noNumber_of_signed hsigned)
    have hbody : Lexeme.Readable (t.bodyLexemes ++ ts.flatMap WrittenTerm.lexemes) := by
      rw [bodyLexemes, List.append_assoc]
      exact readable_numeral_append ht.digit hpowers hnumber
    rw [List.flatMap_cons, WrittenTerm.lexemes, List.append_assoc]
    cases t.sign with
    | none => exact hbody
    | some negative =>
      exact Lexeme.readable_cons_iff.2 ⟨trivial, fun k _ hsign => (nomatch hsign), hbody⟩

/-- A lexeme before signed terms is a term of its own. -/
private theorem exists_separated_of_signed (hl : l.WellFormed) (h : Separated ts)
    (hsigned : ∀ t ∈ ts, t.sign.isSome = true) :
    ∃ us, Separated us ∧ us.flatMap WrittenTerm.lexemes = l :: ts.flatMap WrittenTerm.lexemes := by
  have hsingle : ∀ u : WrittenTerm, u.Lexical → u.lexemes = [l] → ∃ us, Separated us ∧
      us.flatMap WrittenTerm.lexemes = l :: ts.flatMap WrittenTerm.lexemes := by
    intro u hu hlexemes
    refine ⟨u :: ts, separated_cons_iff.2 ⟨hu, ?_, h, hsigned⟩, ?_⟩
    · rw [hlexemes]
      exact List.cons_ne_nil l []
    · rw [List.flatMap_cons, hlexemes]
      rfl
  cases l with
  | sign negative => exact hsingle ⟨some negative, [], []⟩ ⟨nofun, nofun⟩ rfl
  | number digits =>
    cases digits with
    | nil => exact absurd rfl hl.1
    | cons d digits => exact hsingle ⟨none, d :: digits, []⟩ ⟨hl.2, nofun⟩ rfl
  | letter x =>
    refine hsingle ⟨none, [], [⟨x, []⟩]⟩ ⟨nofun, fun p hp => ?_⟩ rfl
    rw [List.mem_singleton.1 hp]
    exact ⟨hl, nofun⟩

/-- A lexeme before a term without sign becomes a part of that term. -/
private theorem exists_separated_of_unsigned {digits : List Char} {powers : List WrittenPower}
    (h : Separated (⟨none, digits, powers⟩ :: ts))
    (hread : Lexeme.Readable (l :: (⟨none, digits, powers⟩ :: ts).flatMap WrittenTerm.lexemes)) :
    ∃ us, Separated us ∧ us.flatMap WrittenTerm.lexemes =
      l :: (⟨none, digits, powers⟩ :: ts).flatMap WrittenTerm.lexemes := by
  obtain ⟨ht, -, hts, hsigned⟩ := separated_cons_iff.1 h
  obtain ⟨hl, hapart, -⟩ := Lexeme.readable_cons_iff.1 hread
  cases l with
  | sign negative =>
    exact ⟨⟨some negative, digits, powers⟩ :: ts,
      separated_cons_iff.2 ⟨⟨ht.digit, ht.power⟩, nofun, hts, hsigned⟩, rfl⟩
  | letter x =>
    have hx : WrittenPower.Lexical ⟨x, digits⟩ := ⟨hl, ht.digit⟩
    refine ⟨⟨none, [], ⟨x, digits⟩ :: powers⟩ :: ts,
      separated_cons_iff.2 ⟨⟨nofun, List.forall_mem_cons.2 ⟨hx, ht.power⟩⟩, nofun, hts, hsigned⟩,
      ?_⟩
    simp only [List.flatMap_cons, WrittenTerm.lexemes, bodyLexemes, WrittenPower.lexemes]
    rfl
  | number more =>
    -- the term begins with a letter, since otherwise two numbers would touch
    obtain rfl : digits = [] := by
      cases digits with
      | nil => rfl
      | cons d digits => exact absurd (hapart _ rfl rfl) nofun
    cases more with
    | nil => exact absurd rfl hl.1
    | cons d more =>
      exact ⟨⟨none, d :: more, powers⟩ :: ts,
        separated_cons_iff.2 ⟨⟨hl.2, ht.power⟩, nofun, hts, hsigned⟩, rfl⟩

/-- Readable lexemes fall into separated terms. -/
theorem exists_separated (h : Lexeme.Readable lexemes) :
    ∃ ts, Separated ts ∧ ts.flatMap WrittenTerm.lexemes = lexemes := by
  -- the terms grow at the front, where only the first can still lack its sign
  induction lexemes with
  | nil => exact ⟨[], separated_nil, rfl⟩
  | cons l lexemes ih =>
    obtain ⟨hl, -, hlexemes⟩ := Lexeme.readable_cons_iff.1 h
    obtain ⟨ts, hts, rfl⟩ := ih hlexemes
    cases ts with
    | nil => exact exists_separated_of_signed hl hts nofun
    | cons t ts =>
      obtain ⟨sign, digits, powers⟩ := t
      cases sign with
      | none => exact exists_separated_of_unsigned hts h
      | some negative =>
        refine exists_separated_of_signed hl hts (List.forall_mem_cons.2 ⟨rfl, ?_⟩)
        exact (separated_cons_iff.1 hts).2.2.2

end WrittenTerm

/-- The tokens of a text are those of separated terms that make up the text. -/
theorem Token.scan_eq_ok_iff_separated {text : List Char} {tokens : List Token} :
    scan text = .ok tokens ↔
      ∃ ts, WrittenTerm.Separated ts ∧ text = ts.flatMap WrittenTerm.chars ∧
        tokens = place 0 (ts.flatMap WrittenTerm.lexemes) := by
  rw [scan_eq_ok_iff]
  constructor
  · rintro ⟨lexemes, hread, rfl, rfl⟩
    obtain ⟨ts, hts, rfl⟩ := WrittenTerm.exists_separated hread
    exact ⟨ts, hts, WrittenTerm.flatMap_lexemes ts, rfl⟩
  · rintro ⟨ts, hts, rfl, rfl⟩
    exact ⟨_, WrittenTerm.readable_flatMap_lexemes hts, (WrittenTerm.flatMap_lexemes ts).symm, rfl⟩

end SparsePoly

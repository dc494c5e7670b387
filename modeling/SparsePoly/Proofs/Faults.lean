import Mathlib.Data.List.DropRight
import SparsePoly.Proofs.Language

/-!
# The first fault of a text

A text made of signs, digits and lowercase letters can still be at fault in four ways, and in many
places at once: a coefficient or a degree out of range, a letter that its term has used before, a
sign with nothing to apply to. Whether there is a fault at a place depends on what stands directly
before and behind it, and for a letter on what stands since the last sign; `FaultAt` says so without
cutting the text into terms. A numeral is at fault where it begins.

Reading goes through a text from left to right and stops at the first fault. `Reports` is this
statement for one part of a text between two others. It is made so that it holds of two parts in a
row when it holds of each (`Reports.bind`), and reading a text is one such chain: over the digits
of a numeral, the powers of a term and the terms of the text.

* `FirstFault`: the first fault of a text, by its error.
* `WrittenTerm.reports_readAll`: reading written terms reports the first fault.
* `Polynomial.ofText_first_fault`: which error a text is refused with.
-/

namespace SparsePoly

/-! ### Faults -/

/-- Whether a character is a sign. -/
def isSign (c : Char) : Bool := c == '+' || c == '-'

/-- The value of the digits that a text begins with, zero when there are none. -/
def leadingNumber (text : List Char) : Nat := Nat.ofDigitChars 10 (text.takeWhile Char.isDigit) 0

/-- What a text has behind its last sign, all of it when there is no sign. -/
def sinceSign (text : List Char) : List Char := text.rtakeWhile fun c => !isSign c

/-- The text that follows `before` is at fault right where it begins. -/
inductive FaultAt (before : List Char) : List Char → Error → Prop
  /-- A coefficient stands at the beginning or behind a sign. It is out of range with its sign. -/
  | coefficient {rest : List Char} (hplace : ∀ c ∈ before.getLast?, isSign c = true)
      (hrange : ¬ Coefficient.Fits
        (signed (decide (before.getLast? = some '-')) (leadingNumber rest))) :
      FaultAt before rest (.overflow .coefficient)
  /-- A degree stands behind a letter. It is out of range. -/
  | degree {x : Char} {rest : List Char} (hplace : before.getLast? = some x)
      (hletter : x.isLower = true) (hrange : ¬ Degree.Fits (leadingNumber rest)) :
      FaultAt before rest (.overflow .degree)
  /-- A letter is used for the second time since the last sign. -/
  | repeatedLetter {x : Char} {rest : List Char} (hletter : x.isLower = true)
      (hused : x ∈ sinceSign before) :
      FaultAt before (x :: rest) (.malformed before.length (.repeatedLetter x))
  /-- A sign is not followed by a digit or a letter. What is missing is missed behind it. -/
  | loneSign {c : Char} {rest : List Char} (hsign : isSign c = true)
      (hnext : ∀ d ∈ rest.head?, d.isDigit = false ∧ d.isLower = false) :
      FaultAt before (c :: rest) (.malformed (before.length + 1) .loneSign)

/-- The first fault of a text that follows `before`: one at a place with no fault to the left. -/
def FirstFault (before text : List Char) (e : Error) : Prop :=
  ∃ i, FaultAt (before ++ text.take i) (text.drop i) e ∧
    ∀ j < i, ∀ e', ¬ FaultAt (before ++ text.take j) (text.drop j) e'

section

variable {before rest part digits : List Char} {c d x : Char} {e : Error}

theorem eq_of_isSign (h : isSign c = true) : c = '+' ∨ c = '-' :=
  (Bool.or_eq_true_iff.1 h).imp eq_of_beq eq_of_beq

/-- A sign is neither a digit nor a letter. -/
theorem not_digit_letter_of_isSign (h : isSign c = true) :
    c.isDigit = false ∧ c.isLower = false := by
  rcases eq_of_isSign h with rfl | rfl
  · exact ⟨rfl, rfl⟩
  · exact ⟨rfl, rfl⟩

/-- What is neither a foreign character nor a digit nor a letter is a sign. -/
theorem isSign_of_not_isForeign (h : ¬ IsForeign c) (hdigit : c.isDigit = false)
    (hlower : c.isLower = false) : isSign c = true := by
  by_contra hsign
  obtain ⟨hplus, hminus⟩ := not_or.1 (mt Bool.or_eq_true_iff.2 hsign)
  exact h ⟨fun hc => hplus (beq_of_eq hc), fun hc => hminus (beq_of_eq hc), hdigit, hlower⟩

theorem isSign_eq_false_of_isDigit (h : d.isDigit = true) : isSign d = false :=
  Bool.eq_false_iff.2 fun hsign => Bool.eq_false_iff.1 (not_digit_letter_of_isSign hsign).1 h

theorem isSign_eq_false_of_isLower (h : x.isLower = true) : isSign x = false :=
  Bool.eq_false_iff.2 fun hsign => Bool.eq_false_iff.1 (not_digit_letter_of_isSign hsign).2 h

/-- No letter stands among digits. -/
theorem notMem_digits (hdigits : ∀ d ∈ digits, d.isDigit = true) (hx : x.isLower = true) :
    x ∉ digits := by
  intro hmem
  have hdigit := hdigits x hmem
  rw [isDigit_eq_false_of_isLower hx] at hdigit
  contradiction

theorem leadingNumber_append (hdigits : ∀ d ∈ digits, d.isDigit = true)
    (hrest : ∀ c ∈ rest.head?, c.isDigit = false) :
    leadingNumber (digits ++ rest) = Nat.ofDigitChars 10 digits 0 := by
  have hnone : rest.takeWhile Char.isDigit = [] := by
    cases rest with
    | nil => rfl
    | cons c rest => exact List.takeWhile_cons_of_neg (Bool.eq_false_iff.1 (hrest c rfl))
  rw [leadingNumber, List.takeWhile_append_of_pos hdigits, hnone, List.append_nil]

theorem sinceSign_append (h : ∀ c ∈ part, isSign c = false) :
    sinceSign (before ++ part) = sinceSign before ++ part := by
  rw [sinceSign, List.rtakeWhile, List.reverse_append, List.takeWhile_append_of_pos,
    List.reverse_append, List.reverse_reverse]
  · rfl
  · intro c hc
    rw [h c (List.mem_reverse.1 hc)]
    rfl

theorem sinceSign_concat_sign (h : isSign c = true) : sinceSign (before ++ [c]) = [] := by
  rw [sinceSign, List.rtakeWhile_concat, if_neg]
  rw [h]
  exact Bool.false_ne_true

/-- Where no digit stands, no numeral is out of range. -/
private theorem fits_leadingNumber (rest : List Char) (h : ∀ c ∈ rest.head?, c.isDigit = false) :
    (∀ negative, Coefficient.Fits (signed negative (leadingNumber rest))) ∧
      Degree.Fits (leadingNumber rest) := by
  have hzero : leadingNumber rest = 0 := by
    cases rest with
    | nil => rfl
    | cons c rest =>
      rw [leadingNumber, List.takeWhile_cons_of_neg (Bool.eq_false_iff.1 (h c rfl))]
      rfl
  rw [hzero]
  decide

/-! ### Faults by the character that stands there -/

theorem not_faultAt_nil : ¬ FaultAt before [] e := by
  obtain ⟨hcoefficient, hdegree⟩ := fits_leadingNumber [] nofun
  intro h
  cases h with
  | coefficient _ hrange => exact hrange (hcoefficient _)
  | degree _ _ hrange => exact hrange hdegree

theorem faultAt_letter_iff (hx : x.isLower = true) :
    FaultAt before (x :: rest) e ↔
      x ∈ sinceSign before ∧ e = .malformed before.length (.repeatedLetter x) := by
  obtain ⟨hcoefficient, hdegree⟩ := fits_leadingNumber (x :: rest) fun c hc =>
    Option.some.inj hc ▸ isDigit_eq_false_of_isLower hx
  constructor
  · intro h
    cases h with
    | coefficient _ hrange => exact absurd (hcoefficient _) hrange
    | degree _ _ hrange => exact absurd hdegree hrange
    | repeatedLetter _ hused => exact ⟨hused, rfl⟩
    | loneSign hsign _ =>
      rw [isSign_eq_false_of_isLower hx] at hsign
      contradiction
  · rintro ⟨hused, rfl⟩
    exact .repeatedLetter hx hused

theorem faultAt_sign_iff (hc : isSign c = true) :
    FaultAt before (c :: rest) e ↔
      (∀ d ∈ rest.head?, d.isDigit = false ∧ d.isLower = false) ∧
        e = .malformed (before.length + 1) .loneSign := by
  obtain ⟨hdigit, hlower⟩ := not_digit_letter_of_isSign hc
  obtain ⟨hcoefficient, hdegree⟩ := fits_leadingNumber (c :: rest) fun d hd =>
    Option.some.inj hd ▸ hdigit
  constructor
  · intro h
    cases h with
    | coefficient _ hrange => exact absurd (hcoefficient _) hrange
    | degree _ _ hrange => exact absurd hdegree hrange
    | repeatedLetter hletter _ => exact absurd hletter (Bool.eq_false_iff.1 hlower)
    | loneSign _ hnext => exact ⟨hnext, rfl⟩
  · rintro ⟨hnext, rfl⟩
    exact .loneSign hc hnext

/-- At a digit only a numeral that begins there can be at fault. -/
theorem faultAt_digit_iff (hd : d.isDigit = true) :
    FaultAt before (d :: rest) e ↔
      ((∀ c ∈ before.getLast?, isSign c = true) ∧
          ¬ Coefficient.Fits
            (signed (decide (before.getLast? = some '-')) (leadingNumber (d :: rest))) ∧
          e = .overflow .coefficient) ∨
        (∃ x, before.getLast? = some x ∧ x.isLower = true) ∧
          ¬ Degree.Fits (leadingNumber (d :: rest)) ∧ e = .overflow .degree := by
  constructor
  · intro h
    cases h with
    | coefficient hplace hrange => exact .inl ⟨hplace, hrange, rfl⟩
    | degree hplace hletter hrange => exact .inr ⟨⟨_, hplace, hletter⟩, hrange, rfl⟩
    | repeatedLetter hletter _ =>
      rw [isDigit_eq_false_of_isLower hletter] at hd
      contradiction
    | loneSign hsign _ =>
      rw [isSign_eq_false_of_isDigit hd] at hsign
      contradiction
  · rintro (⟨hplace, hrange, rfl⟩ | ⟨⟨x, hplace, hletter⟩, hrange, rfl⟩)
    · exact .coefficient hplace hrange
    · exact .degree hplace hletter hrange

/-! ### The first fault -/

theorem not_firstFault_nil : ¬ FirstFault before [] e := by
  rintro ⟨i, h, -⟩
  rw [List.drop_nil] at h
  exact not_faultAt_nil h

/-- The first fault stands at the first character or behind it. -/
theorem firstFault_cons_iff :
    FirstFault before (c :: rest) e ↔
      FaultAt before (c :: rest) e ∨
        (∀ e', ¬ FaultAt before (c :: rest) e') ∧ FirstFault (before ++ [c]) rest e := by
  unfold FirstFault
  rw [← Nat.or_exists_add_one]
  simp only [Nat.forall_lt_succ_left, List.take_zero, List.drop_zero, List.append_nil,
    List.take_succ_cons, List.drop_succ_cons, List.append_assoc, List.singleton_append,
    Nat.not_lt_zero, false_imp_iff, implies_true, and_true]
  refine or_congr_right ?_
  constructor
  · rintro ⟨i, h, hnone, hleft⟩
    exact ⟨hnone, i, h, hleft⟩
  · rintro ⟨hnone, i, h, hleft⟩
    exact ⟨i, h, hnone, hleft⟩

/-- A text with a fault has a first fault. -/
theorem exists_firstFault_iff :
    (∃ e, FirstFault before rest e) ↔
      ∃ i e, FaultAt (before ++ rest.take i) (rest.drop i) e := by
  classical
  constructor
  · rintro ⟨e, i, h, -⟩
    exact ⟨i, e, h⟩
  · intro h
    obtain ⟨e, he⟩ := Nat.find_spec h
    exact ⟨e, Nat.find h, he, fun j hj e' he' => Nat.find_min h hj ⟨e', he'⟩⟩

end

/-! ### Reading reports the first fault -/

section

variable {α β : Type} {before part more rest : List Char} {c d : Char} {outcome : Except Error α}
  {f : α → Except Error β}

/-- An outcome of reading `part` reports the first fault: it is an error where that fault lies in
`part`, and otherwise the first fault is that of what follows. -/
def Reports (before part rest : List Char) (outcome : Except Error α) : Prop :=
  ∀ e, FirstFault before (part ++ rest) e ↔
    outcome = .error e ∨ ∃ a, outcome = .ok a ∧ FirstFault (before ++ part) rest e

namespace Reports

theorem nil (a : α) : Reports before [] rest (.ok a) := by
  intro e
  rw [List.nil_append, List.append_nil]
  exact ⟨fun h => .inr ⟨a, rfl, h⟩, fun h => h.elim nofun fun ⟨_, _, h⟩ => h⟩

/-- Reading one part and then the next reports the first fault of both. -/
theorem bind (hpart : Reports before part (more ++ rest) outcome)
    (hmore : ∀ a, outcome = .ok a → Reports (before ++ part) more rest (f a)) :
    Reports before (part ++ more) rest (outcome >>= f) := by
  intro e
  rw [List.append_assoc, hpart e, bind_eq_error_iff, or_assoc]
  refine or_congr_right ?_
  constructor
  · rintro ⟨a, ha, h⟩
    rcases (hmore a ha e).1 h with h | ⟨b, hb, h⟩
    · exact .inl ⟨a, ha, h⟩
    · rw [List.append_assoc] at h
      exact .inr ⟨b, bind_eq_ok_iff.2 ⟨a, ha, hb⟩, h⟩
  · rintro (⟨a, ha, h⟩ | ⟨b, hb, h⟩)
    · exact ⟨a, ha, (hmore a ha e).2 (.inl h)⟩
    · obtain ⟨a, ha, hb⟩ := bind_eq_ok_iff.1 hb
      rw [← List.append_assoc] at h
      exact ⟨a, ha, (hmore a ha e).2 (.inr ⟨b, hb, h⟩)⟩

/-- What is made of a result does not matter when it cannot fail. -/
theorem bind_ok (h : Reports before part rest outcome)
    (hf : ∀ a, outcome = .ok a → ∃ b, f a = .ok b) :
    Reports before part rest (outcome >>= f) := by
  have hpart : Reports before part ([] ++ rest) outcome := h
  have hbind := hpart.bind (f := f) fun a ha => by
    obtain ⟨b, hb⟩ := hf a ha
    rw [hb]
    exact nil b
  rw [List.append_nil] at hbind
  exact hbind

/-- At a single character an outcome has to be the fault there. -/
theorem singleton (h : ∀ e, FaultAt before (c :: rest) e ↔ outcome = .error e) :
    Reports before [c] rest outcome := by
  intro e
  rw [List.singleton_append, firstFault_cons_iff]
  simp only [h]
  refine or_congr_right ?_
  cases outcome with
  | error e' => exact iff_of_false (fun hnone => hnone.1 e' rfl) nofun
  | ok a => exact ⟨fun hlater => ⟨a, rfl, hlater.2⟩, fun ⟨_, _, hlater⟩ => ⟨nofun, hlater⟩⟩

/-- No fault lies inside a numeral. -/
theorem digits (hd : d.isDigit = true) (hpart : ∀ d ∈ part, d.isDigit = true) (a : α) :
    Reports (before ++ [d]) part rest (.ok a) := by
  induction part generalizing before d with
  | nil => exact nil a
  | cons d' part ih =>
    obtain ⟨hd', hpart⟩ := List.forall_mem_cons.1 hpart
    have hhead : Reports (before ++ [d]) [d'] (part ++ rest) (.ok a) := by
      refine singleton fun e => ?_
      rw [faultAt_digit_iff hd', List.getLast?_concat]
      refine iff_of_false ?_ nofun
      rintro (⟨hsign, -⟩ | ⟨⟨x, hx, hletter⟩, -⟩)
      · have hsign := hsign d rfl
        rw [isSign_eq_false_of_isDigit hd] at hsign
        contradiction
      · obtain rfl := Option.some.inj hx
        rw [isDigit_eq_false_of_isLower hletter] at hd
        contradiction
    exact hhead.bind (f := fun _ => .ok a) fun _ _ => ih hd' hpart

/-- A numeral is at fault where it begins. -/
theorem numeral (hd : d.isDigit = true) (hpart : ∀ d ∈ part, d.isDigit = true)
    (h : ∀ e, FaultAt before (d :: part ++ rest) e ↔ outcome = .error e) :
    Reports before (d :: part) rest outcome := by
  have hbind := (singleton h).bind (f := .ok) fun a _ => digits hd hpart a
  rw [show outcome >>= .ok = outcome from bind_pure outcome] at hbind
  exact hbind

end Reports

end

/-! ### Powers -/

section

variable {before rest : List Char}

namespace WrittenPower

variable {p : WrittenPower} {ps : List WrittenPower} {used : LetterSet}

/-- Powers begin with a letter, so no digit stands where they begin. -/
private theorem head?_append_noDigit (hps : ∀ p ∈ ps, p.Lexical)
    (hrest : ∀ c ∈ rest.head?, c.isDigit = false) :
    ∀ c ∈ (ps.flatMap chars ++ rest).head?, c.isDigit = false := by
  cases ps with
  | nil => exact hrest
  | cons p ps =>
    intro c hc
    obtain rfl : p.letter = c := Option.some.inj hc
    exact isDigit_eq_false_of_isLower (hps p (.head ps)).letter

/-- The degree of a power is at fault when it is written and out of range. -/
private theorem reports_degree {x : Char} (hp : p.Lexical) (hx : before.getLast? = some x)
    (hletter : x.isLower = true) (hrest : ∀ c ∈ rest.head?, c.isDigit = false) :
    Reports before p.digits rest (Degree.checked p.degree) := by
  obtain ⟨y, digits⟩ := p
  cases digits with
  | nil =>
    obtain ⟨d, hd⟩ : ∃ d, Degree.checked 1 = .ok d := ⟨1, Degree.checked_eq_ok_iff.2 rfl⟩
    have hdegree : Degree.checked (degree ⟨y, []⟩) = .ok d := hd
    rw [hdegree]
    exact .nil d
  | cons d digits =>
    obtain ⟨hd, hdigits⟩ := List.forall_mem_cons.1 hp.digit
    refine .numeral hd hdigits fun e => ?_
    rw [List.cons_append, faultAt_digit_iff hd, ← List.cons_append,
      leadingNumber_append hp.digit hrest, hx, Degree.checked_eq_error_iff]
    constructor
    · rintro (⟨hsign, -⟩ | ⟨-, h⟩)
      · have hsign := hsign x rfl
        rw [isSign_eq_false_of_isLower hletter] at hsign
        contradiction
      · exact h
    · exact fun h => .inr ⟨⟨x, rfl, hletter⟩, h⟩

/-- A letter that has been used is refused before its degree is looked at. -/
private theorem readPower_eq_bind (used : LetterSet) (x : Char) (n : Nat)
    (degree : Except Error Degree) :
    readPower used x n degree =
      (if used.contains x then .error (.malformed n (.repeatedLetter x)) else .ok ()) >>=
        fun _ => degree >>= fun d => .ok ⟨x, d⟩ := by
  unfold readPower
  split
  · rfl
  · rfl

/-- Reading a power reports the first fault, if the letters used before are known. -/
private theorem reports_readPower (hp : p.Lexical) (hrest : ∀ c ∈ rest.head?, c.isDigit = false)
    (hused : used.contains p.letter = true ↔ p.letter ∈ sinceSign before) :
    Reports before p.chars rest
      (readPower used p.letter before.length (Degree.checked p.degree)) := by
  rw [readPower_eq_bind]
  have hletter : Reports before [p.letter] (p.digits ++ rest)
      (if used.contains p.letter then .error (.malformed before.length (.repeatedLetter p.letter))
        else .ok ()) := by
    refine .singleton fun e => ?_
    rw [faultAt_letter_iff hp.letter, ← hused]
    split
    · next h => rw [Except.error.injEq, eq_comm (a := e), and_iff_right h]
    · next h => exact iff_of_false (fun hfault => h hfault.1) nofun
  refine hletter.bind fun _ _ => .bind_ok ?_ fun d _ => ⟨_, rfl⟩
  exact reports_degree hp List.getLast?_concat hp.letter hrest

/-- The letters used before stay known when a power is read. -/
private theorem contains_insert_iff_mem_sinceSign {x : Char} (hp : p.Lexical)
    (hx : x.isLower = true) (hused : used.contains x = true ↔ x ∈ sinceSign before) :
    (used.insert p.letter).contains x = true ↔ x ∈ sinceSign (before ++ p.chars) := by
  have hsince : sinceSign (before ++ p.chars) = sinceSign before ++ p.chars := by
    refine sinceSign_append (List.forall_mem_cons.2 ⟨isSign_eq_false_of_isLower hp.letter, ?_⟩)
    exact fun d hd => isSign_eq_false_of_isDigit (hp.digit d hd)
  rw [LetterSet.contains_insert hp.letter hx, Bool.or_eq_true_iff, hused, hsince,
    List.mem_append, chars, List.mem_cons, or_iff_left (notMem_digits hp.digit hx),
    decide_eq_true_iff, eq_comm (a := x)]

/-- Reading powers reports the first fault, if the letters used before are known. -/
theorem reports_readAll (hps : ∀ p ∈ ps, p.Lexical) (hrest : ∀ c ∈ rest.head?, c.isDigit = false)
    (hused : ∀ x, x.isLower = true → (used.contains x = true ↔ x ∈ sinceSign before)) :
    Reports before (ps.flatMap chars) rest (readAll used before.length ps) := by
  induction ps generalizing before used with
  | nil => exact .nil []
  | cons p ps ih =>
    obtain ⟨hp, hps⟩ := List.forall_mem_cons.1 hps
    have hnext := head?_append_noDigit hps hrest
    have htail := ih hps fun x hx => contains_insert_iff_mem_sinceSign hp hx (hused x hx)
    rw [List.length_append] at htail
    exact (reports_readPower hp hnext (hused _ hp.letter)).bind fun _ _ =>
      htail.bind_ok fun _ _ => ⟨_, rfl⟩

end WrittenPower

/-! ### Terms -/

namespace WrittenTerm

variable {t : WrittenTerm} {ts : List WrittenTerm}

/-- The text of a sign is one character. -/
private theorem exists_signChars_eq (negative : Bool) :
    ∃ c, signChars (some negative) = [c] ∧ isSign c = true ∧ decide (c = '-') = negative := by
  cases negative with
  | false => exact ⟨'+', rfl, rfl, rfl⟩
  | true => exact ⟨'-', rfl, rfl, rfl⟩

/-- A sign with a body is not at fault. -/
private theorem reports_sign (ht : t.Lexical) (hbody : t.bodyLexemes ≠ []) :
    Reports before (signChars t.sign) (t.digits ++ t.powers.flatMap WrittenPower.chars ++ rest)
      (.ok ()) := by
  obtain ⟨sign, digits, powers⟩ := t
  have hnext : ∃ d, (digits ++ powers.flatMap WrittenPower.chars ++ rest).head? = some d ∧
      (d.isDigit = true ∨ d.isLower = true) := by
    cases digits with
    | cons d digits => exact ⟨d, rfl, .inl (ht.digit d (.head digits))⟩
    | nil =>
      cases powers with
      | cons p powers => exact ⟨p.letter, rfl, .inr (ht.power p (.head powers)).letter⟩
      | nil => contradiction
  cases sign with
  | none => exact .nil ()
  | some negative =>
    obtain ⟨c, hc, hsign, -⟩ := exists_signChars_eq negative
    rw [hc]
    refine .singleton fun e => ?_
    rw [faultAt_sign_iff hsign]
    refine iff_of_false ?_ nofun
    rintro ⟨hnone, -⟩
    obtain ⟨d, hd, hclass⟩ := hnext
    obtain ⟨hdigit, hlower⟩ := hnone d hd
    rw [hdigit, hlower] at hclass
    exact hclass.elim nofun nofun

/-- A sign without a body is at fault. -/
private theorem reports_lone_sign (hne : t.lexemes ≠ []) (hbody : t.bodyLexemes = [])
    (hrest : ∀ c ∈ rest.head?, isSign c = true) :
    Reports before t.chars rest (t.read before.length) := by
  obtain ⟨sign, digits, powers⟩ := t
  obtain ⟨rfl, rfl⟩ : digits = [] ∧ powers = [] := by
    cases digits with
    | cons d digits => contradiction
    | nil =>
      cases powers with
      | cons p powers => contradiction
      | nil => exact ⟨rfl, rfl⟩
  cases sign with
  | none => contradiction
  | some negative =>
    obtain ⟨c, hc, hsign, -⟩ := exists_signChars_eq negative
    have hchars : chars ⟨some negative, [], []⟩ = [c] := by
      rw [chars, hc]
      rfl
    have hread : read before.length ⟨some negative, [], []⟩ =
        .error (.malformed (before.length + 1) .loneSign) := by
      cases negative with
      | false => rfl
      | true => rfl
    rw [hchars, hread]
    refine .singleton fun e => ?_
    rw [faultAt_sign_iff hsign, Except.error.injEq, eq_comm (a := e), and_iff_right]
    exact fun d hd => not_digit_letter_of_isSign (hrest d hd)

/-- What stands before a coefficient: nothing or its sign. -/
private theorem getLast?_append_signChars (hbefore : t.sign = none → before = []) :
    (∀ c ∈ (before ++ signChars t.sign).getLast?, isSign c = true) ∧
      decide ((before ++ signChars t.sign).getLast? = some '-') = t.sign.getD false := by
  cases hsign : t.sign with
  | none =>
    rw [hbefore hsign]
    exact ⟨nofun, rfl⟩
  | some negative =>
    obtain ⟨c, hc, hc', hminus⟩ := exists_signChars_eq negative
    rw [hc, List.getLast?_concat, Option.getD_some, ← hminus]
    exact ⟨fun d hd => Option.some.inj hd ▸ hc', decide_eq_decide.2 Option.some_inj⟩

/-- The coefficient of a term is at fault when it is written and out of range with its sign. -/
private theorem reports_coefficient (ht : t.Lexical) (hbefore : t.sign = none → before = [])
    (hrest : ∀ c ∈ rest.head?, c.isDigit = false) :
    Reports (before ++ signChars t.sign) t.digits rest
      (Coefficient.checked .coefficient t.coefficient) := by
  obtain ⟨hplace, hminus⟩ := getLast?_append_signChars hbefore
  cases hdigits : t.digits with
  | nil =>
    obtain ⟨c, hc⟩ : ∃ c, Coefficient.checked .coefficient t.coefficient = .ok c := by
      rw [coefficient, if_pos hdigits]
      cases t.sign.getD false with
      | false => exact ⟨1, Coefficient.checked_eq_ok_iff.2 rfl⟩
      | true => exact ⟨-1, Coefficient.checked_eq_ok_iff.2 rfl⟩
    rw [hc]
    exact .nil c
  | cons d digits =>
    have hall := ht.digit
    rw [hdigits] at hall
    obtain ⟨hd, htail⟩ := List.forall_mem_cons.1 hall
    refine .numeral hd htail fun e => ?_
    rw [List.cons_append, faultAt_digit_iff hd, ← List.cons_append,
      leadingNumber_append hall hrest, hminus, Coefficient.checked_eq_error_iff, coefficient,
      if_neg (by rw [hdigits]; exact List.cons_ne_nil d digits), hdigits]
    constructor
    · rintro (⟨-, h⟩ | ⟨⟨x, hx, hletter⟩, -⟩)
      · exact h
      · have hsign := hplace x hx
        rw [isSign_eq_false_of_isLower hletter] at hsign
        contradiction
    · exact fun h => .inl ⟨hplace, h⟩

/-- No letter is used before the first one of a term. -/
private theorem notMem_sinceSign {x : Char} (ht : t.Lexical)
    (hbefore : t.sign = none → before = []) (hx : x.isLower = true) :
    x ∉ sinceSign (before ++ signChars t.sign ++ t.digits) := by
  have hsign : sinceSign (before ++ signChars t.sign) = [] := by
    cases hsign : t.sign with
    | none =>
      rw [hbefore hsign]
      rfl
    | some negative =>
      obtain ⟨c, hc, hc', -⟩ := exists_signChars_eq negative
      rw [hc, sinceSign_concat_sign hc']
  rw [sinceSign_append fun d hd => isSign_eq_false_of_isDigit (ht.digit d hd), hsign,
    List.nil_append]
  exact notMem_digits ht.digit hx

/-- Reading a term reports the first fault. -/
theorem reports_read (ht : t.Lexical) (hne : t.lexemes ≠ [])
    (hbefore : t.sign = none → before = []) (hrest : ∀ c ∈ rest.head?, isSign c = true) :
    Reports before t.chars rest (t.read before.length) := by
  by_cases hbody : t.bodyLexemes = []
  · exact reports_lone_sign hne hbody hrest
  · have hletter : ∀ p ∈ t.powers, p.letter.isLower = true := fun p hp => (ht.power p hp).letter
    have hread : t.read before.length = (.ok () : Except Error Unit) >>= fun _ =>
        Coefficient.checked .coefficient t.coefficient >>= fun c =>
          WrittenPower.readAll .empty (before ++ signChars t.sign ++ t.digits).length t.powers >>=
            Term.ofPowers c := by
      rw [read]
      simp only [if_neg hbody, List.length_append, Nat.add_assoc]
      rfl
    have hdigit : ∀ c ∈ rest.head?, c.isDigit = false := fun c hc =>
      (not_digit_letter_of_isSign (hrest c hc)).1
    have hnext := WrittenPower.head?_append_noDigit ht.power hdigit
    have hused : ∀ x, x.isLower = true → (LetterSet.empty.contains x = true ↔
        x ∈ sinceSign (before ++ signChars t.sign ++ t.digits)) := fun x hx =>
      iff_of_false (Bool.eq_false_iff.1 (LetterSet.contains_empty x))
        (notMem_sinceSign ht hbefore hx)
    have hpowers := WrittenPower.reports_readAll ht.power hdigit hused
    rw [hread]
    refine (reports_sign ht hbody).bind fun _ _ => (reports_coefficient ht hbefore hnext).bind
      fun c _ => hpowers.bind_ok fun powers hok => ?_
    obtain ⟨-, hdistinct, hreadAs⟩ := (WrittenPower.readAll_eq_ok_iff hletter).1 hok
    exact WrittenPower.exists_ofPowers_eq_ok hletter hdistinct hreadAs c

/-- Reading all terms reports the first fault. -/
theorem reports_readAll (hts : Separated ts)
    (hbefore : before = [] ∨ ∀ t ∈ ts, t.sign.isSome = true) :
    Reports before (ts.flatMap chars) [] (readAll before.length ts) := by
  induction ts generalizing before with
  | nil => exact .nil []
  | cons t ts ih =>
    obtain ⟨ht, hne, htail, hsigned⟩ := separated_cons_iff.1 hts
    have hsign : t.sign = none → before = [] := by
      intro hnone
      rcases hbefore with hbefore | hbefore
      · exact hbefore
      · have hsome := hbefore t (.head ts)
        rw [hnone] at hsome
        contradiction
    have hnext : ∀ c ∈ (ts.flatMap chars ++ []).head?, isSign c = true := by
      cases ts with
      | nil => exact nofun
      | cons u ts =>
        obtain ⟨negative, hu⟩ := Option.isSome_iff_exists.1 (hsigned u (.head ts))
        obtain ⟨c, hc, hc', -⟩ := exists_signChars_eq negative
        rw [List.flatMap_cons, chars, hu, hc]
        intro d hd
        exact Option.some.inj hd ▸ hc'
    have hrest : Reports (before ++ t.chars) (ts.flatMap chars) []
        (readAll (before ++ t.chars).length ts) := ih htail (.inr hsigned)
    rw [List.length_append] at hrest
    exact (reports_read ht hne hsign hnext).bind fun _ _ => hrest.bind_ok fun _ _ => ⟨_, rfl⟩

end WrittenTerm

end

/-! ### Texts -/

namespace Polynomial

variable {s : String} {before rest : List Char} {c : Char} {e : Error}

/-- A text is refused for its first foreign character, whatever else is wrong with it. -/
theorem ofText_of_foreign (htext : s.toList = before ++ c :: rest)
    (hbefore : ∀ b ∈ before, ¬ IsForeign b) (hc : IsForeign c) :
    ofText s = .error (.malformed before.length (.unexpectedCharacter c)) :=
  bind_eq_error_iff.2 <| .inl <| Token.scan_eq_error_iff.2
    ⟨before, c, rest, htext, hbefore, hc, rfl⟩

/-- Apart from the sums of like terms, a text without foreign characters is refused exactly for its
first fault. -/
theorem exists_ofText_eq_bind (hforeign : ∀ c ∈ s.toList, ¬ IsForeign c) (hne : s.toList ≠ []) :
    ∃ outcome, ofText s = outcome >>= ofTerms ∧
      ∀ e, FirstFault [] s.toList e ↔ outcome = .error e := by
  obtain ⟨tokens, hscan⟩ := Token.exists_scan_eq_ok_iff.2 hforeign
  obtain ⟨ts, hts, htext, -⟩ := Token.scan_eq_ok_iff_separated.1 hscan
  have htsne : ts ≠ [] := by
    rintro rfl
    exact hne htext
  have hreports := WrittenTerm.reports_readAll hts (.inl rfl)
  rw [← htext] at hreports
  refine ⟨WrittenTerm.readAll 0 ts, ofText_eq_readAll hts htsne htext, fun e => ?_⟩
  have hfirst := hreports e
  rw [List.append_nil] at hfirst
  refine hfirst.trans (or_iff_left ?_)
  rintro ⟨us, -, hend⟩
  exact not_firstFault_nil hend

/-- A text without foreign characters is refused for its first fault. -/
theorem ofText_of_firstFault (hforeign : ∀ c ∈ s.toList, ¬ IsForeign c)
    (h : FirstFault [] s.toList e) : ofText s = .error e := by
  have hne : s.toList ≠ [] := by
    intro hnil
    rw [hnil] at h
    exact not_firstFault_nil h
  obtain ⟨outcome, houtcome, hfirst⟩ := exists_ofText_eq_bind hforeign hne
  rw [houtcome, (hfirst e).1 h]
  rfl

/-- A text without foreign characters that is refused has a first fault, or sums of like terms out
of range and no fault at all. -/
theorem firstFault_of_ofText (hforeign : ∀ c ∈ s.toList, ¬ IsForeign c) (hne : s.toList ≠ [])
    (h : ofText s = .error e) :
    FirstFault [] s.toList e ∨
      (∀ i e', ¬ FaultAt (s.toList.take i) (s.toList.drop i) e') ∧
        e = .overflow .coefficientSum := by
  obtain ⟨outcome, houtcome, hfirst⟩ := exists_ofText_eq_bind hforeign hne
  rw [houtcome] at h
  rcases bind_eq_error_iff.1 h with herror | ⟨us, hus, hsum⟩
  · exact .inl ((hfirst e).2 herror)
  · refine .inr ⟨fun i e' hfault => ?_, (ofTerms_eq_error hsum).1⟩
    have hsome : ∃ i e', FaultAt ([] ++ s.toList.take i) (s.toList.drop i) e' := ⟨i, e', hfault⟩
    obtain ⟨e'', he''⟩ := exists_firstFault_iff.2 hsome
    have herror := (hfirst e'').1 he''
    rw [hus] at herror
    contradiction

theorem ofText_of_toList_eq_nil (h : s.toList = []) :
    ofText s = .error (.malformed 0 .emptyText) := by
  rw [ofText, h]
  rfl

/-- The kinds of error that a text can be refused with. -/
theorem ofText_eq_error_cases (h : ofText s = .error e) :
    (∃ n c, e = .malformed n (.unexpectedCharacter c)) ∨ e = .malformed 0 .emptyText ∨
      ((∀ c ∈ s.toList, ¬ IsForeign c) ∧
        ∃ before rest, s.toList = before ++ rest ∧ FaultAt before rest e) ∨
      e = .overflow .coefficientSum := by
  cases hscan : Token.scan s.toList with
  | error e' =>
    obtain ⟨before, c, rest, -, -, -, rfl⟩ := Token.scan_eq_error_iff.1 hscan
    rw [ofText, hscan] at h
    exact .inl ⟨before.length, c, (Except.error.inj h).symm⟩
  | ok tokens =>
    have hforeign := Token.exists_scan_eq_ok_iff.1 ⟨tokens, hscan⟩
    by_cases hnil : s.toList = []
    · rw [ofText_of_toList_eq_nil hnil] at h
      exact .inr (.inl (Except.error.inj h).symm)
    · rcases firstFault_of_ofText hforeign hnil h with ⟨i, hi, -⟩ | ⟨-, hsum⟩
      · exact .inr (.inr (.inl ⟨hforeign, _, _, (List.take_append_drop i _).symm, hi⟩))
      · exact .inr (.inr (.inr hsum))

/-- What a lone sign lacks is missed at the end of the text or at a further sign. -/
theorem getElem?_of_ofText_loneSign {n : Nat} (h : ofText s = .error (.malformed n .loneSign)) :
    n = s.toList.length ∨ ∃ c, s.toList[n]? = some c ∧ isSign c = true := by
  rcases ofText_eq_error_cases h with ⟨_, _, h⟩ | h | ⟨hforeign, before, rest, htext, hfault⟩ | h
  · cases h
  · cases h
  · cases hfault with
    | @loneSign c rest hsign hnext =>
      have hlength : (before ++ [c]).length = before.length + 1 := List.length_append
      rw [htext, List.append_cons, ← hlength]
      cases rest with
      | nil => exact .inl (by rw [List.append_nil])
      | cons d rest =>
        obtain ⟨hdigit, hlower⟩ := hnext d rfl
        have hmem : d ∈ s.toList := by
          rw [htext]
          exact List.mem_append_right before (.tail c (.head rest))
        refine .inr ⟨d, List.getElem?_append_right (le_refl _) |>.trans ?_, ?_⟩
        · rw [Nat.sub_self]
          rfl
        · exact isSign_of_not_isForeign (hforeign d hmem) hdigit hlower
  · cases h

/-- No text is refused for a variable that is no letter. -/
theorem ofText_ne_invalidSymbol (s : String) (x : Char) : ofText s ≠ .error (.invalidSymbol x) := by
  intro h
  rcases ofText_eq_error_cases h with ⟨_, _, h⟩ | h | ⟨-, before, rest, -, hfault⟩ | h
  · cases h
  · cases h
  · cases hfault
  · cases h

/-- The first error of a text wins. A text with a foreign character is refused for the first of
these, whatever else is wrong with it. Otherwise the empty text is refused as empty, and any other
text for its first fault, which for a lone sign is reported where the text ends or the next sign
stands. Only a text without a fault is refused for the sums of its coefficients, and none for a
variable that is no letter. -/
theorem ofText_first_fault (s : String) :
    (∀ before c rest, s.toList = before ++ c :: rest → (∀ b ∈ before, ¬ IsForeign b) →
      IsForeign c → ofText s = .error (.malformed before.length (.unexpectedCharacter c))) ∧
    (s.toList = [] → ofText s = .error (.malformed 0 .emptyText)) ∧
    ((∀ c ∈ s.toList, ¬ IsForeign c) → s.toList ≠ [] →
      (∀ e, FirstFault [] s.toList e → ofText s = .error e) ∧
      ∀ e, ofText s = .error e → FirstFault [] s.toList e ∨
        (∀ i e', ¬ FaultAt (s.toList.take i) (s.toList.drop i) e') ∧
          e = .overflow .coefficientSum) ∧
    (∀ n, ofText s = .error (.malformed n .loneSign) →
      n = s.toList.length ∨ ∃ c, s.toList[n]? = some c ∧ isSign c = true) ∧
    (∀ x, ofText s ≠ .error (.invalidSymbol x)) ∧
    Fault.emptyText.reason = "empty input" ∧
    (∀ c, (Fault.unexpectedCharacter c).reason = s!"unexpected character `{c}`") ∧
    (∀ x, (Fault.repeatedLetter x).reason = s!"variable `{x}` occurs more than once in a term") ∧
    Fault.loneSign.reason = "expected a coefficient or a variable" ∧
    Overflow.coefficient.description = "coefficient exceeds i64" ∧
    Overflow.degree.description = "degree exceeds u32" ∧
    Overflow.coefficientSum.description = "coefficient sum exceeds i64" :=
  ⟨fun _ _ _ => ofText_of_foreign, ofText_of_toList_eq_nil,
    fun hforeign hne =>
      ⟨fun _ => ofText_of_firstFault hforeign, fun _ => firstFault_of_ofText hforeign hne⟩,
    fun _ => getElem?_of_ofText_loneSign, ofText_ne_invalidSymbol s,
    rfl, fun _ => rfl, fun _ => rfl, rfl, rfl, rfl, rfl⟩

/-- A degree out of range, a repeated letter and a lone sign: the degree comes first. A foreign
character at the end comes before all of them. -/
theorem ofText_first_fault_coexisting :
    FaultAt "3x".toList "4294967296x+-y".toList (.overflow .degree) ∧
      FaultAt "3x4294967296".toList "x+-y".toList (.malformed 12 (.repeatedLetter 'x')) ∧
      FaultAt "3x4294967296x".toList "+-y".toList (.malformed 14 .loneSign) ∧
      ofText "3x4294967296x+-y" = .error (.overflow .degree) ∧
      FirstFault [] "3x4294967296x+-y".toList (.overflow .degree) ∧
      ofText "3x4294967296x+-yé" = .error (.malformed 16 (.unexpectedCharacter 'é')) := by
  have hdegree : ofText "3x4294967296x+-y" = .error (.overflow .degree) := by decide +kernel
  have hforeign : ∀ c ∈ "3x4294967296x+-y".toList, ¬ IsForeign c :=
    Token.exists_scan_eq_ok_iff.1 ⟨_, rfl⟩
  have hnext : ∀ d ∈ some '-', d.isDigit = false ∧ d.isLower = false := fun d hd =>
    Option.some.inj hd ▸ ⟨rfl, rfl⟩
  obtain ⟨-, -, hfaults, -⟩ := ofText_first_fault "3x4294967296x+-y"
  obtain ⟨hlater, -⟩ := ofText_first_fault "3x4294967296x+-yé"
  refine ⟨.degree (x := 'x') rfl rfl (by decide), .repeatedLetter rfl (by decide),
    .loneSign rfl hnext, hdegree, ?_, hlater _ 'é' [] (by decide) hforeign (by decide)⟩
  rcases (hfaults hforeign (by decide)).2 _ hdegree with hfirst | ⟨-, hsum⟩
  · exact hfirst
  · cases hsum

end Polynomial

end SparsePoly

import SparsePoly.Proofs.Language
import SparsePoly.Text.Written

/-!
# What is written is read again

The written form leaves out what goes without saying, and nothing separates its parts. It is
nevertheless a text of the grammar: `Power.toWritten` and `Term.toWritten` say which parts of it
are the letters, the numerals and the signs. These stand for the polynomial that was written, so
reading yields a canonical polynomial with the same meaning, which can only be the one that was
written.

* `Term.meaning_toWritten`: the parts of a written term stand for the term.
* `Polynomial.writes_written`: the written form of a polynomial is a text of the grammar.
* `Polynomial.ofText_toString`: it is read as that polynomial.
-/

namespace SparsePoly

namespace Power

/-- The parts of a power in its written form. -/
def toWritten (p : Power) : WrittenPower :=
  ⟨p.symbol, if p.degree = 1 then [] else Nat.toDigits 10 p.degree.toNat⟩

variable {p : Power}

theorem chars_toWritten (hp : p.degree ≠ 0) : p.toWritten.chars = p.written := by
  rw [written, if_neg hp, toWritten, WrittenPower.chars]
  split
  · rfl
  · rfl

theorem degree_toWritten (p : Power) : p.toWritten.degree = p.degree.toNat := by
  rw [toWritten, WrittenPower.degree]
  by_cases hone : p.degree = 1
  · simp only [if_pos hone]
    rw [hone]
    rfl
  · simp only [if_neg hone]
    rw [if_neg Nat.toDigits_ne_nil, Nat.ofDigitChars_ten_toDigits]

theorem exponent_toWritten (p : Power) : p.toWritten.exponent = p.exponent := by
  rw [WrittenPower.exponent, degree_toWritten]
  rfl

theorem lexical_toWritten (hp : p.symbol.isLower = true) : p.toWritten.Lexical := by
  refine ⟨hp, fun d hd => ?_⟩
  rw [toWritten] at hd
  split at hd
  · contradiction
  · exact Nat.isDigit_of_mem_toDigits (by decide) (by decide) hd

end Power

namespace Term

/-- The sign of a term at the beginning of a text. -/
def leadingSign (t : Term) : Option Bool := if t.coefficient.toInt < 0 then some true else none

/-- The sign of a term that follows another. -/
def separatingSign (t : Term) : Option Bool := some (decide (t.coefficient.toInt < 0))

/-- The digits of the coefficient in the written form of a term. -/
def writtenDigits (t : Term) : List Char :=
  if t.coefficient.toInt.natAbs = 1 ∧ t.monomial ≠ [] then []
  else Nat.toDigits 10 t.coefficient.toInt.natAbs

/-- The parts of a term in its written form, under a sign. -/
def toWritten (sign : Option Bool) (t : Term) : WrittenTerm :=
  ⟨sign, t.writtenDigits, t.monomial.map Power.toWritten⟩

variable {t : Term} {sign : Option Bool}

/-! ### The text of a term -/

theorem chars_toWritten (ht : t.WellFormed) :
    (t.toWritten sign).chars =
      WrittenTerm.signChars sign ++ (t.writtenDigits ++ t.monomial.flatMap Power.written) := by
  have hpowers : (t.monomial.map Power.toWritten).flatMap WrittenPower.chars =
      t.monomial.flatMap Power.written := by
    rw [List.flatMap_map]
    exact List.flatMap_congr fun p hp => Power.chars_toWritten (ht.positive p hp)
  rw [WrittenTerm.chars, toWritten, hpowers]

private theorem written_coefficient (t : Term) :
    t.coefficient.written =
      WrittenTerm.signChars t.leadingSign ++ Nat.toDigits 10 t.coefficient.toInt.natAbs := by
  rw [Coefficient.written, leadingSign]
  split
  · rfl
  · rfl

/-- The written form of a term is its sign, its digits and its powers. -/
theorem written_eq_append (t : Term) :
    t.written = WrittenTerm.signChars t.leadingSign ++
      (t.writtenDigits ++ t.monomial.flatMap Power.written) := by
  have hcoefficient := written_coefficient t
  obtain ⟨c, m⟩ := t
  cases m with
  | nil =>
    rw [writtenDigits, if_neg fun h => h.2 rfl, List.flatMap_nil, List.append_nil]
    exact hcoefficient
  | cons p m =>
    by_cases hone : c = 1
    · subst hone
      rfl
    · by_cases hminus : c = -1
      · subst hminus
        rfl
      · -- otherwise the coefficient is written out before the letters
        have hmagnitude : c.toInt.natAbs ≠ 1 := by
          intro h
          rcases Int.natAbs_eq c.toInt with hc | hc
          · exact hone (Int64.toInt_inj.1 (by rw [hc, h]; rfl))
          · exact hminus (Int64.toInt_inj.1 (by rw [hc, h]; rfl))
        have hwritten : written ⟨c, p :: m⟩ = c.written ++ (p :: m).flatMap Power.written := by
          have hconstant : isConstant ⟨c, p :: m⟩ = false := rfl
          rw [written, hconstant, if_neg Bool.false_ne_true, if_neg hone, if_neg hminus]
        rw [hwritten, hcoefficient, List.append_assoc, writtenDigits,
          if_neg fun h => hmagnitude h.1]

/-- At the beginning of a text the written form of a term is that of its parts. -/
theorem chars_toWritten_leading (ht : t.WellFormed) :
    (t.toWritten t.leadingSign).chars = t.written := by
  rw [chars_toWritten ht, written_eq_append]

/-- After another term the written form of a term is that of its parts, where the sign is there in
any case. -/
theorem chars_toWritten_separating (ht : t.WellFormed) (hc : t.coefficient ≠ 0) :
    (t.toWritten t.separatingSign).chars = t.writtenAfter := by
  rw [chars_toWritten ht, writtenAfter, written_eq_append]
  have hzero : t.coefficient.toInt ≠ 0 := fun h => hc (Int64.toInt_inj.1 h)
  by_cases hpos : 0 < t.coefficient.toInt
  · have hneg : ¬ t.coefficient.toInt < 0 := by omega
    rw [if_pos hpos, separatingSign, leadingSign, decide_eq_false hneg, if_neg hneg]
    rfl
  · have hneg : t.coefficient.toInt < 0 := by omega
    rw [if_neg hpos, separatingSign, leadingSign, decide_eq_true hneg, if_pos hneg]

/-! ### The meaning of a term -/

private theorem isDigit_of_mem_writtenDigits {d : Char} (hd : d ∈ t.writtenDigits) :
    d.isDigit = true := by
  rw [writtenDigits] at hd
  split at hd
  · contradiction
  · exact Nat.isDigit_of_mem_toDigits (by decide) (by decide) hd

/-- The parts of a term in its written form are a term of the grammar. -/
theorem wellFormed_toWritten (ht : t.WellFormed) (sign : Option Bool) :
    (t.toWritten sign).WellFormed := by
  refine ⟨⟨fun d hd => isDigit_of_mem_writtenDigits hd, fun p hp => ?_⟩, ?_, ?_⟩
  · obtain ⟨q, hq, rfl⟩ := List.mem_map.1 hp
    exact Power.lexical_toWritten (ht.letter q hq)
  · by_cases hconstant : t.monomial = []
    · left
      rw [toWritten, writtenDigits, if_neg fun h => h.2 hconstant]
      exact Nat.toDigits_ne_nil
    · right
      exact fun hnil => hconstant (List.map_eq_nil_iff.1 hnil)
  · have hletters : (t.toWritten sign).powers.map WrittenPower.letter =
        t.monomial.map Power.symbol := List.map_map
    rw [hletters]
    exact List.pairwise_map.2 (ht.ascending.imp fun h => Char.ne_of_lt h)

/-- Under its own sign the coefficient of a term is the one that is written. -/
theorem coefficient_toWritten (t : Term)
    (hsign : sign.getD false = decide (t.coefficient.toInt < 0)) :
    (t.toWritten sign).coefficient = t.coefficient.toInt := by
  -- digits are left out only for the magnitude one, which is what missing digits count as
  have hmagnitude : (if t.writtenDigits = [] then 1 else Nat.ofDigitChars 10 t.writtenDigits 0) =
      t.coefficient.toInt.natAbs := by
    rw [writtenDigits]
    by_cases hone : t.coefficient.toInt.natAbs = 1 ∧ t.monomial ≠ []
    · rw [if_pos hone, if_pos rfl, hone.1]
    · rw [if_neg hone, if_neg Nat.toDigits_ne_nil, Nat.ofDigitChars_ten_toDigits]
  rw [WrittenTerm.coefficient, toWritten, hsign, hmagnitude, signed_natAbs]

/-- The parts of a term in its written form are in range. -/
theorem inRange_toWritten (t : Term)
    (hsign : sign.getD false = decide (t.coefficient.toInt < 0)) :
    (t.toWritten sign).InRange := by
  refine ⟨?_, fun p hp => ?_⟩
  · rw [coefficient_toWritten t hsign]
    exact Coefficient.fits_toInt t.coefficient
  · obtain ⟨q, -, rfl⟩ := List.mem_map.1 hp
    rw [Power.degree_toWritten]
    exact q.degree.toNat_lt

/-- The parts of a term in its written form stand for the term. -/
theorem meaning_toWritten (t : Term)
    (hsign : sign.getD false = decide (t.coefficient.toInt < 0)) :
    (t.toWritten sign).meaning = t.meaning := by
  have hexponents : (t.toWritten sign).exponents = t.monomial.exponents := by
    have hpowers : WrittenPower.exponent ∘ Power.toWritten = Power.exponent :=
      funext Power.exponent_toWritten
    rw [WrittenTerm.exponents, toWritten, List.map_map, hpowers]
    rfl
  rw [WrittenTerm.meaning, coefficient_toWritten t hsign, hexponents]
  rfl

theorem getD_leadingSign (t : Term) :
    t.leadingSign.getD false = decide (t.coefficient.toInt < 0) := by
  rw [leadingSign]
  split
  · next h => exact (decide_eq_true h).symm
  · next h => exact (decide_eq_false h).symm

end Term

namespace Polynomial

/-- The terms of a polynomial in its written form. The polynomial without terms is written as the
numeral zero. -/
def toWritten (p : Polynomial) : List WrittenTerm :=
  match p.terms with
  | [] => [⟨none, ['0'], []⟩]
  | t :: ts => t.toWritten t.leadingSign :: ts.map fun u => u.toWritten u.separatingSign

variable {p : Polynomial}

/-- The written form of a canonical polynomial is a text of the grammar. -/
theorem writes_written (hp : p.Canonical) : Writes p.toWritten p.written := by
  obtain ⟨terms⟩ := p
  cases terms with
  | nil => decide
  | cons t ts =>
    obtain ⟨ht, -, -, hts⟩ := canonical_cons_iff.1 hp
    refine ⟨List.cons_ne_nil _ _, List.forall_mem_cons.2 ⟨?_, fun u hu => ?_⟩, fun u hu => ?_, ?_⟩
    · exact Term.wellFormed_toWritten ht _
    · obtain ⟨v, hv, rfl⟩ := List.mem_map.1 hu
      exact Term.wellFormed_toWritten (hts.wellFormed v hv) _
    · obtain ⟨v, hv, rfl⟩ := List.mem_map.1 hu
      rfl
    · have hbehind : (ts.map fun u => u.toWritten u.separatingSign).flatMap WrittenTerm.chars =
          ts.flatMap Term.writtenAfter := by
        rw [List.flatMap_map]
        exact List.flatMap_congr fun u hu =>
          Term.chars_toWritten_separating (hts.wellFormed u hu) (hts.nonzero u hu)
      rw [toWritten, List.flatMap_cons, Term.chars_toWritten_leading ht, hbehind]
      rfl

example :
    written ⟨[⟨1, [⟨'x', 12⟩, ⟨'y', 1⟩]⟩, ⟨-1, [⟨'x', 1⟩]⟩, ⟨1, []⟩]⟩ = "x12y-x+1".toList := by
  decide

/-- The numerals in the written form of a polynomial are in range. -/
theorem inRange_toWritten (p : Polynomial) : ∀ t ∈ p.toWritten, t.InRange := by
  obtain ⟨terms⟩ := p
  cases terms with
  | nil => exact List.forall_mem_cons.2 ⟨⟨by decide, nofun⟩, nofun⟩
  | cons t ts =>
    refine List.forall_mem_cons.2 ⟨Term.inRange_toWritten t t.getD_leadingSign, fun u hu => ?_⟩
    obtain ⟨v, -, rfl⟩ := List.mem_map.1 hu
    exact Term.inRange_toWritten v rfl

/-- The written form of a polynomial stands for the polynomial. -/
theorem meaning_toWritten (p : Polynomial) :
    (p.toWritten.map WrittenTerm.meaning).sum = p.meaning := by
  obtain ⟨terms⟩ := p
  cases terms with
  | nil =>
    have hzero : WrittenTerm.meaning ⟨none, ['0'], []⟩ = 0 := map_zero _
    rw [toWritten, List.map_singleton, List.sum_singleton, hzero, meaning_nil]
  | cons t ts =>
    have hbehind : (ts.map fun u => u.toWritten u.separatingSign).map WrittenTerm.meaning =
        ts.map Term.meaning := by
      rw [List.map_map]
      exact List.map_congr_left fun u _ => Term.meaning_toWritten u rfl
    rw [toWritten, List.map_cons, List.sum_cons, Term.meaning_toWritten t t.getD_leadingSign,
      hbehind, meaning_cons]
    rfl

/-- The written form of a canonical polynomial is read as that polynomial. -/
theorem ofText_of_toList_eq_written {text : String} (hp : p.Canonical)
    (htext : text.toList = p.written) : ofText text = .ok p := by
  have hwrites : Writes p.toWritten text.toList := by
    rw [htext]
    exact writes_written hp
  exact (ofText_eq_ok_iff hwrites).2 ⟨inRange_toWritten p, hp, (meaning_toWritten p).symm⟩

/-- A canonical polynomial that is written and read again is the same. -/
theorem ofText_toString (hp : p.Canonical) : ofText (toString p) = .ok p :=
  ofText_of_toList_eq_written hp String.toList_ofList

/-- The round trip at the ends of the ranges: the least coefficient, both units and the highest
degree. -/
theorem ofText_toString_at_limits :
    let p : Polynomial := ⟨[⟨-9223372036854775808, [⟨'a', 4294967295⟩, ⟨'b', 1⟩]⟩,
      ⟨1, [⟨'a', 2⟩]⟩, ⟨-1, [⟨'z', 1⟩]⟩, ⟨9223372036854775807, []⟩]⟩
    p.Canonical ∧
      toString p = "-9223372036854775808a4294967295b+a2-z+9223372036854775807" ∧
      ofText (toString p) = .ok p := by
  intro p
  have hp : p.Canonical := by decide
  have hwritten : toString p =
      "-9223372036854775808a4294967295b+a2-z+9223372036854775807" := by cbv
  exact ⟨hp, hwritten, ofText_toString hp⟩

end Polynomial

end SparsePoly

import Mathlib.Algebra.MvPolynomial.Eval
import SparsePoly.Expression
import SparsePoly.Value
import SparsePoly.Proofs.Exact
import SparsePoly.Proofs.Fields
import SparsePoly.Proofs.Language
import SparsePoly.Proofs.Product

/-!
# The value of an expression line

An expression line is read in many steps: the line is cut into fields, these into tokens, tokens are
put together to terms, like terms are added up, and then two polynomials are merged or multiplied.
Every step keeps the value, under any assignment of integers to the letters, since every step is
explained by the meaning of polynomials and values are those of the meaning.

* `Polynomial.eval_meaning`, `WrittenTerm.eval_meaning`: values are those of the meaning.
* `Operator.apply_eq_ok`: the operators keep polynomials canonical and compute with values.
* `evaluateLine_eq_ok_iff`: the lines that have a result.
* `value_evaluateLine`: the value of the result, from the text of the line.
-/

namespace SparsePoly

open MvPolynomial (eval)

variable {v : Assignment}

/-! ### Values of polynomials -/

/-- A product of powers has the value of its exponents, powers of the same letter together. -/
private theorem prod_sum_single {α : Type} (v : Assignment) (symbol : α → Char) (degree : α → Nat)
    (powers : List α) :
    ((powers.map fun p => Finsupp.single (symbol p) (degree p)).sum.prod fun x n => v x ^ n) =
      (powers.map fun p => v (symbol p) ^ degree p).prod := by
  induction powers with
  | nil => exact Finsupp.prod_zero_index
  | cons p powers ih =>
    have hsingle : ((Finsupp.single (symbol p) (degree p)).prod fun x n => v x ^ n) =
        v (symbol p) ^ degree p := Finsupp.prod_single_index (pow_zero _)
    rw [List.map_cons, List.sum_cons, Finsupp.prod_add_index' (fun x => pow_zero (v x))
      fun x => pow_add (v x), ih, hsingle, List.map_cons, List.prod_cons]

/-- The value of a term is that of its meaning. -/
theorem Term.eval_meaning (v : Assignment) (t : Term) : eval v t.meaning = t.value v := by
  rw [meaning, MvPolynomial.eval_monomial]
  exact congrArg (t.coefficient.toInt * ·)
    (prod_sum_single v Power.symbol (fun p => p.degree.toNat) t.monomial)

/-- The value of a polynomial is that of its meaning. -/
theorem Polynomial.eval_meaning (v : Assignment) (p : Polynomial) :
    eval v p.meaning = p.value v := by
  rw [meaning, map_list_sum, List.map_map, value]
  exact congrArg List.sum (List.map_congr_left fun t _ => Term.eval_meaning v t)

/-! ### Values of texts -/

namespace WrittenTerm

/-- The value that a written term has: its signed coefficient times the product of its letters,
each raised to its written degree. -/
def value (v : Assignment) (t : WrittenTerm) : Int :=
  t.coefficient * (t.powers.map fun p => v p.letter ^ p.degree).prod

/-- The value of a row of written terms is the sum of their values. -/
def valueAll (v : Assignment) (ts : List WrittenTerm) : Int := (ts.map (value v)).sum

/-- The value of a written term is that of its meaning. -/
theorem eval_meaning (v : Assignment) (t : WrittenTerm) : eval v t.meaning = t.value v := by
  rw [meaning, MvPolynomial.eval_monomial]
  exact congrArg (t.coefficient * ·)
    (prod_sum_single v WrittenPower.letter WrittenPower.degree t.powers)

theorem eval_sum_meaning (v : Assignment) (ts : List WrittenTerm) :
    eval v (ts.map meaning).sum = valueAll v ts := by
  rw [map_list_sum, List.map_map, valueAll]
  exact congrArg List.sum (List.map_congr_left fun t _ => eval_meaning v t)

end WrittenTerm

/-- A text that is read as a polynomial belongs to the grammar, and the polynomial has the value
that is written. -/
theorem Polynomial.value_ofText {s : List Char} {p : Polynomial}
    (h : ofText (String.ofList s) = .ok p) :
    (∃ ts, Writes ts s) ∧ ∀ ts, Writes ts s → ∀ v, p.value v = WrittenTerm.valueAll v ts := by
  have hwrites := exists_writes_of_ofText h
  rw [String.toList_ofList] at hwrites
  refine ⟨hwrites, fun ts hts v => ?_⟩
  rw [← @String.toList_ofList s] at hts
  obtain ⟨-, -, hmeaning⟩ := (ofText_eq_ok_iff hts).1 h
  rw [← eval_meaning, hmeaning, WrittenTerm.eval_sum_meaning]

/-! ### Operators -/

namespace Operator

/-- The operation on integers. -/
def onInt : Operator → Int → Int → Int
  | add, m, n => m + n
  | sub, m, n => m - n
  | mul, m, n => m * n

variable {op : Operator} {p q r : Polynomial}

/-- An operator is named by its one character. -/
theorem ofText_eq_ok_iff {text : String} : ofText text = .ok op ↔ text.toList = [op.written] := by
  constructor
  · intro h
    unfold ofText at h
    split at h
    · next hplus =>
      cases h
      exact hplus
    · next hminus =>
      cases h
      exact hminus
    · next htimes =>
      cases h
      exact htimes
    · contradiction
  · intro h
    rw [ofText, h]
    cases op <;> rfl

/-- An operator makes a canonical polynomial of two, and computes with their values. -/
theorem apply_eq_ok (hp : p.Canonical) (hq : q.Canonical) (h : op.apply p q = .ok r) :
    r.Canonical ∧ ∀ v, r.value v = op.onInt (p.value v) (q.value v) := by
  have hvalue : ∀ v, r.value v = eval v r.meaning := fun v => (r.eval_meaning v).symm
  cases op with
  | add =>
    obtain ⟨hr, hmeaning⟩ := (Polynomial.add_eq_ok_iff hp hq).1 h
    refine ⟨hr, fun v => ?_⟩
    rw [hvalue, hmeaning, map_add, p.eval_meaning, q.eval_meaning]
    rfl
  | sub =>
    obtain ⟨hr, hmeaning⟩ := (Polynomial.sub_eq_ok_iff hp hq).1 h
    refine ⟨hr, fun v => ?_⟩
    rw [hvalue, hmeaning, map_sub, p.eval_meaning, q.eval_meaning]
    rfl
  | mul =>
    obtain ⟨hr, hmeaning⟩ := Polynomial.mul_eq_ok hp hq h
    refine ⟨hr, fun v => ?_⟩
    rw [hvalue, hmeaning, map_mul, p.eval_meaning, q.eval_meaning]
    rfl

end Operator

/-! ### Lines -/

variable {line : String} {r : Polynomial}

/-- The lines that have a result: an operator and the texts of two polynomials, of which the
operator makes the result. -/
theorem evaluateLine_eq_ok_iff :
    evaluateLine line = .ok r ↔
      ∃ (op : Operator) (s t : List Char) (p q : Polynomial),
        HasFields line.toList [[op.written], s, t] ∧
          Polynomial.ofText (String.ofList s) = .ok p ∧
          Polynomial.ofText (String.ofList t) = .ok q ∧ op.apply p q = .ok r := by
  constructor
  · intro h
    unfold evaluateLine at h
    split at h
    · next o s t hfields =>
      obtain ⟨op, hop, hrest⟩ := bind_eq_ok_iff.1 (mapError_eq_ok_iff.1 h)
      obtain ⟨p, hp, hrest⟩ := bind_eq_ok_iff.1 hrest
      obtain ⟨q, hq, hresult⟩ := bind_eq_ok_iff.1 hrest
      rw [Operator.ofText_eq_ok_iff, String.toList_ofList] at hop
      exact ⟨op, s, t, p, q, hop ▸ fields_eq_iff.1 hfields, hp, hq, hresult⟩
    · contradiction
  · rintro ⟨op, s, t, p, q, hfields, hp, hq, h⟩
    have hop : Operator.ofText (String.ofList [op.written]) = .ok op :=
      Operator.ofText_eq_ok_iff.2 String.toList_ofList
    rw [evaluateLine, fields_eq_iff.2 hfields]
    exact mapError_eq_ok_iff.2 (bind_eq_ok_iff.2 ⟨op, hop, bind_eq_ok_iff.2 ⟨p, hp,
      bind_eq_ok_iff.2 ⟨q, hq, h⟩⟩⟩)

/-- The result of a line is canonical. -/
theorem canonical_evaluateLine (h : evaluateLine line = .ok r) : r.Canonical := by
  obtain ⟨op, s, t, p, q, -, hp, hq, h⟩ := evaluateLine_eq_ok_iff.1 h
  exact (op.apply_eq_ok (Polynomial.canonical_ofText hp) (Polynomial.canonical_ofText hq) h).1

/-- A line that has a result holds exactly three fields: an operator and two texts of the grammar.
Under every assignment of integers to the letters, the value of the result is what the operator
makes of the values that the two texts write. -/
theorem value_evaluateLine (h : evaluateLine line = .ok r) :
    ∃ (op : Operator) (s t : List Char),
      HasFields line.toList [[op.written], s, t] ∧
      (∃ ss, Writes ss s) ∧ (∃ ts, Writes ts t) ∧
      ∀ ss ts, Writes ss s → Writes ts t → ∀ v : Assignment,
        r.value v = op.onInt (WrittenTerm.valueAll v ss) (WrittenTerm.valueAll v ts) := by
  obtain ⟨op, s, t, p, q, hfields, hp, hq, h⟩ := evaluateLine_eq_ok_iff.1 h
  obtain ⟨hss, hp'⟩ := Polynomial.value_ofText hp
  obtain ⟨hts, hq'⟩ := Polynomial.value_ofText hq
  refine ⟨op, s, t, hfields, hss, hts, fun ss ts hss hts v => ?_⟩
  have happly :=
    (op.apply_eq_ok (Polynomial.canonical_ofText hp) (Polynomial.canonical_ofText hq) h).2 v
  rw [happly, hp' ss hss v, hq' ts hts v]

/-- A product whose terms cancel, on a line with a tabulator, a no-break space and a degree zero. -/
theorem value_evaluateLine_cancelling :
    evaluateLine "* \tx-y0\u00a0x+1 " = .ok ⟨[⟨1, [⟨'x', 2⟩]⟩, ⟨-1, []⟩]⟩ ∧
      ∃ (op : Operator) (s t : List Char),
        HasFields "* \tx-y0\u00a0x+1 ".toList [[op.written], s, t] ∧
        (∃ ss, Writes ss s) ∧ (∃ ts, Writes ts t) ∧
        ∀ ss ts, Writes ss s → Writes ts t → ∀ v : Assignment,
          Polynomial.value v ⟨[⟨1, [⟨'x', 2⟩]⟩, ⟨-1, []⟩]⟩ =
            op.onInt (WrittenTerm.valueAll v ss) (WrittenTerm.valueAll v ts) := by
  have hfields : HasFields "* \tx-y0\u00a0x+1 ".toList [['*'], "x-y0".toList, "x+1".toList] :=
    fields_eq_iff.1 rfl
  have hps : (Token.scan "x-y0".toList >>= readTerms) = .ok [⟨1, [⟨'x', 1⟩]⟩, ⟨-1, []⟩] := by
    decide +kernel
  have hqs : (Token.scan "x+1".toList >>= readTerms) = .ok [⟨1, [⟨'x', 1⟩]⟩, ⟨1, []⟩] := by
    decide +kernel
  have hp : Polynomial.ofText "x-y0" = .ok ⟨[⟨1, [⟨'x', 1⟩]⟩, ⟨-1, []⟩]⟩ :=
    (Polynomial.ofText_eq_ofTerms hps).trans (by cbv)
  have hq : Polynomial.ofText "x+1" = .ok ⟨[⟨1, [⟨'x', 1⟩]⟩, ⟨1, []⟩]⟩ :=
    (Polynomial.ofText_eq_ofTerms hqs).trans (by cbv)
  have h : evaluateLine "* \tx-y0\u00a0x+1 " = .ok ⟨[⟨1, [⟨'x', 2⟩]⟩, ⟨-1, []⟩]⟩ :=
    evaluateLine_eq_ok_iff.2 ⟨.mul, _, _, _, _, hfields, hp, hq, by cbv⟩
  exact ⟨h, value_evaluateLine h⟩

end SparsePoly

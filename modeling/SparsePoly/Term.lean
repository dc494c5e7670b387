import SparsePoly.Monomial

/-!
# Terms

A term is a coefficient times a monomial. `Term.ofPowers` is the way from a coefficient and a list
of variables to a well formed term; `Term.neg` and `Term.mul` keep terms well formed. The product
of two terms may have the coefficient zero and still carry its letters, as `0x` does; only
polynomials leave such terms out.
-/

namespace SparsePoly

/-- A coefficient times a product of powers of letters. -/
structure Term where
  /-- The coefficient. -/
  coefficient : Coefficient
  /-- The product of powers. -/
  monomial : Monomial
deriving DecidableEq, Repr

namespace Term

/-- A term is well formed when its monomial is. -/
abbrev WellFormed (t : Term) : Prop := t.monomial.WellFormed

/-- The term without letters. -/
def constant (c : Coefficient) : Term := ⟨c, []⟩

@[simp] theorem coefficient_constant (c : Coefficient) : (constant c).coefficient = c := rfl

@[simp] theorem monomial_constant (c : Coefficient) : (constant c).monomial = [] := rfl

/-- Whether the coefficient is zero. -/
def isZero (t : Term) : Bool := t.coefficient == 0

/-- Whether the term has no letters. -/
def isConstant (t : Term) : Bool := t.monomial.isEmpty

/-- The degree of a letter in the term. -/
def degree (t : Term) (symbol : Char) : Degree := t.monomial.degree symbol

/-- Whether two terms are like terms, that is have the same monomial. -/
def isLike (t u : Term) : Bool := t.monomial == u.monomial

@[simp] theorem isLike_iff {t u : Term} : t.isLike u = true ↔ t.monomial = u.monomial :=
  beq_iff_eq

/-- Compares two terms by their monomials, whatever their coefficients. -/
def precedence (t u : Term) : Ordering := t.monomial.precedence u.monomial

/-- The term with the given coefficient and variables. The first variable that is not a lowercase
letter is refused, also where its degree or the coefficient is zero. The coefficient zero leaves
no letters, whatever their degrees. -/
def ofPowers (c : Coefficient) (powers : List Power) : Except Error Term :=
  match powers.find? fun p => !p.symbol.isLower with
  | some p => .error (.invalidSymbol p.symbol)
  | none => if c = 0 then .ok (constant 0) else return ⟨c, ← Monomial.ofPowers powers⟩

/-- The term with the opposite coefficient. -/
def neg (t : Term) : Except Error Term := do
  let c ← Coefficient.checked .coefficientNegation (-t.coefficient.toInt)
  return { t with coefficient := c }

/-- The product of two terms. The coefficients are multiplied first, so of two overflows theirs is
the one reported. -/
def mul (t u : Term) : Except Error Term := do
  let c ← Coefficient.checked .coefficientProduct (t.coefficient.toInt * u.coefficient.toInt)
  return ⟨c, ← t.monomial.mul u.monomial⟩

end Term

end SparsePoly

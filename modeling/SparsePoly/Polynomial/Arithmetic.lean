import SparsePoly.Polynomial.Basic

/-!
# Arithmetic of polynomials

Addition and subtraction are one merge of two descending term lists (`mergeTerms`), told apart by
what becomes of a term that only the second operand has and of two like terms. A product is the sum
of the products of each term of the first operand with the whole second operand, added up one after
another from the first term on.

Every operation fails where a coefficient or a degree leaves its range. The first failure in the
order of precedence is the one reported.
-/

namespace SparsePoly

namespace Polynomial

/-- Merges two term lists that descend in precedence. A term that only the second list has goes
through `right`, the coefficients of like terms through `both`, and where they cancel no term is
left. -/
def mergeTerms (right : Term → Except Error Term)
    (both : Coefficient → Coefficient → Except Error Coefficient) :
    List Term → List Term → Except Error (List Term)
  | [], us => us.mapM right
  | t :: ts, [] => .ok (t :: ts)
  | t :: ts, u :: us =>
    match t.precedence u with
    | .gt => do return t :: (← mergeTerms right both ts (u :: us))
    | .lt => do
      let first ← right u
      return first :: (← mergeTerms right both (t :: ts) us)
    | .eq => do
      let c ← both t.coefficient u.coefficient
      let rest ← mergeTerms right both ts us
      return if c = 0 then rest else { t with coefficient := c } :: rest
termination_by ts us => ts.length + us.length

/-- The sum of two polynomials. -/
def add (p q : Polynomial) : Except Error Polynomial := do
  let plus (c d : Coefficient) := Coefficient.checked .coefficientSum (c.toInt + d.toInt)
  return ⟨← mergeTerms pure plus p.terms q.terms⟩

/-- The difference of two polynomials. -/
def sub (p q : Polynomial) : Except Error Polynomial := do
  let minus (c d : Coefficient) := Coefficient.checked .coefficientSum (c.toInt - d.toInt)
  return ⟨← mergeTerms Term.neg minus p.terms q.terms⟩

/-- The polynomial with all coefficients negated. -/
def neg (p : Polynomial) : Except Error Polynomial :=
  return ⟨← p.terms.mapM Term.neg⟩

/-- The product of a term and a polynomial, term by term. Multiplication by a term keeps the
precedence of monomials, so the terms need no sorting. -/
def scale (t : Term) (p : Polynomial) : Except Error Polynomial :=
  return ⟨← p.terms.mapM t.mul⟩

/-- The product of two polynomials. -/
def mul (p q : Polynomial) : Except Error Polynomial :=
  p.terms.foldlM (fun sum t => do sum.add (← scale t q)) zero

end Polynomial

end SparsePoly

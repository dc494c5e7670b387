import SparsePoly.Operator
import SparsePoly.Text.Blank
import SparsePoly.Text.Reading

/-!
# Expression lines

An expression line holds an operator and two polynomials, separated by blanks. `evaluateLine` says
what it comes to, or the first thing that is wrong with it, looking at the number of fields, the
operator, the first polynomial, the second polynomial and the result in this order.
-/

namespace SparsePoly

/-- Why an expression line has no result. -/
inductive LineError where
  /-- The line has another number of fields than three. -/
  | fieldCount (found : Nat)
  /-- A field cannot be read or the result cannot be computed. -/
  | evaluation (cause : Error)
deriving DecidableEq, Repr

namespace LineError

/-- The wording of the error. -/
def message : LineError → String
  | fieldCount found => s!"expected `OPERATOR POLY1 POLY2`, found {found} fields"
  | evaluation cause => cause.message

end LineError

/-- The result of an operator, given by its text, on two polynomials, given by theirs. -/
def evaluateTexts (operator left right : String) : Except Error Polynomial := do
  let op ← Operator.ofText operator
  let p ← Polynomial.ofText left
  let q ← Polynomial.ofText right
  op.apply p q

/-- The result of an expression line. -/
def evaluateLine (line : String) : Except LineError Polynomial :=
  match fields line.toList with
  | [operator, left, right] =>
    (evaluateTexts (String.ofList operator) (String.ofList left) (String.ofList right)).mapError
      .evaluation
  | parts => .error (.fieldCount parts.length)

end SparsePoly

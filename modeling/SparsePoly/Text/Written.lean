import SparsePoly.Polynomial.Basic

/-!
# The written form of polynomials

The terms of a polynomial follow one another without separators, as in `2x2y+3x-5`: the sign of a
term is also what sets it off from the term before. What goes without saying is left out, that is
the degree one, a coefficient of one or minus one before a letter, and a plus at the very
beginning. The polynomial without terms is written `0`.
-/

namespace SparsePoly

namespace Power

/-- The written form of a power: the letter and, above one, the degree. The degree zero leaves
nothing to write. -/
def written (p : Power) : List Char :=
  if p.degree = 0 then []
  else if p.degree = 1 then [p.symbol]
  else p.symbol :: Nat.toDigits 10 p.degree.toNat

instance : ToString Power where
  toString p := String.ofList p.written

end Power

namespace Coefficient

/-- The written form of a coefficient, with a sign only when it is negative. -/
def written (c : Coefficient) : List Char :=
  let digits := Nat.toDigits 10 c.toInt.natAbs
  if c.toInt < 0 then '-' :: digits else digits

end Coefficient

namespace Term

/-- The written form of a term, without a leading plus. -/
def written (t : Term) : List Char :=
  let factors := t.monomial.flatMap Power.written
  if t.isConstant then t.coefficient.written
  else if t.coefficient = 1 then factors
  else if t.coefficient = -1 then '-' :: factors
  else t.coefficient.written ++ factors

/-- The written form of a term that follows another. -/
def writtenAfter (t : Term) : List Char :=
  if 0 < t.coefficient.toInt then '+' :: t.written else t.written

instance : ToString Term where
  toString t := String.ofList t.written

end Term

namespace Polynomial

/-- The written form of a polynomial. -/
def written (p : Polynomial) : List Char :=
  match p.terms with
  | [] => ['0']
  | t :: ts => t.written ++ ts.flatMap Term.writtenAfter

instance : ToString Polynomial where
  toString p := String.ofList p.written

end Polynomial

end SparsePoly

import SparsePoly.Polynomial.Arithmetic

/-!
# Operators

The three operations between two polynomials, each with the character that it is written as.
-/

namespace SparsePoly

/-- An operation between two polynomials. -/
inductive Operator where
  /-- Addition. -/
  | add
  /-- Subtraction. -/
  | sub
  /-- Multiplication. -/
  | mul
deriving DecidableEq, Repr

namespace Operator

/-- The character that the operator is written as. -/
def written : Operator → Char
  | add => '+'
  | sub => '-'
  | mul => '*'

instance : ToString Operator where
  toString op := String.singleton op.written

/-- The operator that a text names: the text is its one character and nothing else. -/
def ofText (text : String) : Except Error Operator :=
  match text.toList with
  | ['+'] => .ok add
  | ['-'] => .ok sub
  | ['*'] => .ok mul
  | _ => .error (.unknownOperator text)

/-- The result of the operation on two polynomials. -/
def apply : Operator → Polynomial → Polynomial → Except Error Polynomial
  | add, p, q => p.add q
  | sub, p, q => p.sub q
  | mul, p, q => p.mul q

/-- Every operator is what its own character names. -/
theorem ofText_singleton (op : Operator) : ofText (String.singleton op.written) = .ok op := by
  cases op <;> rfl

end Operator

end SparsePoly

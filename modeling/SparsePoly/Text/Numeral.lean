import SparsePoly.Scalar

/-!
# Numerals

The two kinds of numeral in a polynomial text. Both are runs of decimal digits of any length, with
any number of leading zeros.
-/

namespace SparsePoly

/-- The value of a decimal digit. -/
def digitValue (d : Char) : Nat := d.toNat - '0'.toNat

namespace Coefficient

/-- Appends a digit to a coefficient that is being read. A negative coefficient is built up below
zero from its first digit on, so the least coefficient can be read although its magnitude is no
coefficient. -/
def appendDigit (negative : Bool) (c : Coefficient) (d : Char) : Except Error Coefficient := do
  let shifted ← checked .coefficient (c.toInt * 10)
  checked .coefficient
    (if negative then shifted.toInt - digitValue d else shifted.toInt + digitValue d)

/-- The coefficient that a run of digits writes under a sign. -/
def ofDigits (negative : Bool) (digits : List Char) : Except Error Coefficient :=
  digits.foldlM (appendDigit negative) 0

end Coefficient

namespace Degree

/-- The degree that a run of digits writes. -/
def ofDigits (digits : List Char) : Except Error Degree :=
  checked (Nat.ofDigitChars 10 digits 0)

end Degree

end SparsePoly

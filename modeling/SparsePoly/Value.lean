import Mathlib.Algebra.BigOperators.Group.List.Basic
import Mathlib.Algebra.Ring.Int.Defs
import SparsePoly.Polynomial.Basic

/-!
# Values of polynomials

A polynomial stands for an integer function of its letters. `value` gives that function for powers,
monomials, terms and polynomials: exact, and defined for every list of powers or terms, canonical
or not.
-/

namespace SparsePoly

/-- An integer for every letter. -/
abbrev Assignment := Char → Int

namespace Power

/-- The integer of the letter, raised to the degree. -/
def value (v : Assignment) (p : Power) : Int := v p.symbol ^ p.degree.toNat

end Power

namespace Monomial

/-- The product of the values of the powers. -/
def value (v : Assignment) (m : Monomial) : Int := (m.map (Power.value v)).prod

@[simp] theorem value_nil (v : Assignment) : value v [] = 1 := rfl

@[simp] theorem value_cons (v : Assignment) (p : Power) (m : Monomial) :
    value v (p :: m) = p.value v * value v m := by
  simp [value]

end Monomial

namespace Term

/-- The coefficient times the value of the monomial. -/
def value (v : Assignment) (t : Term) : Int := t.coefficient.toInt * t.monomial.value v

end Term

namespace Polynomial

/-- The sum of the values of the terms. -/
def value (v : Assignment) (p : Polynomial) : Int := (p.terms.map (Term.value v)).sum

@[simp] theorem value_zero (v : Assignment) : zero.value v = 0 := rfl

end Polynomial

end SparsePoly

import Mathlib.Algebra.MvPolynomial.NoZeroDivisors
import SparsePoly.Proofs.Product

/-!
# Degrees add up in products

The degree of a polynomial in a letter is the highest that any of its terms has. For the first
letter these terms come first, for the others they can stand anywhere in the list. In a product
several pairs of them can meet in one monomial and cancel in part. They do not all cancel: seen as a
polynomial in the one letter, a factor has a leading coefficient that is a polynomial in the other
letters, and two such coefficients that are not zero have a product that is not zero either.

* `Polynomial.degree_le_iff`: the degree is the least bound of the degrees of the terms.
* `Polynomial.degreeOf_meaning`: it is the degree of what the polynomial stands for.
* `Polynomial.degree_mul_eq_add`: the degree of a product is the sum of the degrees.
-/

namespace SparsePoly

open MvPolynomial (degreeOf)

namespace Polynomial

variable {a b p r : Polynomial}

/-! ### The highest degree -/

theorem degree_cons (t : Term) (ts : List Term) (x : Char) :
    degree ⟨t :: ts⟩ x = max (t.degree x) (degree ⟨ts⟩ x) := rfl

/-- The degree is the least bound of the degrees of the terms. -/
theorem degree_le_iff (p : Polynomial) (x : Char) {n : Nat} :
    (p.degree x).toNat ≤ n ↔ ∀ t ∈ p.terms, (t.degree x).toNat ≤ n := by
  obtain ⟨ts⟩ := p
  induction ts with
  | nil => exact iff_of_true (Nat.zero_le n) nofun
  | cons t ts ih => rw [degree_cons, UInt32.toNat_max, Nat.max_le, ih, List.forall_mem_cons]

/-- The degree of a canonical polynomial is that of its meaning, since all of its terms count. -/
theorem degreeOf_meaning (hp : p.Canonical) (x : Char) :
    degreeOf x p.meaning = (p.degree x).toNat := by
  have happly : ∀ t ∈ p.terms, t.monomial.exponents x = (t.degree x).toNat :=
    fun t ht => Term.exponents_monomial_apply (hp.wellFormed t ht) x
  -- both sides have the same upper bounds
  refine eq_of_forall_ge_iff fun n => ?_
  rw [MvPolynomial.degreeOf_le_iff, degree_le_iff]
  constructor
  · intro hbound t ht
    rw [← happly t ht]
    exact hbound _ ((mem_support_meaning_iff hp).2 ⟨t, ht, rfl⟩)
  · intro hbound exponents hexponents
    obtain ⟨t, ht, rfl⟩ := (mem_support_meaning_iff hp).1 hexponents
    rw [happly t ht]
    exact hbound t ht

/-! ### Products -/

/-- The degree of a product in a letter is the exact sum of the degrees of its factors, if these
have terms. So the sum is a degree wherever there is a product. -/
theorem degree_mul_eq_add (ha : a.Canonical) (hane : a.terms ≠ []) (hb : b.Canonical)
    (hbne : b.terms ≠ []) (h : a.mul b = .ok r) (x : Char) :
    (r.degree x).toNat = (a.degree x).toNat + (b.degree x).toNat ∧
      Degree.Fits ((a.degree x).toNat + (b.degree x).toNat) := by
  obtain ⟨hr, hmeaning⟩ := mul_eq_ok ha hb h
  have hsum : degreeOf x r.meaning = degreeOf x a.meaning + degreeOf x b.meaning := by
    rw [hmeaning]
    exact MvPolynomial.degreeOf_mul_eq (meaning_ne_zero ha hane) (meaning_ne_zero hb hbne)
  rw [degreeOf_meaning hr, degreeOf_meaning ha, degreeOf_meaning hb] at hsum
  refine ⟨hsum, ?_⟩
  rw [← hsum]
  exact (r.degree x).toNat_lt

/-- In the product of `xy+yz+1` and `xy-yz` four pairs of terms have the highest degree in `y`, and
two of these cancel. -/
theorem degree_mul_eq_add_colliding :
    let a : Polynomial :=
      ⟨[⟨1, [⟨'x', 1⟩, ⟨'y', 1⟩]⟩, ⟨1, [⟨'y', 1⟩, ⟨'z', 1⟩]⟩, ⟨1, []⟩]⟩
    let b : Polynomial := ⟨[⟨1, [⟨'x', 1⟩, ⟨'y', 1⟩]⟩, ⟨-1, [⟨'y', 1⟩, ⟨'z', 1⟩]⟩]⟩
    let r : Polynomial :=
      ⟨[⟨1, [⟨'x', 2⟩, ⟨'y', 2⟩]⟩, ⟨1, [⟨'x', 1⟩, ⟨'y', 1⟩]⟩, ⟨-1, [⟨'y', 2⟩, ⟨'z', 2⟩]⟩,
        ⟨-1, [⟨'y', 1⟩, ⟨'z', 1⟩]⟩]⟩
    a.Canonical ∧ a.terms ≠ [] ∧ b.Canonical ∧ b.terms ≠ [] ∧ a.mul b = .ok r ∧
      (r.degree 'y').toNat = (a.degree 'y').toNat + (b.degree 'y').toNat ∧
      Degree.Fits ((a.degree 'y').toNat + (b.degree 'y').toNat) := by
  intro a b r
  have ha : a.Canonical := by decide
  have hb : b.Canonical := by decide
  have hab : a.mul b = .ok r := by cbv
  have hane : a.terms ≠ [] := List.cons_ne_nil _ _
  have hbne : b.terms ≠ [] := List.cons_ne_nil _ _
  exact ⟨ha, hane, hb, hbne, hab, degree_mul_eq_add ha hane hb hbne hab 'y'⟩

end Polynomial

end SparsePoly

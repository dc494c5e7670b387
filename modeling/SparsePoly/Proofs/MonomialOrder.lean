import SparsePoly.Proofs.Product

/-!
# The order of terms is a monomial order

Terms compare as the vectors of their degrees do, that of `a` first. So the order is total on
monomials whatever the coefficients, like terms are those that compare equal, and constants come
last. A factor that two terms share, on either side, does not change how they compare; hence a
product moves to the side to which its factors move, which is what the first and the last term of a
product of polynomials depend on.

* `Term.mul_eq_mul_swap`: products of terms do not depend on the order, errors included.
* `Term.precedence_mul_left`, `Term.precedence_mul_right`: a shared factor.
* `Term.precedence_mul_mul`: two factors that move to the same side.
* `Term.precedence_monomialOrder`: what makes the order a monomial order.
-/

namespace SparsePoly

/-- The product of two monomials does not depend on their order, and neither does its error. -/
theorem Monomial.mul_eq_mul_swap (m n : Monomial) : m.mul n = n.mul m := by
  fun_induction mul m n with
  | case1 n => rw [mul_nil]
  | case2 p m => rw [nil_mul]
  | case3 p m q n hpq ih =>
    have hqp : compare q.symbol p.symbol = .gt := Std.OrientedCmp.gt_of_lt hpq
    simp only [mul.eq_3, hqp, ih]
  | case4 p m q n hpq ih =>
    have hqp : compare q.symbol p.symbol = .lt := Std.OrientedCmp.lt_of_gt hpq
    simp only [mul.eq_3, hqp, ih]
  | case5 p m q n hpq ih =>
    have hqp : compare q.symbol p.symbol = .eq := Std.OrientedCmp.eq_symm hpq
    have hsymbol : p.symbol = q.symbol := Std.LawfulEqOrd.eq_of_compare hpq
    simp only [mul.eq_3 q, hqp]
    rw [hsymbol, ih, Nat.add_comm]

namespace Term

variable {t t' u u' v tu tv ut vt r r' : Term} {o : Ordering}

/-- The product of two terms does not depend on their order, and neither does its error. -/
theorem mul_eq_mul_swap (t u : Term) : t.mul u = u.mul t := by
  rw [mul, mul, Int.mul_comm, Monomial.mul_eq_mul_swap]

/-! ### Shared factors -/

/-- Terms multiplied by a term from the left compare as they do alone. -/
theorem precedence_mul_left (ht : t.WellFormed) (hu : u.WellFormed) (hv : v.WellFormed)
    (htu : t.mul u = .ok tu) (htv : t.mul v = .ok tv) : tu.precedence tv = u.precedence v :=
  Monomial.precedence_mul ht hu hv (monomial_mul htu) (monomial_mul htv)

/-- Terms multiplied by a term from the right compare as they do alone. -/
theorem precedence_mul_right (ht : t.WellFormed) (hu : u.WellFormed) (hv : v.WellFormed)
    (hut : u.mul t = .ok ut) (hvt : v.mul t = .ok vt) : ut.precedence vt = u.precedence v := by
  rw [mul_eq_mul_swap] at hut hvt
  exact precedence_mul_left ht hu hv hut hvt

/-- A product moves to the side to which both of its factors move. -/
theorem precedence_mul_mul (ht : t.WellFormed) (hu : u.WellFormed) (ht' : t'.WellFormed)
    (hu' : u'.WellFormed) (htt : t.precedence t' = o) (huu : u.precedence u' = o)
    (hr : t.mul u = .ok r) (hr' : t'.mul u' = .ok r') (hv : t.mul u' = .ok v) :
    r.precedence r' = o := by
  -- the factors are exchanged one after the other, with `v` in between
  have hrv : r.precedence v = o := (precedence_mul_left ht hu hu' hr hv).trans huu
  have hvr : v.precedence r' = o := (precedence_mul_right hu' ht ht' hv hr').trans htt
  cases o with
  | lt => exact Std.TransCmp.lt_trans hrv hvr
  | eq => exact Std.TransCmp.eq_trans hrv hvr
  | gt => exact Std.TransCmp.gt_trans hrv hvr

/-! ### The order -/

/-- Only like terms compare equal. -/
theorem precedence_eq_eq_iff : t.precedence u = .eq ↔ t.monomial = u.monomial :=
  Monomial.precedence_eq_eq_iff

/-- Constants come last. -/
theorem precedence_constant (c : Coefficient) (t : Term) :
    (constant c).precedence t = if t.isConstant then .eq else .lt := by
  obtain ⟨d, m⟩ := t
  cases m with
  | nil => rfl
  | cons p m => rfl

/-- The order of terms is a monomial order. It is the lexicographic order of the degrees of all
letters and does not look at coefficients; so it is a total order on monomials, in which terms
compare equal exactly when they have the same monomial and a constant comes after every other term.
And it is kept by products: two terms compare as their products with a third term do. -/
theorem precedence_monomialOrder (ht : t.WellFormed) (hu : u.WellFormed) (hv : v.WellFormed) :
    t.precedence u =
      List.compareLex compare (t.monomial.degrees letters) (u.monomial.degrees letters) ∧
    (∀ c d, precedence { t with coefficient := c } { u with coefficient := d } = t.precedence u) ∧
    (t.precedence u = .eq ↔ t.monomial = u.monomial) ∧
    t.precedence u = (u.precedence t).swap ∧
    (t.precedence u ≠ .lt → u.precedence v ≠ .lt → t.precedence v ≠ .lt) ∧
    (∀ c, (constant c).precedence t = if t.isConstant then .eq else .lt) ∧
    ∀ tu tv, t.mul u = .ok tu → t.mul v = .ok tv → tu.precedence tv = u.precedence v := by
  refine ⟨Monomial.precedence_eq_compareLex_degrees ht hu, fun _ _ => rfl, precedence_eq_eq_iff,
    Std.OrientedCmp.eq_swap, fun htu huv => ?_, fun c => precedence_constant c t,
    fun tu tv => precedence_mul_left ht hu hv⟩
  have htu' : (t.precedence u).isGE = true := Ordering.isGE_iff_ne_lt.2 htu
  have huv' : (u.precedence v).isGE = true := Ordering.isGE_iff_ne_lt.2 huv
  exact Ordering.isGE_iff_ne_lt.1 (Std.TransCmp.isGE_trans htu' huv')

/-- `x2z`, `xy9` and `3xz` compare by the degrees of `x` and then of `y`, alone and multiplied by
`x2z`, which puts `y` between the letters of that term. -/
theorem precedence_monomialOrder_misaligned :
    let t : Term := ⟨1, [⟨'x', 2⟩, ⟨'z', 1⟩]⟩
    let u : Term := ⟨1, [⟨'x', 1⟩, ⟨'y', 9⟩]⟩
    let v : Term := ⟨3, [⟨'x', 1⟩, ⟨'z', 1⟩]⟩
    t.WellFormed ∧ u.WellFormed ∧ v.WellFormed ∧ t.precedence v ≠ .lt ∧
      ∃ tu tv, t.mul u = .ok tu ∧ t.mul v = .ok tv ∧ tu.precedence tv = u.precedence v ∧
        u.precedence v = .gt := by
  intro t u v
  have ht : t.WellFormed := by decide
  have hu : u.WellFormed := by decide
  have hv : v.WellFormed := by decide
  have htu : t.mul u = .ok ⟨1, [⟨'x', 3⟩, ⟨'y', 9⟩, ⟨'z', 1⟩]⟩ := by cbv
  have htv : t.mul v = .ok ⟨3, [⟨'x', 3⟩, ⟨'z', 2⟩]⟩ := by cbv
  obtain ⟨-, -, -, -, htrans, -, hmul⟩ := precedence_monomialOrder ht hu hv
  exact ⟨ht, hu, hv, htrans (by decide) (by decide), _, _, htu, htv, hmul _ _ htu htv, by decide⟩

end Term

end SparsePoly

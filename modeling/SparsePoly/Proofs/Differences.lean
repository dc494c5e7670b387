import SparsePoly.Proofs.RingLaws

/-!
# Differences

A difference is not computed as the sum with the negated polynomial. Where both polynomials have a
term, the coefficients are subtracted in one step, and so the least coefficient, which has no
opposite, can be subtracted from a negative one. A difference and a sum with the same polynomial
undo each other without any condition: each of them asks for one canonical polynomial only, and
this is one that there is already. And where the polynomial can be negated, subtracting it is adding
the negated one, also for the error.

* `Polynomial.add_eq_ok_iff_sub_eq_ok`: sums and differences.
* `Polynomial.exists_neg_eq_ok_iff`, `Polynomial.neg_neg_eq_ok`: negation.
* `Polynomial.mul_neg_one_eq_ok`, `Polynomial.exists_mul_neg_one_eq_ok_iff`: the product with minus
  one.
* `Polynomial.sub_eq_add_neg_of_eq_ok`: the difference and the sum with the negated polynomial.
* `Polynomial.add_sub_inverse`, `Polynomial.sub_agrees_with_neg`: the laws together.
-/

namespace SparsePoly

theorem Coefficient.toInt_neg_one : (-1 : Coefficient).toInt = -1 := rfl

/-- The opposite of a coefficient is a word unless the coefficient is the least one. -/
theorem Coefficient.fits_neg_iff {c : Coefficient} : Fits (-c.toInt) ↔ c ≠ Int64.minValue := by
  have hleast : Int64.minValue.toInt = -9223372036854775808 := rfl
  have hc := fits_toInt c
  rw [Ne, ← Int64.toInt_inj, hleast]
  omega

/-- All terms but those with the least coefficient can be negated. -/
theorem Term.exists_neg_eq_ok_iff {t : Term} :
    (∃ u, t.neg = .ok u) ↔ t.coefficient ≠ Int64.minValue := by
  rw [← Coefficient.fits_neg_iff]
  constructor
  · rintro ⟨u, hu⟩
    rw [← (neg_eq_ok_iff.1 hu).2]
    exact Coefficient.fits_toInt u.coefficient
  · intro hfits
    exact ⟨_, bind_eq_ok_iff.2 ⟨_, if_pos hfits, rfl⟩⟩

namespace Polynomial

variable {a b c n : Polynomial}

/-! ### Sums and differences undo each other -/

/-- A polynomial is a sum exactly when one summand is the difference of it and the other. -/
theorem add_eq_ok_iff_sub_eq_ok (ha : a.Canonical) (hb : b.Canonical) (hc : c.Canonical) :
    a.add b = .ok c ↔ c.sub b = .ok a := by
  rw [add_eq_ok_iff ha hb, sub_eq_ok_iff hc hb, and_iff_right hc, and_iff_right ha,
    eq_sub_iff_add_eq]
  exact eq_comm

/-- Sums and differences undo each other without any condition. A canonical polynomial is the sum of
two others exactly when the first of these is its difference from the second. So a sum that exists
can be undone by a difference, and a difference by a sum, and neither overflows. -/
theorem add_sub_inverse (ha : a.Canonical) (hb : b.Canonical) (hc : c.Canonical) :
    (a.add b = .ok c ↔ c.sub b = .ok a) ∧
    (∀ r, a.add b = .ok r → r.sub b = .ok a) ∧
    ∀ r, a.sub b = .ok r → r.add b = .ok a := by
  refine ⟨add_eq_ok_iff_sub_eq_ok ha hb hc, fun r hr => ?_, fun r hr => ?_⟩
  · exact (add_eq_ok_iff_sub_eq_ok ha hb ((add_eq_ok_iff ha hb).1 hr).1).1 hr
  · exact (add_eq_ok_iff_sub_eq_ok ((sub_eq_ok_iff ha hb).1 hr).1 hb ha).2 hr

/-- The sum of `5x+9223372036854775807y-1` and a polynomial with the least coefficient twice is
undone, although the term with `x` has vanished and the other polynomial has no negation. -/
theorem add_sub_inverse_at_least :
    let a : Polynomial := ⟨[⟨5, [⟨'x', 1⟩]⟩, ⟨9223372036854775807, [⟨'y', 1⟩]⟩, ⟨-1, []⟩]⟩
    let b : Polynomial := ⟨[⟨-5, [⟨'x', 1⟩]⟩, ⟨-9223372036854775808, [⟨'y', 1⟩]⟩,
      ⟨-9223372036854775808, [⟨'z', 1⟩]⟩]⟩
    let c : Polynomial := ⟨[⟨-1, [⟨'y', 1⟩]⟩, ⟨-9223372036854775808, [⟨'z', 1⟩]⟩, ⟨-1, []⟩]⟩
    a.Canonical ∧ b.Canonical ∧ c.Canonical ∧ b.neg = .error (.overflow .coefficientNegation) ∧
      a.add b = .ok c ∧ c.sub b = .ok a := by
  intro a b c
  have ha : a.Canonical := by decide
  have hb : b.Canonical := by decide
  have hc : c.Canonical := by decide
  have hneg : b.neg = .error (.overflow .coefficientNegation) := by cbv
  have hsum : a.add b = .ok c := by cbv
  exact ⟨ha, hb, hc, hneg, hsum, (add_sub_inverse ha hb hc).1.1 hsum⟩

/-! ### Negation -/

/-- A polynomial can be negated exactly when it does not have the least coefficient. -/
theorem exists_neg_eq_ok_iff :
    (∃ n, b.neg = .ok n) ↔ ∀ t ∈ b.terms, t.coefficient ≠ Int64.minValue := by
  simp only [← Term.exists_neg_eq_ok_iff]
  rw [← exists_mapM_eq_ok_iff]
  exact exists_bind_pure_eq_ok_iff

/-- Negating twice changes nothing. -/
theorem neg_neg_eq_ok (hb : b.Canonical) (h : b.neg = .ok n) : n.neg = .ok b := by
  obtain ⟨hn, hmeaning⟩ := (neg_eq_ok_iff hb).1 h
  refine (neg_eq_ok_iff hn).2 ⟨hb, ?_⟩
  rw [hmeaning, neg_neg]

/-- A polynomial has a product with minus one exactly when it can be negated. -/
theorem exists_mul_neg_one_eq_ok_iff (hb : b.Canonical) :
    (∃ r, b.mul (constant (-1)) = .ok r) ↔ ∃ n, b.neg = .ok n := by
  rw [exists_mul_constant_eq_ok_iff hb, exists_neg_eq_ok_iff]
  refine forall₂_congr fun t _ => ?_
  rw [Coefficient.toInt_neg_one, mul_neg_one, Coefficient.fits_neg_iff]

/-- The product with minus one is the negated polynomial. -/
theorem mul_neg_one_eq_ok (hb : b.Canonical) (h : b.neg = .ok n) :
    b.mul (constant (-1)) = .ok n := by
  obtain ⟨hn, hmeaning⟩ := (neg_eq_ok_iff hb).1 h
  have hone : (constant (-1)).meaning = -1 := by
    rw [meaning_constant, Coefficient.toInt_neg_one, map_neg, map_one]
  refine mul_eq_ok_of_represents hb (canonical_constant (-1)) ⟨hn, ?_⟩
    ((exists_mul_neg_one_eq_ok_iff hb).2 ⟨n, h⟩)
  rw [hmeaning, hone, mul_neg_one]

/-! ### Subtracting and adding the negated polynomial -/

/-- A difference overflows only in a sum where the second polynomial can be negated. -/
theorem exact_sub_of_neg_eq_ok (ha : a.Canonical) (hb : b.Canonical) (h : b.neg = .ok n) :
    Exact (fun m => a.coefficientAt m - b.coefficientAt m) (fun _ => .coefficientSum)
      (a.sub b) := by
  obtain ⟨hn, hcoefficient⟩ := (exact_neg hb).eq_ok n h
  refine (exact_sub ha hb).congr_cause fun m hm =>
    mergeCause_of_not_fits hm.not_fits fun hzero => ?_
  -- a difference from nothing is a coefficient of the negated polynomial
  rw [coefficientAt, hzero, zero_sub, ← hcoefficient m hm.wellFormed]
  exact coefficientAt_fits hn m

/-- Subtracting a polynomial that can be negated is adding the negated one, with the same error. -/
theorem sub_eq_add_neg_of_eq_ok (ha : a.Canonical) (hb : b.Canonical) (h : b.neg = .ok n) :
    a.sub b = a.add n := by
  obtain ⟨hn, hcoefficient⟩ := (exact_neg hb).eq_ok n h
  refine (exact_sub_of_neg_eq_ok ha hb h).unique ((exact_add ha hn).congr_integers fun m hm => ?_)
  rw [hcoefficient m hm, ← sub_eq_add_neg]

/-- Subtraction agrees with adding the negated polynomial as far as there is one. A canonical
polynomial can be negated exactly when none of its coefficients is the least one. The negated
polynomial is canonical, its negation is the polynomial, it is the product with minus one, and
adding it comes to the same as subtracting the polynomial, also where that overflows. A polynomial
that cannot be negated has no product with minus one. But a difference exists, whether the
polynomial can be negated or not, exactly when all differences of coefficients are words. -/
theorem sub_agrees_with_neg (ha : a.Canonical) (hb : b.Canonical) :
    ((∃ n, b.neg = .ok n) ↔ ∀ t ∈ b.terms, t.coefficient ≠ Int64.minValue) ∧
    (∀ n, b.neg = .ok n →
      n.Canonical ∧ n.neg = .ok b ∧ b.mul (constant (-1)) = .ok n ∧ a.sub b = a.add n) ∧
    (∀ e, b.neg = .error e → ∃ e', b.mul (constant (-1)) = .error e') ∧
    ((∃ r, a.sub b = .ok r) ↔
      ∀ m : Monomial, m.WellFormed →
        Coefficient.Fits (a.coefficientAt m - b.coefficientAt m)) := by
  refine ⟨exists_neg_eq_ok_iff, fun n h => ?_, fun e he => ?_, (exact_sub ha hb).exists_eq_ok_iff⟩
  · exact ⟨((neg_eq_ok_iff hb).1 h).1, neg_neg_eq_ok hb h, mul_neg_one_eq_ok hb h,
      sub_eq_add_neg_of_eq_ok ha hb h⟩
  · cases hmul : b.mul (constant (-1)) with
    | error e' => exact ⟨e', rfl⟩
    | ok r =>
      obtain ⟨n, hn⟩ := (exists_mul_neg_one_eq_ok_iff hb).1 ⟨r, hmul⟩
      rw [hn] at he
      contradiction

/-- From `-x+9223372036854775807y` a polynomial with a negation is subtracted, which overflows in
both ways, and one without, which only subtraction can do. -/
theorem sub_agrees_with_neg_at_least :
    let a : Polynomial := ⟨[⟨-1, [⟨'x', 1⟩]⟩, ⟨9223372036854775807, [⟨'y', 1⟩]⟩]⟩
    let b : Polynomial := ⟨[⟨3, [⟨'x', 1⟩]⟩, ⟨-1, [⟨'y', 1⟩]⟩]⟩
    let n : Polynomial := ⟨[⟨-3, [⟨'x', 1⟩]⟩, ⟨1, [⟨'y', 1⟩]⟩]⟩
    let b' : Polynomial := ⟨[⟨-9223372036854775808, [⟨'x', 1⟩]⟩, ⟨1, [⟨'y', 1⟩]⟩]⟩
    a.Canonical ∧ b.Canonical ∧ b'.Canonical ∧
      b.neg = .ok n ∧ n.neg = .ok b ∧ b.mul (constant (-1)) = .ok n ∧
      a.sub b = .error (.overflow .coefficientSum) ∧ a.sub b = a.add n ∧
      b'.neg = .error (.overflow .coefficientNegation) ∧
      (∃ e, b'.mul (constant (-1)) = .error e) ∧ (∃ r, a.sub b' = .ok r) ∧
      ∀ m : Monomial, m.WellFormed →
        Coefficient.Fits (a.coefficientAt m - b'.coefficientAt m) := by
  intro a b n b'
  have ha : a.Canonical := by decide
  have hb : b.Canonical := by decide
  have hb' : b'.Canonical := by decide
  have hneg : b.neg = .ok n := by cbv
  have hsub : a.sub b = .error (.overflow .coefficientSum) := by cbv
  have hneg' : b'.neg = .error (.overflow .coefficientNegation) := by cbv
  have hsub' : a.sub b' = .ok ⟨[⟨9223372036854775807, [⟨'x', 1⟩]⟩,
      ⟨9223372036854775806, [⟨'y', 1⟩]⟩]⟩ := by cbv
  obtain ⟨-, hok, -, -⟩ := sub_agrees_with_neg ha hb
  obtain ⟨-, hnegneg, hmul, hadd⟩ := hok n hneg
  obtain ⟨-, -, herror, hiff⟩ := sub_agrees_with_neg ha hb'
  exact ⟨ha, hb, hb', hneg, hnegneg, hmul, hsub, hadd, hneg', herror _ hneg', ⟨_, hsub'⟩,
    hiff.1 ⟨_, hsub'⟩⟩

end Polynomial

end SparsePoly

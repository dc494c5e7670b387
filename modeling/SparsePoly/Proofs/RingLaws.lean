import SparsePoly.Proofs.Exact
import SparsePoly.Proofs.Product

/-!
# Ring laws

Results of sums, differences and products stand for the sums, differences and products of what the
operands stand for, and a canonical polynomial is determined by what it stands for. So two results
are the same whenever a law of commutative rings says so. Where such a law relates two computations,
one of them may overflow in a place that the other one avoids, and then nothing is said; but the
order of a sum does not matter even for its error, and the neutral elements, a difference from
itself and products with zero never overflow.

* `Polynomial.exists_mul_constant_eq_ok_iff`, `Polynomial.exists_constant_mul_eq_ok_iff`: products
  with constants overflow only in a product of coefficients.
* `Polynomial.Represents`: results of operations and what they stand for.
* `Polynomial.add_eq_add_swap`, `Polynomial.mul_one_eq_ok`, `Polynomial.sub_self_eq_ok` and others:
  the laws without overflow.
* `Polynomial.add_assoc_of_eq_ok`, `Polynomial.mul_add_of_eq_ok` and others: the laws about results.
* `Polynomial.ring_laws`: all of them together.
-/

namespace SparsePoly

open MvPolynomial (coeff C)

namespace Polynomial

variable {a b c p q r s ab ac bc : Polynomial} {d : Coefficient} {m : Monomial}

/-! ### Constants -/

/-- A constant stands for itself. -/
theorem meaning_constant (d : Coefficient) : (constant d).meaning = C d.toInt := by
  unfold constant
  split
  · next h =>
    rw [h]
    exact (map_zero C).symm
  · exact add_zero _

theorem mem_terms_constant {t : Term} (ht : t ∈ (constant d).terms) : t = .constant d := by
  unfold constant at ht
  split at ht
  · contradiction
  · exact List.mem_singleton.1 ht

/-- The first terms of a constant are none of them or all. -/
theorem take_terms_constant (d : Coefficient) (k : Nat) :
    (constant d).terms.take k = [] ∨ (constant d).terms.take k = (constant d).terms := by
  unfold constant
  cases k with
  | zero => exact .inl rfl
  | succ k =>
    refine .inr ?_
    split
    · rfl
    · exact List.take_of_length_le (Nat.succ_le_succ (Nat.zero_le k))

/-- The first terms of a canonical polynomial are a canonical polynomial. -/
theorem canonical_take (hp : p.Canonical) (k : Nat) : Canonical ⟨p.terms.take k⟩ where
  wellFormed t ht := hp.wellFormed t (List.mem_of_mem_take ht)
  nonzero t ht := hp.nonzero t (List.mem_of_mem_take ht)
  descending := hp.descending.sublist (List.take_sublist k p.terms)

/-- A term has a product with a constant exactly when the product of the coefficients is a word. -/
theorem exists_term_mul_constant_iff {t : Term} (ht : t.WellFormed) :
    (∃ v, t.mul (.constant d) = .ok v) ↔ Coefficient.Fits (t.coefficient.toInt * d.toInt) := by
  rw [Term.exists_mul_eq_ok_iff ht Monomial.wellFormed_nil]
  exact and_iff_left fun x => (t.degree x).toNat_lt

/-- A constant has a product with a term exactly when the term has one with the constant. -/
theorem exists_constant_mul_term_iff {t : Term} (ht : t.WellFormed) :
    (∃ v, (Term.constant d).mul t = .ok v) ↔ Coefficient.Fits (t.coefficient.toInt * d.toInt) := by
  rw [Term.exists_mul_eq_ok_iff Monomial.wellFormed_nil ht, Int.mul_comm t.coefficient.toInt]
  refine and_iff_left fun x => ?_
  rw [show (Term.constant d).degree x = 0 from rfl, Nat.add_comm]
  exact (t.degree x).toNat_lt

/-- The coefficients of a multiple are the multiples of the coefficients. -/
theorem coeff_C_mul_meaning (hp : p.Canonical) (hm : m.WellFormed) :
    coeff m.exponents (C d.toInt * p.meaning) = p.coefficientAt m * d.toInt := by
  rw [MvPolynomial.coeff_C_mul, coeff_meaning hp.wellFormed hm, Int.mul_comm]

/-- The multiples of the coefficients are words where those of the terms are. -/
theorem fits_coeff_C_mul (hp : p.Canonical)
    (h : ∀ t ∈ p.terms, Coefficient.Fits (t.coefficient.toInt * d.toInt)) (hm : m.WellFormed) :
    Coefficient.Fits (coeff m.exponents (C d.toInt * p.meaning)) := by
  rw [coeff_C_mul_meaning hp hm]
  by_cases hzero : p.coefficientAt m = 0
  · rw [hzero, zero_mul]
    decide
  · obtain ⟨t, ht, rfl⟩ := exists_mem_of_coefficientAt_ne_zero hzero
    rw [coefficientAt_of_mem hp ht]
    exact h t ht

/-- A polynomial can be multiplied by a constant exactly when all products of its coefficients with
the constant are words. -/
theorem exists_mul_constant_eq_ok_iff (hp : p.Canonical) :
    (∃ r, p.mul (constant d) = .ok r) ↔
      ∀ t ∈ p.terms, Coefficient.Fits (t.coefficient.toInt * d.toInt) := by
  rw [exists_mul_eq_ok_iff hp (canonical_constant d), meaning_constant]
  constructor
  · rintro ⟨-, hfits⟩ t ht
    have hcoeff := hfits p.terms.length (Nat.le_refl _) t.monomial (hp.wellFormed t ht)
    rwa [List.take_length, mul_comm, coeff_C_mul_meaning hp (hp.wellFormed t ht),
      coefficientAt_of_mem hp ht] at hcoeff
  · intro h
    refine ⟨fun t ht u hu => ?_, fun k _ m hm => ?_⟩
    · rw [mem_terms_constant hu]
      exact (exists_term_mul_constant_iff (hp.wellFormed t ht)).2 (h t ht)
    · rw [mul_comm]
      exact fits_coeff_C_mul (canonical_take hp k) (fun t ht => h t (List.mem_of_mem_take ht)) hm

/-- A constant can be multiplied by a polynomial exactly when the polynomial can be multiplied by
the constant. -/
theorem exists_constant_mul_eq_ok_iff (hp : p.Canonical) :
    (∃ r, (constant d).mul p = .ok r) ↔
      ∀ t ∈ p.terms, Coefficient.Fits (t.coefficient.toInt * d.toInt) := by
  have hwhole : meaning ⟨(constant d).terms⟩ = C d.toInt := meaning_constant d
  rw [exists_mul_eq_ok_iff (canonical_constant d) hp]
  constructor
  · rintro ⟨-, hfits⟩ t ht
    have hcoeff := hfits _ (Nat.le_refl _) t.monomial (hp.wellFormed t ht)
    rwa [List.take_length, hwhole, coeff_C_mul_meaning hp (hp.wellFormed t ht),
      coefficientAt_of_mem hp ht] at hcoeff
  · intro h
    refine ⟨fun t ht u hu => ?_, fun k _ m hm => ?_⟩
    · rw [mem_terms_constant ht]
      exact (exists_constant_mul_term_iff (hp.wellFormed u hu)).2 (h u hu)
    · rcases take_terms_constant d k with hnone | hall
      · rw [hnone, meaning_nil, zero_mul, MvPolynomial.coeff_zero]
        decide
      · rw [hall, hwhole]
        exact fits_coeff_C_mul hp h hm

/-! ### Results -/

/-- A polynomial is the canonical one that stands for `f`. -/
structure Represents (p : Polynomial) (f : MvPolynomial Char Int) : Prop where
  /-- The polynomial is canonical. -/
  canonical : p.Canonical
  /-- It stands for `f`. -/
  meaning_eq : p.meaning = f

namespace Represents

variable {f g : MvPolynomial Char Int}

theorem of_canonical (hp : p.Canonical) : p.Represents p.meaning := ⟨hp, rfl⟩

/-- Only one polynomial represents `f`. -/
theorem unique (hr : r.Represents f) (hs : s.Represents f) : r = s :=
  meaning_injective hr.canonical hs.canonical (hr.meaning_eq.trans hs.meaning_eq.symm)

theorem add (hp : p.Represents f) (hq : q.Represents g) (h : p.add q = .ok r) :
    r.Represents (f + g) := by
  obtain ⟨hr, hmeaning⟩ := (add_eq_ok_iff hp.canonical hq.canonical).1 h
  exact ⟨hr, by rw [hmeaning, hp.meaning_eq, hq.meaning_eq]⟩

theorem mul (hp : p.Represents f) (hq : q.Represents g) (h : p.mul q = .ok r) :
    r.Represents (f * g) := by
  obtain ⟨hr, hmeaning⟩ := mul_eq_ok hp.canonical hq.canonical h
  exact ⟨hr, by rw [hmeaning, hp.meaning_eq, hq.meaning_eq]⟩

end Represents

/-- A product that exists is what represents the product. -/
theorem mul_eq_ok_of_represents (hp : p.Canonical) (hq : q.Canonical)
    (hr : r.Represents (p.meaning * q.meaning)) (h : ∃ s, p.mul q = .ok s) : p.mul q = .ok r := by
  obtain ⟨s, hs⟩ := h
  rw [hs, ((Represents.of_canonical hp).mul (.of_canonical hq) hs).unique hr]

/-! ### Laws without overflow -/

/-- The sum does not depend on the order, and neither does its error. -/
theorem add_eq_add_swap (ha : a.Canonical) (hb : b.Canonical) : a.add b = b.add a := by
  have hswapped := exact_add hb ha
  simp only [Int.add_comm (b.coefficientAt _)] at hswapped
  exact (exact_add ha hb).unique hswapped

/-- A polynomial is its sum with zero, in both orders. -/
theorem add_zero_eq_ok (ha : a.Canonical) : a.add zero = .ok a ∧ zero.add a = .ok a := by
  have hsum : a.add zero = .ok a := (add_eq_ok_iff ha canonical_zero).2 ⟨ha, (add_zero _).symm⟩
  exact ⟨hsum, (add_eq_add_swap canonical_zero ha).trans hsum⟩

/-- The difference of a polynomial from itself is zero. -/
theorem sub_self_eq_ok (ha : a.Canonical) : a.sub a = .ok zero :=
  (sub_eq_ok_iff ha ha).2 ⟨canonical_zero, (sub_self _).symm⟩

/-- A polynomial is its product with one, in both orders. -/
theorem mul_one_eq_ok (ha : a.Canonical) :
    a.mul (constant 1) = .ok a ∧ (constant 1).mul a = .ok a := by
  have hfits : ∀ t ∈ a.terms, Coefficient.Fits (t.coefficient.toInt * (1 : Coefficient).toInt) := by
    intro t _
    rw [show (1 : Coefficient).toInt = 1 from rfl, mul_one]
    exact Coefficient.fits_toInt t.coefficient
  have hone : (constant 1).meaning = 1 := (meaning_constant 1).trans (map_one C)
  constructor
  · refine mul_eq_ok_of_represents ha (canonical_constant 1) ⟨ha, ?_⟩
      ((exists_mul_constant_eq_ok_iff ha).2 hfits)
    rw [hone, mul_one]
  · refine mul_eq_ok_of_represents (canonical_constant 1) ha ⟨ha, ?_⟩
      ((exists_constant_mul_eq_ok_iff ha).2 hfits)
    rw [hone, one_mul]

/-- A product with zero is zero, in both orders. -/
theorem mul_zero_eq_ok (ha : a.Canonical) : a.mul zero = .ok zero ∧ zero.mul a = .ok zero := by
  have hzero : zero.meaning = 0 := meaning_nil
  have hfits : ∀ t ∈ a.terms, Coefficient.Fits (t.coefficient.toInt * (0 : Coefficient).toInt) := by
    intro t _
    rw [show (0 : Coefficient).toInt = 0 from rfl, mul_zero]
    decide
  refine ⟨?_, rfl⟩
  refine mul_eq_ok_of_represents ha canonical_zero ⟨canonical_zero, ?_⟩
    ((exists_mul_constant_eq_ok_iff ha).2 hfits)
  rw [hzero, mul_zero]

/-! ### Laws about results -/

/-- Sums of three that exist do not depend on where the brackets are. -/
theorem add_assoc_of_eq_ok (ha : a.Canonical) (hb : b.Canonical) (hc : c.Canonical)
    (hab : a.add b = .ok ab) (hr : ab.add c = .ok r) (hbc : b.add c = .ok bc)
    (hs : a.add bc = .ok s) : r = s := by
  have hleft := ((Represents.of_canonical ha).add (.of_canonical hb) hab).add (.of_canonical hc) hr
  have hright := (Represents.of_canonical ha).add ((Represents.of_canonical hb).add
    (.of_canonical hc) hbc) hs
  rw [add_assoc] at hleft
  exact hleft.unique hright

/-- Products that exist do not depend on the order. -/
theorem mul_comm_of_eq_ok (ha : a.Canonical) (hb : b.Canonical) (hr : a.mul b = .ok r)
    (hs : b.mul a = .ok s) : r = s := by
  have hleft := (Represents.of_canonical ha).mul (.of_canonical hb) hr
  have hright := (Represents.of_canonical hb).mul (.of_canonical ha) hs
  rw [mul_comm] at hleft
  exact hleft.unique hright

/-- Products of three that exist do not depend on where the brackets are. -/
theorem mul_assoc_of_eq_ok (ha : a.Canonical) (hb : b.Canonical) (hc : c.Canonical)
    (hab : a.mul b = .ok ab) (hr : ab.mul c = .ok r) (hbc : b.mul c = .ok bc)
    (hs : a.mul bc = .ok s) : r = s := by
  have hleft := ((Represents.of_canonical ha).mul (.of_canonical hb) hab).mul (.of_canonical hc) hr
  have hright := (Represents.of_canonical ha).mul ((Represents.of_canonical hb).mul
    (.of_canonical hc) hbc) hs
  rw [mul_assoc] at hleft
  exact hleft.unique hright

/-- The product with a sum is the sum of the products, where both exist. -/
theorem mul_add_of_eq_ok (ha : a.Canonical) (hb : b.Canonical) (hc : c.Canonical)
    (hbc : b.add c = .ok bc) (hr : a.mul bc = .ok r) (hab : a.mul b = .ok ab)
    (hac : a.mul c = .ok ac) (hs : ab.add ac = .ok s) : r = s := by
  have hleft := (Represents.of_canonical ha).mul ((Represents.of_canonical hb).add
    (.of_canonical hc) hbc) hr
  have hright := ((Represents.of_canonical ha).mul (.of_canonical hb) hab).add
    ((Represents.of_canonical ha).mul (.of_canonical hc) hac) hs
  rw [mul_add] at hleft
  exact hleft.unique hright

/-- The laws of a commutative ring hold up to overflow. A sum does not depend on the order, nor does
its error. Zero and one are neutral, a difference from itself and a product with zero are zero, and
none of these overflows. Two ways of computing that the laws of associativity, commutativity of
products and distributivity relate give the same polynomial whenever neither overflows. -/
theorem ring_laws (ha : a.Canonical) (hb : b.Canonical) (hc : c.Canonical) :
    a.add b = b.add a ∧
    (a.add zero = .ok a ∧ zero.add a = .ok a) ∧
    (a.mul (constant 1) = .ok a ∧ (constant 1).mul a = .ok a) ∧
    a.sub a = .ok zero ∧
    (a.mul zero = .ok zero ∧ zero.mul a = .ok zero) ∧
    (∀ r s, (do (← a.add b).add c) = .ok r → (do a.add (← b.add c)) = .ok s → r = s) ∧
    (∀ r s, a.mul b = .ok r → b.mul a = .ok s → r = s) ∧
    (∀ r s, (do (← a.mul b).mul c) = .ok r → (do a.mul (← b.mul c)) = .ok s → r = s) ∧
    ∀ r s, (do a.mul (← b.add c)) = .ok r → (do (← a.mul b).add (← a.mul c)) = .ok s → r = s := by
  refine ⟨add_eq_add_swap ha hb, add_zero_eq_ok ha, mul_one_eq_ok ha, sub_self_eq_ok ha,
    mul_zero_eq_ok ha, fun r s hr hs => ?_, fun r s => mul_comm_of_eq_ok ha hb,
    fun r s hr hs => ?_, fun r s hr hs => ?_⟩
  · obtain ⟨ab, hab, hr⟩ := bind_eq_ok_iff.1 hr
    obtain ⟨bc, hbc, hs⟩ := bind_eq_ok_iff.1 hs
    exact add_assoc_of_eq_ok ha hb hc hab hr hbc hs
  · obtain ⟨ab, hab, hr⟩ := bind_eq_ok_iff.1 hr
    obtain ⟨bc, hbc, hs⟩ := bind_eq_ok_iff.1 hs
    exact mul_assoc_of_eq_ok ha hb hc hab hr hbc hs
  · obtain ⟨bc, hbc, hr⟩ := bind_eq_ok_iff.1 hr
    obtain ⟨ab, hab, hs⟩ := bind_eq_ok_iff.1 hs
    obtain ⟨ac, hac, hs⟩ := bind_eq_ok_iff.1 hs
    exact mul_add_of_eq_ok ha hb hc hbc hr hab hac hs

/-- All laws relate results for `x+y`, `x-y` and `2y-1`, whose terms cancel in different places. -/
theorem ring_laws_cancelling :
    let a : Polynomial := ⟨[⟨1, [⟨'x', 1⟩]⟩, ⟨1, [⟨'y', 1⟩]⟩]⟩
    let b : Polynomial := ⟨[⟨1, [⟨'x', 1⟩]⟩, ⟨-1, [⟨'y', 1⟩]⟩]⟩
    let c : Polynomial := ⟨[⟨2, [⟨'y', 1⟩]⟩, ⟨-1, []⟩]⟩
    a.Canonical ∧ b.Canonical ∧ c.Canonical ∧ a.add b = b.add a ∧
      (∃ r s, (do (← a.add b).add c) = .ok r ∧ (do a.add (← b.add c)) = .ok s ∧ r = s) ∧
      (∃ r s, a.mul b = .ok r ∧ b.mul a = .ok s ∧ r = s) ∧
      (∃ r s, (do (← a.mul b).mul c) = .ok r ∧ (do a.mul (← b.mul c)) = .ok s ∧ r = s) ∧
      ∃ r s, (do a.mul (← b.add c)) = .ok r ∧ (do (← a.mul b).add (← a.mul c)) = .ok s ∧ r = s := by
  intro a b c
  have ha : a.Canonical := by decide
  have hb : b.Canonical := by decide
  have hc : c.Canonical := by decide
  have hab : a.mul b = .ok ⟨[⟨1, [⟨'x', 2⟩]⟩, ⟨-1, [⟨'y', 2⟩]⟩]⟩ := by cbv
  have hba : b.mul a = .ok ⟨[⟨1, [⟨'x', 2⟩]⟩, ⟨-1, [⟨'y', 2⟩]⟩]⟩ := by cbv
  have hsumLeft : (do (← a.add b).add c) =
      .ok ⟨[⟨2, [⟨'x', 1⟩]⟩, ⟨2, [⟨'y', 1⟩]⟩, ⟨-1, []⟩]⟩ := by cbv
  have hsumRight : (do a.add (← b.add c)) =
      .ok ⟨[⟨2, [⟨'x', 1⟩]⟩, ⟨2, [⟨'y', 1⟩]⟩, ⟨-1, []⟩]⟩ := by cbv
  have hproductLeft : (do (← a.mul b).mul c) =
      .ok ⟨[⟨2, [⟨'x', 2⟩, ⟨'y', 1⟩]⟩, ⟨-1, [⟨'x', 2⟩]⟩, ⟨-2, [⟨'y', 3⟩]⟩,
        ⟨1, [⟨'y', 2⟩]⟩]⟩ := by cbv
  have hproductRight : (do a.mul (← b.mul c)) =
      .ok ⟨[⟨2, [⟨'x', 2⟩, ⟨'y', 1⟩]⟩, ⟨-1, [⟨'x', 2⟩]⟩, ⟨-2, [⟨'y', 3⟩]⟩,
        ⟨1, [⟨'y', 2⟩]⟩]⟩ := by cbv
  have hsumFactor : (do a.mul (← b.add c)) =
      .ok ⟨[⟨1, [⟨'x', 2⟩]⟩, ⟨2, [⟨'x', 1⟩, ⟨'y', 1⟩]⟩, ⟨-1, [⟨'x', 1⟩]⟩, ⟨1, [⟨'y', 2⟩]⟩,
        ⟨-1, [⟨'y', 1⟩]⟩]⟩ := by cbv
  have hsumProducts : (do (← a.mul b).add (← a.mul c)) =
      .ok ⟨[⟨1, [⟨'x', 2⟩]⟩, ⟨2, [⟨'x', 1⟩, ⟨'y', 1⟩]⟩, ⟨-1, [⟨'x', 1⟩]⟩, ⟨1, [⟨'y', 2⟩]⟩,
        ⟨-1, [⟨'y', 1⟩]⟩]⟩ := by cbv
  obtain ⟨hswap, -, -, -, -, haddAssoc, hmulComm, hmulAssoc, hdistrib⟩ := ring_laws ha hb hc
  exact ⟨ha, hb, hc, hswap, ⟨_, _, hsumLeft, hsumRight, haddAssoc _ _ hsumLeft hsumRight⟩,
    ⟨_, _, hab, hba, hmulComm _ _ hab hba⟩,
    ⟨_, _, hproductLeft, hproductRight, hmulAssoc _ _ hproductLeft hproductRight⟩,
    _, _, hsumFactor, hsumProducts, hdistrib _ _ hsumFactor hsumProducts⟩

end Polynomial

end SparsePoly

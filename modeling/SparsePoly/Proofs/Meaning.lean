import Mathlib.Algebra.MvPolynomial.Basic
import SparsePoly.Polynomial.Basic
import SparsePoly.Proofs.Exponents

/-!
# The polynomial that a term list stands for

A term list stands for a polynomial with integer coefficients in the letters, without any bound on
coefficients and degrees. `Polynomial.meaning` is that polynomial; every operation on term lists is
explained by what it does to it. On canonical term lists nothing is lost: the coefficients of the
meaning are those found in the list, and the list can be recovered from them.

* `Polynomial.coeff_meaning`: the meaning has the coefficients of the list.
* `Polynomial.ext_coefficientAt` and `Polynomial.meaning_injective`: a canonical polynomial is
  determined by its coefficients and so by its meaning.
-/

namespace SparsePoly

open MvPolynomial (coeff)

namespace Term

/-- The polynomial that a term stands for. -/
noncomputable def meaning (t : Term) : MvPolynomial Char Int :=
  MvPolynomial.monomial t.monomial.exponents t.coefficient.toInt

variable {m : Monomial} {t : Term} {ts : List Term}

/-- A term without coefficient stands for zero. -/
theorem meaning_eq_zero (h : t.coefficient = 0) : t.meaning = 0 := by
  rw [meaning, h]
  exact map_zero _

/-- What a coefficient and powers make stands for their product. -/
theorem meaning_ofPowers {c : Coefficient} {powers : List Power} (h : ofPowers c powers = .ok t) :
    t.meaning = MvPolynomial.monomial (Monomial.exponents powers) c.toInt := by
  have hterm := (ofPowers_eq_ok_iff (isLower_of_ofPowers h)).1 h
  by_cases hc : c = 0
  · rw [if_pos hc] at hterm
    subst hterm
    rw [meaning_eq_zero rfl, hc]
    exact (map_zero _).symm
  · rw [if_neg hc] at hterm
    rw [meaning, hterm.1, hterm.2.2]

theorem total_eq_sum (ts : List Term) : total ts = (ts.map fun t => t.coefficient.toInt).sum := by
  rw [total, List.sum_eq_foldl, List.foldl_map]

@[simp] theorem totalAt_nil (m : Monomial) : totalAt m [] = 0 := rfl

theorem totalAt_cons (m : Monomial) (t : Term) (ts : List Term) :
    totalAt m (t :: ts) = (if t.monomial = m then t.coefficient.toInt else 0) + totalAt m ts := by
  by_cases h : t.monomial = m <;> simp [totalAt, total_eq_sum, h]

/-- Where no term has the monomial, the coefficients at it add up to zero. -/
theorem totalAt_eq_zero (h : ∀ t ∈ ts, t.monomial ≠ m) : totalAt m ts = 0 := by
  induction ts with
  | nil => rfl
  | cons t ts ih =>
    obtain ⟨ht, hts⟩ := List.forall_mem_cons.1 h
    rw [totalAt_cons, if_neg ht, ih hts, zero_add]

end Term

namespace Polynomial

/-- The polynomial that a term list stands for. -/
noncomputable def meaning (p : Polynomial) : MvPolynomial Char Int :=
  (p.terms.map Term.meaning).sum

@[simp] theorem meaning_nil : meaning ⟨[]⟩ = 0 := rfl

@[simp] theorem meaning_cons (t : Term) (ts : List Term) :
    meaning ⟨t :: ts⟩ = t.meaning + meaning ⟨ts⟩ := by
  rw [meaning, List.map_cons, List.sum_cons]
  rfl

theorem meaning_append (ts us : List Term) : meaning ⟨ts ++ us⟩ = meaning ⟨ts⟩ + meaning ⟨us⟩ := by
  rw [meaning, List.map_append, List.sum_append]
  rfl

variable {p q : Polynomial} {m : Monomial} {t : Term}

/-! ### Coefficients -/

/-- The coefficients of the meaning are those of the term list. -/
theorem coeff_meaning (hp : ∀ t ∈ p.terms, t.WellFormed) (hm : m.WellFormed) :
    coeff m.exponents p.meaning = p.coefficientAt m := by
  obtain ⟨ts⟩ := p
  induction ts with
  | nil => exact MvPolynomial.coeff_zero _
  | cons t ts ih =>
    obtain ⟨ht, hts⟩ := List.forall_mem_cons.1 hp
    rw [meaning_cons, MvPolynomial.coeff_add, ih hts, Term.meaning, MvPolynomial.coeff_monomial,
      coefficientAt, coefficientAt, Term.totalAt_cons]
    simp only [Monomial.exponents_inj ht hm]

/-- Term lists with the same meaning have the same coefficients. -/
theorem coefficientAt_congr (hp : ∀ t ∈ p.terms, t.WellFormed) (hq : ∀ t ∈ q.terms, t.WellFormed)
    (h : p.meaning = q.meaning) (hm : m.WellFormed) : p.coefficientAt m = q.coefficientAt m := by
  rw [← coeff_meaning hp hm, h, coeff_meaning hq hm]

/-- In a canonical polynomial the coefficient at the monomial of a term is that of the term. -/
theorem coefficientAt_of_mem (hp : p.Canonical) (ht : t ∈ p.terms) :
    p.coefficientAt t.monomial = t.coefficient.toInt := by
  obtain ⟨ts⟩ := p
  induction ts with
  | nil => contradiction
  | cons u ts ih =>
    obtain ⟨-, -, hhead, hts⟩ := canonical_cons_iff.1 hp
    have hne : ∀ v ∈ ts, u.monomial ≠ v.monomial :=
      fun v hv => Monomial.ne_of_precedence_gt (hhead v hv)
    rw [coefficientAt, Term.totalAt_cons]
    rcases List.mem_cons.1 ht with rfl | ht
    · rw [if_pos rfl, Term.totalAt_eq_zero fun v hv => (hne v hv).symm, add_zero]
    · rw [if_neg (hne t ht), zero_add]
      exact ih hts ht

/-- In a canonical polynomial no two terms are like terms. -/
theorem eq_of_monomial_eq {u : Term} (hp : p.Canonical) (ht : t ∈ p.terms) (hu : u ∈ p.terms)
    (h : t.monomial = u.monomial) : t = u := by
  have hcoefficient : t.coefficient.toInt = u.coefficient.toInt := by
    rw [← coefficientAt_of_mem hp ht, h, coefficientAt_of_mem hp hu]
  obtain ⟨c, m⟩ := t
  obtain ⟨d, n⟩ := u
  rw [Term.mk.injEq]
  exact ⟨Int64.toInt_inj.1 hcoefficient, h⟩

/-- A monomial that no term has comes with the coefficient zero. -/
theorem exists_mem_of_coefficientAt_ne_zero (h : p.coefficientAt m ≠ 0) :
    ∃ t ∈ p.terms, t.monomial = m := by
  by_contra hnone
  exact h (Term.totalAt_eq_zero fun t ht htm => hnone ⟨t, ht, htm⟩)

/-- Exponents that the meaning has a coefficient at are those of a term. -/
theorem exists_mem_of_coeff_meaning_ne_zero {exponents : Char →₀ Nat}
    (h : coeff exponents p.meaning ≠ 0) : ∃ t ∈ p.terms, t.monomial.exponents = exponents := by
  obtain ⟨ts⟩ := p
  induction ts with
  | nil => exact absurd (MvPolynomial.coeff_zero _) h
  | cons t ts ih =>
    by_cases ht : t.monomial.exponents = exponents
    · exact ⟨t, .head ts, ht⟩
    · rw [meaning_cons, MvPolynomial.coeff_add, Term.meaning, MvPolynomial.coeff_monomial,
        if_neg ht, zero_add] at h
      obtain ⟨u, hu, hexponents⟩ := ih h
      exact ⟨u, .tail t hu, hexponents⟩

/-- The exponents that the meaning of a canonical polynomial has a coefficient at are those of the
terms. -/
theorem mem_support_meaning_iff (hp : p.Canonical) {exponents : Char →₀ Nat} :
    exponents ∈ p.meaning.support ↔ ∃ t ∈ p.terms, t.monomial.exponents = exponents := by
  rw [MvPolynomial.mem_support_iff]
  constructor
  · exact exists_mem_of_coeff_meaning_ne_zero
  · rintro ⟨t, ht, rfl⟩
    rw [coeff_meaning hp.wellFormed (hp.wellFormed t ht), coefficientAt_of_mem hp ht]
    exact fun hzero => hp.nonzero t ht (Int64.toInt_inj.1 hzero)

/-- Every coefficient of a canonical polynomial is the value of a word. -/
theorem coefficientAt_fits (hp : p.Canonical) (m : Monomial) :
    Coefficient.Fits (p.coefficientAt m) := by
  by_cases h : p.coefficientAt m = 0
  · rw [h]
    decide
  · obtain ⟨t, ht, rfl⟩ := exists_mem_of_coefficientAt_ne_zero h
    rw [coefficientAt_of_mem hp ht]
    exact Coefficient.fits_toInt t.coefficient

/-- The terms of a canonical polynomial are its nonzero coefficients. -/
theorem mem_terms_iff (hp : p.Canonical) :
    t ∈ p.terms ↔ t.coefficient ≠ 0 ∧ p.coefficientAt t.monomial = t.coefficient.toInt := by
  constructor
  · intro ht
    exact ⟨hp.nonzero t ht, coefficientAt_of_mem hp ht⟩
  · rintro ⟨hc, ht⟩
    have hne : p.coefficientAt t.monomial ≠ 0 := by
      rw [ht]
      exact fun hzero => hc (Int64.toInt_inj.1 hzero)
    obtain ⟨u, hu, hut⟩ := exists_mem_of_coefficientAt_ne_zero hne
    have hcoefficient : u.coefficient = t.coefficient := by
      rw [← Int64.toInt_inj, ← ht, ← hut, coefficientAt_of_mem hp hu]
    obtain ⟨c, n⟩ := t
    obtain ⟨d, n'⟩ := u
    rw [← show n' = n from hut, ← show d = c from hcoefficient]
    exact hu

/-! ### Uniqueness -/

/-- Canonical polynomials with the same coefficients are the same. -/
theorem ext_coefficientAt (hp : p.Canonical) (hq : q.Canonical)
    (h : ∀ m : Monomial, m.WellFormed → p.coefficientAt m = q.coefficientAt m) : p = q := by
  have hirrefl : Std.Irrefl fun t u : Term => t.precedence u = .gt :=
    ⟨fun t => Monomial.precedence_self_ne_gt t.monomial⟩
  have hantisymm : Std.Antisymm fun t u : Term => t.precedence u = .gt :=
    ⟨fun t u htu hut => absurd hut (Monomial.precedence_asymm htu)⟩
  have hterms : p.terms = q.terms := by
    refine hp.descending.eq_of_mem_iff hq.descending fun t => ⟨fun ht => ?_, fun ht => ?_⟩
    · have hcoefficient := (mem_terms_iff hp).1 ht
      rw [h _ (hp.wellFormed t ht)] at hcoefficient
      exact (mem_terms_iff hq).2 hcoefficient
    · have hcoefficient := (mem_terms_iff hq).1 ht
      rw [← h _ (hq.wellFormed t ht)] at hcoefficient
      exact (mem_terms_iff hp).2 hcoefficient
  obtain ⟨ts⟩ := p
  obtain ⟨us⟩ := q
  exact congrArg mk hterms

/-- Canonical polynomials with the same meaning are the same. -/
theorem meaning_injective (hp : p.Canonical) (hq : q.Canonical) (h : p.meaning = q.meaning) :
    p = q :=
  ext_coefficientAt hp hq fun _ hm => coefficientAt_congr hp.wellFormed hq.wellFormed h hm

/-- A canonical polynomial with terms does not stand for zero. -/
theorem meaning_ne_zero (hp : p.Canonical) (h : p.terms ≠ []) : p.meaning ≠ 0 := by
  intro hmeaning
  have hzero : p = zero := meaning_injective hp canonical_zero hmeaning
  exact h (congrArg terms hzero)

end Polynomial

end SparsePoly

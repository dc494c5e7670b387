import Mathlib.Algebra.MvPolynomial.Funext
import Mathlib.Data.List.TFAE
import SparsePoly.Proofs.Evaluation
import SparsePoly.Proofs.RoundTrip

/-!
# Canonical polynomials are unique

There are four ways to tell two canonical polynomials apart: by their term lists, by their
coefficients, by their values at integers and by their written forms. They come to the same. The
values determine the meaning, since a polynomial over the integers that vanishes everywhere is zero,
and only the letters count for them; the meaning determines the term list. The written form
determines the polynomial because it can be read again.

* `Polynomial.value_congr`: the value depends on the letters only.
* `Polynomial.value_injective`: canonical polynomials with the same values are the same.
* `Polynomial.toString_injective`: canonical polynomials with the same written form are the same.
* `Polynomial.canonical_tfae`: the four ways together.
-/

namespace SparsePoly

variable {v v' : Assignment}

/-! ### Values -/

/-- The value of a monomial depends only on the letters that it has. -/
theorem Monomial.value_congr {m : Monomial} (h : ∀ p ∈ m, v p.symbol = v' p.symbol) :
    m.value v = m.value v' := by
  have hpowers : m.map (Power.value v) = m.map (Power.value v') := by
    refine List.map_congr_left fun p hp => ?_
    rw [Power.value, Power.value, h p hp]
  rw [value, value, hpowers]

namespace Polynomial

variable {p q : Polynomial}

/-- The value of a canonical polynomial depends only on what is assigned to the letters. -/
theorem value_congr (hp : p.Canonical) (h : ∀ x ∈ letters, v x = v' x) :
    p.value v = p.value v' := by
  have hterms : p.terms.map (Term.value v) = p.terms.map (Term.value v') := by
    refine List.map_congr_left fun t ht => ?_
    have hmonomial : t.monomial.value v = t.monomial.value v' :=
      Monomial.value_congr fun s hs => h _ (mem_letters_iff.2 ((hp.wellFormed t ht).letter s hs))
    rw [Term.value, Term.value, hmonomial]
  rw [value, value, hterms]

/-- Canonical polynomials that have the same value wherever nothing is assigned to other characters
than the letters are the same. -/
theorem value_injective (hp : p.Canonical) (hq : q.Canonical)
    (h : ∀ v : Assignment, (∀ x ∉ letters, v x = 0) → p.value v = q.value v) : p = q := by
  refine meaning_injective hp hq (MvPolynomial.funext fun v => ?_)
  -- an assignment can be changed to zero outside of the letters
  let w : Assignment := fun x => if x ∈ letters then v x else 0
  have hletters : ∀ x ∈ letters, v x = w x := fun x hx => (if_pos hx).symm
  have hother : ∀ x ∉ letters, w x = 0 := fun x hx => if_neg hx
  rw [eval_meaning, eval_meaning, value_congr hp hletters, value_congr hq hletters, h w hother]

/-! ### Written forms -/

/-- Canonical polynomials with the same written form are the same. -/
theorem toString_injective (hp : p.Canonical) (hq : q.Canonical) (h : toString p = toString q) :
    p = q := by
  have hread := ofText_toString hp
  rw [h, ofText_toString hq] at hread
  exact (Except.ok.inj hread).symm

/-! ### Uniqueness -/

/-- Two canonical polynomials have the same term list exactly when they have the same coefficient
at every monomial, when they have the same value under every assignment of integers to the letters,
and when they have the same written form. -/
theorem canonical_tfae (hp : p.Canonical) (hq : q.Canonical) :
    [p = q,
      ∀ m : Monomial, m.WellFormed → p.coefficientAt m = q.coefficientAt m,
      ∀ v : Assignment, (∀ x ∉ letters, v x = 0) → p.value v = q.value v,
      toString p = toString q].TFAE := by
  tfae_have 1 → 2
  | h, m, _ => congrArg (coefficientAt · m) h
  tfae_have 2 → 1 := ext_coefficientAt hp hq
  tfae_have 1 → 3
  | h, v, _ => congrArg (value v) h
  tfae_have 3 → 1 := value_injective hp hq
  tfae_have 1 → 4 := congrArg toString
  tfae_have 4 → 1 := toString_injective hp hq
  tfae_finish

/-- `x12` and `12x` are told apart in all four ways. -/
theorem canonical_tfae_shuffled :
    let p : Polynomial := ⟨[⟨1, [⟨'x', 12⟩]⟩]⟩
    let q : Polynomial := ⟨[⟨12, [⟨'x', 1⟩]⟩]⟩
    p.Canonical ∧ q.Canonical ∧ toString p = "x12" ∧ toString q = "12x" ∧
      p ≠ q ∧ (¬ ∀ m : Monomial, m.WellFormed → p.coefficientAt m = q.coefficientAt m) ∧
      ¬ ∀ v : Assignment, (∀ x ∉ letters, v x = 0) → p.value v = q.value v := by
  intro p q
  have hp : p.Canonical := by decide
  have hq : q.Canonical := by decide
  have hpwritten : toString p = "x12" := by cbv
  have hqwritten : toString q = "12x" := by cbv
  have htfae := canonical_tfae hp hq
  have hdifferent : toString p ≠ toString q := by
    rw [hpwritten, hqwritten]
    decide
  exact ⟨hp, hq, hpwritten, hqwritten, fun h => hdifferent ((htfae.out 0 3).1 h),
    fun h => hdifferent ((htfae.out 1 3).1 h), fun h => hdifferent ((htfae.out 2 3).1 h)⟩

end Polynomial

end SparsePoly

import SparsePoly.Proofs.Exact
import SparsePoly.Proofs.Product

/-!
# Merging agrees with sorting

Sums and products are computed by merging term lists that are in order already. The plain way is to
put all terms into one list, to sort it and to add up like terms, which is what `ofTerms` does. The
two agree. A sum overflows exactly where the plain way does, since only the two coefficients at one
monomial meet in it. A product forms more sums on its way, and each has to be a word; but where it
succeeds, all products of two terms exist and combine to it, in whatever order they are given.

* `Polynomial.add_eq_ofTerms`: the sum of two polynomials.
* `Polynomial.ofTerms_products`: the product of two polynomials.
* `Polynomial.merging_agrees_with_sorting`: both together.
-/

namespace SparsePoly

namespace Polynomial

variable {p q r : Polynomial} {pairs : List (Term × Term)} {products ts : List Term}

/-- The sum of two canonical polynomials is what their terms together combine to, also when that
fails. -/
theorem add_eq_ofTerms (hp : p.Canonical) (hq : q.Canonical) :
    p.add q = ofTerms (p.terms ++ q.terms) := by
  have hwf : ∀ t ∈ p.terms ++ q.terms, t.WellFormed :=
    List.forall_mem_append.2 ⟨hp.wellFormed, hq.wellFormed⟩
  have hsorted := exact_ofTerms hwf
  simp only [Term.totalAt_append] at hsorted
  exact (exact_add hp hq).unique hsorted

/-- The products of pairs of terms stand for the products. -/
theorem meaning_products (h : pairs.mapM (fun s => s.1.mul s.2) = .ok products) :
    meaning ⟨products⟩ = (pairs.map fun s => s.1.meaning * s.2.meaning).sum := by
  induction pairs generalizing products with
  | nil =>
    obtain rfl : [] = products := Except.ok.inj h
    rfl
  | cons s pairs ih =>
    obtain ⟨t, ts, ht, hts, rfl⟩ := mapM_cons_eq_ok_iff.1 h
    rw [meaning_cons, Term.meaning_mul ht, ih hts, List.map_cons, List.sum_cons]

/-- Where two canonical polynomials have a product, their terms have products, and these combine to
it in every order. -/
theorem ofTerms_products (hp : p.Canonical) (hq : q.Canonical) (h : p.mul q = .ok r) :
    ∃ products, (p.terms ×ˢ q.terms).mapM (fun s => s.1.mul s.2) = .ok products ∧
      ∀ ts, ts.Perm products → ofTerms ts = .ok r := by
  obtain ⟨hterms, -⟩ := (exists_mul_eq_ok_iff hp hq).1 ⟨r, h⟩
  have hpairs : ∀ s ∈ p.terms ×ˢ q.terms, ∃ v, s.1.mul s.2 = .ok v := by
    intro s hs
    obtain ⟨ht, hu⟩ := List.mem_product.1 hs
    exact hterms s.1 ht s.2 hu
  obtain ⟨products, hproducts⟩ := exists_mapM_eq_ok_iff.2 hpairs
  refine ⟨products, hproducts, fun ts hperm => ?_⟩
  have hwf : ∀ t ∈ ts, t.WellFormed := by
    intro t ht
    obtain ⟨s, hs, hst⟩ := exists_mem_of_mapM_eq_ok hproducts t (hperm.mem_iff.1 ht)
    obtain ⟨hs₁, hs₂⟩ := List.mem_product.1 hs
    exact ((Term.mul_eq_ok_iff (hp.wellFormed _ hs₁) (hq.wellFormed _ hs₂)).1 hst).1
  obtain ⟨hr, hmeaning⟩ := mul_eq_ok hp hq h
  refine (ofTerms_eq_ok_iff hwf).2 ⟨hr, ?_⟩
  rw [hmeaning, Term.meaning_perm hperm, meaning_products hproducts, ← meaning_mul_eq_sum]

/-- Merging agrees with sorting and combining. The sum of two canonical polynomials is what their
terms combine to, with the same error where there is none; and where they have a product, the
product of every term of the first with every term of the second exists and all of them, in any
order, combine to it. -/
theorem merging_agrees_with_sorting (hp : p.Canonical) (hq : q.Canonical) :
    p.add q = ofTerms (p.terms ++ q.terms) ∧
    ∀ r, p.mul q = .ok r →
      ∃ products, (p.terms ×ˢ q.terms).mapM (fun s => s.1.mul s.2) = .ok products ∧
        ∀ ts, ts.Perm products → ofTerms ts = .ok r :=
  ⟨add_eq_ofTerms hp hq, fun _ hr => ofTerms_products hp hq hr⟩

/-- The products of `x+y` and `x-y` cancel in any order. -/
theorem merging_agrees_with_sorting_cancelling :
    let p : Polynomial := ⟨[⟨1, [⟨'x', 1⟩]⟩, ⟨1, [⟨'y', 1⟩]⟩]⟩
    let q : Polynomial := ⟨[⟨1, [⟨'x', 1⟩]⟩, ⟨-1, [⟨'y', 1⟩]⟩]⟩
    let r : Polynomial := ⟨[⟨1, [⟨'x', 2⟩]⟩, ⟨-1, [⟨'y', 2⟩]⟩]⟩
    p.Canonical ∧ q.Canonical ∧ p.add q = ofTerms (p.terms ++ q.terms) ∧ p.mul q = .ok r ∧
      ∃ products, (p.terms ×ˢ q.terms).mapM (fun s => s.1.mul s.2) = .ok products ∧
        ofTerms products.reverse = .ok r := by
  intro p q r
  have hp : p.Canonical := by decide
  have hq : q.Canonical := by decide
  have hr : p.mul q = .ok r := by cbv
  obtain ⟨hadd, hmul⟩ := merging_agrees_with_sorting hp hq
  obtain ⟨products, hproducts, hperm⟩ := hmul r hr
  exact ⟨hp, hq, hadd, hr, products, hproducts, hperm _ (List.reverse_perm products)⟩

end Polynomial

end SparsePoly

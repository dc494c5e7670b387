import SparsePoly.Proofs.MonomialOrder

/-!
# The first and the last term of a product

When the factors of a product of terms move to one side, so does the product. Hence only the two
extreme terms of a side reach the extreme monomial of a product there: nothing else is added to
their product and nothing cancels it. The argument is the same for the first terms and for the
last ones, so a side is given by the `Ordering` with which its extreme term compares to the others.

A polynomial with terms can therefore be cancelled from a product, as it can in every ring without
zero divisors.

* `Polynomial.Extreme`: the extreme term of a side; `Polynomial.extreme_head` and
  `Polynomial.extreme_getLast` say which it is, `Polynomial.Extreme.unique` that there is one.
* `Polynomial.Extreme.mul`: the extreme terms of a product.
* `Polynomial.mul_left_cancel_of_eq_ok`: cancellation.
* `Polynomial.extreme_terms_mul`: all together.
-/

namespace SparsePoly

namespace Polynomial

variable {a b c p r : Polynomial} {t t' u u' v v' : Term} {o : Ordering}

/-! ### Extreme terms -/

/-- The extreme term of a polynomial on a side compares to every other term as `o`. On the side `gt`
this is the first term, on the side `lt` the last. -/
structure Extreme (o : Ordering) (p : Polynomial) (t : Term) : Prop where
  /-- There are two sides. -/
  ne_eq : o ≠ .eq
  /-- It is one of the terms. -/
  mem : t ∈ p.terms
  /-- All other terms stand on the same side of it. -/
  eq_or_precedence : ∀ u ∈ p.terms, u = t ∨ t.precedence u = o

theorem extreme_head (hp : p.Canonical) (h : p.terms ≠ []) : Extreme .gt p (p.terms.head h) := by
  obtain ⟨ts⟩ := p
  obtain ⟨t, ts, rfl⟩ := List.exists_cons_of_ne_nil h
  obtain ⟨-, -, hhead, -⟩ := canonical_cons_iff.1 hp
  exact ⟨nofun, .head ts, List.forall_mem_cons.2 ⟨.inl rfl, fun u hu => .inr (hhead u hu)⟩⟩

theorem extreme_getLast (hp : p.Canonical) (h : p.terms ≠ []) :
    Extreme .lt p (p.terms.getLast h) := by
  have hdesc := hp.descending
  rw [← List.dropLast_concat_getLast h, List.pairwise_append] at hdesc
  refine ⟨nofun, List.getLast_mem h, fun u hu => ?_⟩
  rw [← List.dropLast_concat_getLast h] at hu
  rcases List.mem_append.1 hu with hu | hu
  · exact .inr (Std.OrientedCmp.lt_of_gt (hdesc.2.2 u hu _ (List.mem_singleton_self _)))
  · exact .inl (List.mem_singleton.1 hu)

/-- There is only one extreme term on a side. -/
theorem Extreme.unique (ht : Extreme o p t) (hu : Extreme o p u) : t = u := by
  rcases ht.eq_or_precedence u hu.mem with rfl | htu
  · rfl
  · rcases hu.eq_or_precedence t ht.mem with rfl | hut
    · rfl
    · have hswap : t.precedence u = (u.precedence t).swap := Std.OrientedCmp.eq_swap
      rw [htu, hut] at hswap
      cases o with
      | lt => contradiction
      | eq => exact absurd rfl ht.ne_eq
      | gt => contradiction

/-! ### Products -/

/-- On a side, the product of the extreme terms comes before all products of other terms. -/
theorem Extreme.precedence_mul (ha : a.Canonical) (hb : b.Canonical) (ht : Extreme o a t)
    (hu : Extreme o b u) (hproducts : ∀ s ∈ a.terms, ∀ s' ∈ b.terms, ∃ w, s.mul s' = .ok w)
    (ht' : t' ∈ a.terms) (hu' : u' ∈ b.terms) (hv : t.mul u = .ok v) (hv' : t'.mul u' = .ok v') :
    (t' = t ∧ u' = u) ∨ v.precedence v' = o := by
  have htwf := ha.wellFormed t ht.mem
  have huwf := hb.wellFormed u hu.mem
  have htwf' := ha.wellFormed t' ht'
  have huwf' := hb.wellFormed u' hu'
  rcases ht.eq_or_precedence t' ht' with rfl | htt
  · rcases hu.eq_or_precedence u' hu' with rfl | huu
    · exact .inl ⟨rfl, rfl⟩
    · exact .inr ((Term.precedence_mul_left htwf huwf huwf' hv hv').trans huu)
  · rcases hu.eq_or_precedence u' hu' with rfl | huu
    · exact .inr ((Term.precedence_mul_right huwf htwf htwf' hv hv').trans htt)
    · obtain ⟨w, hw⟩ := hproducts t ht.mem u' hu'
      exact .inr (Term.precedence_mul_mul htwf huwf htwf' huwf' htt huu hv hv' hw)

/-- Only the extreme terms of a side have a product with the exponents of theirs. -/
private theorem Extreme.uniqueAdd (ha : a.Canonical) (hb : b.Canonical)
    (ht : Extreme o a t) (hu : Extreme o b u)
    (hproducts : ∀ s ∈ a.terms, ∀ s' ∈ b.terms, ∃ w, s.mul s' = .ok w) :
    UniqueAdd a.meaning.support b.meaning.support t.monomial.exponents u.monomial.exponents := by
  intro d e hd he hsum
  obtain ⟨t', ht', rfl⟩ := (mem_support_meaning_iff ha).1 hd
  obtain ⟨u', hu', rfl⟩ := (mem_support_meaning_iff hb).1 he
  obtain ⟨v, hv⟩ := hproducts t ht.mem u hu.mem
  obtain ⟨v', hv'⟩ := hproducts t' ht' u' hu'
  obtain ⟨hvwf, -, hvm⟩ :=
    (Term.mul_eq_ok_iff (ha.wellFormed t ht.mem) (hb.wellFormed u hu.mem)).1 hv
  obtain ⟨hvwf', -, hvm'⟩ :=
    (Term.mul_eq_ok_iff (ha.wellFormed t' ht') (hb.wellFormed u' hu')).1 hv'
  have hsame : v.monomial = v'.monomial :=
    Monomial.exponents_injective hvwf hvwf' (by rw [hvm, hvm', hsum])
  rcases ht.precedence_mul ha hb hu hproducts ht' hu' hv hv' with ⟨rfl, rfl⟩ | hvv
  · exact ⟨rfl, rfl⟩
  · exact absurd (hvv.symm.trans (Term.precedence_eq_eq_iff.2 hsame)) ht.ne_eq

/-- Every term of a product has the monomial of a product of two terms. -/
theorem exists_mem_of_mem_mul (ha : a.Canonical) (hb : b.Canonical) (h : a.mul b = .ok r)
    (hv : v ∈ r.terms) :
    ∃ t ∈ a.terms, ∃ u ∈ b.terms, ∃ w, t.mul u = .ok w ∧ w.monomial = v.monomial := by
  obtain ⟨hproducts, -⟩ := (exists_mul_eq_ok_iff ha hb).1 ⟨r, h⟩
  obtain ⟨hr, hmeaning⟩ := mul_eq_ok ha hb h
  have hvwf := hr.wellFormed v hv
  have hsupport : v.monomial.exponents ∈ r.meaning.support :=
    (mem_support_meaning_iff hr).2 ⟨v, hv, rfl⟩
  rw [hmeaning] at hsupport
  obtain ⟨d, hd, e, he, hsum⟩ := Finset.mem_add.1 (MvPolynomial.support_mul _ _ hsupport)
  obtain ⟨t, ht, rfl⟩ := (mem_support_meaning_iff ha).1 hd
  obtain ⟨u, hu, rfl⟩ := (mem_support_meaning_iff hb).1 he
  obtain ⟨w, hw⟩ := hproducts t ht u hu
  obtain ⟨hwwf, -, hwm⟩ :=
    (Term.mul_eq_ok_iff (ha.wellFormed t ht) (hb.wellFormed u hu)).1 hw
  exact ⟨t, ht, u, hu, w, hw, Monomial.exponents_injective hwwf hvwf (hwm.trans hsum)⟩

/-- The extreme term of a product is the product of the extreme terms. -/
theorem Extreme.mul (ha : a.Canonical) (hb : b.Canonical) (ht : Extreme o a t)
    (hu : Extreme o b u) (h : a.mul b = .ok r) : ∃ v, t.mul u = .ok v ∧ Extreme o r v := by
  obtain ⟨hproducts, -⟩ := (exists_mul_eq_ok_iff ha hb).1 ⟨r, h⟩
  obtain ⟨hr, hmeaning⟩ := mul_eq_ok ha hb h
  obtain ⟨v, hv⟩ := hproducts t ht.mem u hu.mem
  have htwf := ha.wellFormed t ht.mem
  have huwf := hb.wellFormed u hu.mem
  obtain ⟨hvwf, hvc, hvm⟩ := (Term.mul_eq_ok_iff htwf huwf).1 hv
  have hcoefficient : r.coefficientAt v.monomial = v.coefficient.toInt := by
    rw [← coeff_meaning hr.wellFormed hvwf, hmeaning, hvm, hvc,
      ← coefficientAt_of_mem ha ht.mem, ← coefficientAt_of_mem hb hu.mem,
      ← coeff_meaning ha.wellFormed htwf, ← coeff_meaning hb.wellFormed huwf]
    exact AddMonoidAlgebra.coeff_mul_add_of_uniqueAdd (ht.uniqueAdd ha hb hu hproducts)
  have hnonzero := Term.mul_ne_zero (ha.nonzero t ht.mem) (hb.nonzero u hu.mem) hv
  have hmem : v ∈ r.terms := (mem_terms_iff hr).2 ⟨hnonzero, hcoefficient⟩
  refine ⟨v, hv, ht.ne_eq, hmem, fun w hw => ?_⟩
  obtain ⟨t', ht', u', hu', v', hv', hmonomial⟩ := exists_mem_of_mem_mul ha hb h hw
  rcases ht.precedence_mul ha hb hu hproducts ht' hu' hv hv' with ⟨rfl, rfl⟩ | hvv
  · rw [hv, Except.ok.injEq] at hv'
    subst hv'
    exact .inl (eq_of_monomial_eq hr hw hmem hmonomial.symm)
  · refine .inr ?_
    rw [Term.precedence, ← hmonomial]
    exact hvv

/-! ### Cancellation -/

/-- A polynomial with terms can be cancelled from products that exist. -/
theorem mul_left_cancel_of_eq_ok (ha : a.Canonical) (hb : b.Canonical) (hc : c.Canonical)
    (hne : a.terms ≠ []) (hab : a.mul b = .ok r) (hac : a.mul c = .ok r) : b = c := by
  obtain ⟨-, hbmeaning⟩ := mul_eq_ok ha hb hab
  obtain ⟨-, hcmeaning⟩ := mul_eq_ok ha hc hac
  have hproducts : a.meaning * b.meaning = a.meaning * c.meaning := by
    rw [← hbmeaning, hcmeaning]
  exact meaning_injective hb hc (mul_left_cancel₀ (meaning_ne_zero ha hne) hproducts)

/-- The extreme terms of a product never cancel. The product of two canonical polynomials with terms
has terms; its first term is the product of the first terms and its last term the product of the
last ones. So a polynomial with terms can be cancelled: where it has the same product with two
canonical polynomials, these are the same. -/
theorem extreme_terms_mul (ha : a.Canonical) (hane : a.terms ≠ []) (hb : b.Canonical) :
    (∀ (hbne : b.terms ≠ []) (r : Polynomial), a.mul b = .ok r →
      ∃ hrne : r.terms ≠ [],
        (a.terms.head hane).mul (b.terms.head hbne) = .ok (r.terms.head hrne) ∧
        (a.terms.getLast hane).mul (b.terms.getLast hbne) = .ok (r.terms.getLast hrne)) ∧
    ∀ c r : Polynomial, c.Canonical → a.mul b = .ok r → a.mul c = .ok r → b = c := by
  refine ⟨fun hbne r h => ?_, fun c r hc hab hac => mul_left_cancel_of_eq_ok ha hb hc hane hab hac⟩
  obtain ⟨hr, -⟩ := mul_eq_ok ha hb h
  obtain ⟨v, hv, hfirst⟩ := (extreme_head ha hane).mul ha hb (extreme_head hb hbne) h
  obtain ⟨w, hw, hlast⟩ := (extreme_getLast ha hane).mul ha hb (extreme_getLast hb hbne) h
  have hrne : r.terms ≠ [] := List.ne_nil_of_mem hfirst.mem
  refine ⟨hrne, ?_, ?_⟩
  · rw [hv, hfirst.unique (extreme_head hr hrne)]
  · rw [hw, hlast.unique (extreme_getLast hr hrne)]

/-- All inner products of `x2-xy+y2` and `x+y` cancel, and the extreme ones are left. -/
theorem extreme_terms_mul_cancelling :
    let a : Polynomial := ⟨[⟨1, [⟨'x', 2⟩]⟩, ⟨-1, [⟨'x', 1⟩, ⟨'y', 1⟩]⟩, ⟨1, [⟨'y', 2⟩]⟩]⟩
    let b : Polynomial := ⟨[⟨1, [⟨'x', 1⟩]⟩, ⟨1, [⟨'y', 1⟩]⟩]⟩
    let r : Polynomial := ⟨[⟨1, [⟨'x', 3⟩]⟩, ⟨1, [⟨'y', 3⟩]⟩]⟩
    a.Canonical ∧ b.Canonical ∧ a.mul b = .ok r ∧
      Term.mul ⟨1, [⟨'x', 2⟩]⟩ ⟨1, [⟨'x', 1⟩]⟩ = .ok ⟨1, [⟨'x', 3⟩]⟩ ∧
      Term.mul ⟨1, [⟨'y', 2⟩]⟩ ⟨1, [⟨'y', 1⟩]⟩ = .ok ⟨1, [⟨'y', 3⟩]⟩ ∧
      ∀ c : Polynomial, c.Canonical → a.mul c = .ok r → b = c := by
  intro a b r
  have ha : a.Canonical := by decide
  have hb : b.Canonical := by decide
  have hab : a.mul b = .ok r := by cbv
  obtain ⟨hextreme, hcancel⟩ := extreme_terms_mul ha (List.cons_ne_nil _ _) hb
  obtain ⟨hrne, hfirst, hlast⟩ := hextreme (List.cons_ne_nil _ _) r hab
  exact ⟨ha, hb, hab, hfirst, hlast, fun c hc => hcancel c r hc hab⟩

end Polynomial

end SparsePoly

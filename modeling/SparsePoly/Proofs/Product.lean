import Mathlib.Data.List.ProdSigma
import SparsePoly.Proofs.Sum

/-!
# Products are exact

A product is built from partial products: each term of the first polynomial times the whole second
one, added up from the first term on. A partial product needs no sorting since a common factor does
not change the order of monomials, and it has no zero terms since coefficients are multiplied
exactly. So after `k` steps the sum is the canonical polynomial that stands for the product of the
first `k` terms with the second polynomial, and the next step fails only where one of the exact
numbers that it forms is no word.

* `Term.mul_eq_ok_iff`, `Term.exists_mul_eq_ok_iff`: the product of two terms.
* `Polynomial.scale_eq_ok`: a partial product.
* `Polynomial.mul_eq_ok`, `Polynomial.exists_mul_eq_ok_iff`: the product of two polynomials.
* `Polynomial.mul_eq_convolution`: the same in terms of coefficients, as convolution sums.
-/

namespace SparsePoly

open MvPolynomial (coeff)

/-! ### Products of terms -/

namespace Term

variable {t u r : Term} {e : Error}

theorem monomial_mul (h : t.mul u = .ok r) : t.monomial.mul u.monomial = .ok r.monomial := by
  obtain ⟨c, -, h⟩ := bind_eq_ok_iff.1 h
  obtain ⟨m, hm, h⟩ := bind_eq_ok_iff.1 h
  cases h
  exact hm

/-- The product of two terms that are not zero is not zero. -/
theorem mul_ne_zero (ht : t.coefficient ≠ 0) (hu : u.coefficient ≠ 0) (h : t.mul u = .ok r) :
    r.coefficient ≠ 0 := by
  obtain ⟨c, hc, h⟩ := bind_eq_ok_iff.1 h
  obtain ⟨m, -, h⟩ := bind_eq_ok_iff.1 h
  cases h
  rintro rfl
  rcases Int.mul_eq_zero.1 (Coefficient.checked_eq_ok_iff.1 hc).symm with hzero | hzero
  · exact ht (Int64.toInt_inj.1 hzero)
  · exact hu (Int64.toInt_inj.1 hzero)

/-- The product of two terms stands for the product. -/
theorem meaning_mul (h : t.mul u = .ok r) : r.meaning = t.meaning * u.meaning := by
  obtain ⟨c, hc, h⟩ := bind_eq_ok_iff.1 h
  obtain ⟨m, hm, h⟩ := bind_eq_ok_iff.1 h
  cases h
  rw [meaning, meaning, meaning, MvPolynomial.monomial_mul, Coefficient.checked_eq_ok_iff.1 hc,
    Monomial.exponents_mul hm]

/-- The product of two terms has the exact product of the coefficients and the exact sums of the
exponents. -/
theorem mul_eq_ok_iff (ht : t.WellFormed) (hu : u.WellFormed) :
    t.mul u = .ok r ↔
      r.WellFormed ∧ r.coefficient.toInt = t.coefficient.toInt * u.coefficient.toInt ∧
        r.monomial.exponents = t.monomial.exponents + u.monomial.exponents := by
  rw [mul, bind_eq_ok_iff]
  constructor
  · rintro ⟨c, hc, h⟩
    obtain ⟨m, hm, h⟩ := bind_eq_ok_iff.1 h
    cases h
    exact ⟨Monomial.wellFormed_mul ht hu hm, Coefficient.checked_eq_ok_iff.1 hc,
      Monomial.exponents_mul hm⟩
  · rintro ⟨hr, hc, hm⟩
    exact ⟨r.coefficient, Coefficient.checked_eq_ok_iff.2 hc,
      bind_eq_ok_iff.2 ⟨r.monomial, (Monomial.mul_eq_ok_iff ht hu).2 ⟨hr, hm⟩, rfl⟩⟩

/-- Two terms have a product exactly when the product of the coefficients is a word and the sums of
the degrees are degrees. -/
theorem exists_mul_eq_ok_iff (ht : t.WellFormed) (hu : u.WellFormed) :
    (∃ r, t.mul u = .ok r) ↔
      Coefficient.Fits (t.coefficient.toInt * u.coefficient.toInt) ∧
        ∀ x, Degree.Fits ((t.degree x).toNat + (u.degree x).toNat) := by
  have hexponents : (∀ x, Degree.Fits ((t.degree x).toNat + (u.degree x).toNat)) ↔
      ∃ m, t.monomial.mul u.monomial = .ok m := by
    rw [Monomial.exists_mul_eq_ok_iff ht hu]
    simp only [exponents_monomial_apply ht, exponents_monomial_apply hu]
  rw [hexponents]
  constructor
  · rintro ⟨r, h⟩
    obtain ⟨c, hc, h⟩ := bind_eq_ok_iff.1 h
    obtain ⟨m, hm, -⟩ := bind_eq_ok_iff.1 h
    rw [← Coefficient.checked_eq_ok_iff.1 hc]
    exact ⟨Coefficient.fits_toInt c, m, hm⟩
  · rintro ⟨hfits, m, hm⟩
    exact ⟨⟨_, m⟩, bind_eq_ok_iff.2 ⟨_, if_pos hfits, bind_eq_ok_iff.2 ⟨m, hm, rfl⟩⟩⟩

/-- The only errors of a product of terms are overflows. -/
theorem mul_eq_error (h : t.mul u = .error e) : ∃ quantity, e = .overflow quantity := by
  rcases bind_eq_error_iff.1 h with h | ⟨c, -, h⟩
  · exact ⟨_, (Coefficient.checked_eq_error_iff.1 h).2⟩
  · rcases bind_eq_error_iff.1 h with h | ⟨m, -, h⟩
    · exact ⟨_, (Monomial.mul_eq_error h).1⟩
    · contradiction

end Term

namespace Polynomial

variable {t : Term} {ts us rs : List Term} {p q r s : Polynomial} {e : Error}

/-! ### Partial products -/

private theorem canonical_mapM_mul (ht : t.WellFormed) (htc : t.coefficient ≠ 0)
    (hus : Canonical ⟨us⟩) (h : us.mapM t.mul = .ok rs) :
    Canonical ⟨rs⟩ ∧ meaning ⟨rs⟩ = t.meaning * meaning ⟨us⟩ := by
  induction us generalizing rs with
  | nil =>
    obtain rfl : [] = rs := Except.ok.inj h
    exact ⟨canonical_zero, (mul_zero _).symm⟩
  | cons u us ih =>
    obtain ⟨hu, huc, hhead, hus'⟩ := canonical_cons_iff.1 hus
    obtain ⟨v, rest, hv, hrest, rfl⟩ := mapM_cons_eq_ok_iff.1 h
    obtain ⟨hcanonical, hmeaning⟩ := ih hus' hrest
    obtain ⟨hvwf, -⟩ := (Term.mul_eq_ok_iff ht hu).1 hv
    -- the common factor `t` leaves the order as it is
    have hbehind : ∀ w ∈ rest, v.precedence w = .gt := by
      intro w hw
      obtain ⟨u', hu', hw⟩ := exists_mem_of_mapM_eq_ok hrest w hw
      have hsame := Monomial.precedence_mul ht hu (hus'.wellFormed u' hu') (Term.monomial_mul hv)
        (Term.monomial_mul hw)
      exact hsame.trans (hhead u' hu')
    refine ⟨canonical_cons_iff.2 ⟨hvwf, Term.mul_ne_zero htc huc hv, hbehind, hcanonical⟩, ?_⟩
    rw [meaning_cons, meaning_cons, Term.meaning_mul hv, hmeaning, mul_add]

/-- A partial product is the canonical polynomial that stands for the product. -/
theorem scale_eq_ok (ht : t.WellFormed) (htc : t.coefficient ≠ 0) (hq : q.Canonical)
    (h : scale t q = .ok s) : s.Canonical ∧ s.meaning = t.meaning * q.meaning := by
  obtain ⟨rs, hrs, h⟩ := bind_eq_ok_iff.1 h
  cases h
  exact canonical_mapM_mul ht htc hq hrs

theorem exists_scale_eq_ok_iff :
    (∃ s, scale t q = .ok s) ↔ ∀ u ∈ q.terms, ∃ r, t.mul u = .ok r := by
  rw [← exists_mapM_eq_ok_iff]
  exact exists_bind_pure_eq_ok_iff

/-! ### The loop over the first polynomial -/

/-- One step of a product: the partial product of a term is added to what there is. -/
def addScaled (q sum : Polynomial) (t : Term) : Except Error Polynomial := do
  sum.add (← scale t q)

theorem mul_eq_foldlM (p q : Polynomial) : p.mul q = p.terms.foldlM (addScaled q) zero := rfl

/-- A step keeps the sum canonical and adds the product of the term. -/
theorem addScaled_eq_ok (ht : t.WellFormed) (htc : t.coefficient ≠ 0) (hq : q.Canonical)
    (hp : p.Canonical) (h : addScaled q p t = .ok r) :
    r.Canonical ∧ r.meaning = p.meaning + t.meaning * q.meaning := by
  obtain ⟨s, hs, h⟩ := bind_eq_ok_iff.1 h
  obtain ⟨hscanonical, hsmeaning⟩ := scale_eq_ok ht htc hq hs
  rw [← hsmeaning]
  exact (add_eq_ok_iff hp hscanonical).1 h

/-- All steps keep the sum canonical and add the product of all terms. -/
private theorem foldlM_addScaled_eq_ok (hts : ∀ t ∈ ts, t.WellFormed)
    (htsc : ∀ t ∈ ts, t.coefficient ≠ 0) (hq : q.Canonical) (hp : p.Canonical)
    (h : ts.foldlM (addScaled q) p = .ok r) :
    r.Canonical ∧ r.meaning = p.meaning + meaning ⟨ts⟩ * q.meaning := by
  induction ts generalizing p with
  | nil =>
    cases h
    rw [meaning_nil, zero_mul, add_zero]
    exact ⟨hp, rfl⟩
  | cons t ts ih =>
    obtain ⟨ht, hts⟩ := List.forall_mem_cons.1 hts
    obtain ⟨htc, htsc⟩ := List.forall_mem_cons.1 htsc
    obtain ⟨p', hp', h⟩ := bind_eq_ok_iff.1 h
    obtain ⟨hcanonical, hmeaning⟩ := addScaled_eq_ok ht htc hq hp hp'
    rw [meaning_cons, add_mul, ← add_assoc, ← hmeaning]
    exact ih hts htsc hcanonical h

/-- A step succeeds exactly when the partial product exists and all coefficients of the exact sum
are words. -/
private theorem exists_addScaled_eq_ok_iff (ht : t.WellFormed) (htc : t.coefficient ≠ 0)
    (hq : q.Canonical) (hp : p.Canonical) :
    (∃ r, addScaled q p t = .ok r) ↔ (∃ s, scale t q = .ok s) ∧
      ∀ m : Monomial, m.WellFormed →
        Coefficient.Fits (coeff m.exponents (p.meaning + t.meaning * q.meaning)) := by
  constructor
  · rintro ⟨r, hr⟩
    obtain ⟨s, hs, -⟩ := bind_eq_ok_iff.1 hr
    obtain ⟨hcanonical, hmeaning⟩ := addScaled_eq_ok ht htc hq hp hr
    refine ⟨⟨s, hs⟩, fun m hm => ?_⟩
    rw [← hmeaning, coeff_meaning hcanonical.wellFormed hm]
    exact coefficientAt_fits hcanonical m
  · rintro ⟨⟨s, hs⟩, hfits⟩
    obtain ⟨hscanonical, hsmeaning⟩ := scale_eq_ok ht htc hq hs
    have hsum : ∀ m : Monomial, m.WellFormed →
        Coefficient.Fits (p.coefficientAt m + s.coefficientAt m) := by
      intro m hm
      rw [← coeff_meaning hp.wellFormed hm, ← coeff_meaning hscanonical.wellFormed hm,
        ← MvPolynomial.coeff_add, hsmeaning]
      exact hfits m hm
    obtain ⟨r, hr⟩ := (exists_add_eq_ok_iff hp hscanonical).2 hsum
    exact ⟨r, bind_eq_ok_iff.2 ⟨s, hs, hr⟩⟩

/-- All steps succeed exactly when all partial products exist and after each step all coefficients
of the exact sum are words. -/
private theorem exists_foldlM_addScaled_eq_ok_iff (hts : ∀ t ∈ ts, t.WellFormed)
    (htsc : ∀ t ∈ ts, t.coefficient ≠ 0) (hq : q.Canonical) (hp : p.Canonical) :
    (∃ r, ts.foldlM (addScaled q) p = .ok r) ↔ (∀ t ∈ ts, ∃ s, scale t q = .ok s) ∧
      ∀ k < ts.length, ∀ m : Monomial, m.WellFormed → Coefficient.Fits
        (coeff m.exponents (p.meaning + meaning ⟨ts.take (k + 1)⟩ * q.meaning)) := by
  induction ts generalizing p with
  | nil => exact ⟨fun _ => ⟨nofun, nofun⟩, fun _ => ⟨p, rfl⟩⟩
  | cons t ts ih =>
    obtain ⟨ht, hts⟩ := List.forall_mem_cons.1 hts
    obtain ⟨htc, htsc⟩ := List.forall_mem_cons.1 htsc
    -- `k + 1` terms are the first one, which the step adds to the sum, and `k` of the others
    have hsplit : ∀ k, p.meaning + meaning ⟨(t :: ts).take (k + 1)⟩ * q.meaning =
        p.meaning + t.meaning * q.meaning + meaning ⟨ts.take k⟩ * q.meaning := by
      intro k
      rw [List.take_succ_cons, meaning_cons, add_mul, add_assoc]
    have hfirst : p.meaning + meaning ⟨(t :: ts).take (0 + 1)⟩ * q.meaning =
        p.meaning + t.meaning * q.meaning := by
      rw [hsplit, List.take_zero, meaning_nil, zero_mul, add_zero]
    rw [List.forall_mem_cons]
    constructor
    · rintro ⟨r, h⟩
      obtain ⟨p', hp', h⟩ := bind_eq_ok_iff.1 h
      obtain ⟨hcanonical, hmeaning⟩ := addScaled_eq_ok ht htc hq hp hp'
      obtain ⟨hscale, hstep⟩ := (exists_addScaled_eq_ok_iff ht htc hq hp).1 ⟨p', hp'⟩
      obtain ⟨hscales, hsteps⟩ := (ih hts htsc hcanonical).1 ⟨r, h⟩
      refine ⟨⟨hscale, hscales⟩, fun k hk => ?_⟩
      cases k with
      | zero =>
        rw [hfirst]
        exact hstep
      | succ k =>
        rw [hsplit, ← hmeaning]
        exact hsteps k (Nat.lt_of_succ_lt_succ hk)
    · rintro ⟨⟨hscale, hscales⟩, hfits⟩
      have hstep := hfits 0 (Nat.succ_pos _)
      rw [hfirst] at hstep
      obtain ⟨p', hp'⟩ := (exists_addScaled_eq_ok_iff ht htc hq hp).2 ⟨hscale, hstep⟩
      obtain ⟨hcanonical, hmeaning⟩ := addScaled_eq_ok ht htc hq hp hp'
      have hsteps : ∀ k < ts.length, ∀ m : Monomial, m.WellFormed → Coefficient.Fits
          (coeff m.exponents (p'.meaning + meaning ⟨ts.take (k + 1)⟩ * q.meaning)) := by
        intro k hk
        rw [hmeaning, ← hsplit]
        exact hfits (k + 1) (Nat.succ_lt_succ hk)
      obtain ⟨r, hr⟩ := (ih hts htsc hcanonical).2 ⟨hscales, hsteps⟩
      exact ⟨r, bind_eq_ok_iff.2 ⟨p', hp', hr⟩⟩

private theorem foldlM_addScaled_eq_error (hts : ∀ t ∈ ts, t.WellFormed)
    (htsc : ∀ t ∈ ts, t.coefficient ≠ 0) (hq : q.Canonical) (hp : p.Canonical)
    (h : ts.foldlM (addScaled q) p = .error e) : ∃ quantity, e = .overflow quantity := by
  induction ts generalizing p with
  | nil => contradiction
  | cons t ts ih =>
    obtain ⟨ht, hts⟩ := List.forall_mem_cons.1 hts
    obtain ⟨htc, htsc⟩ := List.forall_mem_cons.1 htsc
    rcases bind_eq_error_iff.1 h with h | ⟨p', hp', h⟩
    · rcases bind_eq_error_iff.1 h with h | ⟨s, hs, h⟩
      · rcases bind_eq_error_iff.1 h with h | ⟨rs, -, h⟩
        · obtain ⟨u, -, hu⟩ := exists_mem_of_mapM_eq_error h
          exact Term.mul_eq_error hu
        · contradiction
      · exact ⟨_, add_eq_error hp (scale_eq_ok ht htc hq hs).1 h⟩
    · exact ih hts htsc (addScaled_eq_ok ht htc hq hp hp').1 h

/-! ### Products of polynomials -/

/-- The product of canonical polynomials is a canonical polynomial that stands for the product. -/
theorem mul_eq_ok (hp : p.Canonical) (hq : q.Canonical) (h : p.mul q = .ok r) :
    r.Canonical ∧ r.meaning = p.meaning * q.meaning := by
  rw [mul_eq_foldlM] at h
  obtain ⟨hr, hmeaning⟩ :=
    foldlM_addScaled_eq_ok hp.wellFormed hp.nonzero hq canonical_zero h
  have hzero : zero.meaning = 0 := meaning_nil
  rw [hzero, zero_add] at hmeaning
  exact ⟨hr, hmeaning⟩

/-- Canonical polynomials have a product exactly when their terms have products and all coefficients
of the products of the first terms with the second polynomial are words. -/
theorem exists_mul_eq_ok_iff (hp : p.Canonical) (hq : q.Canonical) :
    (∃ r, p.mul q = .ok r) ↔
      (∀ t ∈ p.terms, ∀ u ∈ q.terms, ∃ v, t.mul u = .ok v) ∧
        ∀ k ≤ p.terms.length, ∀ m : Monomial, m.WellFormed →
          Coefficient.Fits (coeff m.exponents (meaning ⟨p.terms.take k⟩ * q.meaning)) := by
  have hzero : zero.meaning = 0 := meaning_nil
  have hfold := exists_foldlM_addScaled_eq_ok_iff hp.wellFormed hp.nonzero hq canonical_zero
  simp only [hzero, zero_add, exists_scale_eq_ok_iff] at hfold
  rw [mul_eq_foldlM, hfold]
  refine and_congr_right fun _ => ⟨fun hfits k hk => ?_, fun hfits k hk => hfits (k + 1) hk⟩
  cases k with
  | zero =>
    intro m _
    rw [List.take_zero, meaning_nil, zero_mul, MvPolynomial.coeff_zero]
    decide
  | succ k => exact hfits k hk

/-- The only errors of a product are overflows. -/
theorem mul_eq_error (hp : p.Canonical) (hq : q.Canonical) (h : p.mul q = .error e) :
    ∃ quantity, e = .overflow quantity :=
  foldlM_addScaled_eq_error hp.wellFormed hp.nonzero hq canonical_zero h

end Polynomial

/-! ### Convolution sums -/

/-- Whether a monomial is the product of two others: its degrees are the exact sums of theirs. -/
def Monomial.IsProduct (m n r : Monomial) : Prop :=
  ∀ x ∈ letters, (m.degree x).toNat + (n.degree x).toNat = (r.degree x).toNat

instance (m n r : Monomial) : Decidable (m.IsProduct n r) :=
  List.decidableBAll _ letters

/-- The exact sum of the products of coefficients over those pairs of terms whose monomials have the
product `m`. -/
def Term.totalProductAt (m : Monomial) (pairs : List (Term × Term)) : Int :=
  ((pairs.filter fun s => s.1.monomial.IsProduct s.2.monomial m).map fun s =>
    s.1.coefficient.toInt * s.2.coefficient.toInt).sum

/-- The convolution sum at `m`, over all pairs of a term of `ts` and a term of `us`. -/
def Term.convolution (m : Monomial) (ts us : List Term) : Int :=
  totalProductAt m (ts ×ˢ us)

theorem Term.totalProductAt_cons (m : Monomial) (s : Term × Term) (pairs : List (Term × Term)) :
    totalProductAt m (s :: pairs) =
      (if s.1.monomial.IsProduct s.2.monomial m then s.1.coefficient.toInt * s.2.coefficient.toInt
        else 0) + totalProductAt m pairs := by
  by_cases h : s.1.monomial.IsProduct s.2.monomial m <;> simp [totalProductAt, h]

theorem Monomial.isProduct_iff {m n r : Monomial} (hm : m.WellFormed) (hn : n.WellFormed)
    (hr : r.WellFormed) : m.IsProduct n r ↔ m.exponents + n.exponents = r.exponents := by
  rw [Finsupp.ext_iff]
  simp only [Finsupp.add_apply, exponents_apply hm, exponents_apply hn, exponents_apply hr]
  refine ⟨fun h x => ?_, fun h x _ => h x⟩
  by_cases hx : x ∈ letters
  · exact h x hx
  · rw [degree_eq_zero_of_notMem_letters hm hx, degree_eq_zero_of_notMem_letters hn hx,
      degree_eq_zero_of_notMem_letters hr hx]
    rfl

namespace Polynomial

variable {ts us : List Term} {m : Monomial}

/-- The meaning of a product is the sum over all pairs of terms. -/
theorem meaning_mul_eq_sum (ts us : List Term) :
    meaning ⟨ts⟩ * meaning ⟨us⟩ =
      ((ts ×ˢ us).map fun s => s.1.meaning * s.2.meaning).sum := by
  induction ts with
  | nil => exact zero_mul _
  | cons t ts ih =>
    have hrow : t.meaning * meaning ⟨us⟩ = (us.map fun u => t.meaning * u.meaning).sum :=
      (List.sum_map_mul_left us Term.meaning t.meaning).symm
    rw [meaning_cons, add_mul, ih, hrow, List.product_cons, List.map_append, List.sum_append,
      List.map_map]
    rfl

private theorem coeff_sum_pairs {pairs : List (Term × Term)}
    (hpairs : ∀ s ∈ pairs, s.1.WellFormed ∧ s.2.WellFormed) (hm : m.WellFormed) :
    coeff m.exponents (pairs.map fun s => s.1.meaning * s.2.meaning).sum =
      Term.totalProductAt m pairs := by
  induction pairs with
  | nil => exact MvPolynomial.coeff_zero _
  | cons s pairs ih =>
    obtain ⟨⟨ht, hu⟩, hpairs⟩ := List.forall_mem_cons.1 hpairs
    have hterm : s.1.meaning * s.2.meaning = MvPolynomial.monomial
        (s.1.monomial.exponents + s.2.monomial.exponents)
        (s.1.coefficient.toInt * s.2.coefficient.toInt) := MvPolynomial.monomial_mul
    rw [List.map_cons, List.sum_cons, MvPolynomial.coeff_add, ih hpairs, hterm,
      MvPolynomial.coeff_monomial, Term.totalProductAt_cons]
    simp only [Monomial.isProduct_iff ht hu hm]

/-- The coefficients of a product are the convolution sums. -/
theorem coeff_meaning_mul (hts : ∀ t ∈ ts, t.WellFormed) (hus : ∀ u ∈ us, u.WellFormed)
    (hm : m.WellFormed) :
    coeff m.exponents (meaning ⟨ts⟩ * meaning ⟨us⟩) = Term.convolution m ts us := by
  rw [meaning_mul_eq_sum]
  refine coeff_sum_pairs (fun s hs => ?_) hm
  obtain ⟨ht, hu⟩ := List.mem_product.1 hs
  exact ⟨hts s.1 ht, hus s.2 hu⟩

/-- Multiplication is exact. Two canonical polynomials have a product exactly when the product of
every two of their terms can be formed and, for every number `k` of terms of the first one, all
convolution sums over its first `k` terms are words; otherwise the multiplication overflows. The
product is canonical and has the convolution sums as its coefficients. -/
theorem mul_eq_convolution {p q : Polynomial} (hp : p.Canonical) (hq : q.Canonical) :
    ((∃ r, p.mul q = .ok r) ↔
      (∀ t ∈ p.terms, ∀ u ∈ q.terms,
        Coefficient.Fits (t.coefficient.toInt * u.coefficient.toInt) ∧
          ∀ x, Degree.Fits ((t.degree x).toNat + (u.degree x).toNat)) ∧
      ∀ k ≤ p.terms.length, ∀ m : Monomial, m.WellFormed →
        Coefficient.Fits (Term.convolution m (p.terms.take k) q.terms)) ∧
    (∀ e, p.mul q = .error e → ∃ quantity, e = .overflow quantity) ∧
    ∀ r, p.mul q = .ok r → r.Canonical ∧
      ∀ m : Monomial, m.WellFormed → r.coefficientAt m = Term.convolution m p.terms q.terms := by
  refine ⟨?_, fun e he => mul_eq_error hp hq he, fun r hr => ?_⟩
  · rw [exists_mul_eq_ok_iff hp hq]
    refine and_congr ?_ ?_
    · exact forall₂_congr fun t ht => forall₂_congr fun u hu =>
        Term.exists_mul_eq_ok_iff (hp.wellFormed t ht) (hq.wellFormed u hu)
    · refine forall₂_congr fun k _ => forall₂_congr fun m hm => ?_
      have hfirst : ∀ t ∈ p.terms.take k, t.WellFormed :=
        fun t ht => hp.wellFormed t (List.mem_of_mem_take ht)
      rw [← coeff_meaning_mul hfirst hq.wellFormed hm]
  · obtain ⟨hcanonical, hmeaning⟩ := mul_eq_ok hp hq hr
    refine ⟨hcanonical, fun m hm => ?_⟩
    rw [← coeff_meaning hcanonical.wellFormed hm, hmeaning]
    exact coeff_meaning_mul hp.wellFormed hq.wellFormed hm

/-- The greatest degree and the least coefficient are reached without overflow. -/
theorem mul_eq_convolution_at_limits :
    Canonical ⟨[⟨1, [⟨'x', 4294967294⟩]⟩, ⟨1, []⟩]⟩ ∧
      Canonical ⟨[⟨-9223372036854775808, [⟨'x', 1⟩]⟩, ⟨-1, []⟩]⟩ ∧
      ∃ r, mul ⟨[⟨1, [⟨'x', 4294967294⟩]⟩, ⟨1, []⟩]⟩
          ⟨[⟨-9223372036854775808, [⟨'x', 1⟩]⟩, ⟨-1, []⟩]⟩ = .ok r ∧ r.Canonical ∧
        r.coefficientAt [⟨'x', 4294967295⟩] = -9223372036854775808 := by
  have hp : Canonical ⟨[⟨1, [⟨'x', 4294967294⟩]⟩, ⟨1, []⟩]⟩ := by decide
  have hq : Canonical ⟨[⟨-9223372036854775808, [⟨'x', 1⟩]⟩, ⟨-1, []⟩]⟩ := by decide
  have hr : mul ⟨[⟨1, [⟨'x', 4294967294⟩]⟩, ⟨1, []⟩]⟩
      ⟨[⟨-9223372036854775808, [⟨'x', 1⟩]⟩, ⟨-1, []⟩]⟩ =
        .ok ⟨[⟨-9223372036854775808, [⟨'x', 4294967295⟩]⟩, ⟨-1, [⟨'x', 4294967294⟩]⟩,
          ⟨-9223372036854775808, [⟨'x', 1⟩]⟩, ⟨-1, []⟩]⟩ := by cbv
  obtain ⟨hcanonical, hcoefficient⟩ := (mul_eq_convolution hp hq).2.2 _ hr
  refine ⟨hp, hq, _, hr, hcanonical, ?_⟩
  rw [hcoefficient _ (by decide)]
  decide

end Polynomial

end SparsePoly

import Mathlib.Tactic.Abel
import SparsePoly.Polynomial.Arithmetic
import SparsePoly.Proofs.Meaning

/-!
# Sums and differences are exact

`mergeTerms` walks two descending term lists at once. Addition and subtraction use it with different
steps, but in both uses a merge adds an integer multiple of the second list to the first
(`AddsMultiple`), and this is all that the proofs need. Step by step the merge keeps the lists
canonical and their meaning equal to the sum still to be written. It fails only at a monomial where
the exact sum of the coefficients is no word, and of these monomials the first one in the order
decides the error.

* `Polynomial.mergeTerms_eq_ok_iff` and `Polynomial.mergeTerms_eq_error`: merging.
* `Polynomial.add_eq_ok_iff`, `Polynomial.exists_add_eq_ok_iff`, `Polynomial.add_eq_error`: sums.
* `Polynomial.sub_eq_ok_iff`: differences. `Polynomial.neg_eq_ok_iff`: negation.
-/

namespace SparsePoly

open Term (totalAt)

/-- A negated term has the same monomial and the opposite coefficient. -/
theorem Term.neg_eq_ok_iff {t u : Term} :
    t.neg = .ok u ↔ u.monomial = t.monomial ∧ u.coefficient.toInt = -t.coefficient.toInt := by
  rw [neg, bind_eq_ok_iff]
  constructor
  · rintro ⟨c, hc, h⟩
    cases h
    exact ⟨rfl, Coefficient.checked_eq_ok_iff.1 hc⟩
  · rintro ⟨hmonomial, hcoefficient⟩
    refine ⟨u.coefficient, Coefficient.checked_eq_ok_iff.2 hcoefficient, ?_⟩
    rw [← hmonomial]
    rfl

namespace Polynomial

/-- The steps of a merge that adds `factor` times the second term list to the first. -/
structure AddsMultiple (factor : Int) (right : Term → Except Error Term)
    (both : Coefficient → Coefficient → Except Error Coefficient) : Prop where
  /-- The factor does not make terms vanish. -/
  factor_ne_zero : factor ≠ 0
  /-- A term of the second list is taken with its coefficient multiplied. -/
  right_eq_ok : ∀ {u v}, right u = .ok v →
    v.monomial = u.monomial ∧ v.coefficient.toInt = factor * u.coefficient.toInt
  /-- That fails only when the multiple is no word. -/
  right_eq_error : ∀ {u e}, right u = .error e →
    ¬ Coefficient.Fits (factor * u.coefficient.toInt) ∧ e = .overflow .coefficientNegation
  /-- Like terms are taken with the sum of the first coefficient and the multiple. -/
  both_eq_ok : ∀ {c d s}, both c d = .ok s → s.toInt = c.toInt + factor * d.toInt
  /-- That fails only when the sum is no word. -/
  both_eq_error : ∀ {c d e}, both c d = .error e →
    ¬ Coefficient.Fits (c.toInt + factor * d.toInt) ∧ e = .overflow .coefficientSum

variable {factor : Int} {right : Term → Except Error Term}
  {both : Coefficient → Coefficient → Except Error Coefficient} {t u v : Term}
  {ts us rs : List Term} {m : Monomial} {e : Error}

/-! ### One step -/

/-- A term taken from the second list stands for the multiple of what it stood for. -/
private theorem AddsMultiple.meaning_right (h : AddsMultiple factor right both)
    (hv : right u = .ok v) : v.meaning = factor • u.meaning := by
  obtain ⟨hmonomial, hcoefficient⟩ := h.right_eq_ok hv
  rw [Term.meaning, Term.meaning, hmonomial, hcoefficient, MvPolynomial.smul_monomial, smul_eq_mul]

private theorem AddsMultiple.right_ne_zero (h : AddsMultiple factor right both)
    (hu : u.coefficient ≠ 0) (hv : right u = .ok v) : v.coefficient ≠ 0 := by
  rintro hzero
  have hproduct : factor * u.coefficient.toInt = 0 := by
    rw [← (h.right_eq_ok hv).2, hzero]
    rfl
  rcases Int.mul_eq_zero.1 hproduct with hfactor | hcoefficient
  · exact h.factor_ne_zero hfactor
  · exact hu (Int64.toInt_inj.1 hcoefficient)

private theorem AddsMultiple.fits_right (h : AddsMultiple factor right both)
    (hv : right u = .ok v) : Coefficient.Fits (factor * u.coefficient.toInt) :=
  (h.right_eq_ok hv).2 ▸ Coefficient.fits_toInt v.coefficient

/-- Two like terms stand for what the term with their sum stands for. -/
private theorem AddsMultiple.meaning_both (h : AddsMultiple factor right both)
    (htu : t.monomial = u.monomial) {c : Coefficient}
    (hc : both t.coefficient u.coefficient = .ok c) :
    Term.meaning { t with coefficient := c } = t.meaning + factor • u.meaning := by
  rw [Term.meaning, Term.meaning, Term.meaning, htu, h.both_eq_ok hc, map_add,
    MvPolynomial.smul_monomial, smul_eq_mul]

/-! ### What is left of the second list -/

private theorem before_mapM (h : AddsMultiple factor right both)
    (hus : ∀ u ∈ us, m.precedence u.monomial = .gt) (hrs : us.mapM right = .ok rs) :
    ∀ r ∈ rs, m.precedence r.monomial = .gt := by
  induction us generalizing rs with
  | nil =>
    obtain rfl : [] = rs := Except.ok.inj hrs
    exact nofun
  | cons u us ih =>
    obtain ⟨hu, hus⟩ := List.forall_mem_cons.1 hus
    obtain ⟨v, rest, hv, hrest, rfl⟩ := mapM_cons_eq_ok_iff.1 hrs
    have hmv : m.precedence v.monomial = .gt := (h.right_eq_ok hv).1 ▸ hu
    exact List.forall_mem_cons.2 ⟨hmv, ih hus hrest⟩

private theorem meaning_mapM (h : AddsMultiple factor right both) (hrs : us.mapM right = .ok rs) :
    meaning ⟨rs⟩ = factor • meaning ⟨us⟩ := by
  induction us generalizing rs with
  | nil =>
    obtain rfl : [] = rs := Except.ok.inj hrs
    rw [meaning_nil, smul_zero]
  | cons u us ih =>
    obtain ⟨v, rest, hv, hrest, rfl⟩ := mapM_cons_eq_ok_iff.1 hrs
    rw [meaning_cons, meaning_cons, h.meaning_right hv, ih hrest, smul_add]

private theorem canonical_mapM (h : AddsMultiple factor right both) (hus : Canonical ⟨us⟩)
    (hrs : us.mapM right = .ok rs) : Canonical ⟨rs⟩ := by
  induction us generalizing rs with
  | nil =>
    obtain rfl : [] = rs := Except.ok.inj hrs
    exact canonical_zero
  | cons u us ih =>
    obtain ⟨hu, huc, hhead, hus⟩ := canonical_cons_iff.1 hus
    obtain ⟨v, rest, hv, hrest, rfl⟩ := mapM_cons_eq_ok_iff.1 hrs
    have hmonomial : v.monomial = u.monomial := (h.right_eq_ok hv).1
    have hbehind : ∀ r ∈ rest, v.monomial.precedence r.monomial = .gt :=
      hmonomial ▸ before_mapM h hhead hrest
    refine canonical_cons_iff.2 ⟨?_, h.right_ne_zero huc hv, hbehind, ih hus hrest⟩
    rw [Term.WellFormed, hmonomial]
    exact hu

/-! ### Success -/

/-- A monomial that stands before two term lists stands before the merged list. -/
private theorem before_mergeTerms (h : AddsMultiple factor right both)
    (hts : ∀ t ∈ ts, m.precedence t.monomial = .gt) (hus : ∀ u ∈ us, m.precedence u.monomial = .gt)
    (hrs : mergeTerms right both ts us = .ok rs) : ∀ r ∈ rs, m.precedence r.monomial = .gt := by
  fun_induction mergeTerms right both ts us generalizing rs with
  | case1 us => exact before_mapM h hus hrs
  | case2 t ts => cases hrs; exact hts
  | case3 t ts u us _ ih =>
    obtain ⟨ht, hts⟩ := List.forall_mem_cons.1 hts
    obtain ⟨rest, hrest, hrs⟩ := bind_eq_ok_iff.1 hrs
    cases hrs
    exact List.forall_mem_cons.2 ⟨ht, ih hts hus hrest⟩
  | case4 t ts u us _ ih =>
    obtain ⟨hu, hus⟩ := List.forall_mem_cons.1 hus
    obtain ⟨v, hv, hrs⟩ := bind_eq_ok_iff.1 hrs
    obtain ⟨rest, hrest, hrs⟩ := bind_eq_ok_iff.1 hrs
    cases hrs
    have hmv : m.precedence v.monomial = .gt := (h.right_eq_ok hv).1 ▸ hu
    exact List.forall_mem_cons.2 ⟨hmv, ih hts hus hrest⟩
  | case5 t ts u us _ ih =>
    obtain ⟨ht, hts⟩ := List.forall_mem_cons.1 hts
    obtain ⟨-, hus⟩ := List.forall_mem_cons.1 hus
    obtain ⟨c, -, hrs⟩ := bind_eq_ok_iff.1 hrs
    obtain ⟨rest, hrest, hrs⟩ := bind_eq_ok_iff.1 hrs
    cases hrs
    split
    · exact ih hts hus hrest
    · exact List.forall_mem_cons.2 ⟨ht, ih hts hus hrest⟩

/-- Merging adds the multiple of the second list to the first. -/
theorem meaning_mergeTerms (h : AddsMultiple factor right both)
    (hrs : mergeTerms right both ts us = .ok rs) :
    meaning ⟨rs⟩ = meaning ⟨ts⟩ + factor • meaning ⟨us⟩ := by
  fun_induction mergeTerms right both ts us generalizing rs with
  | case1 us => rw [meaning_mapM h hrs, meaning_nil, zero_add]
  | case2 t ts => cases hrs; rw [meaning_nil, smul_zero, add_zero]
  | case3 t ts u us _ ih =>
    obtain ⟨rest, hrest, hrs⟩ := bind_eq_ok_iff.1 hrs
    cases hrs
    rw [meaning_cons t rest, ih hrest, meaning_cons t ts, add_assoc]
  | case4 t ts u us _ ih =>
    obtain ⟨v, hv, hrs⟩ := bind_eq_ok_iff.1 hrs
    obtain ⟨rest, hrest, hrs⟩ := bind_eq_ok_iff.1 hrs
    cases hrs
    rw [meaning_cons v rest, ih hrest, meaning_cons u us, h.meaning_right hv, smul_add,
      add_left_comm]
  | case5 t ts u us htu ih =>
    have hmonomial : t.monomial = u.monomial := Monomial.precedence_eq_eq_iff.1 htu
    obtain ⟨c, hc, hrs⟩ := bind_eq_ok_iff.1 hrs
    obtain ⟨rest, hrest, hrs⟩ := bind_eq_ok_iff.1 hrs
    cases hrs
    have hboth := h.meaning_both hmonomial hc
    have hsum : meaning ⟨t :: ts⟩ + factor • meaning ⟨u :: us⟩ =
        Term.meaning { t with coefficient := c } + meaning ⟨rest⟩ := by
      rw [meaning_cons, meaning_cons, smul_add, hboth, ih hrest]
      abel
    split
    · next hzero =>
      rw [hsum, Term.meaning_eq_zero hzero, zero_add]
    · rw [hsum, meaning_cons]

/-- Merging canonical term lists gives a canonical term list. -/
theorem canonical_mergeTerms (h : AddsMultiple factor right both) (hts : Canonical ⟨ts⟩)
    (hus : Canonical ⟨us⟩) (hrs : mergeTerms right both ts us = .ok rs) : Canonical ⟨rs⟩ := by
  -- in each case the term written first stands before all that are left of both lists
  fun_induction mergeTerms right both ts us generalizing rs with
  | case1 us => exact canonical_mapM h hus hrs
  | case2 t ts => cases hrs; exact hts
  | case3 t ts u us htu ih =>
    obtain ⟨ht, htc, hhead, hts⟩ := canonical_cons_iff.1 hts
    obtain ⟨-, -, hhead', -⟩ := canonical_cons_iff.1 hus
    obtain ⟨rest, hrest, hrs⟩ := bind_eq_ok_iff.1 hrs
    cases hrs
    have hother : ∀ v ∈ u :: us, t.monomial.precedence v.monomial = .gt :=
      List.forall_mem_cons.2 ⟨htu, fun v hv => Monomial.precedence_gt_trans htu (hhead' v hv)⟩
    have hbehind := before_mergeTerms h hhead hother hrest
    exact canonical_cons_iff.2 ⟨ht, htc, hbehind, ih hts hus hrest⟩
  | case4 t ts u us htu ih =>
    obtain ⟨-, -, hhead, -⟩ := canonical_cons_iff.1 hts
    obtain ⟨hu, huc, hhead', hus⟩ := canonical_cons_iff.1 hus
    obtain ⟨v, hv, hrs⟩ := bind_eq_ok_iff.1 hrs
    obtain ⟨rest, hrest, hrs⟩ := bind_eq_ok_iff.1 hrs
    cases hrs
    have hut : u.monomial.precedence t.monomial = .gt := Monomial.precedence_gt_of_lt htu
    have hmonomial : v.monomial = u.monomial := (h.right_eq_ok hv).1
    have hother : ∀ w ∈ t :: ts, u.monomial.precedence w.monomial = .gt :=
      List.forall_mem_cons.2 ⟨hut, fun w hw => Monomial.precedence_gt_trans hut (hhead w hw)⟩
    have hbehind : ∀ r ∈ rest, v.monomial.precedence r.monomial = .gt :=
      hmonomial ▸ before_mergeTerms h hother hhead' hrest
    refine canonical_cons_iff.2 ⟨?_, h.right_ne_zero huc hv, hbehind, ih hts hus hrest⟩
    rw [Term.WellFormed, hmonomial]
    exact hu
  | case5 t ts u us htu ih =>
    have hmonomial : t.monomial = u.monomial := Monomial.precedence_eq_eq_iff.1 htu
    obtain ⟨ht, -, hhead, hts⟩ := canonical_cons_iff.1 hts
    obtain ⟨-, -, hhead', hus⟩ := canonical_cons_iff.1 hus
    obtain ⟨c, hc, hrs⟩ := bind_eq_ok_iff.1 hrs
    obtain ⟨rest, hrest, hrs⟩ := bind_eq_ok_iff.1 hrs
    cases hrs
    have hother : ∀ v ∈ us, t.monomial.precedence v.monomial = .gt := hmonomial ▸ hhead'
    have hbehind := before_mergeTerms h hhead hother hrest
    split
    · exact ih hts hus hrest
    · next hnonzero => exact canonical_cons_iff.2 ⟨ht, hnonzero, hbehind, ih hts hus hrest⟩

/-! ### Failure -/

/-- The term `u` of the second list is where a merge fails first: the exact coefficient at its
monomial is no word, those before it are, and the error says whether the first list has a term
there. -/
def FailsAt (factor : Int) (ts us : List Term) (u : Term) (e : Error) : Prop :=
  u ∈ us ∧ ¬ Coefficient.Fits (totalAt u.monomial ts + factor * u.coefficient.toInt) ∧
    (∀ v ∈ us, v.precedence u = .gt →
      Coefficient.Fits (totalAt v.monomial ts + factor * v.coefficient.toInt)) ∧
    e = .overflow
      (if ∃ t ∈ ts, t.monomial = u.monomial then .coefficientSum else .coefficientNegation)

/-- A term of the first list that no term of the second is like can be left out. -/
private theorem failsAt_cons_left (htus : ∀ v ∈ us, t.precedence v = .gt)
    (h : FailsAt factor ts us u e) : FailsAt factor (t :: ts) us u e := by
  obtain ⟨hu, hfits, hfirst, he⟩ := h
  have htotal : ∀ v ∈ us, totalAt v.monomial (t :: ts) = totalAt v.monomial ts := by
    intro v hv
    rw [Term.totalAt_cons, if_neg (Monomial.ne_of_precedence_gt (htus v hv)), zero_add]
  have hexists : (∃ w ∈ t :: ts, w.monomial = u.monomial) ↔ ∃ w ∈ ts, w.monomial = u.monomial := by
    rw [List.exists_mem_cons_iff, or_iff_right (Monomial.ne_of_precedence_gt (htus u hu))]
  refine ⟨hu, ?_, fun v hv hvu => ?_, ?_⟩
  · rwa [htotal u hu]
  · rw [htotal v hv]
    exact hfirst v hv hvu
  · rw [he]
    simp only [hexists]

/-- A term that can be taken from the second list does not change where a merge fails. -/
private theorem failsAt_cons_right
    (hv : Coefficient.Fits (totalAt v.monomial ts + factor * v.coefficient.toInt))
    (h : FailsAt factor ts us u e) : FailsAt factor ts (v :: us) u e := by
  obtain ⟨hu, hfits, hfirst, he⟩ := h
  exact ⟨.tail v hu, hfits, List.forall_mem_cons.2 ⟨fun _ => hv, hfirst⟩, he⟩

/-- A merge that fails at the first term of the second list fails there first. -/
private theorem failsAt_head (hhead : ∀ v ∈ us, u.precedence v = .gt)
    (hfits : ¬ Coefficient.Fits (totalAt u.monomial ts + factor * u.coefficient.toInt))
    (he : e = .overflow
      (if ∃ t ∈ ts, t.monomial = u.monomial then .coefficientSum else .coefficientNegation)) :
    FailsAt factor ts (u :: us) u e := by
  refine ⟨.head us, hfits, List.forall_mem_cons.2 ⟨fun hu => ?_, fun v hv hvu => ?_⟩, he⟩
  · exact absurd hu (Monomial.precedence_self_ne_gt u.monomial)
  · exact absurd hvu (Monomial.precedence_asymm (hhead v hv))

/-- Where the first list has no term like `u`, only the multiple of the second one counts. -/
private theorem failsAt_head_of_forall_ne (h : AddsMultiple factor right both)
    (hhead : ∀ v ∈ us, u.precedence v = .gt) (hne : ∀ t ∈ ts, t.monomial ≠ u.monomial)
    (he : right u = .error e) : FailsAt factor ts (u :: us) u e := by
  obtain ⟨hfits, he⟩ := h.right_eq_error he
  have hnone : ¬ ∃ t ∈ ts, t.monomial = u.monomial := fun ⟨t, ht, htu⟩ => hne t ht htu
  refine failsAt_head hhead ?_ ?_
  · rwa [Term.totalAt_eq_zero hne, zero_add]
  · rw [he, if_neg hnone]

private theorem fits_of_forall_ne (h : AddsMultiple factor right both)
    (hne : ∀ t ∈ ts, t.monomial ≠ u.monomial) (hv : right u = .ok v) :
    Coefficient.Fits (totalAt u.monomial ts + factor * u.coefficient.toInt) := by
  rw [Term.totalAt_eq_zero hne, zero_add]
  exact h.fits_right hv

private theorem mapM_eq_error (h : AddsMultiple factor right both) (hus : Canonical ⟨us⟩)
    (he : us.mapM right = .error e) : ∃ u, FailsAt factor [] us u e := by
  induction us with
  | nil => contradiction
  | cons u us ih =>
    obtain ⟨-, -, hhead, hus⟩ := canonical_cons_iff.1 hus
    rcases mapM_cons_eq_error_iff.1 he with he | ⟨v, hv, he⟩
    · exact ⟨u, failsAt_head_of_forall_ne h hhead nofun he⟩
    · obtain ⟨w, hw⟩ := ih hus he
      exact ⟨w, failsAt_cons_right (fits_of_forall_ne h nofun hv) hw⟩

/-- A merge fails only at a monomial where the exact sum is no word, and the first such monomial
decides the error. -/
theorem mergeTerms_eq_error (h : AddsMultiple factor right both) (hts : Canonical ⟨ts⟩)
    (hus : Canonical ⟨us⟩) (he : mergeTerms right both ts us = .error e) :
    ∃ u, FailsAt factor ts us u e := by
  fun_induction mergeTerms right both ts us with
  | case1 us => exact mapM_eq_error h hus he
  | case2 => contradiction
  | case3 t ts u us htu ih =>
    obtain ⟨-, -, -, hts⟩ := canonical_cons_iff.1 hts
    obtain ⟨-, -, hhead', -⟩ := canonical_cons_iff.1 hus
    have hother : ∀ v ∈ u :: us, t.precedence v = .gt :=
      List.forall_mem_cons.2 ⟨htu, fun v hv => Monomial.precedence_gt_trans htu (hhead' v hv)⟩
    rcases bind_eq_error_iff.1 he with he | ⟨rest, -, he⟩
    · obtain ⟨w, hw⟩ := ih hts hus he
      exact ⟨w, failsAt_cons_left hother hw⟩
    · contradiction
  | case4 t ts u us htu ih =>
    obtain ⟨-, -, hhead, -⟩ := canonical_cons_iff.1 hts
    obtain ⟨-, -, hhead', hus⟩ := canonical_cons_iff.1 hus
    have hut : u.precedence t = .gt := Monomial.precedence_gt_of_lt htu
    have hne : ∀ w ∈ t :: ts, w.monomial ≠ u.monomial :=
      List.forall_mem_cons.2 ⟨(Monomial.ne_of_precedence_gt hut).symm, fun w hw =>
        (Monomial.ne_of_precedence_gt (Monomial.precedence_gt_trans hut (hhead w hw))).symm⟩
    rcases bind_eq_error_iff.1 he with he | ⟨v, hv, he⟩
    · exact ⟨u, failsAt_head_of_forall_ne h hhead' hne he⟩
    · rcases bind_eq_error_iff.1 he with he | ⟨rest, -, he⟩
      · obtain ⟨w, hw⟩ := ih hts hus he
        exact ⟨w, failsAt_cons_right (fits_of_forall_ne h hne hv) hw⟩
      · contradiction
  | case5 t ts u us htu ih =>
    have hmonomial : t.monomial = u.monomial := Monomial.precedence_eq_eq_iff.1 htu
    have hcanonical := hts
    obtain ⟨-, -, hhead, hts⟩ := canonical_cons_iff.1 hts
    obtain ⟨-, -, hhead', hus⟩ := canonical_cons_iff.1 hus
    have htotal : totalAt u.monomial (t :: ts) = t.coefficient.toInt :=
      hmonomial ▸ coefficientAt_of_mem hcanonical (.head ts)
    have hother : ∀ v ∈ us, t.precedence v = .gt := by
      intro v hv
      rw [Term.precedence, hmonomial]
      exact hhead' v hv
    rcases bind_eq_error_iff.1 he with he | ⟨c, hc, he⟩
    · obtain ⟨hfits, he⟩ := h.both_eq_error he
      have hlike : ∃ w ∈ t :: ts, w.monomial = u.monomial := ⟨t, .head ts, hmonomial⟩
      refine ⟨u, failsAt_head hhead' ?_ ?_⟩
      · rwa [htotal]
      · rw [he, if_pos hlike]
    · -- the failure comes later, and the like terms here do not change what it is
      have hfits :
          Coefficient.Fits (totalAt u.monomial (t :: ts) + factor * u.coefficient.toInt) := by
        rw [htotal, ← h.both_eq_ok hc]
        exact Coefficient.fits_toInt c
      rcases bind_eq_error_iff.1 he with he | ⟨rest, -, he⟩
      · obtain ⟨w, hw⟩ := ih hts hus he
        exact ⟨w, failsAt_cons_right hfits (failsAt_cons_left hother hw)⟩
      · split at he <;> contradiction

/-! ### The exact sum -/

/-- The coefficients of a sum of multiples are the sums of the multiples of the coefficients. -/
theorem totalAt_of_meaning_eq (hts : Canonical ⟨ts⟩) (hus : Canonical ⟨us⟩)
    (hrs : Canonical ⟨rs⟩) (hmeaning : meaning ⟨rs⟩ = meaning ⟨ts⟩ + factor • meaning ⟨us⟩)
    (hm : m.WellFormed) : totalAt m rs = totalAt m ts + factor * totalAt m us := by
  have hcoeff := congrArg (MvPolynomial.coeff m.exponents) hmeaning
  rwa [MvPolynomial.coeff_add, MvPolynomial.coeff_smul, coeff_meaning hts.wellFormed hm,
    coeff_meaning hus.wellFormed hm, coeff_meaning hrs.wellFormed hm] at hcoeff

/-- Two canonical term lists can be merged exactly when all sums of their coefficients are words. -/
theorem exists_mergeTerms_eq_ok_iff (h : AddsMultiple factor right both) (hts : Canonical ⟨ts⟩)
    (hus : Canonical ⟨us⟩) :
    (∃ rs, mergeTerms right both ts us = .ok rs) ↔
      ∀ m : Monomial, m.WellFormed → Coefficient.Fits (totalAt m ts + factor * totalAt m us) := by
  constructor
  · rintro ⟨rs, hrs⟩ m hm
    have hcanonical := canonical_mergeTerms h hts hus hrs
    rw [← totalAt_of_meaning_eq hts hus hcanonical (meaning_mergeTerms h hrs) hm]
    exact coefficientAt_fits hcanonical m
  · intro hfits
    cases hmerge : mergeTerms right both ts us with
    | ok rs => exact ⟨rs, rfl⟩
    | error e =>
      -- an error would name a monomial at which the sum does not fit
      obtain ⟨u, hu, hu', -, -⟩ := mergeTerms_eq_error h hts hus hmerge
      have hcoefficient : totalAt u.monomial us = u.coefficient.toInt :=
        coefficientAt_of_mem hus hu
      refine absurd (hfits u.monomial (hus.wellFormed u hu)) ?_
      rwa [hcoefficient]

/-- The merged list is the canonical one that stands for the sum. -/
theorem mergeTerms_eq_ok_iff (h : AddsMultiple factor right both) (hts : Canonical ⟨ts⟩)
    (hus : Canonical ⟨us⟩) :
    mergeTerms right both ts us = .ok rs ↔
      Canonical ⟨rs⟩ ∧ meaning ⟨rs⟩ = meaning ⟨ts⟩ + factor • meaning ⟨us⟩ := by
  constructor
  · intro hrs
    exact ⟨canonical_mergeTerms h hts hus hrs, meaning_mergeTerms h hrs⟩
  · rintro ⟨hrs, hmeaning⟩
    have hfits : ∀ m : Monomial, m.WellFormed →
        Coefficient.Fits (totalAt m ts + factor * totalAt m us) := by
      intro m hm
      rw [← totalAt_of_meaning_eq hts hus hrs hmeaning hm]
      exact coefficientAt_fits hrs m
    obtain ⟨rs', hrs'⟩ := (exists_mergeTerms_eq_ok_iff h hts hus).2 hfits
    have hsame := meaning_injective (canonical_mergeTerms h hts hus hrs') hrs
      ((meaning_mergeTerms h hrs').trans hmeaning.symm)
    rw [hrs', Polynomial.mk.inj hsame]

/-! ### Addition, subtraction, negation -/

/-- Addition adds the second term list once. -/
theorem addsMultiple_add : AddsMultiple 1 pure fun c d =>
    Coefficient.checked .coefficientSum (c.toInt + d.toInt) where
  factor_ne_zero := by decide
  right_eq_ok {u v} h := by
    cases h
    exact ⟨rfl, (one_mul _).symm⟩
  right_eq_error h := nomatch h
  both_eq_ok h := by rw [Coefficient.checked_eq_ok_iff.1 h, one_mul]
  both_eq_error h := by
    rw [one_mul]
    exact Coefficient.checked_eq_error_iff.1 h

/-- Subtraction adds minus one times the second term list. -/
theorem addsMultiple_sub : AddsMultiple (-1) Term.neg fun c d =>
    Coefficient.checked .coefficientSum (c.toInt - d.toInt) where
  factor_ne_zero := by decide
  right_eq_ok {u v} h := by
    rw [neg_one_mul]
    exact Term.neg_eq_ok_iff.1 h
  right_eq_error {u e} h := by
    rcases bind_eq_error_iff.1 h with h | ⟨c, -, h⟩
    · rw [neg_one_mul]
      exact Coefficient.checked_eq_error_iff.1 h
    · contradiction
  both_eq_ok h := by rw [Coefficient.checked_eq_ok_iff.1 h, neg_one_mul, sub_eq_add_neg]
  both_eq_error h := by
    rw [neg_one_mul, ← sub_eq_add_neg]
    exact Coefficient.checked_eq_error_iff.1 h

variable {p q r : Polynomial}

/-- The sum of canonical polynomials is the canonical polynomial that stands for the exact sum. -/
theorem add_eq_ok_iff (hp : p.Canonical) (hq : q.Canonical) :
    p.add q = .ok r ↔ r.Canonical ∧ r.meaning = p.meaning + q.meaning := by
  have hmerge := @mergeTerms_eq_ok_iff _ _ _ _ _ r.terms addsMultiple_add hp hq
  rw [one_smul] at hmerge
  refine Iff.trans ?_ hmerge
  rw [add, bind_eq_ok_iff]
  exact ⟨fun ⟨rs, hrs, h⟩ => by cases h; exact hrs, fun h => ⟨r.terms, h, rfl⟩⟩

/-- Canonical polynomials have a sum exactly when all sums of their coefficients are words. -/
theorem exists_add_eq_ok_iff (hp : p.Canonical) (hq : q.Canonical) :
    (∃ r, p.add q = .ok r) ↔
      ∀ m : Monomial, m.WellFormed → Coefficient.Fits (p.coefficientAt m + q.coefficientAt m) := by
  have hmerge := exists_mergeTerms_eq_ok_iff addsMultiple_add hp hq
  simp only [one_mul] at hmerge
  exact Iff.trans exists_bind_pure_eq_ok_iff hmerge

/-- The only error of an addition is the overflow of a sum. -/
theorem add_eq_error (hp : p.Canonical) (hq : q.Canonical) (h : p.add q = .error e) :
    e = .overflow .coefficientSum := by
  rcases bind_eq_error_iff.1 h with h | ⟨rs, -, h⟩
  · obtain ⟨u, -, hfits, -, he⟩ := mergeTerms_eq_error addsMultiple_add hp hq h
    by_cases hlike : ∃ t ∈ p.terms, t.monomial = u.monomial
    · rw [he, if_pos hlike]
    · have hnone : ∀ t ∈ p.terms, t.monomial ≠ u.monomial := fun t ht htu => hlike ⟨t, ht, htu⟩
      rw [Term.totalAt_eq_zero hnone, zero_add, one_mul] at hfits
      exact absurd (Coefficient.fits_toInt u.coefficient) hfits
  · contradiction

/-- The difference of canonical polynomials is the canonical polynomial that stands for the exact
difference. -/
theorem sub_eq_ok_iff (hp : p.Canonical) (hq : q.Canonical) :
    p.sub q = .ok r ↔ r.Canonical ∧ r.meaning = p.meaning - q.meaning := by
  have hmerge := @mergeTerms_eq_ok_iff _ _ _ _ _ r.terms addsMultiple_sub hp hq
  rw [neg_one_smul, ← sub_eq_add_neg] at hmerge
  refine Iff.trans ?_ hmerge
  rw [sub, bind_eq_ok_iff]
  exact ⟨fun ⟨rs, hrs, h⟩ => by cases h; exact hrs, fun h => ⟨r.terms, h, rfl⟩⟩

/-- Negating is subtracting from zero. -/
theorem neg_eq_zero_sub (p : Polynomial) : p.neg = zero.sub p := by
  rw [neg, sub, terms_zero, mergeTerms]

/-- The negated polynomial is the canonical one that stands for the negated meaning. -/
theorem neg_eq_ok_iff (hp : p.Canonical) :
    p.neg = .ok r ↔ r.Canonical ∧ r.meaning = -p.meaning := by
  rw [neg_eq_zero_sub, sub_eq_ok_iff canonical_zero hp]
  have hzero : zero.meaning = 0 := meaning_nil
  rw [hzero, zero_sub]

end Polynomial

end SparsePoly

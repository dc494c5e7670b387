import Mathlib.Data.List.Permutation
import SparsePoly.Proofs.Combine
import SparsePoly.Proofs.Sum

/-!
# Operations that are exact at every monomial

Addition, subtraction and the combination of like terms compute each coefficient on its own, as an
exact integer. `Polynomial.Exact` says this of an outcome, given the integers `f` and the cause that
an overflow at each monomial has: the result has the coefficients `f`, and there is no result only
where one of them is no word, of which the first in the order of precedence decides the error. So an
outcome is determined by the integers and the causes (`Polynomial.Exact.unique`), whatever the way
in which it is computed.

* `Polynomial.exact_mergeTerms`, `Polynomial.exact_add`, `Polynomial.exact_sub`,
  `Polynomial.exact_neg`, `Polynomial.exact_ofTerms`: the operations that are exact.
* `Polynomial.add_sub_exact`: what that says about sums and differences.
* `Polynomial.ofTerms_sums_exactly`: what that says about combining terms.
-/

namespace SparsePoly

open Term (totalAt)

/-! ### The first coefficient that is no word -/

/-- The first monomial, in the order of precedence, at which an integer is no word. -/
structure FirstUnfit (f : Monomial → Int) (m : Monomial) : Prop where
  /-- The monomial is well formed. -/
  wellFormed : m.WellFormed
  /-- The integer at it is no word. -/
  not_fits : ¬ Coefficient.Fits (f m)
  /-- The integers at all monomials before it are words. -/
  fits_before : ∀ n : Monomial, n.WellFormed → n.precedence m = .gt → Coefficient.Fits (f n)

namespace FirstUnfit

variable {f : Monomial → Int} {m n : Monomial}

/-- There is only one first monomial. -/
theorem unique (hm : FirstUnfit f m) (hn : FirstUnfit f n) : m = n := by
  cases hcmp : m.precedence n with
  | eq => exact Monomial.precedence_eq_eq_iff.1 hcmp
  | gt => exact absurd (hn.fits_before m hm.wellFormed hcmp) hm.not_fits
  | lt =>
    have hgt : n.precedence m = .gt := Monomial.precedence_gt_of_lt hcmp
    exact absurd (hm.fits_before n hn.wellFormed hgt) hn.not_fits

/-- The integers at monomials that are not well formed do not matter. -/
theorem congr {f' : Monomial → Int} (h : FirstUnfit f m)
    (hf : ∀ m : Monomial, m.WellFormed → f m = f' m) : FirstUnfit f' m where
  wellFormed := h.wellFormed
  not_fits := hf m h.wellFormed ▸ h.not_fits
  fits_before n hn hnm := hf n hn ▸ h.fits_before n hn hnm

/-- Of some monomials at which not all integers are words, one is the first. -/
private theorem exists_first_mem {ms : List Monomial} (h : ∃ m ∈ ms, ¬ Coefficient.Fits (f m)) :
    ∃ m ∈ ms, ¬ Coefficient.Fits (f m) ∧
      ∀ n ∈ ms, n.precedence m = .gt → Coefficient.Fits (f n) := by
  induction ms with
  | nil =>
    obtain ⟨m, hm, -⟩ := h
    contradiction
  | cons k ms ih =>
    by_cases hrest : ∃ m ∈ ms, ¬ Coefficient.Fits (f m)
    · obtain ⟨m, hm, hunfit, hfirst⟩ := ih hrest
      -- the new monomial is the first one now if it is unfit and stands before the old first one
      by_cases hk : k.precedence m = .gt ∧ ¬ Coefficient.Fits (f k)
      · refine ⟨k, .head ms, hk.2, List.forall_mem_cons.2 ⟨fun hself => ?_, fun n hn hnk => ?_⟩⟩
        · exact absurd hself (Monomial.precedence_self_ne_gt k)
        · exact hfirst n hn (Monomial.precedence_gt_trans hnk hk.1)
      · refine ⟨m, .tail k hm, hunfit, List.forall_mem_cons.2 ⟨fun hkm => ?_, hfirst⟩⟩
        exact Decidable.not_not.1 fun hfits => hk ⟨hkm, hfits⟩
    · have hfits : ∀ n ∈ ms, Coefficient.Fits (f n) :=
        fun n hn => Decidable.not_not.1 fun hunfit => hrest ⟨n, hn, hunfit⟩
      obtain ⟨m, hm, hunfit⟩ := h
      rcases List.mem_cons.1 hm with rfl | hm
      · refine ⟨m, .head ms, hunfit, List.forall_mem_cons.2 ⟨fun hself => ?_, fun n hn _ => ?_⟩⟩
        · exact absurd hself (Monomial.precedence_self_ne_gt m)
        · exact hfits n hn
      · exact absurd (hfits m hm) hunfit

/-- Where only the monomials of some terms can come with an integer that is no word, and one does,
there is a first one. -/
theorem exists_of_terms {ts : List Term} (hts : ∀ t ∈ ts, t.WellFormed)
    (hother : ∀ m : Monomial, (∀ t ∈ ts, t.monomial ≠ m) → Coefficient.Fits (f m))
    (h : ∃ t ∈ ts, ¬ Coefficient.Fits (f t.monomial)) : ∃ m, FirstUnfit f m := by
  obtain ⟨t, ht, hunfit⟩ := h
  obtain ⟨m, hm, hunfit, hfirst⟩ :=
    @exists_first_mem f (ts.map Term.monomial) ⟨_, List.mem_map_of_mem ht, hunfit⟩
  obtain ⟨u, hu, rfl⟩ := List.mem_map.1 hm
  refine ⟨u.monomial, hts u hu, hunfit, fun n _ hn => ?_⟩
  by_cases hmem : n ∈ ts.map Term.monomial
  · exact hfirst n hmem hn
  · exact hother n fun v hv hvn => hmem (List.mem_map.2 ⟨v, hv, hvn⟩)

end FirstUnfit

namespace Polynomial

/-! ### Exact outcomes -/

/-- The outcome of computing the exact integer `f m` as the coefficient at every monomial `m`,
where `cause m` is the overflow that an integer out of range at `m` is reported as. -/
structure Exact (f : Monomial → Int) (cause : Monomial → Overflow)
    (outcome : Except Error Polynomial) : Prop where
  /-- There is a result exactly when all the integers are words. -/
  exists_eq_ok_iff :
    (∃ r, outcome = .ok r) ↔ ∀ m : Monomial, m.WellFormed → Coefficient.Fits (f m)
  /-- The result is canonical and has the integers as its coefficients. -/
  eq_ok : ∀ r, outcome = .ok r →
    r.Canonical ∧ ∀ m : Monomial, m.WellFormed → r.coefficientAt m = f m
  /-- An error is the overflow at the first monomial at which the integer is no word. -/
  eq_error : ∀ e, outcome = .error e → ∃ m, FirstUnfit f m ∧ e = .overflow (cause m)

variable {f : Monomial → Int} {cause cause' : Monomial → Overflow}
  {outcome outcome' : Except Error Polynomial}

namespace Exact

/-- The same integers under the same causes have one outcome. -/
theorem unique (h : Exact f cause outcome) (h' : Exact f cause outcome') : outcome = outcome' := by
  cases houtcome : outcome with
  | ok r =>
    obtain ⟨r', hr'⟩ := h'.exists_eq_ok_iff.2 (h.exists_eq_ok_iff.1 ⟨r, houtcome⟩)
    obtain ⟨hcanonical, hcoefficient⟩ := h.eq_ok r houtcome
    obtain ⟨hcanonical', hcoefficient'⟩ := h'.eq_ok r' hr'
    have hsame : r = r' := ext_coefficientAt hcanonical hcanonical' fun m hm =>
      (hcoefficient m hm).trans (hcoefficient' m hm).symm
    rw [hr', hsame]
  | error e =>
    obtain ⟨m, hm, rfl⟩ := h.eq_error e houtcome
    cases houtcome' : outcome' with
    | ok r' =>
      have hfits := h'.exists_eq_ok_iff.1 ⟨r', houtcome'⟩
      exact absurd (hfits m hm.wellFormed) hm.not_fits
    | error e' =>
      obtain ⟨m', hm', rfl⟩ := h'.eq_error e' houtcome'
      rw [hm.unique hm']

/-- Only the cause at the first integer that is no word matters. -/
theorem congr_cause (h : Exact f cause outcome)
    (hcause : ∀ m, FirstUnfit f m → cause m = cause' m) : Exact f cause' outcome := by
  refine ⟨h.exists_eq_ok_iff, h.eq_ok, fun e he => ?_⟩
  obtain ⟨m, hm, rfl⟩ := h.eq_error e he
  exact ⟨m, hm, by rw [hcause m hm]⟩

/-- Only the integers at well formed monomials matter. -/
theorem congr_integers {f' : Monomial → Int} (h : Exact f cause outcome)
    (hf : ∀ m : Monomial, m.WellFormed → f m = f' m) : Exact f' cause outcome := by
  refine ⟨?_, fun r hr => ?_, fun e he => ?_⟩
  · rw [h.exists_eq_ok_iff]
    refine forall₂_congr fun m hm => ?_
    rw [hf m hm]
  · obtain ⟨hcanonical, hcoefficient⟩ := h.eq_ok r hr
    exact ⟨hcanonical, fun m hm => (hcoefficient m hm).trans (hf m hm)⟩
  · obtain ⟨m, hm, he⟩ := h.eq_error e he
    exact ⟨m, hm.congr hf, he⟩

end Exact

/-! ### Merging -/

variable {factor : Int} {right : Term → Except Error Term}
  {both : Coefficient → Coefficient → Except Error Coefficient} {ts us : List Term}
  {p q : Polynomial}

/-- The cause of an overflow at a monomial in a merge: the first list has a term there or not. -/
def mergeCause (ts : List Term) (m : Monomial) : Overflow :=
  if ∃ t ∈ ts, t.monomial = m then .coefficientSum else .coefficientNegation

/-- An integer is no word because of a sum if it would be one without a term of the first list. -/
theorem mergeCause_of_not_fits {m : Monomial} {k : Int} (hunfit : ¬ Coefficient.Fits k)
    (h : totalAt m ts = 0 → Coefficient.Fits k) : mergeCause ts m = .coefficientSum := by
  refine if_pos ?_
  by_contra hnone
  exact hunfit (h (Term.totalAt_eq_zero fun t ht htm => hnone ⟨t, ht, htm⟩))

/-- The integers at the monomials of the second list are those of its terms, and the others are the
coefficients of the first list. -/
private theorem firstUnfit_of_failsAt {u : Term} {e : Error} (hts : Canonical ⟨ts⟩)
    (hus : Canonical ⟨us⟩) (h : FailsAt factor ts us u e) :
    FirstUnfit (fun m => totalAt m ts + factor * totalAt m us) u.monomial ∧
      e = .overflow (mergeCause ts u.monomial) := by
  obtain ⟨hu, hunfit, hfirst, he⟩ := h
  have htotal : ∀ v ∈ us, totalAt v.monomial us = v.coefficient.toInt :=
    fun v hv => coefficientAt_of_mem hus hv
  refine ⟨⟨hus.wellFormed u hu, ?_, fun n _ hn => ?_⟩, he⟩
  · rwa [htotal u hu]
  · by_cases hmem : ∃ v ∈ us, v.monomial = n
    · obtain ⟨v, hv, rfl⟩ := hmem
      rw [htotal v hv]
      exact hfirst v hv hn
    · have hzero : totalAt n us = 0 :=
        Term.totalAt_eq_zero fun v hv hvn => hmem ⟨v, hv, hvn⟩
      rw [hzero, mul_zero, add_zero]
      exact coefficientAt_fits hts n

/-- A merge is exact: it adds the multiple of every coefficient of the second list. -/
theorem exact_mergeTerms (h : AddsMultiple factor right both) (hts : Canonical ⟨ts⟩)
    (hus : Canonical ⟨us⟩) :
    Exact (fun m => totalAt m ts + factor * totalAt m us) (mergeCause ts)
      (do return ⟨← mergeTerms right both ts us⟩) := by
  refine ⟨?_, fun r hr => ?_, fun e he => ?_⟩
  · exact exists_bind_pure_eq_ok_iff.trans (exists_mergeTerms_eq_ok_iff h hts hus)
  · obtain ⟨rs, hrs, hr⟩ := bind_eq_ok_iff.1 hr
    cases hr
    have hcanonical := canonical_mergeTerms h hts hus hrs
    exact ⟨hcanonical, fun m hm =>
      totalAt_of_meaning_eq hts hus hcanonical (meaning_mergeTerms h hrs) hm⟩
  · rcases bind_eq_error_iff.1 he with he | ⟨rs, -, he⟩
    · obtain ⟨u, hu⟩ := mergeTerms_eq_error h hts hus he
      exact ⟨u.monomial, firstUnfit_of_failsAt hts hus hu⟩
    · contradiction

/-- Addition is exact. -/
theorem exact_add (hp : p.Canonical) (hq : q.Canonical) :
    Exact (fun m => p.coefficientAt m + q.coefficientAt m) (fun _ => .coefficientSum)
      (p.add q) := by
  have hmerge := exact_mergeTerms addsMultiple_add hp hq
  simp only [one_mul] at hmerge
  refine hmerge.congr_cause fun m hm => mergeCause_of_not_fits hm.not_fits fun hzero => ?_
  -- a coefficient that only the second polynomial has is a word
  rw [hzero, zero_add]
  exact coefficientAt_fits hq m

/-- Subtraction is exact. -/
theorem exact_sub (hp : p.Canonical) (hq : q.Canonical) :
    Exact (fun m => p.coefficientAt m - q.coefficientAt m) (mergeCause p.terms) (p.sub q) := by
  have hmerge := exact_mergeTerms addsMultiple_sub hp hq
  simp only [neg_one_mul, ← sub_eq_add_neg] at hmerge
  exact hmerge

/-- Negation is exact. -/
theorem exact_neg (hp : p.Canonical) :
    Exact (fun m => -p.coefficientAt m) (fun _ => .coefficientNegation) p.neg := by
  have hsub := exact_sub canonical_zero hp
  have hzero : ∀ m, zero.coefficientAt m = 0 := fun _ => rfl
  simp only [hzero, zero_sub, ← neg_eq_zero_sub] at hsub
  exact hsub.congr_cause fun m _ => if_neg nofun

/-- Addition and subtraction are exact. There is a sum, or a difference, exactly when all sums of
coefficients, or all differences, are words, and then it is canonical and has these as coefficients.
Otherwise the operation overflows: an addition always in a sum of coefficients, a subtraction as the
first monomial decides at which the difference is no word, in a sum when the first polynomial has a
term there and in a negation when it has none. -/
theorem add_sub_exact (hp : p.Canonical) (hq : q.Canonical) :
    Exact (fun m => p.coefficientAt m + q.coefficientAt m) (fun _ => .coefficientSum) (p.add q) ∧
    Exact (fun m => p.coefficientAt m - q.coefficientAt m)
      (fun m => if ∃ t ∈ p.terms, t.monomial = m then .coefficientSum else .coefficientNegation)
      (p.sub q) ∧
    Overflow.coefficientSum.description = "coefficient sum exceeds i64" ∧
    Overflow.coefficientNegation.description = "coefficient negation exceeds i64" :=
  ⟨exact_add hp hq, exact_sub hp hq, rfl, rfl⟩

/-- The difference from the least coefficient is a word where the first polynomial has a negative
term at the monomial, and overflows where it has none. -/
theorem add_sub_exact_at_least :
    let p : Polynomial := ⟨[⟨5, [⟨'x', 1⟩]⟩, ⟨-1, []⟩]⟩
    let q : Polynomial := ⟨[⟨-9223372036854775808, [⟨'y', 1⟩]⟩, ⟨-9223372036854775808, []⟩]⟩
    p.Canonical ∧ q.Canonical ∧ p.add q = .error (.overflow .coefficientSum) ∧
      p.sub q = .error (.overflow .coefficientNegation) ∧
      Exact (fun m => p.coefficientAt m + q.coefficientAt m) (fun _ => .coefficientSum) (p.add q) ∧
      Exact (fun m => p.coefficientAt m - q.coefficientAt m)
        (fun m => if ∃ t ∈ p.terms, t.monomial = m then .coefficientSum else .coefficientNegation)
        (p.sub q) := by
  intro p q
  have hp : p.Canonical := by decide
  have hq : q.Canonical := by decide
  have hadd : p.add q = .error (.overflow .coefficientSum) := by cbv
  have hsub : p.sub q = .error (.overflow .coefficientNegation) := by cbv
  obtain ⟨hexactAdd, hexactSub, -⟩ := add_sub_exact hp hq
  exact ⟨hp, hq, hadd, hsub, hexactAdd, hexactSub⟩

/-! ### Combining terms -/

/-- Combining terms is exact. -/
theorem exact_ofTerms (hts : ∀ t ∈ ts, t.WellFormed) :
    Exact (fun m => totalAt m ts) (fun _ => .coefficientSum) (ofTerms ts) := by
  refine ⟨exists_ofTerms_eq_ok_iff hts, fun r hr => ?_, fun e he => ?_⟩
  · obtain ⟨hcanonical, hmeaning⟩ := canonical_ofTerms hts hr
    exact ⟨hcanonical, fun m hm =>
      coefficientAt_congr (q := ⟨ts⟩) hcanonical.wellFormed hts hmeaning hm⟩
  · obtain ⟨rfl, hunfit⟩ := ofTerms_eq_error he
    have hother : ∀ m : Monomial, (∀ t ∈ ts, t.monomial ≠ m) → Coefficient.Fits (totalAt m ts) := by
      intro m hm
      rw [Term.totalAt_eq_zero hm]
      decide
    obtain ⟨m, hm⟩ := FirstUnfit.exists_of_terms hts hother hunfit
    exact ⟨m, hm, rfl⟩

/-- What terms combine to does not depend on their order, also where they overflow. -/
theorem ofTerms_perm (hts : ∀ t ∈ ts, t.WellFormed) (h : us.Perm ts) :
    ofTerms us = ofTerms ts := by
  have hus : ∀ u ∈ us, u.WellFormed := fun u hu => hts u (h.mem_iff.1 hu)
  have hpermuted := exact_ofTerms hus
  simp only [Term.totalAt_perm h] at hpermuted
  exact hpermuted.unique (exact_ofTerms hts)

/-- The terms of a canonical polynomial combine to the polynomial. -/
theorem ofTerms_terms (hp : p.Canonical) : ofTerms p.terms = .ok p :=
  (ofTerms_eq_ok_iff hp.wellFormed).2 ⟨hp, rfl⟩

/-- Terms combine by exact sums of like terms, in any order. Terms in any order and with any
repetition, zero terms among them, combine exactly when at every monomial the sum of their
coefficients is a word, and then to the canonical polynomial with these sums as coefficients;
otherwise a sum of coefficients overflows. So the terms may be permuted, also where they overflow,
and the terms of a canonical polynomial combine to the polynomial. -/
theorem ofTerms_sums_exactly (hts : ∀ t ∈ ts, t.WellFormed) :
    ((∃ p, ofTerms ts = .ok p) ↔
      ∀ m : Monomial, m.WellFormed → Coefficient.Fits (totalAt m ts)) ∧
    (∀ p, ofTerms ts = .ok p →
      p.Canonical ∧ ∀ m : Monomial, m.WellFormed → p.coefficientAt m = totalAt m ts) ∧
    (∀ e, ofTerms ts = .error e → e = .overflow .coefficientSum) ∧
    Overflow.coefficientSum.description = "coefficient sum exceeds i64" ∧
    (∀ us : List Term, us.Perm ts → ofTerms us = ofTerms ts) ∧
    ∀ p : Polynomial, p.Canonical → ofTerms p.terms = .ok p :=
  ⟨(exact_ofTerms hts).exists_eq_ok_iff, (exact_ofTerms hts).eq_ok,
    fun _ he => (ofTerms_eq_error he).1, rfl, fun _ => ofTerms_perm hts, fun _ => ofTerms_terms⟩

/-- Two coefficients of `x` that leave the range together come back into it with a third one, in
any order, and `0y` leaves no trace; without the third one they overflow. -/
theorem ofTerms_sums_exactly_passing_range :
    let ts : List Term := [⟨9223372036854775807, [⟨'x', 1⟩]⟩, ⟨0, [⟨'y', 1⟩]⟩, ⟨1, [⟨'x', 1⟩]⟩]
    let us : List Term := [⟨-1, [⟨'x', 1⟩]⟩, ⟨9223372036854775807, [⟨'x', 1⟩]⟩, ⟨1, [⟨'x', 1⟩]⟩,
      ⟨0, [⟨'y', 1⟩]⟩]
    (∀ t ∈ ts, t.WellFormed) ∧ (∀ u ∈ us, u.WellFormed) ∧
      ofTerms ts = .error (.overflow .coefficientSum) ∧
      (¬ ∀ m : Monomial, m.WellFormed → Coefficient.Fits (totalAt m ts)) ∧
      ofTerms us = .ok ⟨[⟨9223372036854775807, [⟨'x', 1⟩]⟩]⟩ ∧ ofTerms us.reverse = ofTerms us := by
  intro ts us
  have hts : ∀ t ∈ ts, t.WellFormed := by decide
  have hus : ∀ u ∈ us, u.WellFormed := by decide
  have herror : ofTerms ts = .error (.overflow .coefficientSum) := by cbv
  have hok : ofTerms us = .ok ⟨[⟨9223372036854775807, [⟨'x', 1⟩]⟩]⟩ := by cbv
  obtain ⟨hiff, -⟩ := ofTerms_sums_exactly hts
  obtain ⟨-, -, -, -, hperm, -⟩ := ofTerms_sums_exactly hus
  refine ⟨hts, hus, herror, fun hfits => ?_, hok, hperm _ (List.reverse_perm us)⟩
  obtain ⟨p, hp⟩ := hiff.2 hfits
  rw [herror] at hp
  contradiction

end Polynomial

end SparsePoly

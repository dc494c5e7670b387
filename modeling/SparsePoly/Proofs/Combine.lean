import Mathlib.Data.List.SplitBy
import SparsePoly.Proofs.Meaning

/-!
# Combining like terms is exact

`Polynomial.ofTerms` leaves out zero terms, sorts the others and adds up each run of neighbours with
the same monomial. Sorting goes by the order and the runs by equality; both agree, so no monomial is
spread over two runs (`Term.Descend`). Each run then contributes the term with its exact sum, in an
order that is already the canonical one. Only the total of a run can fail to be a word, which does
not depend on the order in which the terms are given.

* `Term.descend_likeRuns`: the runs of a sorted list descend strictly.
* `Polynomial.ofTerms_eq_ok_iff`, `Polynomial.exists_ofTerms_eq_ok_iff`,
  `Polynomial.ofTerms_eq_error`: what the terms combine to.
* `Polynomial.ofTerms_congr`: only what the terms stand for matters.
-/

namespace SparsePoly

open SparsePoly.Polynomial (meaning_nil meaning_cons meaning_append)

namespace Term

variable {m : Monomial} {t u : Term} {ts us : List Term} {runs : List (List Term)} {e : Error}

/-! ### Order and zero terms do not matter -/

theorem totalAt_append (m : Monomial) (ts us : List Term) :
    totalAt m (ts ++ us) = totalAt m ts + totalAt m us := by
  simp only [totalAt, total_eq_sum, List.filter_append, List.map_append, List.sum_append]

theorem totalAt_perm (h : ts.Perm us) (m : Monomial) : totalAt m ts = totalAt m us := by
  rw [totalAt, totalAt, total_eq_sum, total_eq_sum]
  exact ((h.filter _).map _).sum_eq

theorem meaning_perm (h : ts.Perm us) : Polynomial.meaning ⟨ts⟩ = Polynomial.meaning ⟨us⟩ :=
  (h.map _).sum_eq

/-- Zero terms add nothing to a coefficient. -/
private theorem totalAt_filter (m : Monomial) (ts : List Term) :
    totalAt m (ts.filter fun t => !t.isZero) = totalAt m ts := by
  induction ts with
  | nil => rfl
  | cons t ts ih =>
    by_cases ht : t.coefficient = 0
    · have hzero : (if t.monomial = m then t.coefficient.toInt else 0) = 0 := by
        rw [ht]
        exact ite_self 0
      rw [List.filter_cons_of_neg (by simp [isZero, ht]), ih, totalAt_cons, hzero, zero_add]
    · rw [List.filter_cons_of_pos (by simp [isZero, ht]), totalAt_cons, ih, totalAt_cons]

/-- Zero terms add nothing to the meaning. -/
private theorem meaning_filter (ts : List Term) :
    Polynomial.meaning ⟨ts.filter fun t => !t.isZero⟩ = Polynomial.meaning ⟨ts⟩ := by
  induction ts with
  | nil => rfl
  | cons t ts ih =>
    by_cases ht : t.coefficient = 0
    · rw [List.filter_cons_of_neg (by simp [isZero, ht]), ih, meaning_cons, meaning_eq_zero ht,
        zero_add]
    · rw [List.filter_cons_of_pos (by simp [isZero, ht]), meaning_cons, ih, meaning_cons]

/-! ### Sorted terms -/

/-- Sorting puts no term before one that has to stand before it. -/
private theorem pairwise_mergeSort (ts : List Term) :
    (ts.mergeSort fun t u => t.precedence u != .lt).Pairwise fun t u =>
      (t.precedence u).isGE = true := by
  have hge : (fun t u : Term => t.precedence u != .lt) = fun t u => (t.precedence u).isGE := by
    funext t u
    cases t.precedence u <;> rfl
  rw [hge]
  refine List.pairwise_mergeSort (fun t u v htu huv => ?_) (fun t u => ?_) ts
  · exact Std.TransCmp.isGE_trans htu huv
  · have hswap : u.precedence t = (t.precedence u).swap := Monomial.precedence_swap _ _
    rw [hswap]
    cases t.precedence u <;> rfl

/-- Runs of like terms that descend: each is not empty and has one monomial, and each stands
strictly before those that follow it. -/
structure Descend (runs : List (List Term)) : Prop where
  /-- No run is empty. -/
  ne_nil : ∀ run ∈ runs, run ≠ []
  /-- The terms of a run are like terms. -/
  like : ∀ run ∈ runs, ∀ t ∈ run, ∀ u ∈ run, t.monomial = u.monomial
  /-- Earlier runs stand before later ones. -/
  descending : runs.Pairwise fun r s => ∀ t ∈ r, ∀ u ∈ s, t.precedence u = .gt

theorem descend_cons_iff {run : List Term} :
    Descend (run :: runs) ↔
      run ≠ [] ∧ (∀ t ∈ run, ∀ u ∈ run, t.monomial = u.monomial) ∧
        (∀ t ∈ run, ∀ u ∈ runs.flatten, t.precedence u = .gt) ∧ Descend runs := by
  constructor
  · rintro ⟨hne, hlike, hdesc⟩
    obtain ⟨hrun, hruns⟩ := List.forall_mem_cons.1 hne
    obtain ⟨hrunl, hrunsl⟩ := List.forall_mem_cons.1 hlike
    obtain ⟨hhead, htail⟩ := List.pairwise_cons.1 hdesc
    refine ⟨hrun, hrunl, fun t ht u hu => ?_, hruns, hrunsl, htail⟩
    obtain ⟨s, hs, hus⟩ := List.mem_flatten.1 hu
    exact hhead s hs t ht u hus
  · rintro ⟨hrun, hrunl, hhead, hruns, hrunsl, htail⟩
    refine ⟨List.forall_mem_cons.2 ⟨hrun, hruns⟩, List.forall_mem_cons.2 ⟨hrunl, hrunsl⟩,
      .cons (fun s hs t ht u hu => ?_) htail⟩
    exact hhead t ht u (List.mem_flatten_of_mem hs hu)

/-- Runs that do not ascend and change the monomial from each to the next descend strictly. -/
private theorem descend_of_isChain (hne : ∀ run ∈ runs, run ≠ [])
    (hlike : ∀ run ∈ runs, ∀ t ∈ run, ∀ u ∈ run, t.monomial = u.monomial)
    (hge : runs.Pairwise fun r s => ∀ t ∈ r, ∀ u ∈ s, (t.precedence u).isGE = true)
    (hchain : runs.IsChain fun r s => ∃ hr hs, (r.getLast hr).monomial ≠ (s.head hs).monomial) :
    Descend runs := by
  induction runs with
  | nil => exact ⟨nofun, nofun, .nil⟩
  | cons r runs ih =>
    obtain ⟨hr, hruns⟩ := List.forall_mem_cons.1 hne
    obtain ⟨hrl, hrunsl⟩ := List.forall_mem_cons.1 hlike
    obtain ⟨hhead, htail⟩ := List.pairwise_cons.1 hge
    refine descend_cons_iff.2 ⟨hr, hrl, fun t ht u hu => ?_, ih hruns hrunsl htail hchain.tail⟩
    cases runs with
    | nil => contradiction
    | cons s runs =>
      obtain ⟨⟨hr', hs, hne⟩, -⟩ := List.isChain_cons_cons.1 hchain
      have hlast := hrl t ht _ (List.getLast_mem hr')
      have hts : (t.precedence (s.head hs)).isGE = true :=
        hhead s (.head runs) t ht _ (List.head_mem hs)
      have hgt : t.precedence (s.head hs) = .gt := by
        cases hcmp : t.precedence (s.head hs) with
        | gt => rfl
        | lt => rw [hcmp] at hts; contradiction
        | eq => exact absurd (hlast ▸ Monomial.precedence_eq_eq_iff.1 hcmp) hne
      -- the first term of the next run stands between `t` and every term behind it
      have hsu : ((s.head hs).precedence u).isGE = true := by
        rcases List.mem_append.1 hu with hu | hu
        · have hsame := hrunsl s (.head runs) _ (List.head_mem hs) u hu
          rw [precedence, Monomial.precedence_eq_eq_iff.2 hsame]
          rfl
        · obtain ⟨s', hs', hus'⟩ := List.mem_flatten.1 hu
          exact (List.pairwise_cons.1 htail).1 s' hs' _ (List.head_mem hs) u hus'
      exact Std.TransCmp.gt_of_gt_of_isGE hgt hsu

/-- The runs of like terms of a sorted list descend strictly. -/
theorem descend_likeRuns (h : ts.Pairwise fun t u => (t.precedence u).isGE = true) :
    Descend (likeRuns ts) := by
  rw [← List.flatten_splitBy isLike ts, List.pairwise_flatten] at h
  refine descend_of_isChain (fun run hrun => List.ne_nil_of_mem_splitBy hrun)
    (fun run hrun t ht u hu => ?_) h.2 ?_
  · let Like (t u : Term) : Prop := t.monomial = u.monomial
    have htrans : IsTrans Term Like := ⟨fun _ _ _ => Eq.trans⟩
    have hsymm : Std.Symm Like := ⟨fun _ _ => Eq.symm⟩
    have hchain : run.IsChain Like :=
      (List.isChain_of_mem_splitBy hrun).imp fun t u => isLike_iff.1
    exact List.Pairwise.forall_of_forall (R := Like) (fun _ _ => rfl) hchain.pairwise ht hu
  · have hchain := List.isChain_getLast_head_splitBy isLike ts
    refine hchain.imp fun r s ⟨hr, hs, hne⟩ => ⟨hr, hs, ?_⟩
    exact beq_eq_false_iff_ne.1 hne

/-! ### Sums of runs -/

/-- Like terms stand for one term with the sum of their coefficients. -/
private theorem meaning_of_like (h : ∀ t ∈ ts, t.monomial = m) :
    Polynomial.meaning ⟨ts⟩ = MvPolynomial.monomial m.exponents (total ts) := by
  induction ts with
  | nil => exact (map_zero _).symm
  | cons t ts ih =>
    obtain ⟨ht, hts⟩ := List.forall_mem_cons.1 h
    rw [meaning_cons, ih hts, meaning, ht, total_eq_sum, total_eq_sum, List.map_cons,
      List.sum_cons, map_add]

/-- The sum of a run of like terms stands for what the run stands for. -/
private theorem meaning_sumRun {run : List Term} {o : Option Term}
    (hlike : ∀ t ∈ run, ∀ u ∈ run, t.monomial = u.monomial) (h : sumRun run = .ok o) :
    Polynomial.meaning ⟨o.toList⟩ = Polynomial.meaning ⟨run⟩ := by
  cases run with
  | nil =>
    cases h
    rfl
  | cons t ts =>
    obtain ⟨c, hc, h⟩ := bind_eq_ok_iff.1 h
    have hmeaning : Polynomial.meaning ⟨t :: ts⟩ = meaning { t with coefficient := c } := by
      rw [meaning_of_like fun u hu => hlike u hu t (.head ts), meaning,
        Coefficient.checked_eq_ok_iff.1 hc]
    cases h
    split
    · next hzero =>
      rw [hmeaning, meaning_eq_zero hzero]
      rfl
    · rw [hmeaning, Option.toList_some, meaning_cons, meaning_nil, add_zero]

/-- The sum of a run, where there is one, is a term with the monomial of the run that is not
zero. -/
private theorem exists_mem_of_sumRun {run : List Term} (h : sumRun run = .ok (some u)) :
    u.coefficient ≠ 0 ∧ ∃ t ∈ run, u.monomial = t.monomial := by
  cases run with
  | nil => exact nomatch Except.ok.inj h
  | cons t ts =>
    obtain ⟨c, -, h⟩ := bind_eq_ok_iff.1 h
    by_cases hc : c = 0
    · rw [if_pos hc] at h
      exact nomatch Except.ok.inj h
    · rw [if_neg hc] at h
      cases h
      exact ⟨hc, t, .head ts, rfl⟩

private theorem sumRun_eq_error {run : List Term} (h : sumRun run = .error e) :
    ¬ Coefficient.Fits (total run) ∧ e = .overflow .coefficientSum := by
  cases run with
  | nil => contradiction
  | cons t ts =>
    rcases bind_eq_error_iff.1 h with h | ⟨c, -, h⟩
    · exact Coefficient.checked_eq_error_iff.1 h
    · contradiction

/-- Descending runs are summed to a canonical polynomial with the meaning of all their terms. -/
private theorem canonical_of_mapM_sumRun {sums : List (Option Term)} (hruns : Descend runs)
    (hwf : ∀ t ∈ runs.flatten, t.WellFormed) (h : runs.mapM sumRun = .ok sums) :
    Polynomial.Canonical ⟨sums.filterMap id⟩ ∧
      Polynomial.meaning ⟨sums.filterMap id⟩ = Polynomial.meaning ⟨runs.flatten⟩ ∧
      ∀ u ∈ sums.filterMap id, ∃ t ∈ runs.flatten, u.monomial = t.monomial := by
  induction runs generalizing sums with
  | nil =>
    obtain rfl : [] = sums := Except.ok.inj h
    exact ⟨Polynomial.canonical_zero, rfl, nofun⟩
  | cons run runs ih =>
    obtain ⟨hne, hlike, hbehind, hruns⟩ := descend_cons_iff.1 hruns
    obtain ⟨o, sums, ho, hsums, rfl⟩ := mapM_cons_eq_ok_iff.1 h
    rw [List.flatten_cons, List.forall_mem_append] at hwf
    obtain ⟨hcanonical, hmeaning, hmem⟩ := ih hruns hwf.2 hsums
    have hfilter : (o :: sums).filterMap id = o.toList ++ sums.filterMap id := by
      cases o <;> rfl
    rw [hfilter, List.flatten_cons, meaning_append, meaning_append, meaning_sumRun hlike ho,
      hmeaning]
    have hmem' : ∀ u ∈ sums.filterMap id, ∃ t ∈ run ++ runs.flatten, u.monomial = t.monomial := by
      intro u hu
      obtain ⟨t, ht, hut⟩ := hmem u hu
      exact ⟨t, List.mem_append_right run ht, hut⟩
    -- a run whose coefficients cancel leaves no term, any other one with its own monomial
    cases o with
    | none => exact ⟨hcanonical, rfl, hmem'⟩
    | some v =>
      obtain ⟨hv, t, ht, hvt⟩ := exists_mem_of_sumRun ho
      have hvwf : v.WellFormed := by
        rw [WellFormed, hvt]
        exact hwf.1 t ht
      refine ⟨Polynomial.canonical_cons_iff.2 ⟨hvwf, hv, fun u hu => ?_, hcanonical⟩, rfl,
        List.forall_mem_cons.2 ⟨⟨t, List.mem_append_left _ ht, hvt⟩, hmem'⟩⟩
      obtain ⟨w, hw, huw⟩ := hmem u hu
      rw [precedence, hvt, huw]
      exact hbehind t ht w hw

/-- Summing descending runs fails only where the exact sum at some monomial is no word. -/
private theorem mapM_sumRun_eq_error (hruns : Descend runs) (h : runs.mapM sumRun = .error e) :
    e = .overflow .coefficientSum ∧
      ∃ t ∈ runs.flatten, ¬ Coefficient.Fits (totalAt t.monomial runs.flatten) := by
  induction runs with
  | nil => contradiction
  | cons run runs ih =>
    obtain ⟨hne, hlike, hbehind, hruns⟩ := descend_cons_iff.1 hruns
    rw [List.flatten_cons]
    rcases mapM_cons_eq_error_iff.1 h with h | ⟨o, -, h⟩
    · obtain ⟨hfits, he⟩ := sumRun_eq_error h
      -- all terms with the monomial of the run are in the run
      obtain ⟨t, ht⟩ := List.exists_mem_of_ne_nil run hne
      have hrun : totalAt t.monomial run = total run := by
        rw [totalAt, List.filter_eq_self.2 fun u hu => decide_eq_true (hlike u hu t ht)]
      have hrest : totalAt t.monomial runs.flatten = 0 :=
        totalAt_eq_zero fun u hu => (Monomial.ne_of_precedence_gt (hbehind t ht u hu)).symm
      refine ⟨he, t, List.mem_append_left _ ht, ?_⟩
      rwa [totalAt_append, hrun, hrest, add_zero]
    · obtain ⟨he, t, ht, hfits⟩ := ih hruns h
      have hrun : totalAt t.monomial run = 0 :=
        totalAt_eq_zero fun u hu => Monomial.ne_of_precedence_gt (hbehind u hu t ht)
      refine ⟨he, t, List.mem_append_right run ht, ?_⟩
      rwa [totalAt_append, hrun, zero_add]

end Term

namespace Polynomial

open Term (totalAt likeRuns sumRun)

variable {ts : List Term} {p : Polynomial} {e : Error}

/-- The runs that `ofTerms` adds up. -/
private theorem exists_runs (ts : List Term) : ∃ runs : List (List Term),
    Term.Descend runs ∧ (∀ t ∈ runs.flatten, t ∈ ts) ∧
      (∀ m, totalAt m runs.flatten = totalAt m ts) ∧ meaning ⟨runs.flatten⟩ = meaning ⟨ts⟩ ∧
      ofTerms ts = (do return ⟨(← runs.mapM sumRun).filterMap id⟩) := by
  have hperm := List.mergeSort_perm (ts.filter fun t => !t.isZero)
    fun t u => t.precedence u != .lt
  refine ⟨_, Term.descend_likeRuns (Term.pairwise_mergeSort _), ?_, fun m => ?_, ?_, rfl⟩
  · intro t ht
    rw [likeRuns, List.flatten_splitBy] at ht
    exact List.mem_of_mem_filter (hperm.mem_iff.1 ht)
  · rw [likeRuns, List.flatten_splitBy, Term.totalAt_perm hperm, Term.totalAt_filter]
  · rw [likeRuns, List.flatten_splitBy, Term.meaning_perm hperm, Term.meaning_filter]

/-- The only error of combining terms is the overflow of a sum. -/
theorem ofTerms_eq_error (h : ofTerms ts = .error e) :
    e = .overflow .coefficientSum ∧ ∃ t ∈ ts, ¬ Coefficient.Fits (totalAt t.monomial ts) := by
  obtain ⟨runs, hruns, hmem, htotal, -, hofTerms⟩ := exists_runs ts
  rw [hofTerms] at h
  rcases bind_eq_error_iff.1 h with h | ⟨sums, -, h⟩
  · obtain ⟨he, t, ht, hfits⟩ := Term.mapM_sumRun_eq_error hruns h
    rw [htotal] at hfits
    exact ⟨he, t, hmem t ht, hfits⟩
  · contradiction

/-- Terms combine to a canonical polynomial that stands for their sum. -/
theorem canonical_ofTerms (hts : ∀ t ∈ ts, t.WellFormed) (h : ofTerms ts = .ok p) :
    p.Canonical ∧ p.meaning = meaning ⟨ts⟩ := by
  obtain ⟨runs, hruns, hmem, -, hmeaning, hofTerms⟩ := exists_runs ts
  rw [hofTerms] at h
  obtain ⟨sums, hsums, h⟩ := bind_eq_ok_iff.1 h
  cases h
  obtain ⟨hcanonical, hsum, -⟩ :=
    Term.canonical_of_mapM_sumRun hruns (fun t ht => hts t (hmem t ht)) hsums
  exact ⟨hcanonical, hsum.trans hmeaning⟩

/-- The sums of coefficients are words where a canonical polynomial has the meaning of the terms. -/
private theorem totalAt_fits (hts : ∀ t ∈ ts, t.WellFormed) (hp : p.Canonical)
    (hmeaning : p.meaning = meaning ⟨ts⟩) :
    ∀ m : Monomial, m.WellFormed → Coefficient.Fits (totalAt m ts) := by
  intro m hm
  have hcoefficient : p.coefficientAt m = totalAt m ts :=
    coefficientAt_congr (q := ⟨ts⟩) hp.wellFormed hts hmeaning hm
  rw [← hcoefficient]
  exact coefficientAt_fits hp m

/-- Terms can be combined exactly when all sums of their coefficients are words. -/
theorem exists_ofTerms_eq_ok_iff (hts : ∀ t ∈ ts, t.WellFormed) :
    (∃ p, ofTerms ts = .ok p) ↔
      ∀ m : Monomial, m.WellFormed → Coefficient.Fits (totalAt m ts) := by
  constructor
  · rintro ⟨p, hp⟩
    obtain ⟨hcanonical, hmeaning⟩ := canonical_ofTerms hts hp
    exact totalAt_fits hts hcanonical hmeaning
  · intro hfits
    cases hofTerms : ofTerms ts with
    | ok p => exact ⟨p, rfl⟩
    | error e =>
      obtain ⟨-, t, ht, htotal⟩ := ofTerms_eq_error hofTerms
      exact absurd (hfits t.monomial (hts t ht)) htotal

/-- Terms combine to the canonical polynomial that stands for their sum. -/
theorem ofTerms_eq_ok_iff (hts : ∀ t ∈ ts, t.WellFormed) :
    ofTerms ts = .ok p ↔ p.Canonical ∧ p.meaning = meaning ⟨ts⟩ := by
  constructor
  · exact canonical_ofTerms hts
  · rintro ⟨hp, hmeaning⟩
    obtain ⟨p', hp'⟩ := (exists_ofTerms_eq_ok_iff hts).2 (totalAt_fits hts hp hmeaning)
    obtain ⟨hcanonical, hmeaning'⟩ := canonical_ofTerms hts hp'
    rw [hp', meaning_injective hcanonical hp (hmeaning'.trans hmeaning.symm)]

/-- What terms combine to depends only on what they stand for. -/
theorem ofTerms_congr {us : List Term} (hts : ∀ t ∈ ts, t.WellFormed)
    (hus : ∀ u ∈ us, u.WellFormed) (h : meaning ⟨ts⟩ = meaning ⟨us⟩) : ofTerms ts = ofTerms us := by
  have hsame : ∀ p, ofTerms ts = .ok p ↔ ofTerms us = .ok p := by
    intro p
    rw [ofTerms_eq_ok_iff hts, ofTerms_eq_ok_iff hus, h]
  cases hofTerms : ofTerms us with
  | ok p => exact (hsame p).2 hofTerms
  | error e =>
    cases hofTerms' : ofTerms ts with
    | ok p =>
      rw [(hsame p).1 hofTerms'] at hofTerms
      contradiction
    | error e' => rw [(ofTerms_eq_error hofTerms).1, (ofTerms_eq_error hofTerms').1]

end Polynomial

end SparsePoly

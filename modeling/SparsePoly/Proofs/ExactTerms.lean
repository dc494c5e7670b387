import SparsePoly.Proofs.MonomialOrder

/-!
# Terms are made and multiplied exactly

A letter that is given several degrees, by a list of powers or by two factors, gets their sum. The
sums are formed step by step, in an order that depends on the lists, and every step is checked.
Since degrees are natural numbers, no step leaves the range unless the whole sum does; so whether a
term can be made depends on the exact sums alone, and not on the way to them.

* `Monomial.ofPowers_eq_ofSorted`: sorting powers and adding up runs of one letter is such a way.
* `Term.Normalizes`: what a coefficient and a list of powers come to, by cases.
* `Term.ofPowers_normalizes`: these cases, and that the order of the powers does not matter.
* `Term.mul_exact`: when two terms have a product, which one, and the laws of products.
-/

namespace SparsePoly

/-! ### Sums of degrees -/

/-- The exact sum of the degrees that a list of powers gives to a letter. -/
def totalDegree (x : Char) (powers : List Power) : Nat :=
  ((powers.filter fun p => p.symbol = x).map fun p => p.degree.toNat).sum

namespace Monomial

variable {p : Power} {powers powers' : List Power} {r : Monomial} {e : Error}

/-- The exponents of a list of powers are the sums of its degrees. -/
theorem exponents_eq_totalDegree (powers : List Power) (x : Char) :
    exponents powers x = totalDegree x powers :=
  sum_single_apply Power.symbol (fun p => p.degree.toNat) powers x

/-- The exponents do not depend on the order of the powers. -/
theorem exponents_perm (h : powers'.Perm powers) : exponents powers' = exponents powers :=
  (h.map Power.exponent).sum_eq

/-! ### Sorting and adding up runs -/

/-- Adds up the degrees of powers of one letter that stand next to each other, where `p` is the last
power so far and the list holds those behind it. -/
def mergeRuns (p : Power) : List Power → Except Error Monomial
  | [] => .ok [p]
  | q :: powers =>
    if p.symbol = q.symbol then do
      let degree ← Degree.checked (p.degree.toNat + q.degree.toNat)
      mergeRuns ⟨p.symbol, degree⟩ powers
    else return p :: (← mergeRuns q powers)

/-- The powers of positive degree, in the order of their letters. -/
def sortPowers (powers : List Power) : List Power :=
  (powers.filter fun p => p.degree ≠ 0).mergeSort fun p q => p.symbol ≤ q.symbol

/-- The product of powers, sorted first and then added up run by run. -/
def ofSorted (powers : List Power) : Except Error Monomial :=
  match sortPowers powers with
  | [] => .ok []
  | p :: powers => mergeRuns p powers

theorem mem_sortPowers_iff : p ∈ sortPowers powers ↔ p ∈ powers ∧ p.degree ≠ 0 := by
  rw [sortPowers, List.mem_mergeSort, List.mem_filter, decide_eq_true_iff]

theorem pairwise_sortPowers (powers : List Power) :
    (sortPowers powers).Pairwise fun p q => p.symbol ≤ q.symbol := by
  have htrans : IsTrans Power fun p q => p.symbol ≤ q.symbol := ⟨fun _ _ _ => le_trans⟩
  have htotal : Std.Total fun p q : Power => p.symbol ≤ q.symbol := ⟨fun _ _ => le_total _ _⟩
  exact List.pairwise_mergeSort' _ _

/-- Sorting keeps the exponents. -/
theorem exponents_sortPowers (powers : List Power) :
    exponents (sortPowers powers) = exponents powers :=
  (exponents_perm (List.mergeSort_perm _ _)).trans (exponents_filter powers)

/-- What holds of every letter holds of every letter of the merged powers. -/
private theorem forall_symbol_mergeRuns {P : Char → Prop} (hP : ∀ q ∈ p :: powers, P q.symbol)
    (h : mergeRuns p powers = .ok r) : ∀ s ∈ r, P s.symbol := by
  fun_induction mergeRuns p powers generalizing r with
  | case1 p => cases h; exact hP
  | case2 p q powers _ ih =>
    obtain ⟨hp, hP⟩ := List.forall_mem_cons.1 hP
    obtain ⟨d, -, h⟩ := bind_eq_ok_iff.1 h
    exact ih d (List.forall_mem_cons.2 ⟨hp, (List.forall_mem_cons.1 hP).2⟩) h
  | case3 p q powers _ ih =>
    obtain ⟨hp, hP⟩ := List.forall_mem_cons.1 hP
    obtain ⟨rest, hrest, h⟩ := bind_eq_ok_iff.1 h
    cases h
    exact List.forall_mem_cons.2 ⟨hp, ih hP hrest⟩

/-- Merging powers keeps the exponents. -/
private theorem exponents_mergeRuns (h : mergeRuns p powers = .ok r) :
    r.exponents = exponents (p :: powers) := by
  fun_induction mergeRuns p powers generalizing r with
  | case1 p => cases h; rfl
  | case2 p q powers hsymbol ih =>
    obtain ⟨d, hd, h⟩ := bind_eq_ok_iff.1 h
    rw [ih d h, exponents_cons ⟨p.symbol, d⟩ powers, Power.exponent_of_checked hsymbol hd,
      exponents_cons p, exponents_cons q, add_assoc]
  | case3 p q powers _ ih =>
    obtain ⟨rest, hrest, h⟩ := bind_eq_ok_iff.1 h
    cases h
    rw [exponents_cons p rest, ih hrest, exponents_cons p]

/-- Merging sorted powers makes a well formed monomial. -/
private theorem wellFormed_mergeRuns
    (hsorted : (p :: powers).Pairwise fun p q => p.symbol ≤ q.symbol)
    (hletter : ∀ q ∈ p :: powers, q.symbol.isLower = true)
    (hpos : ∀ q ∈ p :: powers, q.degree ≠ 0) (h : mergeRuns p powers = .ok r) :
    r.WellFormed := by
  fun_induction mergeRuns p powers generalizing r with
  | case1 p =>
    cases h
    exact ⟨List.pairwise_singleton _ _, hletter, hpos⟩
  | case2 p q powers hsymbol ih =>
    obtain ⟨hp, hsorted⟩ := List.pairwise_cons.1 hsorted
    obtain ⟨hpl, hletter⟩ := List.forall_mem_cons.1 hletter
    obtain ⟨hpd, hpos⟩ := List.forall_mem_cons.1 hpos
    obtain ⟨d, hd, h⟩ := bind_eq_ok_iff.1 h
    refine ih d (List.pairwise_cons.2 ⟨(List.forall_mem_cons.1 hp).2, hsorted.of_cons⟩)
      (List.forall_mem_cons.2 ⟨hpl, (List.forall_mem_cons.1 hletter).2⟩)
      (List.forall_mem_cons.2 ⟨Power.ne_zero_of_checked hpd hd, (List.forall_mem_cons.1 hpos).2⟩) h
  | case3 p q powers hne ih =>
    obtain ⟨hp, hsorted⟩ := List.pairwise_cons.1 hsorted
    obtain ⟨hpl, hletter⟩ := List.forall_mem_cons.1 hletter
    obtain ⟨hpd, hpos⟩ := List.forall_mem_cons.1 hpos
    obtain ⟨rest, hrest, h⟩ := bind_eq_ok_iff.1 h
    cases h
    -- the letter of `p` is not that of the next power, so it is before all others
    have hlt : p.symbol < q.symbol := lt_of_le_of_ne (hp q (.head _)) hne
    have hhead : ∀ s ∈ q :: powers, p.symbol < s.symbol :=
      List.forall_mem_cons.2 ⟨hlt, fun s hs => hlt.trans_le ((List.pairwise_cons.1 hsorted).1 s hs)⟩
    exact wellFormed_cons_iff.2
      ⟨hpl, hpd, forall_symbol_mergeRuns hhead hrest, ih hsorted hletter hpos hrest⟩

/-- Merging powers fails only where the exponents of a letter are no degree. -/
private theorem mergeRuns_eq_error (h : mergeRuns p powers = .error e) :
    e = .overflow .degree ∧ ∃ x, ¬ Degree.Fits (exponents (p :: powers) x) := by
  fun_induction mergeRuns p powers with
  | case1 => contradiction
  | case2 p q powers hsymbol ih =>
    rcases bind_eq_error_iff.1 h with h | ⟨d, hd, h⟩
    · obtain ⟨he, hunfit⟩ := Power.not_fits_of_checked hsymbol h
      refine ⟨he, p.symbol, fun hfits => hunfit ?_⟩
      rw [exponents_cons, exponents_cons, Finsupp.add_apply, Finsupp.add_apply] at hfits
      omega
    · obtain ⟨he, x, hx⟩ := ih d h
      rw [exponents_cons, Power.exponent_of_checked hsymbol hd, add_assoc, ← exponents_cons,
        ← exponents_cons] at hx
      exact ⟨he, x, hx⟩
  | case3 p q powers _ ih =>
    rcases bind_eq_error_iff.1 h with h | ⟨rest, -, h⟩
    · obtain ⟨he, x, hx⟩ := ih h
      refine ⟨he, x, fun hfits => hx ?_⟩
      rw [exponents_cons p, Finsupp.add_apply] at hfits
      omega
    · contradiction

/-- The product of powers in any order is what sorting them and adding up runs of one letter comes
to, also where it fails. -/
theorem ofPowers_eq_ofSorted (hletter : ∀ p ∈ powers, p.symbol.isLower = true) :
    ofPowers powers = ofSorted powers := by
  have hexponents := exponents_sortPowers powers
  have hsorted := pairwise_sortPowers powers
  have hkept : ∀ p ∈ sortPowers powers, p.symbol.isLower = true :=
    fun p hp => hletter p (mem_sortPowers_iff.1 hp).1
  have hpos : ∀ p ∈ sortPowers powers, p.degree ≠ 0 := fun p hp => (mem_sortPowers_iff.1 hp).2
  cases hpowers : sortPowers powers with
  | nil =>
    have hrun : ofSorted powers = .ok [] := by rw [ofSorted, hpowers]
    rw [hpowers] at hexponents
    rw [hrun]
    exact (ofPowers_eq_ok_iff hletter).2 ⟨wellFormed_nil, hexponents⟩
  | cons p rest =>
    have hrun : ofSorted powers = mergeRuns p rest := by rw [ofSorted, hpowers]
    rw [hpowers] at hexponents hsorted hkept hpos
    -- both ways have one outcome for each exponent function
    rw [hrun]
    cases hrest : mergeRuns p rest with
    | ok r =>
      exact (ofPowers_eq_ok_iff hletter).2 ⟨wellFormed_mergeRuns hsorted hkept hpos hrest,
        (exponents_mergeRuns hrest).trans hexponents⟩
    | error e =>
      have herror := mergeRuns_eq_error hrest
      rw [hexponents] at herror
      exact (ofPowers_eq_error_iff hletter).2 herror

end Monomial

namespace Term

variable {c : Coefficient} {powers powers' : List Power} {outcome : Except Error Term}

/-! ### Terms from powers -/

/-- What a coefficient and a list of powers come to as a term. -/
inductive Normalizes (c : Coefficient) (powers : List Power) : Except Error Term → Prop where
  /-- The first symbol that is no letter is refused, whatever its degree and the coefficient are. -/
  | invalid {before after : List Power} {p : Power} (hpowers : powers = before ++ p :: after)
      (hbefore : ∀ q ∈ before, q.symbol ∈ letters) (hp : p.symbol ∉ letters) :
      Normalizes c powers (.error (.invalidSymbol p.symbol))
  /-- The coefficient zero leaves no letters, whatever their degrees are. -/
  | zero (hletters : ∀ p ∈ powers, p.symbol ∈ letters) (hc : c = 0) :
      Normalizes c powers (.ok (constant 0))
  /-- With another coefficient the degrees of each letter must add up to a degree. -/
  | overflow (hletters : ∀ p ∈ powers, p.symbol ∈ letters) (hc : c ≠ 0) {x : Char}
      (hx : ¬ Degree.Fits (totalDegree x powers)) :
      Normalizes c powers (.error (.overflow .degree))
  /-- The term has the coefficient and the sums of the degrees. -/
  | term (hletters : ∀ p ∈ powers, p.symbol ∈ letters) (hc : c ≠ 0) {t : Term}
      (ht : t.WellFormed) (hcoefficient : t.coefficient = c)
      (hdegree : ∀ x, (t.degree x).toNat = totalDegree x powers) :
      Normalizes c powers (.ok t)

private theorem isLower_of_mem_letters (hletters : ∀ p ∈ powers, p.symbol ∈ letters) :
    ∀ p ∈ powers, p.symbol.isLower = true :=
  fun p hp => mem_letters_iff.1 (hletters p hp)

/-- Making a term comes to what the cases say. -/
theorem normalizes_ofPowers (c : Coefficient) (powers : List Power) :
    Normalizes c powers (ofPowers c powers) := by
  cases hfind : powers.find? fun p => !p.symbol.isLower with
  | some p =>
    obtain ⟨hp, before, after, hpowers, hbefore⟩ := List.find?_eq_some_iff_append.1 hfind
    rw [ofPowers, hfind]
    refine .invalid hpowers (fun q hq => mem_letters_iff.2 ?_) fun hletter => ?_
    · simpa using hbefore q hq
    · simp [mem_letters_iff.1 hletter] at hp
  | none =>
    have hletter : ∀ p ∈ powers, p.symbol.isLower = true :=
      fun p hp => by simpa using List.find?_eq_none.1 hfind p hp
    have hletters : ∀ p ∈ powers, p.symbol ∈ letters :=
      fun p hp => mem_letters_iff.2 (hletter p hp)
    rw [ofPowers_of_isLower hletter]
    by_cases hc : c = 0
    · rw [if_pos hc]
      exact .zero hletters hc
    · rw [if_neg hc]
      cases hpowers : Monomial.ofPowers powers with
      | ok m =>
        obtain ⟨hm, hexponents⟩ := (Monomial.ofPowers_eq_ok_iff hletter).1 hpowers
        have hterm : WellFormed ⟨c, m⟩ := hm
        refine .term hletters hc hterm rfl fun x => ?_
        rw [← Monomial.exponents_eq_totalDegree, ← hexponents, ← exponents_monomial_apply hterm]
      | error e =>
        obtain ⟨rfl, x, hx⟩ := Monomial.ofPowers_eq_error hpowers
        rw [Monomial.exponents_eq_totalDegree] at hx
        exact .overflow hletters hc hx

/-- The cases leave one outcome. -/
theorem Normalizes.ofPowers_eq (h : Normalizes c powers outcome) :
    ofPowers c powers = outcome := by
  cases h with
  | @invalid before after p hpowers hbefore hp =>
    have hfind : (powers.find? fun p => !p.symbol.isLower) = some p := by
      refine List.find?_eq_some_iff_append.2 ⟨?_, before, after, hpowers, fun q hq => ?_⟩
      · simpa using fun hletter => hp (mem_letters_iff.2 hletter)
      · simp [mem_letters_iff.1 (hbefore q hq)]
    rw [ofPowers, hfind]
  | zero hletters hc =>
    rw [ofPowers_of_isLower (isLower_of_mem_letters hletters), if_pos hc]
  | overflow hletters hc hx =>
    have hletter := isLower_of_mem_letters hletters
    rw [← Monomial.exponents_eq_totalDegree] at hx
    rw [ofPowers_of_isLower hletter, if_neg hc,
      (Monomial.ofPowers_eq_error_iff hletter).2 ⟨rfl, _, hx⟩]
    rfl
  | @term hletters hc t ht hcoefficient hdegree =>
    have hletter := isLower_of_mem_letters hletters
    refine (ofPowers_eq_ok_iff hletter).2 ?_
    rw [if_neg hc]
    refine ⟨hcoefficient, ht, Finsupp.ext fun x => ?_⟩
    rw [exponents_monomial_apply ht, Monomial.exponents_eq_totalDegree, hdegree]

/-- The cases do not depend on the order of powers of letters. -/
theorem Normalizes.perm (hletters : ∀ p ∈ powers, p.symbol ∈ letters)
    (h : Normalizes c powers outcome) (hperm : powers'.Perm powers) :
    Normalizes c powers' outcome := by
  have hletters' : ∀ p ∈ powers', p.symbol ∈ letters :=
    fun p hp => hletters p (hperm.mem_iff.1 hp)
  have htotal : ∀ x, totalDegree x powers' = totalDegree x powers :=
    fun x => ((hperm.filter _).map _).sum_eq
  cases h with
  | @invalid before after p hpowers hbefore hp =>
    exact absurd (hletters p (hpowers ▸ List.mem_append_cons_self)) hp
  | zero _ hc => exact .zero hletters' hc
  | @overflow _ hc x hx => exact .overflow hletters' hc (htotal x ▸ hx)
  | term _ hc ht hcoefficient hdegree =>
    exact .term hletters' hc ht hcoefficient fun x => (hdegree x).trans (htotal x).symm

/-- Terms are made exactly, and the cases of `Normalizes` say how: a symbol that is no letter is
refused, the coefficient zero leaves the constant zero, and otherwise every letter gets the exact
sum of its degrees, or there is no term since one of the sums is no degree. Powers of letters come
to the same in every order, and sorting them before runs of one letter are added up is one way. -/
theorem ofPowers_normalizes (c : Coefficient) (powers : List Power) :
    (∀ outcome, ofPowers c powers = outcome ↔ Normalizes c powers outcome) ∧
      ((∀ p ∈ powers, p.symbol ∈ letters) →
        (∀ powers', powers'.Perm powers → ofPowers c powers' = ofPowers c powers) ∧
          (c ≠ 0 → ofPowers c powers = do return ⟨c, ← Monomial.ofSorted powers⟩)) ∧
      Overflow.degree.description = "degree exceeds u32" := by
  have hnormalizes := normalizes_ofPowers c powers
  refine ⟨fun outcome => ⟨fun h => h ▸ hnormalizes, Normalizes.ofPowers_eq⟩,
    fun hletters => ⟨fun powers' hperm => (hnormalizes.perm hletters hperm).ofPowers_eq,
      fun hc => ?_⟩, rfl⟩
  have hletter := isLower_of_mem_letters hletters
  rw [ofPowers_of_isLower hletter, if_neg hc, Monomial.ofPowers_eq_ofSorted hletter]

/-- The degrees of `y` add up to the greatest degree in either order, with one more they do not, and
the coefficient zero makes that no matter. A symbol that is no letter is refused all the same. -/
theorem ofPowers_normalizes_at_limit :
    let powers : List Power := [⟨'y', 4294967294⟩, ⟨'x', 1⟩, ⟨'z', 0⟩, ⟨'y', 1⟩]
    let powers' : List Power := [⟨'z', 0⟩, ⟨'y', 1⟩, ⟨'y', 4294967294⟩, ⟨'x', 1⟩]
    (∀ p ∈ powers, p.symbol ∈ letters) ∧ powers'.Perm powers ∧
      Normalizes 3 powers (.ok ⟨3, [⟨'x', 1⟩, ⟨'y', 4294967295⟩]⟩) ∧
      ofPowers 3 powers' = .ok ⟨3, [⟨'x', 1⟩, ⟨'y', 4294967295⟩]⟩ ∧
      (3 : Coefficient) ≠ 0 ∧ ofPowers 3 powers = (do return ⟨3, ← Monomial.ofSorted powers⟩) ∧
      ofPowers 3 (⟨'y', 1⟩ :: powers) = .error (.overflow .degree) ∧
      ofPowers 0 (⟨'y', 1⟩ :: powers) = .ok (constant 0) ∧
      ofPowers 0 (powers ++ [⟨'é', 0⟩, ⟨'A', 1⟩]) = .error (.invalidSymbol 'é') := by
  have hterm : ofPowers 3 [⟨'y', 4294967294⟩, ⟨'x', 1⟩, ⟨'z', 0⟩, ⟨'y', 1⟩] =
      .ok ⟨3, [⟨'x', 1⟩, ⟨'y', 4294967295⟩]⟩ := by
    rw [ofPowers_of_isLower (by decide)]
    cbv
  intro powers powers'
  have hletters : ∀ p ∈ powers, p.symbol ∈ letters := by decide
  have hmore : ∀ p ∈ ⟨'y', 1⟩ :: powers, p.symbol ∈ letters := by decide
  have hperm : powers'.Perm powers := by decide
  have hthree : (3 : Coefficient) ≠ 0 := by decide
  obtain ⟨hcases, hany, -⟩ := ofPowers_normalizes 3 powers
  refine ⟨hletters, hperm, (hcases _).1 hterm, ((hany hletters).1 powers' hperm).trans hterm,
    hthree, (hany hletters).2 hthree, ?_, ?_, ?_⟩
  · have hy : ¬ Degree.Fits (totalDegree 'y' (⟨'y', 1⟩ :: powers)) := by decide
    exact ((ofPowers_normalizes 3 _).1 _).2 (.overflow hmore hthree hy)
  · exact ((ofPowers_normalizes 0 _).1 _).2 (.zero hmore rfl)
  · exact ((ofPowers_normalizes 0 _).1 _).2 (.invalid rfl hletters (by decide))

/-! ### Products of terms -/

variable {t u v tu uv r r' : Term} {e : Error}

/-- Two terms have no product exactly when the product of the coefficients is no word or, where it
is one, a sum of degrees is no degree. -/
theorem mul_eq_error_iff (ht : t.WellFormed) (hu : u.WellFormed) :
    t.mul u = .error e ↔
      (¬ Coefficient.Fits (t.coefficient.toInt * u.coefficient.toInt) ∧
        e = .overflow .coefficientProduct) ∨
      Coefficient.Fits (t.coefficient.toInt * u.coefficient.toInt) ∧
        e = .overflow .degree ∧ ∃ x, ¬ Degree.Fits ((t.degree x).toNat + (u.degree x).toNat) := by
  simp only [← exponents_monomial_apply ht, ← exponents_monomial_apply hu]
  rw [mul, bind_eq_error_iff, Coefficient.checked_eq_error_iff, ← Monomial.mul_eq_error_iff ht hu]
  refine or_congr_right ⟨?_, ?_⟩
  · rintro ⟨c, hc, h⟩
    rw [← Coefficient.checked_eq_ok_iff.1 hc]
    rcases bind_eq_error_iff.1 h with h | ⟨m, -, h⟩
    · exact ⟨Coefficient.fits_toInt c, h⟩
    · contradiction
  · rintro ⟨hfits, h⟩
    exact ⟨_, if_pos hfits, bind_eq_error_iff.2 (.inl h)⟩

/-- The product of two terms is the well formed term with the exact product of the coefficients and
the exact sums of the degrees. -/
theorem mul_eq_ok_iff_degree (ht : t.WellFormed) (hu : u.WellFormed) :
    t.mul u = .ok r ↔
      r.WellFormed ∧ r.coefficient.toInt = t.coefficient.toInt * u.coefficient.toInt ∧
        ∀ x, (r.degree x).toNat = (t.degree x).toNat + (u.degree x).toNat := by
  rw [mul_eq_ok_iff ht hu, Finsupp.ext_iff]
  refine and_congr_right fun hr => and_congr_right fun _ => ?_
  simp only [Finsupp.add_apply, exponents_monomial_apply ht, exponents_monomial_apply hu,
    exponents_monomial_apply hr]

/-- Where three terms have a product in both groupings it is the same. -/
theorem mul_assoc_of_eq_ok (ht : t.WellFormed) (hu : u.WellFormed) (hv : v.WellFormed)
    (htu : t.mul u = .ok tu) (hr : tu.mul v = .ok r) (huv : u.mul v = .ok uv)
    (hr' : t.mul uv = .ok r') : r = r' := by
  obtain ⟨htuwf, htuc, htue⟩ := (mul_eq_ok_iff ht hu).1 htu
  obtain ⟨huvwf, huvc, huve⟩ := (mul_eq_ok_iff hu hv).1 huv
  obtain ⟨hrwf, hrc, hre⟩ := (mul_eq_ok_iff htuwf hv).1 hr
  refine Except.ok.inj (hr'.symm.trans ((mul_eq_ok_iff ht huvwf).2 ⟨hrwf, ?_, ?_⟩)).symm
  · rw [hrc, htuc, huvc, Int.mul_assoc]
  · rw [hre, htue, huve, add_assoc]

/-- Terms are multiplied exactly. The product has the product of the coefficients and the sums of
the degrees, and it is missing only where one of these is out of range: if it is the coefficient,
that is reported, and otherwise the degree, also where the product of the coefficients is zero. So
the order of two factors does not matter, and neither does the grouping of three where both
groupings have a result. -/
theorem mul_exact (ht : t.WellFormed) (hu : u.WellFormed) :
    (t.mul u = .error (.overflow .coefficientProduct) ↔
        ¬ Coefficient.Fits (t.coefficient.toInt * u.coefficient.toInt)) ∧
      (t.mul u = .error (.overflow .degree) ↔
        Coefficient.Fits (t.coefficient.toInt * u.coefficient.toInt) ∧
          ∃ x, ¬ Degree.Fits ((t.degree x).toNat + (u.degree x).toNat)) ∧
      (Coefficient.Fits (t.coefficient.toInt * u.coefficient.toInt) →
        (∀ x, Degree.Fits ((t.degree x).toNat + (u.degree x).toNat)) →
        ∃ r, t.mul u = .ok r ∧ r.WellFormed ∧
          r.coefficient.toInt = t.coefficient.toInt * u.coefficient.toInt ∧
          ∀ x, (r.degree x).toNat = (t.degree x).toNat + (u.degree x).toNat) ∧
      Overflow.coefficientProduct.description = "coefficient product exceeds i64" ∧
      Overflow.degree.description = "degree exceeds u32" ∧
      t.mul u = u.mul t ∧
      ∀ v tu uv r r', v.WellFormed → t.mul u = .ok tu → tu.mul v = .ok r → u.mul v = .ok uv →
        t.mul uv = .ok r' → r = r' := by
  refine ⟨?_, ?_, fun hfits hdegrees => ?_, rfl, rfl, mul_eq_mul_swap t u,
    fun v tu uv r r' hv => mul_assoc_of_eq_ok ht hu hv⟩
  · rw [mul_eq_error_iff ht hu]
    simp
  · rw [mul_eq_error_iff ht hu]
    simp
  · obtain ⟨r, hr⟩ := (exists_mul_eq_ok_iff ht hu).2 ⟨hfits, hdegrees⟩
    exact ⟨r, hr, (mul_eq_ok_iff_degree ht hu).1 hr⟩

/-- The letters of the factors interleave, the degree of `z` reaches its limit in both groupings and
the coefficient becomes zero. A degree above the limit is reported with the coefficient zero as
well, but not with a coefficient out of range. -/
theorem mul_exact_zero_at_limit :
    let t : Term := ⟨2, [⟨'x', 1⟩, ⟨'z', 2⟩]⟩
    let u : Term := ⟨-3, [⟨'x', 2⟩, ⟨'y', 1⟩]⟩
    let v : Term := ⟨0, [⟨'z', 4294967293⟩]⟩
    let w : Term := ⟨-9223372036854775808, [⟨'z', 3⟩]⟩
    t.WellFormed ∧ u.WellFormed ∧ v.WellFormed ∧ w.WellFormed ∧
      Coefficient.Fits (t.coefficient.toInt * u.coefficient.toInt) ∧
      (∀ x, Degree.Fits ((t.degree x).toNat + (u.degree x).toNat)) ∧
      (∃ tu uv r r', t.mul u = .ok tu ∧ tu.WellFormed ∧ tu.mul v = .ok r ∧ u.mul v = .ok uv ∧
        t.mul uv = .ok r' ∧ r = r' ∧ r = ⟨0, [⟨'x', 3⟩, ⟨'y', 1⟩, ⟨'z', 4294967295⟩]⟩) ∧
      v.mul w = .error (.overflow .degree) ∧ v.mul w = w.mul v ∧
      mul ⟨-1, [⟨'z', 4294967295⟩]⟩ w = .error (.overflow .coefficientProduct) := by
  have htu : mul ⟨2, [⟨'x', 1⟩, ⟨'z', 2⟩]⟩ ⟨-3, [⟨'x', 2⟩, ⟨'y', 1⟩]⟩ =
      .ok ⟨-6, [⟨'x', 3⟩, ⟨'y', 1⟩, ⟨'z', 2⟩]⟩ := by cbv
  have hr : mul ⟨-6, [⟨'x', 3⟩, ⟨'y', 1⟩, ⟨'z', 2⟩]⟩ ⟨0, [⟨'z', 4294967293⟩]⟩ =
      .ok ⟨0, [⟨'x', 3⟩, ⟨'y', 1⟩, ⟨'z', 4294967295⟩]⟩ := by cbv
  have huv : mul ⟨-3, [⟨'x', 2⟩, ⟨'y', 1⟩]⟩ ⟨0, [⟨'z', 4294967293⟩]⟩ =
      .ok ⟨0, [⟨'x', 2⟩, ⟨'y', 1⟩, ⟨'z', 4294967293⟩]⟩ := by cbv
  have hr' : mul ⟨2, [⟨'x', 1⟩, ⟨'z', 2⟩]⟩ ⟨0, [⟨'x', 2⟩, ⟨'y', 1⟩, ⟨'z', 4294967293⟩]⟩ =
      .ok ⟨0, [⟨'x', 3⟩, ⟨'y', 1⟩, ⟨'z', 4294967295⟩]⟩ := by cbv
  intro t u v w
  have ht : t.WellFormed := by decide
  have hu : u.WellFormed := by decide
  have hv : v.WellFormed := by decide
  have hw : w.WellFormed := by decide
  obtain ⟨hfits, hdegrees⟩ := (exists_mul_eq_ok_iff ht hu).1 ⟨_, htu⟩
  obtain ⟨-, -, hexact, -, -, -, hassoc⟩ := mul_exact ht hu
  obtain ⟨r, hproduct, hwf, -⟩ := hexact hfits hdegrees
  obtain rfl := Except.ok.inj (htu.symm.trans hproduct)
  obtain ⟨-, hoverflow, -, -, -, hswap, -⟩ := mul_exact hv hw
  have hz : ¬ Degree.Fits ((v.degree 'z').toNat + (w.degree 'z').toNat) := by decide
  have hminus : WellFormed ⟨-1, [⟨'z', 4294967295⟩]⟩ := by decide
  exact ⟨ht, hu, hv, hw, hfits, hdegrees,
    ⟨_, _, _, _, htu, hwf, hr, huv, hr', hassoc v _ _ _ _ hv htu hr huv hr', rfl⟩,
    hoverflow.2 ⟨by decide, 'z', hz⟩, hswap, (mul_exact hminus hw).1.2 (by decide)⟩

end Term

end SparsePoly

import Mathlib.Algebra.BigOperators.Finsupp.Basic
import SparsePoly.Proofs.Precedence

/-!
# Monomials as exponent functions

A monomial gives every letter an exponent, a natural number without bound. `Monomial.exponents` is
that function. It turns products into sums, and a well formed monomial is determined by it, so what
the operations on monomials do is said by one equation between exponents each. They fail exactly
when a sum of exponents is no degree.

* `Monomial.exponents_injective`: well formed monomials with the same exponents are the same.
* `Monomial.mul_eq_ok_iff`, `Monomial.exists_mul_eq_ok_iff`, `Monomial.mul_eq_error_iff`: products.
* `Monomial.precedence_mul`: a common factor does not change the order.
* `Monomial.ofPowers_eq_ok_iff`, `Monomial.ofPowers_eq_error_iff`: the product of powers in any
  order.
-/

namespace SparsePoly

/-- A sum of exponent functions of one letter each gives a letter the sum of its degrees. -/
theorem sum_single_apply {α : Type} (symbol : α → Char) (degree : α → Nat) (powers : List α)
    (x : Char) :
    (powers.map fun p => Finsupp.single (symbol p) (degree p)).sum x =
      ((powers.filter fun p => symbol p = x).map degree).sum := by
  induction powers with
  | nil => rfl
  | cons p powers ih =>
    rw [List.map_cons, List.sum_cons, Finsupp.add_apply, ih]
    by_cases hx : symbol p = x
    · rw [List.filter_cons_of_pos (by simpa using hx), List.map_cons, List.sum_cons, hx,
        Finsupp.single_eq_same]
    · rw [List.filter_cons_of_neg (by simpa using hx), Finsupp.single_eq_of_ne (Ne.symm hx),
        Nat.zero_add]

/-- The exponent function of a power. -/
noncomputable def Power.exponent (p : Power) : Char →₀ Nat :=
  .single p.symbol p.degree.toNat

namespace Power

variable {p q : Power} {d : Degree}

/-- Two powers of one letter have together the exponents of the power with the sum of their
degrees. -/
theorem exponent_of_checked (hsymbol : p.symbol = q.symbol)
    (hd : Degree.checked (p.degree.toNat + q.degree.toNat) = .ok d) :
    exponent ⟨p.symbol, d⟩ = p.exponent + q.exponent := by
  rw [exponent, exponent, exponent, ← hsymbol, ← Finsupp.single_add, Degree.checked_eq_ok_iff.1 hd]

/-- A sum of degrees is zero only when both are. -/
theorem ne_zero_of_checked (hp : p.degree ≠ 0)
    (hd : Degree.checked (p.degree.toNat + q.degree.toNat) = .ok d) : d ≠ 0 := by
  rintro rfl
  have hsum : p.degree.toNat + q.degree.toNat = 0 := (Degree.checked_eq_ok_iff.1 hd).symm
  exact hp (UInt32.toNat_inj.1 (Nat.eq_zero_of_add_eq_zero_right hsum))

/-- Where a sum of degrees of one letter is no degree, neither is the sum of the exponents. -/
theorem not_fits_of_checked {e : Error} (hsymbol : p.symbol = q.symbol)
    (h : Degree.checked (p.degree.toNat + q.degree.toNat) = .error e) :
    e = .overflow .degree ∧ ¬ Degree.Fits (p.exponent p.symbol + q.exponent p.symbol) := by
  obtain ⟨hd, he⟩ := Degree.checked_eq_error_iff.1 h
  rw [exponent, exponent, ← hsymbol, Finsupp.single_eq_same, Finsupp.single_eq_same]
  exact ⟨he, hd⟩

end Power

namespace Monomial

/-- The exponent function of a monomial. -/
noncomputable def exponents (m : Monomial) : Char →₀ Nat :=
  (m.map Power.exponent).sum

@[simp] theorem exponents_nil : exponents [] = 0 := rfl

@[simp] theorem exponents_cons (p : Power) (m : Monomial) :
    exponents (p :: m) = p.exponent + exponents m := by
  rw [exponents, List.map_cons, List.sum_cons]
  rfl

variable {m n r : Monomial} {e : Error}

/-- The exponent of a letter is its degree. -/
theorem exponents_apply (hm : m.WellFormed) (x : Char) : m.exponents x = (m.degree x).toNat := by
  induction m with
  | nil => rfl
  | cons p m ih =>
    obtain ⟨-, -, hhead, hm⟩ := wellFormed_cons_iff.1 hm
    rw [exponents_cons, Finsupp.add_apply, ih hm, degree_cons, Power.exponent]
    by_cases hx : p.symbol = x
    · subst hx
      -- the letters ascend, so the letter of the first power does not occur again
      have hzero : degree m p.symbol = 0 :=
        degree_eq_zero fun q hq => (Char.ne_of_lt (hhead q hq)).symm
      rw [Finsupp.single_eq_same, if_pos rfl, hzero]
      rfl
    · rw [Finsupp.single_eq_of_ne (Ne.symm hx), if_neg hx, Nat.zero_add]

/-- A well formed monomial is determined by its exponents. -/
theorem exponents_injective (hm : m.WellFormed) (hn : n.WellFormed)
    (h : m.exponents = n.exponents) : m = n := by
  refine ext_degree hm hn fun x _ => UInt32.toNat_inj.1 ?_
  rw [← exponents_apply hm, ← exponents_apply hn, h]

theorem exponents_inj (hm : m.WellFormed) (hn : n.WellFormed) :
    m.exponents = n.exponents ↔ m = n :=
  ⟨exponents_injective hm hn, congrArg exponents⟩

theorem exponents_fits (hm : m.WellFormed) (x : Char) : Degree.Fits (m.exponents x) := by
  rw [exponents_apply hm]
  exact (m.degree x).toNat_lt

/-! ### Products -/

/-- What holds of every letter of two monomials holds of every letter of their product. -/
private theorem forall_symbol_mul {P : Char → Prop} (hm : ∀ p ∈ m, P p.symbol)
    (hn : ∀ q ∈ n, P q.symbol) (h : mul m n = .ok r) : ∀ s ∈ r, P s.symbol := by
  fun_induction mul m n generalizing r with
  | case1 n => cases h; exact hn
  | case2 p m => cases h; exact hm
  | case3 p m q n _ ih =>
    obtain ⟨hp, hm⟩ := List.forall_mem_cons.1 hm
    obtain ⟨rest, hrest, h⟩ := bind_eq_ok_iff.1 h
    cases h
    exact List.forall_mem_cons.2 ⟨hp, ih hm hn hrest⟩
  | case4 p m q n _ ih =>
    obtain ⟨hq, hn⟩ := List.forall_mem_cons.1 hn
    obtain ⟨rest, hrest, h⟩ := bind_eq_ok_iff.1 h
    cases h
    exact List.forall_mem_cons.2 ⟨hq, ih hm hn hrest⟩
  | case5 p m q n _ ih =>
    obtain ⟨hp, hm⟩ := List.forall_mem_cons.1 hm
    obtain ⟨-, hn⟩ := List.forall_mem_cons.1 hn
    obtain ⟨d, -, h⟩ := bind_eq_ok_iff.1 h
    obtain ⟨rest, hrest, h⟩ := bind_eq_ok_iff.1 h
    cases h
    exact List.forall_mem_cons.2 ⟨hp, ih hm hn hrest⟩

/-- The exponents of a product are the sums of the exponents. -/
theorem exponents_mul (h : mul m n = .ok r) : r.exponents = m.exponents + n.exponents := by
  fun_induction mul m n generalizing r with
  | case1 n => cases h; rw [exponents_nil, zero_add]
  | case2 p m => cases h; rw [exponents_nil, add_zero]
  | case3 p m q n _ ih =>
    obtain ⟨rest, hrest, h⟩ := bind_eq_ok_iff.1 h
    cases h
    rw [exponents_cons p rest, ih hrest, exponents_cons p m, add_assoc]
  | case4 p m q n _ ih =>
    obtain ⟨rest, hrest, h⟩ := bind_eq_ok_iff.1 h
    cases h
    rw [exponents_cons q rest, ih hrest, exponents_cons q n, add_left_comm]
  | case5 p m q n hpq ih =>
    have hsymbol : p.symbol = q.symbol := Std.LawfulEqOrd.eq_of_compare hpq
    obtain ⟨d, hd, h⟩ := bind_eq_ok_iff.1 h
    obtain ⟨rest, hrest, h⟩ := bind_eq_ok_iff.1 h
    cases h
    rw [exponents_cons ⟨p.symbol, d⟩ rest, ih hrest, exponents_cons p m, exponents_cons q n,
      Power.exponent_of_checked hsymbol hd, add_add_add_comm]

/-- The product of well formed monomials is well formed. -/
theorem wellFormed_mul (hm : m.WellFormed) (hn : n.WellFormed) (h : mul m n = .ok r) :
    r.WellFormed := by
  fun_induction mul m n generalizing r with
  | case1 n => cases h; exact hn
  | case2 p m => cases h; exact hm
  | case3 p m q n hpq ih =>
    have hlt : p.symbol < q.symbol := compare_lt_iff_lt.1 hpq
    obtain ⟨hpl, hpd, hpm, hm⟩ := wellFormed_cons_iff.1 hm
    obtain ⟨-, -, hqn, -⟩ := wellFormed_cons_iff.1 hn
    obtain ⟨rest, hrest, h⟩ := bind_eq_ok_iff.1 h
    cases h
    -- the letter of `p` stands before all others, since `q` is the first of its list
    have hpn : ∀ s ∈ q :: n, p.symbol < s.symbol :=
      List.forall_mem_cons.2 ⟨hlt, fun s hs => hlt.trans (hqn s hs)⟩
    exact wellFormed_cons_iff.2 ⟨hpl, hpd, forall_symbol_mul hpm hpn hrest, ih hm hn hrest⟩
  | case4 p m q n hpq ih =>
    have hlt : q.symbol < p.symbol := compare_gt_iff_gt.1 hpq
    obtain ⟨-, -, hpm, -⟩ := wellFormed_cons_iff.1 hm
    obtain ⟨hql, hqd, hqn, hn⟩ := wellFormed_cons_iff.1 hn
    obtain ⟨rest, hrest, h⟩ := bind_eq_ok_iff.1 h
    cases h
    have hqm : ∀ s ∈ p :: m, q.symbol < s.symbol :=
      List.forall_mem_cons.2 ⟨hlt, fun s hs => hlt.trans (hpm s hs)⟩
    exact wellFormed_cons_iff.2 ⟨hql, hqd, forall_symbol_mul hqm hqn hrest, ih hm hn hrest⟩
  | case5 p m q n hpq ih =>
    have hsymbol : p.symbol = q.symbol := Std.LawfulEqOrd.eq_of_compare hpq
    obtain ⟨hpl, hpd, hpm, hm⟩ := wellFormed_cons_iff.1 hm
    obtain ⟨-, -, hqn, hn⟩ := wellFormed_cons_iff.1 hn
    obtain ⟨d, hd, h⟩ := bind_eq_ok_iff.1 h
    obtain ⟨rest, hrest, h⟩ := bind_eq_ok_iff.1 h
    cases h
    exact wellFormed_cons_iff.2 ⟨hpl, Power.ne_zero_of_checked hpd hd,
      forall_symbol_mul hpm (hsymbol ▸ hqn) hrest, ih hm hn hrest⟩

/-- A product fails only where the exponents of a letter add up to more than a degree can be. -/
theorem mul_eq_error (h : mul m n = .error e) :
    e = .overflow .degree ∧ ∃ x, ¬ Degree.Fits (m.exponents x + n.exponents x) := by
  fun_induction mul m n with
  | case1 => contradiction
  | case2 => contradiction
  | case3 p m q n _ ih =>
    rcases bind_eq_error_iff.1 h with h | ⟨rest, -, h⟩
    · -- a sum that does not fit without the first power does not fit with it either
      obtain ⟨he, x, hx⟩ := ih h
      refine ⟨he, x, fun hfits => hx ?_⟩
      rw [exponents_cons p m, Finsupp.add_apply] at hfits
      omega
    · contradiction
  | case4 p m q n _ ih =>
    rcases bind_eq_error_iff.1 h with h | ⟨rest, -, h⟩
    · obtain ⟨he, x, hx⟩ := ih h
      refine ⟨he, x, fun hfits => hx ?_⟩
      rw [exponents_cons q n, Finsupp.add_apply] at hfits
      omega
    · contradiction
  | case5 p m q n hpq ih =>
    have hsymbol : p.symbol = q.symbol := Std.LawfulEqOrd.eq_of_compare hpq
    rcases bind_eq_error_iff.1 h with h | ⟨d, -, h⟩
    · obtain ⟨he, hd⟩ := Power.not_fits_of_checked hsymbol h
      refine ⟨he, p.symbol, fun hfits => hd ?_⟩
      rw [exponents_cons, exponents_cons, Finsupp.add_apply, Finsupp.add_apply] at hfits
      omega
    · rcases bind_eq_error_iff.1 h with h | ⟨rest, -, h⟩
      · obtain ⟨he, x, hx⟩ := ih h
        refine ⟨he, x, fun hfits => hx ?_⟩
        rw [exponents_cons, exponents_cons, Finsupp.add_apply, Finsupp.add_apply] at hfits
        omega
      · contradiction

/-- Two monomials have a product exactly when every sum of their degrees is a degree. -/
theorem exists_mul_eq_ok_iff (hm : m.WellFormed) (hn : n.WellFormed) :
    (∃ r, mul m n = .ok r) ↔ ∀ x, Degree.Fits (m.exponents x + n.exponents x) := by
  constructor
  · rintro ⟨r, hr⟩ x
    rw [← Finsupp.add_apply, ← exponents_mul hr]
    exact exponents_fits (wellFormed_mul hm hn hr) x
  · intro h
    cases hmul : mul m n with
    | ok r => exact ⟨r, rfl⟩
    | error e =>
      obtain ⟨-, x, hx⟩ := mul_eq_error hmul
      exact absurd (h x) hx

/-- Two monomials have no product exactly when a sum of their degrees is no degree. -/
theorem mul_eq_error_iff (hm : m.WellFormed) (hn : n.WellFormed) :
    mul m n = .error e ↔
      e = .overflow .degree ∧ ∃ x, ¬ Degree.Fits (m.exponents x + n.exponents x) := by
  refine ⟨mul_eq_error, ?_⟩
  rintro ⟨rfl, x, hx⟩
  cases hmul : mul m n with
  | ok r => exact absurd ((exists_mul_eq_ok_iff hm hn).1 ⟨r, hmul⟩ x) hx
  | error e' => rw [(mul_eq_error hmul).1]

/-- The product is the well formed monomial with the sums of the exponents. -/
theorem mul_eq_ok_iff (hm : m.WellFormed) (hn : n.WellFormed) :
    mul m n = .ok r ↔ r.WellFormed ∧ r.exponents = m.exponents + n.exponents := by
  constructor
  · intro h
    exact ⟨wellFormed_mul hm hn h, exponents_mul h⟩
  · rintro ⟨hr, hsum⟩
    have hfits : ∀ x, Degree.Fits (m.exponents x + n.exponents x) := by
      intro x
      rw [← Finsupp.add_apply, ← hsum]
      exact exponents_fits hr x
    obtain ⟨r', hr'⟩ := (exists_mul_eq_ok_iff hm hn).2 hfits
    have hsame : r'.exponents = r.exponents := (exponents_mul hr').trans hsum.symm
    rw [hr', exponents_injective (wellFormed_mul hm hn hr') hr hsame]

/-- Two products with a common factor compare as the other factors do. -/
theorem precedence_mul {n' r' : Monomial} (hm : m.WellFormed) (hn : n.WellFormed)
    (hn' : n'.WellFormed) (h : mul m n = .ok r) (h' : mul m n' = .ok r') :
    r.precedence r' = n.precedence n' := by
  have hr := wellFormed_mul hm hn h
  have hr' := wellFormed_mul hm hn' h'
  refine precedence_of_degree_add (m := m) hn hn' hr hr' (fun x => ?_) fun x => ?_
  · rw [← exponents_apply hr, ← exponents_apply hm, ← exponents_apply hn, exponents_mul h]
    rfl
  · rw [← exponents_apply hr', ← exponents_apply hm, ← exponents_apply hn', exponents_mul h']
    rfl

/-! ### Products of powers -/

/-- Multiplying a monomial by powers one after another adds up the exponents. -/
private theorem foldlM_mul_eq_ok_iff {powers : List Power} (hm : m.WellFormed)
    (hletter : ∀ p ∈ powers, p.symbol.isLower = true) (hpos : ∀ p ∈ powers, p.degree ≠ 0) :
    powers.foldlM (fun m p => mul m [p]) m = .ok r ↔
      r.WellFormed ∧ r.exponents = m.exponents + exponents powers := by
  induction powers generalizing m with
  | nil =>
    rw [List.foldlM_nil, exponents_nil, add_zero]
    constructor
    · intro h
      cases h
      exact ⟨hm, rfl⟩
    · rintro ⟨hr, h⟩
      rw [exponents_injective hr hm h]
      rfl
  | cons p powers ih =>
    obtain ⟨hpl, hletter⟩ := List.forall_mem_cons.1 hletter
    obtain ⟨hpd, hpos⟩ := List.forall_mem_cons.1 hpos
    have hp : WellFormed [p] := wellFormed_cons_iff.2 ⟨hpl, hpd, nofun, wellFormed_nil⟩
    rw [List.foldlM_cons, bind_eq_ok_iff, exponents_cons p powers, ← add_assoc]
    constructor
    · rintro ⟨n, hn, h⟩
      obtain ⟨hr, hsum⟩ := (ih (wellFormed_mul hm hp hn) hletter hpos).1 h
      rw [exponents_mul hn, exponents_cons p [], exponents_nil, add_zero] at hsum
      exact ⟨hr, hsum⟩
    · rintro ⟨hr, hsum⟩
      -- the intermediate product exists since its exponents are at most those of the result
      have hfits : ∀ x, Degree.Fits (m.exponents x + exponents [p] x) := by
        intro x
        have hx := exponents_fits hr x
        rw [hsum, Finsupp.add_apply, Finsupp.add_apply] at hx
        rw [exponents_cons p [], exponents_nil, add_zero]
        omega
      obtain ⟨n, hn⟩ := (exists_mul_eq_ok_iff hm hp).2 hfits
      refine ⟨n, hn, (ih (wellFormed_mul hm hp hn) hletter hpos).2 ⟨hr, ?_⟩⟩
      rw [hsum, exponents_mul hn, exponents_cons p [], exponents_nil, add_zero]

/-- Powers of degree zero have no part in the exponents. -/
theorem exponents_filter (powers : List Power) :
    exponents (powers.filter fun p => p.degree ≠ 0) = exponents powers := by
  induction powers with
  | nil => rfl
  | cons p powers ih =>
    by_cases hp : p.degree = 0
    · have hzero : p.exponent = 0 := by
        rw [Power.exponent, hp]
        exact Finsupp.single_zero _
      rw [List.filter_cons_of_neg (by simp [hp]), ih, exponents_cons, hzero, zero_add]
    · rw [List.filter_cons_of_pos (by simp [hp]), exponents_cons, ih, exponents_cons]

/-- The product of powers in any order is the well formed monomial with the sums of their
exponents. -/
theorem ofPowers_eq_ok_iff {powers : List Power}
    (hletter : ∀ p ∈ powers, p.symbol.isLower = true) :
    ofPowers powers = .ok r ↔ r.WellFormed ∧ r.exponents = exponents powers := by
  rw [ofPowers, foldlM_mul_eq_ok_iff wellFormed_nil, exponents_nil, zero_add, exponents_filter]
  · exact fun p hp => hletter p (List.mem_of_mem_filter hp)
  · exact fun p hp => by simpa using List.of_mem_filter hp

/-- Multiplying a monomial by powers one after another fails only where the exponents of a letter
add up to more than a degree can be. -/
private theorem foldlM_mul_eq_error {powers : List Power}
    (h : powers.foldlM (fun m p => mul m [p]) m = .error e) :
    e = .overflow .degree ∧ ∃ x, ¬ Degree.Fits (m.exponents x + exponents powers x) := by
  induction powers generalizing m with
  | nil => contradiction
  | cons p powers ih =>
    rw [List.foldlM_cons] at h
    rcases bind_eq_error_iff.1 h with h | ⟨n, hn, h⟩
    · obtain ⟨he, x, hx⟩ := mul_eq_error h
      refine ⟨he, x, fun hfits => hx ?_⟩
      rw [exponents_cons, Finsupp.add_apply] at hfits
      rw [exponents_cons, exponents_nil, add_zero]
      omega
    · obtain ⟨he, x, hx⟩ := ih h
      refine ⟨he, x, fun hfits => hx ?_⟩
      rw [exponents_mul hn, exponents_cons, exponents_nil, add_zero, Finsupp.add_apply]
      rw [exponents_cons, Finsupp.add_apply] at hfits
      omega

/-- The product of powers in any order fails only where the exponents of a letter add up to more
than a degree can be. -/
theorem ofPowers_eq_error {powers : List Power} (h : ofPowers powers = .error e) :
    e = .overflow .degree ∧ ∃ x, ¬ Degree.Fits (exponents powers x) := by
  obtain ⟨he, x, hx⟩ := foldlM_mul_eq_error h
  rw [exponents_nil, exponents_filter, Finsupp.zero_apply, zero_add] at hx
  exact ⟨he, x, hx⟩

/-- Powers in any order have no product exactly when a sum of their degrees is no degree. -/
theorem ofPowers_eq_error_iff {powers : List Power}
    (hletter : ∀ p ∈ powers, p.symbol.isLower = true) :
    ofPowers powers = .error e ↔
      e = .overflow .degree ∧ ∃ x, ¬ Degree.Fits (exponents powers x) := by
  refine ⟨ofPowers_eq_error, ?_⟩
  rintro ⟨rfl, x, hx⟩
  cases hpowers : ofPowers powers with
  | ok r =>
    obtain ⟨hr, hsum⟩ := (ofPowers_eq_ok_iff hletter).1 hpowers
    rw [← hsum] at hx
    exact absurd (exponents_fits hr x) hx
  | error e' => rw [(ofPowers_eq_error hpowers).1]

/-- A letter that no power has comes with the exponent zero. -/
theorem exponents_eq_zero {powers : List Power} {x : Char} (h : ∀ p ∈ powers, p.symbol ≠ x) :
    exponents powers x = 0 := by
  induction powers with
  | nil => rfl
  | cons p powers ih =>
    obtain ⟨hp, hpowers⟩ := List.forall_mem_cons.1 h
    rw [exponents_cons, Finsupp.add_apply, ih hpowers, Power.exponent,
      Finsupp.single_eq_of_ne hp.symm]

/-- Powers of distinct letters have degrees as exponents. -/
theorem exponents_fits_of_nodup {powers : List Power} (h : (powers.map Power.symbol).Nodup)
    (x : Char) : Degree.Fits (exponents powers x) := by
  induction powers with
  | nil => exact Nat.zero_lt_succ _
  | cons p powers ih =>
    obtain ⟨hp, hpowers⟩ := List.nodup_cons.1 h
    rw [exponents_cons, Finsupp.add_apply, Power.exponent]
    by_cases hx : p.symbol = x
    · subst hx
      have hzero : exponents powers p.symbol = 0 :=
        exponents_eq_zero fun q hq hqp => hp (hqp ▸ List.mem_map_of_mem hq)
      rw [Finsupp.single_eq_same, hzero]
      exact p.degree.toNat_lt
    · rw [Finsupp.single_eq_of_ne (Ne.symm hx), Nat.zero_add]
      exact ih hpowers

end Monomial

namespace Term

variable {c : Coefficient} {powers : List Power} {t : Term}

/-- The exponents of a term are its degrees. -/
theorem exponents_monomial_apply (ht : t.WellFormed) (x : Char) :
    t.monomial.exponents x = (t.degree x).toNat :=
  Monomial.exponents_apply ht x

/-- A term is made of letters only. -/
theorem isLower_of_ofPowers (h : ofPowers c powers = .ok t) :
    ∀ p ∈ powers, p.symbol.isLower = true := by
  intro p hp
  unfold ofPowers at h
  split at h
  · contradiction
  · next hnone => simpa using List.find?_eq_none.1 hnone p hp

/-- Powers of letters are multiplied, unless the coefficient is zero. -/
theorem ofPowers_of_isLower (hletter : ∀ p ∈ powers, p.symbol.isLower = true) :
    ofPowers c powers =
      if c = 0 then .ok (constant 0) else do return ⟨c, ← Monomial.ofPowers powers⟩ := by
  have hnone : (powers.find? fun p => !p.symbol.isLower) = none :=
    List.find?_eq_none.2 fun p hp => by simp [hletter p hp]
  rw [ofPowers, hnone]

/-- A coefficient and powers in any order make the well formed term with that coefficient and the
sums of the exponents, or the constant zero when the coefficient is zero. -/
theorem ofPowers_eq_ok_iff (hletter : ∀ p ∈ powers, p.symbol.isLower = true) :
    ofPowers c powers = .ok t ↔
      if c = 0 then t = constant 0
      else t.coefficient = c ∧ t.WellFormed ∧
        t.monomial.exponents = Monomial.exponents powers := by
  rw [ofPowers_of_isLower hletter]
  by_cases hc : c = 0
  · simp only [if_pos hc, Except.ok.injEq]
    exact eq_comm
  · simp only [if_neg hc]
    rw [bind_eq_ok_iff]
    constructor
    · rintro ⟨m, hm, h⟩
      cases h
      exact ⟨rfl, (Monomial.ofPowers_eq_ok_iff hletter).1 hm⟩
    · rintro ⟨rfl, hwf⟩
      exact ⟨t.monomial, (Monomial.ofPowers_eq_ok_iff hletter).2 hwf, rfl⟩

/-- What a coefficient and powers make is well formed. -/
theorem wellFormed_ofPowers (h : ofPowers c powers = .ok t) : t.WellFormed := by
  have hterm := (ofPowers_eq_ok_iff (isLower_of_ofPowers h)).1 h
  by_cases hc : c = 0
  · rw [if_pos hc] at hterm
    subst hterm
    exact Monomial.wellFormed_nil
  · rw [if_neg hc] at hterm
    exact hterm.2.1

/-- Powers of distinct letters make a term with every coefficient. -/
theorem exists_ofPowers_eq_ok (hletter : ∀ p ∈ powers, p.symbol.isLower = true)
    (hdistinct : (powers.map Power.symbol).Nodup) (c : Coefficient) :
    ∃ t, ofPowers c powers = .ok t := by
  rw [ofPowers_of_isLower hletter]
  by_cases hc : c = 0
  · exact ⟨constant 0, if_pos hc⟩
  · simp only [if_neg hc]
    cases hpowers : Monomial.ofPowers powers with
    | ok m => exact ⟨⟨c, m⟩, rfl⟩
    | error e =>
      obtain ⟨-, x, hx⟩ := Monomial.ofPowers_eq_error hpowers
      exact absurd (Monomial.exponents_fits_of_nodup hdistinct x) hx

end Term

end SparsePoly

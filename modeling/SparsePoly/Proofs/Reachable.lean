import SparsePoly.Proofs.Language
import SparsePoly.Proofs.Product

/-!
# Every value that can be computed is well formed

Terms and polynomials are computed by calling operations, which take values computed before. A
`Store` holds the values that there are; a step calls one operation on values of the store and adds
its result, or leaves the store as it is when the operation fails. The operations build their
results in different ways, and only some of them sort or combine terms, but each hands on what it
can rely on: well formed terms and canonical polynomials.

* `Store.Sound.step`: one step keeps the values of a store well formed.
* `Store.sound_of_reachable`: so all values of a store that can be reached are.
* `Store.invariant_of_reachable`: what that says about terms and polynomials.
-/

namespace SparsePoly

/-- The values that have been computed. -/
structure Store where
  /-- The terms. -/
  terms : List Term
  /-- The polynomials. -/
  polynomials : List Polynomial

namespace Store

/-! ### Calls -/

/-- The outcomes of a call that yields a term. -/
inductive TermCall (s : Store) : Except Error Term → Prop where
  /-- A term from a coefficient and powers. -/
  | ofPowers (c : Coefficient) (powers : List Power) : TermCall s (Term.ofPowers c powers)
  /-- A term without letters. -/
  | constant (c : Coefficient) : TermCall s (.ok (Term.constant c))
  /-- A term with the opposite coefficient. -/
  | neg {t : Term} (ht : t ∈ s.terms) : TermCall s t.neg
  /-- A product of two terms. -/
  | mul {t u : Term} (ht : t ∈ s.terms) (hu : u ∈ s.terms) : TermCall s (t.mul u)
  /-- A term of a polynomial. -/
  | termOf {p : Polynomial} {t : Term} (hp : p ∈ s.polynomials) (ht : t ∈ p.terms) :
    TermCall s (.ok t)

/-- The outcomes of a call that yields a polynomial. -/
inductive PolynomialCall (s : Store) : Except Error Polynomial → Prop where
  /-- The polynomial without terms. -/
  | zero : PolynomialCall s (.ok Polynomial.zero)
  /-- The polynomial there is by default. -/
  | default : PolynomialCall s (.ok default)
  /-- A constant polynomial. -/
  | constant (c : Coefficient) : PolynomialCall s (.ok (Polynomial.constant c))
  /-- A polynomial from a text. -/
  | ofText (text : String) : PolynomialCall s (Polynomial.ofText text)
  /-- A polynomial from terms in any order. -/
  | ofTerms {ts : List Term} (hts : ∀ t ∈ ts, t ∈ s.terms) :
    PolynomialCall s (Polynomial.ofTerms ts)
  /-- A sum of two polynomials. -/
  | add {p q : Polynomial} (hp : p ∈ s.polynomials) (hq : q ∈ s.polynomials) :
    PolynomialCall s (p.add q)
  /-- A difference of two polynomials. -/
  | sub {p q : Polynomial} (hp : p ∈ s.polynomials) (hq : q ∈ s.polynomials) :
    PolynomialCall s (p.sub q)
  /-- A polynomial with all coefficients negated. -/
  | neg {p : Polynomial} (hp : p ∈ s.polynomials) : PolynomialCall s p.neg
  /-- A product of two polynomials. -/
  | mul {p q : Polynomial} (hp : p ∈ s.polynomials) (hq : q ∈ s.polynomials) :
    PolynomialCall s (p.mul q)

/-- One call: its result is kept, and a failure changes nothing. -/
inductive Step (s : Store) : Store → Prop where
  /-- A term is computed. -/
  | term {t : Term} (h : TermCall s (.ok t)) : Step s { s with terms := t :: s.terms }
  /-- A polynomial is computed. -/
  | polynomial {p : Polynomial} (h : PolynomialCall s (.ok p)) :
    Step s { s with polynomials := p :: s.polynomials }
  /-- A call for a term fails. -/
  | termFails {e : Error} (h : TermCall s (.error e)) : Step s s
  /-- A call for a polynomial fails. -/
  | polynomialFails {e : Error} (h : PolynomialCall s (.error e)) : Step s s

/-- A store that finitely many calls lead to, from the one without values. -/
def Reachable (s : Store) : Prop := Relation.ReflTransGen Step ⟨[], []⟩ s

/-! ### The invariant -/

/-- The values of a store are well formed. -/
structure Sound (s : Store) : Prop where
  /-- The terms are well formed. -/
  wellFormed : ∀ t ∈ s.terms, t.WellFormed
  /-- The polynomials are canonical. -/
  canonical : ∀ p ∈ s.polynomials, p.Canonical

variable {s s' : Store} {t : Term} {p : Polynomial}

/-- A term computed from well formed values is well formed. -/
theorem TermCall.wellFormed (hs : s.Sound) (h : TermCall s (.ok t)) : t.WellFormed := by
  -- the outcome of a call is an application, so that the case split needs a name for it
  generalize houtcome : Except.ok t = outcome at h
  cases h with
  | ofPowers c powers => exact Term.wellFormed_ofPowers houtcome.symm
  | constant c =>
    cases houtcome
    exact Monomial.wellFormed_nil
  | neg hu =>
    rw [Term.WellFormed, (Term.neg_eq_ok_iff.1 houtcome.symm).1]
    exact hs.wellFormed _ hu
  | mul hu hv =>
    exact ((Term.mul_eq_ok_iff (hs.wellFormed _ hu) (hs.wellFormed _ hv)).1 houtcome.symm).1
  | termOf hp hu =>
    cases houtcome
    exact (hs.canonical _ hp).wellFormed t hu

/-- A polynomial computed from well formed values is canonical. -/
theorem PolynomialCall.canonical (hs : s.Sound) (h : PolynomialCall s (.ok p)) : p.Canonical := by
  generalize houtcome : Except.ok p = outcome at h
  cases h with
  | zero =>
    cases houtcome
    exact Polynomial.canonical_zero
  | default =>
    cases houtcome
    exact Polynomial.canonical_zero
  | constant c =>
    cases houtcome
    exact Polynomial.canonical_constant c
  | ofText text => exact Polynomial.canonical_ofText houtcome.symm
  | ofTerms hts =>
    have hwf := fun t ht => hs.wellFormed t (hts t ht)
    exact (Polynomial.canonical_ofTerms hwf houtcome.symm).1
  | add hq hr =>
    exact ((Polynomial.add_eq_ok_iff (hs.canonical _ hq) (hs.canonical _ hr)).1 houtcome.symm).1
  | sub hq hr =>
    exact ((Polynomial.sub_eq_ok_iff (hs.canonical _ hq) (hs.canonical _ hr)).1 houtcome.symm).1
  | neg hq => exact ((Polynomial.neg_eq_ok_iff (hs.canonical _ hq)).1 houtcome.symm).1
  | mul hq hr =>
    exact (Polynomial.mul_eq_ok (hs.canonical _ hq) (hs.canonical _ hr) houtcome.symm).1

/-- One call keeps the values of a store well formed. -/
theorem Sound.step (hs : s.Sound) (h : Step s s') : s'.Sound := by
  cases h with
  | term h => exact ⟨List.forall_mem_cons.2 ⟨h.wellFormed hs, hs.wellFormed⟩, hs.canonical⟩
  | polynomial h => exact ⟨hs.wellFormed, List.forall_mem_cons.2 ⟨h.canonical hs, hs.canonical⟩⟩
  | termFails => exact hs
  | polynomialFails => exact hs

/-- The values of a store that can be reached are well formed. -/
theorem sound_of_reachable (h : s.Reachable) : s.Sound := by
  induction h with
  | refl => exact ⟨nofun, nofun⟩
  | tail _ hstep ih => exact ih.step hstep

/-- However values are computed, by any calls in any order, every term is well formed and every
polynomial canonical, so that no two of its terms have the same monomial. -/
theorem invariant_of_reachable (h : s.Reachable) :
    (∀ t ∈ s.terms, t.WellFormed) ∧
      ∀ p ∈ s.polynomials, p.Canonical ∧ (p.terms.map Term.monomial).Nodup := by
  have hs := sound_of_reachable h
  refine ⟨hs.wellFormed, fun p hp => ⟨hs.canonical p hp, ?_⟩⟩
  refine List.pairwise_map.2 ((hs.canonical p hp).descending.imp fun hgt => ?_)
  exact Monomial.ne_of_precedence_gt hgt

/-- A text is read, the polynomial is multiplied by itself and a term of the product is taken. -/
theorem invariant_of_reachable_square :
    let p : Polynomial := ⟨[⟨1, [⟨'x', 1⟩]⟩, ⟨-1, []⟩]⟩
    let r : Polynomial := ⟨[⟨1, [⟨'x', 2⟩]⟩, ⟨-2, [⟨'x', 1⟩]⟩, ⟨1, []⟩]⟩
    let s : Store := ⟨[⟨-2, [⟨'x', 1⟩]⟩], [r, p]⟩
    s.Reachable ∧ (∀ t ∈ s.terms, t.WellFormed) ∧
      ∀ p ∈ s.polynomials, p.Canonical ∧ (p.terms.map Term.monomial).Nodup := by
  intro p r s
  have hterms : (Token.scan "x-1".toList >>= readTerms) = .ok p.terms := by decide +kernel
  have hp : Polynomial.ofText "x-1" = .ok p :=
    (Polynomial.ofText_eq_ofTerms hterms).trans (by cbv)
  have hr : p.mul p = .ok r := by cbv
  have hread : Step ⟨[], []⟩ ⟨[], [p]⟩ := .polynomial (hp ▸ .ofText "x-1")
  have hmul : Step ⟨[], [p]⟩ ⟨[], [r, p]⟩ := .polynomial (hr ▸ .mul (.head []) (.head []))
  have hterm : Step ⟨[], [r, p]⟩ s := .term (.termOf (.head [p]) (.tail _ (.head _)))
  have hs : s.Reachable := .tail (.tail (.tail .refl hread) hmul) hterm
  exact ⟨hs, invariant_of_reachable hs⟩

end Store

end SparsePoly

import SparsePoly.Term

/-!
# Polynomials

A polynomial is a list of terms. In a canonical polynomial the terms are well formed, none has the
coefficient zero and they descend in precedence, so no two of them are like terms; then equal
polynomials have equal term lists.

`Polynomial.ofTerms` makes a canonical polynomial of terms in any order. It sorts them, which
brings like terms together, and adds up each run of like terms. The sums are exact: only the total
of a run has to fit in a coefficient, whatever the partial sums are.
-/

namespace SparsePoly

/-! ### Like terms -/

namespace Term

/-- The exact sum of the coefficients of some terms. -/
def total (terms : List Term) : Int := terms.foldl (fun sum t => sum + t.coefficient.toInt) 0

/-- The exact sum of the coefficients of those terms that have the monomial `m`. -/
def totalAt (m : Monomial) (terms : List Term) : Int :=
  total (terms.filter fun t => t.monomial = m)

/-- The runs of neighbours that are like terms. -/
def likeRuns (terms : List Term) : List (List Term) := terms.splitBy isLike

/-- The sum of a run of like terms, which is no term at all when the coefficients cancel. -/
def sumRun : List Term → Except Error (Option Term)
  | [] => .ok none
  | t :: terms => do
    let c ← Coefficient.checked .coefficientSum (total (t :: terms))
    return if c = 0 then none else some { t with coefficient := c }

end Term

/-! ### Polynomials -/

/-- A polynomial, given by its terms. -/
structure Polynomial where
  /-- The terms, in the order in which they are written. -/
  terms : List Term
deriving DecidableEq, Repr

namespace Polynomial

/-- A polynomial is canonical when its terms are well formed, none has the coefficient zero and
each stands strictly before those that follow it. -/
structure Canonical (p : Polynomial) : Prop where
  /-- Every term is well formed. -/
  wellFormed : ∀ t ∈ p.terms, t.WellFormed
  /-- No term has the coefficient zero. -/
  nonzero : ∀ t ∈ p.terms, t.coefficient ≠ 0
  /-- The terms descend in precedence. -/
  descending : p.terms.Pairwise fun t u => t.precedence u = .gt

/-- The polynomial without terms. -/
def zero : Polynomial := ⟨[]⟩

instance : Inhabited Polynomial where
  default := zero

/-- The polynomial that has the value `c` everywhere. -/
def constant (c : Coefficient) : Polynomial :=
  if c = 0 then zero else ⟨[.constant c]⟩

/-- The sum of terms given in any order. Fails when the coefficients of like terms add up to more
than a coefficient can be. -/
def ofTerms (terms : List Term) : Except Error Polynomial := do
  let sorted := (terms.filter fun t => !t.isZero).mergeSort fun t u => t.precedence u != .lt
  let sums ← (Term.likeRuns sorted).mapM Term.sumRun
  return ⟨sums.filterMap id⟩

/-- Whether the polynomial has no terms. -/
def isZero (p : Polynomial) : Bool := p.terms.isEmpty

/-- Whether the polynomial has no letters, as the zero polynomial has none. -/
def isConstant (p : Polynomial) : Bool := p.terms.all Term.isConstant

/-- The highest degree of a letter in any term. -/
def degree (p : Polynomial) (symbol : Char) : Degree :=
  p.terms.foldr (fun t highest => max (t.degree symbol) highest) 0

/-- The coefficient at a monomial, which is zero where no term has that monomial. -/
def coefficientAt (p : Polynomial) (m : Monomial) : Int := Term.totalAt m p.terms

@[simp] theorem terms_zero : zero.terms = [] := rfl

theorem canonical_zero : Canonical zero := ⟨nofun, nofun, .nil⟩

/-- A term list is canonical when its first term is well formed, not zero and stands before the
others, and these are canonical. -/
theorem canonical_cons_iff {t : Term} {ts : List Term} :
    Canonical ⟨t :: ts⟩ ↔
      t.WellFormed ∧ t.coefficient ≠ 0 ∧ (∀ u ∈ ts, t.precedence u = .gt) ∧ Canonical ⟨ts⟩ := by
  constructor
  · rintro ⟨hwf, hnonzero, hdesc⟩
    obtain ⟨ht, hts⟩ := List.forall_mem_cons.1 hwf
    obtain ⟨htc, htsc⟩ := List.forall_mem_cons.1 hnonzero
    obtain ⟨hhead, htail⟩ := List.pairwise_cons.1 hdesc
    exact ⟨ht, htc, hhead, hts, htsc, htail⟩
  · rintro ⟨ht, htc, hhead, hts, htsc, htail⟩
    exact ⟨List.forall_mem_cons.2 ⟨ht, hts⟩, List.forall_mem_cons.2 ⟨htc, htsc⟩,
      .cons hhead htail⟩

instance (p : Polynomial) : Decidable p.Canonical :=
  decidable_of_iff
    ((∀ t ∈ p.terms, t.WellFormed) ∧ (∀ t ∈ p.terms, t.coefficient ≠ 0) ∧
      p.terms.Pairwise fun t u => t.precedence u = .gt)
    ⟨fun ⟨hwf, hnonzero, hdesc⟩ => ⟨hwf, hnonzero, hdesc⟩,
      fun h => ⟨h.wellFormed, h.nonzero, h.descending⟩⟩

theorem canonical_constant (c : Coefficient) : Canonical (constant c) := by
  unfold constant
  split
  · exact canonical_zero
  · next h =>
    refine ⟨fun t ht => ?_, fun t ht => ?_, .cons nofun .nil⟩
    · rw [List.mem_singleton.1 ht]
      exact Monomial.wellFormed_nil
    · rw [List.mem_singleton.1 ht]
      exact h

end Polynomial

end SparsePoly

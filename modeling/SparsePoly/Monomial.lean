import SparsePoly.Scalar

/-!
# Monomials

A monomial is a product of powers of letters, kept as a list of powers. In a well formed monomial
the letters ascend, so each occurs once, and no degree is zero; then two monomials are the same
product exactly when they are the same list.

* `Monomial.precedence` is the order in which the terms of a polynomial stand. Power by power,
  the earlier letter and then the higher degree comes first; a list that goes on comes before one
  that ends, so the constant monomial is last.
* `Monomial.mul` merges two lists by letter and adds the degrees of a shared letter.
* `Monomial.ofPowers` multiplies powers given in any order, with any repetition.
-/

namespace SparsePoly

/-- The letters that a polynomial is written in. -/
def letters : List Char := (List.range 26).map fun i => Char.ofNat ('a'.toNat + i)

/-- A letter raised to a degree. -/
structure Power where
  /-- The letter. -/
  symbol : Char
  /-- The degree. -/
  degree : Degree
deriving DecidableEq, Repr

/-- Compares two powers: the earlier letter is the greater, then the higher degree. -/
def Power.precedence (p q : Power) : Ordering :=
  (compare q.symbol p.symbol).then (compare p.degree q.degree)

/-- A product of powers of letters. -/
abbrev Monomial := List Power

namespace Monomial

/-- A monomial is well formed when its letters ascend and every power in it is a lowercase letter
raised to a positive degree. -/
structure WellFormed (m : Monomial) : Prop where
  /-- The letters ascend. -/
  ascending : m.Pairwise fun p q => p.symbol < q.symbol
  /-- Every symbol is a lowercase letter. -/
  letter : ∀ p ∈ m, p.symbol.isLower = true
  /-- No letter is raised to zero. -/
  positive : ∀ p ∈ m, p.degree ≠ 0

theorem wellFormed_nil : WellFormed [] := ⟨.nil, nofun, nofun⟩

/-- A monomial is well formed when its first power is, stands before the others, and these are. -/
theorem wellFormed_cons_iff {p : Power} {m : Monomial} :
    WellFormed (p :: m) ↔
      p.symbol.isLower = true ∧ p.degree ≠ 0 ∧ (∀ q ∈ m, p.symbol < q.symbol) ∧ WellFormed m := by
  constructor
  · rintro ⟨hasc, hletter, hpos⟩
    obtain ⟨hhead, htail⟩ := List.pairwise_cons.1 hasc
    obtain ⟨hpl, hml⟩ := List.forall_mem_cons.1 hletter
    obtain ⟨hpd, hmd⟩ := List.forall_mem_cons.1 hpos
    exact ⟨hpl, hpd, hhead, htail, hml, hmd⟩
  · rintro ⟨hpl, hpd, hhead, htail, hml, hmd⟩
    exact ⟨.cons hhead htail, List.forall_mem_cons.2 ⟨hpl, hml⟩, List.forall_mem_cons.2 ⟨hpd, hmd⟩⟩

instance (m : Monomial) : Decidable m.WellFormed :=
  decidable_of_iff
    ((m.Pairwise fun p q => p.symbol < q.symbol) ∧ (∀ p ∈ m, p.symbol.isLower = true) ∧
      ∀ p ∈ m, p.degree ≠ 0)
    ⟨fun ⟨hasc, hletter, hpos⟩ => ⟨hasc, hletter, hpos⟩,
      fun h => ⟨h.ascending, h.letter, h.positive⟩⟩

/-- The degree of a letter, which is zero when the letter does not occur. -/
def degree (m : Monomial) (symbol : Char) : Degree :=
  ((m.find? fun p => p.symbol == symbol).map Power.degree).getD 0

@[simp] theorem degree_nil (symbol : Char) : degree [] symbol = 0 := rfl

theorem degree_cons (p : Power) (m : Monomial) (symbol : Char) :
    degree (p :: m) symbol = if p.symbol = symbol then p.degree else degree m symbol := by
  by_cases h : p.symbol = symbol <;> simp [degree, h]

/-- A letter that does not occur has the degree zero. -/
theorem degree_eq_zero {m : Monomial} {symbol : Char} (h : ∀ p ∈ m, p.symbol ≠ symbol) :
    degree m symbol = 0 := by
  induction m with
  | nil => rfl
  | cons p m ih =>
    obtain ⟨hp, hm⟩ := List.forall_mem_cons.1 h
    rw [degree_cons, if_neg hp, ih hm]

/-! ### Order -/

/-- Compares two monomials, where `gt` means that the first stands before the second. -/
def precedence : Monomial → Monomial → Ordering
  | [], [] => .eq
  | [], _ :: _ => .lt
  | _ :: _, [] => .gt
  | p :: m, q :: n => (p.precedence q).then (precedence m n)

/-! ### Products -/

/-- The product of two monomials. Fails when the degrees of a shared letter add up to more than a
degree can be. -/
def mul : Monomial → Monomial → Except Error Monomial
  | [], n => .ok n
  | p :: m, [] => .ok (p :: m)
  | p :: m, q :: n =>
    match compare p.symbol q.symbol with
    | .lt => do return p :: (← mul m (q :: n))
    | .gt => do return q :: (← mul (p :: m) n)
    | .eq => do
      let degree ← Degree.checked (p.degree.toNat + q.degree.toNat)
      return ⟨p.symbol, degree⟩ :: (← mul m n)
termination_by m n => m.length + n.length

@[simp] theorem nil_mul (n : Monomial) : mul [] n = .ok n := by
  rw [mul]

@[simp] theorem mul_nil (m : Monomial) : mul m [] = .ok m := by
  cases m <;> rw [mul]

/-- The product of powers given in any order: powers with degree zero are left out and the degrees
of a repeated letter are added. -/
def ofPowers (powers : List Power) : Except Error Monomial :=
  (powers.filter fun p => p.degree ≠ 0).foldlM (fun m p => mul m [p]) []

end Monomial

end SparsePoly

/-!
# Why a polynomial computation fails

Every failure of reading, building or combining polynomials has one cause out of a closed list.
`Error` is that list, `Error.message` is the one place where the causes are put into words.

* A text that is no polynomial is `Error.malformed`: a position, counted in characters from
  zero, together with the `Fault` found there.
* A result that leaves the machine words is `Error.overflow`, and `Overflow` says which
  quantity left them.
-/

namespace SparsePoly

/-- What is wrong with a text at the position where reading stopped. -/
inductive Fault where
  /-- There is nothing to read. -/
  | emptyText
  /-- A character that no polynomial is written with. -/
  | unexpectedCharacter (c : Char)
  /-- A letter that its term has used before. -/
  | repeatedLetter (x : Char)
  /-- A sign with nothing to apply to. -/
  | loneSign
deriving DecidableEq, Repr

namespace Fault

/-- The wording of a fault, without its position. -/
def reason : Fault → String
  | emptyText => "empty input"
  | unexpectedCharacter c => s!"unexpected character `{c}`"
  | repeatedLetter x => s!"variable `{x}` occurs more than once in a term"
  | loneSign => "expected a coefficient or a variable"

end Fault

/-- The quantity that left its range. -/
inductive Overflow where
  /-- A written coefficient. -/
  | coefficient
  /-- A written degree, or the sum of the degrees of one letter. -/
  | degree
  /-- The coefficients of like terms, added or subtracted. -/
  | coefficientSum
  /-- The coefficients of two multiplied terms. -/
  | coefficientProduct
  /-- The coefficient of a term taken with the other sign. -/
  | coefficientNegation
deriving DecidableEq, Repr

namespace Overflow

/-- The wording of an overflow: the quantity and the range that it left. -/
def description : Overflow → String
  | coefficient => "coefficient exceeds i64"
  | degree => "degree exceeds u32"
  | coefficientSum => "coefficient sum exceeds i64"
  | coefficientProduct => "coefficient product exceeds i64"
  | coefficientNegation => "coefficient negation exceeds i64"

end Overflow

/-- The cause of a failed computation on polynomials. -/
inductive Error where
  /-- The text is no polynomial: `fault` is found at `position`. -/
  | malformed (position : Nat) (fault : Fault)
  /-- The text names no operator. -/
  | unknownOperator (text : String)
  /-- A number left its range. -/
  | overflow (quantity : Overflow)
  /-- A variable that is not a lowercase letter. -/
  | invalidSymbol (symbol : Char)
deriving DecidableEq, Repr

namespace Error

/-- The wording of an error. -/
def message : Error → String
  | malformed position fault =>
    "parse error at position " ++ toString position ++ ": " ++ fault.reason
  | unknownOperator text => s!"unknown operator `{text}`, expected one of `+`, `-`, `*`"
  | overflow quantity => "overflow: " ++ quantity.description
  | invalidSymbol symbol => s!"invalid variable symbol `{symbol}`, expected a lowercase letter"

instance : ToString Error where
  toString := message

end Error

/-! ### Sequences of steps that may fail -/

section

variable {ε α β : Type} {x : Except ε α} {f : α → Except ε β} {b : β} {e : ε}

/-- Two steps in a row succeed when the first does and the second does on its result. -/
theorem bind_eq_ok_iff : x >>= f = .ok b ↔ ∃ a, x = .ok a ∧ f a = .ok b := by
  cases x with
  | error e => exact ⟨nofun, fun ⟨a, h, _⟩ => nomatch h⟩
  | ok a => exact ⟨fun h => ⟨a, rfl, h⟩, fun ⟨a', h, hf⟩ => by cases h; exact hf⟩

/-- Two steps in a row fail with the error of the first, or with that of the second when the first
succeeds. -/
theorem bind_eq_error_iff :
    x >>= f = .error e ↔ x = .error e ∨ ∃ a, x = .ok a ∧ f a = .error e := by
  cases x with
  | error e' =>
    exact ⟨fun h => .inl (by cases h; rfl), fun h => h.elim (fun h => by cases h; rfl) nofun⟩
  | ok a =>
    exact ⟨fun h => .inr ⟨a, rfl, h⟩, fun h => h.elim nofun fun ⟨a', h, hf⟩ => by cases h; exact hf⟩

/-- A step that has no error has a result. -/
theorem exists_eq_ok_of_forall_ne (h : ∀ e, x ≠ .error e) : ∃ a, x = .ok a := by
  cases x with
  | error e => exact absurd rfl (h e)
  | ok a => exact ⟨a, rfl⟩

/-- A step has the result that is left of it when the error is forgotten. -/
theorem toOption_eq_some_iff {a : α} : x.toOption = some a ↔ x = .ok a := by
  cases x with
  | error e => exact ⟨nofun, nofun⟩
  | ok a' => exact ⟨fun h => congrArg Except.ok (Option.some.inj h), fun h => by cases h; rfl⟩

/-- Putting an error into another form does not change when a step succeeds, nor its result. -/
theorem mapError_eq_ok_iff {ε' : Type} {g : ε → ε'} {a : α} : x.mapError g = .ok a ↔ x = .ok a := by
  cases x with
  | error e => exact ⟨nofun, nofun⟩
  | ok a' => exact ⟨fun h => by cases h; rfl, fun h => by cases h; rfl⟩

/-- A step whose result is only put into another form succeeds exactly when the step does. -/
theorem exists_bind_pure_eq_ok_iff {g : α → β} :
    (∃ b, (x >>= fun a => pure (g a)) = .ok b) ↔ ∃ a, x = .ok a := by
  constructor
  · rintro ⟨b, h⟩
    obtain ⟨a, ha, -⟩ := bind_eq_ok_iff.1 h
    exact ⟨a, ha⟩
  · rintro ⟨a, ha⟩
    exact ⟨g a, bind_eq_ok_iff.2 ⟨a, ha, rfl⟩⟩

variable {a : α} {as : List α} {bs : List β}

/-- A step for every element succeeds when that for the first does and those for the others do. -/
theorem mapM_cons_eq_ok_iff :
    (a :: as).mapM f = .ok bs ↔ ∃ b bs', f a = .ok b ∧ as.mapM f = .ok bs' ∧ bs = b :: bs' := by
  rw [List.mapM_cons, bind_eq_ok_iff]
  constructor
  · rintro ⟨b, hb, h⟩
    obtain ⟨bs', hbs', h⟩ := bind_eq_ok_iff.1 h
    cases h
    exact ⟨b, bs', hb, hbs', rfl⟩
  · rintro ⟨b, bs', hb, hbs', rfl⟩
    exact ⟨b, hb, bind_eq_ok_iff.2 ⟨bs', hbs', rfl⟩⟩

/-- A step for every element fails with the error of the first element for which it fails. -/
theorem mapM_cons_eq_error_iff :
    (a :: as).mapM f = .error e ↔ f a = .error e ∨ ∃ b, f a = .ok b ∧ as.mapM f = .error e := by
  rw [List.mapM_cons, bind_eq_error_iff]
  constructor
  · rintro (h | ⟨b, hb, h⟩)
    · exact .inl h
    · rcases bind_eq_error_iff.1 h with h | ⟨bs', -, h⟩
      · exact .inr ⟨b, hb, h⟩
      · contradiction
  · rintro (h | ⟨b, hb, h⟩)
    · exact .inl h
    · exact .inr ⟨b, hb, bind_eq_error_iff.2 (.inl h)⟩

/-- Every result of a step for every element is the result for one of them. -/
theorem exists_mem_of_mapM_eq_ok (h : as.mapM f = .ok bs) : ∀ b ∈ bs, ∃ a ∈ as, f a = .ok b := by
  induction as generalizing bs with
  | nil =>
    obtain rfl : [] = bs := Except.ok.inj h
    exact nofun
  | cons a as ih =>
    obtain ⟨b, bs', hb, hbs', rfl⟩ := mapM_cons_eq_ok_iff.1 h
    intro c hc
    rcases List.mem_cons.1 hc with rfl | hc
    · exact ⟨a, .head as, hb⟩
    · obtain ⟨a', ha', hac⟩ := ih hbs' c hc
      exact ⟨a', .tail a ha', hac⟩

/-- A step for every element succeeds exactly when it does for each. -/
theorem exists_mapM_eq_ok_iff : (∃ bs, as.mapM f = .ok bs) ↔ ∀ a ∈ as, ∃ b, f a = .ok b := by
  induction as with
  | nil => exact ⟨fun _ => nofun, fun _ => ⟨[], rfl⟩⟩
  | cons a as ih =>
    rw [List.forall_mem_cons, ← ih]
    constructor
    · rintro ⟨bs, h⟩
      obtain ⟨b, bs', hb, hbs', -⟩ := mapM_cons_eq_ok_iff.1 h
      exact ⟨⟨b, hb⟩, bs', hbs'⟩
    · rintro ⟨⟨b, hb⟩, bs', hbs'⟩
      exact ⟨b :: bs', mapM_cons_eq_ok_iff.2 ⟨b, bs', hb, hbs', rfl⟩⟩

/-- A step for every element fails with the error of one of them. -/
theorem exists_mem_of_mapM_eq_error (h : as.mapM f = .error e) : ∃ a ∈ as, f a = .error e := by
  induction as with
  | nil => contradiction
  | cons a as ih =>
    rcases mapM_cons_eq_error_iff.1 h with h | ⟨b, -, h⟩
    · exact ⟨a, .head as, h⟩
    · obtain ⟨a', ha', h⟩ := ih h
      exact ⟨a', .tail a ha', h⟩

end

end SparsePoly

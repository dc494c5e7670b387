import SparsePoly.Proofs.Answers

/-!
# Expression lines of written polynomials

An expression line can be made of any operator and any two canonical polynomials: they are written
one behind the other, with rows of blanks between them and perhaps around them. None of the three is
written with a blank and none is written as nothing, so they are the fields of the line, and each
field is read as what was written. What the line comes to is therefore what the operator makes of
the polynomials, and where that is an error it is the same error.

* `Operator.isField_written`, `Polynomial.isField_written`: what is written is a field.
* `evaluateTexts_written`: the three texts stand for the operation.
* `evaluateLine_written`: a line with the three texts as its fields does as well.
* `evaluateLine_spaced`: all lines that are made by putting blanks between the texts.
-/

namespace SparsePoly

variable {op : Operator} {p q : Polynomial}

/-! ### Written operators and polynomials -/

/-- An operator is written as a field. -/
theorem Operator.isField_written (op : Operator) : IsField [op.written] := by
  refine ⟨List.cons_ne_nil _ _, List.forall_mem_singleton.2 ?_⟩
  cases op <;> rfl

/-- A canonical polynomial is not written as nothing, since nothing is not read as a polynomial. -/
theorem Polynomial.written_ne_nil (hp : p.Canonical) : p.written ≠ [] := by
  intro hnil
  have hread : ofText "" = .ok p := ofText_of_toList_eq_written hp hnil.symm
  have hrefused : ofText "" = .error (.malformed 0 .emptyText) := by decide
  rw [hrefused] at hread
  contradiction

/-- A canonical polynomial is written as a field. -/
theorem Polynomial.isField_written (hp : p.Canonical) : IsField p.written :=
  ⟨written_ne_nil hp, not_blank_written hp⟩

/-- The texts of an operator and two canonical polynomials stand for the operation on them. -/
theorem evaluateTexts_written (hp : p.Canonical) (hq : q.Canonical) (op : Operator) :
    evaluateTexts (toString op) (toString p) (toString q) = op.apply p q := by
  have hop : Operator.ofText (toString op) = .ok op := op.ofText_singleton
  rw [evaluateTexts, hop, Polynomial.ofText_toString hp, Polynomial.ofText_toString hq]
  rfl

/-! ### Lines -/

/-- A line whose fields are an operator and two canonical polynomials comes to what the operator
makes of the polynomials. -/
theorem evaluateLine_written {line : String} (hp : p.Canonical) (hq : q.Canonical)
    (hfields : HasFields line.toList [[op.written], p.written, q.written]) :
    evaluateLine line = (op.apply p q).mapError .evaluation := by
  rw [evaluateLine, fields_eq_iff.2 hfields, ← evaluateTexts_written hp hq]
  rfl

/-- An operator and two canonical polynomials are the fields of every line that is made by writing
them with blanks between them. -/
theorem hasFields_spaced (hp : p.Canonical) (hq : q.Canonical) (op : Operator)
    {before first second behind : String}
    (hblank : ∀ w ∈ [before, first, second, behind], ∀ c ∈ w.toList, isBlank c = true)
    (hfirst : first ≠ "") (hsecond : second ≠ "") :
    HasFields
      (before ++ toString op ++ first ++ toString p ++ second ++ toString q ++ behind).toList
      [[op.written], p.written, q.written] := by
  obtain ⟨hbefore, hblank⟩ := List.forall_mem_cons.1 hblank
  obtain ⟨hfirstBlank, hblank⟩ := List.forall_mem_cons.1 hblank
  obtain ⟨hsecondBlank, hblank⟩ := List.forall_mem_cons.1 hblank
  have hbehind := List.forall_mem_singleton.1 hblank
  have hop : (toString op).toList = [op.written] := String.toList_singleton _
  have hwritten : ∀ r : Polynomial, (toString r).toList = r.written := fun _ => String.toList_ofList
  rw [← fields_eq_iff]
  simp only [String.toList_append, List.append_assoc, hop, hwritten]
  rw [fields_blanks_append hbefore, fields_append_blanks_append hfirstBlank,
    fields_append_blanks_append hsecondBlank, fields_append_blanks hbehind,
    fields_of_isField op.isField_written, fields_of_isField (Polynomial.isField_written hp),
    fields_of_isField (Polynomial.isField_written hq)]
  · rfl
  · exact fun hnil => hsecond (String.toList_eq_nil_iff.1 hnil)
  · exact fun hnil => hfirst (String.toList_eq_nil_iff.1 hnil)

/-- A line made of an operator and two written canonical polynomials, with blanks of any kind around
them and at least one between two of them, comes to what the operator makes of the polynomials: to
the same result, or to the same error. -/
theorem evaluateLine_spaced (hp : p.Canonical) (hq : q.Canonical) (op : Operator)
    {before first second behind : String}
    (hblank : ∀ w ∈ [before, first, second, behind], ∀ c ∈ w.toList, isBlank c = true)
    (hfirst : first ≠ "") (hsecond : second ≠ "") :
    evaluateLine (before ++ toString op ++ first ++ toString p ++ second ++ toString q ++ behind) =
      (op.apply p q).mapError .evaluation :=
  evaluateLine_written hp hq (hasFields_spaced hp hq op hblank hfirst hsecond)

/-- The sign of the operator and those of the polynomials stand next to blanks that are no spaces.
The difference reaches the greatest coefficient, and the product leaves the range. -/
theorem evaluateLine_spaced_signs :
    let p : Polynomial := ⟨[⟨-1, [⟨'x', 1⟩]⟩, ⟨-1, []⟩]⟩
    let q : Polynomial := ⟨[⟨-9223372036854775808, []⟩]⟩
    p.Canonical ∧ q.Canonical ∧
      (∀ w ∈ ["\u3000", "\t\u0085", "\u2028", "\r"], ∀ c ∈ w.toList, isBlank c = true) ∧
      "\t\u0085" ≠ "" ∧ "\u2028" ≠ "" ∧
      evaluateLine "\u3000-\t\u0085-x-1\u2028-9223372036854775808\r" =
        .ok ⟨[⟨-1, [⟨'x', 1⟩]⟩, ⟨9223372036854775807, []⟩]⟩ ∧
      evaluateLine "\u3000*\t\u0085-x-1\u2028-9223372036854775808\r" =
        .error (.evaluation (.overflow .coefficientProduct)) := by
  have hsub : Operator.sub.apply ⟨[⟨-1, [⟨'x', 1⟩]⟩, ⟨-1, []⟩]⟩ ⟨[⟨-9223372036854775808, []⟩]⟩ =
      .ok ⟨[⟨-1, [⟨'x', 1⟩]⟩, ⟨9223372036854775807, []⟩]⟩ := by decide +kernel
  have hmul : Operator.mul.apply ⟨[⟨-1, [⟨'x', 1⟩]⟩, ⟨-1, []⟩]⟩ ⟨[⟨-9223372036854775808, []⟩]⟩ =
      .error (.overflow .coefficientProduct) := by decide +kernel
  have hline : ∀ op : Operator, "\u3000" ++ toString op ++ "\t\u0085" ++
      toString (⟨[⟨-1, [⟨'x', 1⟩]⟩, ⟨-1, []⟩]⟩ : Polynomial) ++ "\u2028" ++
      toString (⟨[⟨-9223372036854775808, []⟩]⟩ : Polynomial) ++ "\r" =
        "\u3000" ++ toString op ++ "\t\u0085-x-1\u2028-9223372036854775808\r" := by
    intro op
    cases op <;> decide +kernel
  have hblank : ∀ w ∈ ["\u3000", "\t\u0085", "\u2028", "\r"], ∀ c ∈ w.toList,
      isBlank c = true := by simp [isBlank]
  intro p q
  have hp : p.Canonical := by decide
  have hq : q.Canonical := by decide
  have hfirst : "\t\u0085" ≠ "" := by decide
  have hsecond : "\u2028" ≠ "" := by decide
  have hspaced := fun op => evaluateLine_spaced hp hq op hblank hfirst hsecond
  refine ⟨hp, hq, hblank, hfirst, hsecond, ?_, ?_⟩
  · have h := hspaced .sub
    rw [hline, hsub] at h
    exact h
  · have h := hspaced .mul
    rw [hline, hmul] at h
    exact h

end SparsePoly

import SparsePoly.Batch.Run
import SparsePoly.Proofs.Lines
import SparsePoly.Proofs.Quoting
import SparsePoly.Proofs.RoundTrip

/-!
# Answers are lines

The answer to an expression line is one line of output, whatever characters the expression line
holds. A written polynomial has no blanks at all. The wording of an error has spaces, and otherwise
only the blanks that the error quotes, of which there are none. So the only blank in the text of an
answer is the space, and the line feed behind the text is the only one.

* `Polynomial.not_blank_written`: a written polynomial has no blanks.
* `LineError.spacedBut_message`: the blanks in the wording of an error.
* `notMem_answerText`: the only blank in an answer is the space.
* `isLine_answer`: an answer is one line.
-/

namespace SparsePoly

/-! ### Characters that are no blanks -/

variable {c : Char}

/-- The visible ASCII characters are no blanks. -/
theorem isBlank_eq_false (hlow : 0x21 ≤ c.toNat) (hhigh : c.toNat < 0x7F) : isBlank c = false := by
  simp only [isBlank, Bool.or_eq_false_iff, Bool.and_eq_false_iff, beq_eq_false_iff_ne,
    decide_eq_false_iff_not]
  omega

theorem isBlank_of_isDigit (h : c.isDigit = true) : isBlank c = false := by
  obtain ⟨hlow, hhigh⟩ := Bool.and_eq_true_iff.1 h
  have hlow : '0'.toNat ≤ c.toNat := of_decide_eq_true hlow
  have hhigh : c.toNat ≤ '9'.toNat := of_decide_eq_true hhigh
  have hzero : '0'.toNat = 48 := rfl
  have hnine : '9'.toNat = 57 := rfl
  exact isBlank_eq_false (by omega) (by omega)

theorem isBlank_of_isLower (h : c.isLower = true) : isBlank c = false := by
  obtain ⟨hlow, hhigh⟩ := LetterSet.toNat_of_isLower h
  have ha : 'a'.toNat = 97 := rfl
  have hz : 'z'.toNat = 122 := rfl
  exact isBlank_eq_false (by omega) (by omega)

/-- A lexeme has no blanks. -/
theorem Lexeme.WellFormed.not_blank {l : Lexeme} (h : l.WellFormed) :
    ∀ c ∈ l.text, isBlank c = false := by
  cases l with
  | sign negative =>
    cases negative with
    | false => exact List.forall_mem_singleton.2 rfl
    | true => exact List.forall_mem_singleton.2 rfl
  | number digits => exact fun c hc => isBlank_of_isDigit (h.2 c hc)
  | letter x => exact List.forall_mem_singleton.2 (isBlank_of_isLower h)

/-- A written polynomial has no blanks. -/
theorem Polynomial.not_blank_written {p : Polynomial} (hp : p.Canonical) :
    ∀ c ∈ p.written, isBlank c = false := by
  have hwrites := writes_written hp
  have hread := WrittenTerm.readable_flatMap_lexemes hwrites.separated
  rw [hwrites.text_eq, ← WrittenTerm.flatMap_lexemes]
  intro c hc
  obtain ⟨l, hl, hc⟩ := List.mem_flatMap.1 hc
  exact (hread.wellFormed l hl).not_blank c hc

/-! ### Texts whose blanks are spaces -/

/-- A text in which every blank is a space or one of the given characters. -/
def SpacedBut (quoted : List Char) (text : String) : Prop :=
  ∀ c ∈ text.toList, isBlank c = true → c = ' ' ∨ c ∈ quoted

instance (quoted : List Char) (text : String) : Decidable (SpacedBut quoted text) :=
  List.decidableBAll _ text.toList

namespace SpacedBut

variable {quoted : List Char} {s t : String}

theorem append (hs : SpacedBut quoted s) (ht : SpacedBut quoted t) : SpacedBut quoted (s ++ t) := by
  intro c hc
  rw [String.toList_append] at hc
  exact (List.mem_append.1 hc).elim (hs c) (ht c)

/-- A text with no blanks but spaces. -/
theorem of_nil (h : SpacedBut [] s) : SpacedBut quoted s :=
  fun c hc hblank => .inl ((h c hc hblank).resolve_right List.not_mem_nil)

/-- A text that is quoted between two phrases. -/
theorem quotation {before after : String} (hbefore : SpacedBut [] before)
    (hafter : SpacedBut [] after) (text : String) :
    SpacedBut text.toList (before ++ text ++ after) := by
  have htext : SpacedBut text.toList text := fun _ hc _ => .inr hc
  exact (hbefore.of_nil.append htext).append hafter.of_nil

/-- A character that is quoted between two phrases. -/
theorem quotation_singleton {before after : String} (hbefore : SpacedBut [] before)
    (hafter : SpacedBut [] after) (c : Char) :
    SpacedBut [c] (before ++ String.singleton c ++ after) := by
  have h := quotation hbefore hafter (String.singleton c)
  rwa [String.toList_singleton] at h

/-- A text without blanks. -/
theorem of_not_blank (h : ∀ c ∈ s.toList, isBlank c = false) : SpacedBut quoted s := by
  intro c hc hblank
  rw [h c hc] at hblank
  contradiction

/-- A number in decimal digits. -/
theorem toString_nat (n : Nat) : SpacedBut quoted (toString n) := by
  refine of_not_blank fun c hc => isBlank_of_isDigit ?_
  rw [Nat.toString_eq_repr, Nat.toList_repr] at hc
  exact Nat.isDigit_of_mem_toDigits (by decide) (by decide) hc

end SpacedBut

/-! ### Wordings -/

/-- A blank in the wording of an error is a space or quoted. -/
theorem Error.spacedBut_message (e : Error) : SpacedBut e.quoted e.message := by
  cases e with
  | malformed position fault =>
    have hphrase : SpacedBut [] "parse error at position " := by decide
    have hposition := (hphrase.append (.toString_nat position)).append
      (show SpacedBut [] ": " by decide)
    refine hposition.of_nil.append ?_
    cases fault with
    | emptyText => exact .of_nil (by decide)
    | unexpectedCharacter c => exact .quotation_singleton (by decide) (by decide) c
    | repeatedLetter x => exact .quotation_singleton (by decide) (by decide) x
    | loneSign => exact .of_nil (by decide)
  | unknownOperator text => exact .quotation (by decide) (by decide) text
  | overflow quantity => cases quantity <;> decide
  | invalidSymbol x => exact .quotation_singleton (by decide) (by decide) x

/-- A blank in the wording of the error of a line is a space or quoted. -/
theorem LineError.spacedBut_message (e : LineError) : SpacedBut e.quoted e.message := by
  cases e with
  | fieldCount found =>
    have hphrase : SpacedBut [] "expected `OPERATOR POLY1 POLY2`, found " := by decide
    exact (hphrase.append (.toString_nat found)).append (by decide)
  | evaluation cause => exact cause.spacedBut_message

/-! ### Answers -/

/-- The text of an answer, without the line feed behind it. -/
def answerText : Except LineError Polynomial → String
  | .ok p => toString p
  | .error e => "error: " ++ e.message

theorem answer_eq (evaluation : Except LineError Polynomial) :
    answer evaluation = answerText evaluation ++ "\n" := by
  cases evaluation with
  | ok p => rfl
  | error e => rfl

/-- The only blank in the text of an answer is the space. -/
theorem spaced_answerText (line : String) : SpacedBut [] (answerText (evaluateLine line)) := by
  cases h : evaluateLine line with
  | ok p =>
    refine .of_not_blank fun c hc => Polynomial.not_blank_written (canonical_evaluateLine h) c ?_
    rwa [answerText, toString, Polynomial.instToString, String.toList_ofList] at hc
  | error e =>
    have hmessage : SpacedBut [] e.message := by
      intro c hc hblank
      rcases e.spacedBut_message c hc hblank with hspace | hquoted
      · exact .inl hspace
      · rw [quoted_evaluateLine h c hquoted] at hblank
        contradiction
    have hphrase : SpacedBut [] "error: " := by decide
    exact hphrase.append hmessage

/-- No other blank is in the text of an answer. -/
theorem notMem_answerText {c : Char} (hblank : isBlank c = true) (hspace : c ≠ ' ')
    (line : String) : c ∉ (answerText (evaluateLine line)).toList :=
  fun hmem => (spaced_answerText line c hmem hblank).elim hspace List.not_mem_nil

/-- An answer is one line. -/
theorem isLine_answer (line : String) : IsLine (utf8 (answer (evaluateLine line))) := by
  have hlineFeed : '\n' ∉ (answerText (evaluateLine line)).toList :=
    notMem_answerText rfl (by decide) line
  refine ⟨utf8 (answerText (evaluateLine line)), mt lineFeed_mem_utf8_iff.1 hlineFeed, ?_⟩
  rw [answer_eq, utf8_append]
  rfl

end SparsePoly

import SparsePoly.Proofs.ExpressionLines

/-!
# The output of a batch can be decoded

Whoever reads the output of a batch line by line learns what became of each expression line. The
lines can be told apart, since no answer has a line break of its own. A line that begins with
`error: ` reports an error, and no other line begins like this, since a written polynomial has no
blank. Every other line is the written form of the result and is read as the result.

* `tells_answerText`: what a single answer tells.
* `linesOf_answersTo`: answers that are written one after another are read as their texts.
* `runBatch_decodes`: the output of a whole run, for every input.
-/

namespace SparsePoly

/-- The text of an output line says what an expression line comes to. -/
structure Tells (text line : String) : Prop where
  /-- The text has no line feed. -/
  no_lineFeed : '\n' ∉ text.toList
  /-- The text has no carriage return. -/
  no_carriageReturn : '\r' ∉ text.toList
  /-- The text begins as a report of an error exactly when there is no result. -/
  error_iff : "error: ".toList <+: text.toList ↔ ∃ e, evaluateLine line = .error e
  /-- Where there is a result, it is read from the text. -/
  ofText_eq : ∀ r, evaluateLine line = .ok r → Polynomial.ofText text = .ok r

/-- A written polynomial does not begin as a report of an error. -/
theorem not_error_prefix_toString {p : Polynomial} (hp : p.Canonical) :
    ¬ "error: ".toList <+: (toString p).toList := by
  intro herror
  have hspace : ' ' ∈ (toString p).toList := herror.mem (by decide)
  rw [toString, Polynomial.instToString, String.toList_ofList] at hspace
  exact absurd (Polynomial.not_blank_written hp ' ' hspace) (by decide)

/-- The answer to an expression line tells what the line comes to. -/
theorem tells_answerText (line : String) : Tells (answerText (evaluateLine line)) line where
  no_lineFeed := notMem_answerText rfl (by decide) line
  no_carriageReturn := notMem_answerText rfl (by decide) line
  error_iff := by
    cases h : evaluateLine line with
    | ok r => exact iff_of_false (not_error_prefix_toString (canonical_evaluateLine h)) nofun
    | error e =>
      refine iff_of_true ?_ ⟨e, rfl⟩
      rw [answerText, String.toList_append]
      exact List.prefix_append _ _
  ofText_eq r h := by
    rw [h]
    exact Polynomial.ofText_toString (canonical_evaluateLine h)

/-- Answers that are written one after another are read as their texts. -/
theorem linesOf_answersTo (lines : List String) :
    linesOf (answersTo lines).flatten =
      lines.map fun line => .ok (answerText (evaluateLine line)) := by
  rw [linesOf, cutLines_answersTo, answersTo_eq, List.map_map]
  refine List.map_congr_left fun line _ => ?_
  exact Line.ofBytes_utf8 (tells_answerText line).no_carriageReturn

/-- For every input, the output of a batch that does not stop at errors falls into lines, one for
each expression line, which are read as texts that tell what the expression lines come to. -/
theorem runBatch_decodes (bytes : Bytes) :
    let output := (runBatch {} (linesOf bytes) .unbounded).sink.bytes
    ∃ texts : List String,
      cutLines output = texts.map (fun text => utf8 (text ++ "\n")) ∧
      linesOf output = texts.map .ok ∧
      List.Forall₂ Tells texts ((expressionLines ((linesOf bytes).zipIdx 1)).map Prod.fst) := by
  intro output
  have houtput : output = (answersTo ((expressionLines ((linesOf bytes).zipIdx 1)).map
      Prod.fst)).flatten := bytes_runBatch (linesOf bytes)
  generalize (expressionLines ((linesOf bytes).zipIdx 1)).map Prod.fst = evaluated at houtput ⊢
  refine ⟨evaluated.map fun line => answerText (evaluateLine line), ?_, ?_, ?_⟩
  · rw [houtput, cutLines_answersTo, answersTo_eq, List.map_map]
    rfl
  · rw [houtput, linesOf_answersTo, List.map_map]
    rfl
  · exact List.forall₂_map_left_iff.2 (List.forall₂_same.2 fun line _ => tells_answerText line)

end SparsePoly

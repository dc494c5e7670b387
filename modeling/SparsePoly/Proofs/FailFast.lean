import SparsePoly.Proofs.ExpressionLines

/-!
# Stopping at the first error

A batch can be told to stop at the first expression without a result. Compared with the batch that
goes on, on the same input, nothing changes as long as the expressions have results; and at the
first that has none, the batch ends with its error and its place, and what it has written is what
the other one has written so far. How the other one ends, for want of lines or at a line that is no
text, does not matter then.

* `answerLines_failFast_of_isOk`: no difference without an error.
* `answerLines_failFast_of_error`: the run up to the first error.
* `runBatch_failFast`: the two runs compared, for every input.
-/

namespace SparsePoly

variable {lines : List (Line × Nat)} {before after : List (String × Nat)} {text : String}
  {number announced remaining : Nat} {summary : Summary} {cause : LineError} {s : Sink}

/-! ### Answering lines -/

/-- No batch stops at an expression that has a result. -/
theorem BatchOptions.stop?_of_isOk {evaluation : Except LineError Polynomial}
    (options : BatchOptions) (number : Nat) (h : evaluation.isOk = true) :
    options.stop? number evaluation = none := by
  cases evaluation with
  | ok r => rfl
  | error e => contradiction

/-- Where no announced line fails, the batch goes on as it does without stopping. -/
theorem answerLines_failFast_of_isOk (hs : s.capacity = none)
    (h : ∀ l ∈ leadingTexts (lines.take remaining), (evaluateLine l.1).isOk = true) :
    answerLines { failFast := true } announced remaining lines summary s =
      answerLines {} announced remaining lines summary s := by
  obtain ⟨remaining', lines', hnil, hrun⟩ := answerLines_of_leadingTexts_eq_append
    (List.append_nil (leadingTexts (lines.take remaining))).symm
  obtain ⟨result, hend⟩ := answerLines_of_leadingTexts_eq_nil hnil
  rw [hrun _ summary s hs fun l hl => BatchOptions.stop?_of_isOk _ l.2 (h l hl), hend,
    hrun {} summary s hs fun l _ => BatchOptions.stop?_default l.2 _, hend]

/-- The batch answers the lines before the first that fails, and stops there. -/
theorem answerLines_failFast_of_error (hs : s.capacity = none)
    (hlines : leadingTexts (lines.take remaining) = before ++ (text, number) :: after)
    (hbefore : ∀ l ∈ before, (evaluateLine l.1).isOk = true)
    (hcause : evaluateLine text = .error cause) :
    answerLines { failFast := true } announced remaining lines summary s =
      ⟨s.push (answersTo (before.map Prod.fst)).flatten, .error (.line number cause)⟩ := by
  obtain ⟨remaining', lines', hafter, hrun⟩ := answerLines_of_leadingTexts_eq_append hlines
  obtain ⟨_, _, rfl, rfl, -⟩ := exists_of_leadingTexts_eq_cons hafter
  rw [hrun _ summary s hs fun l hl => BatchOptions.stop?_of_isOk _ l.2 (hbefore l hl), answerLines,
    hcause]
  rfl

/-! ### Runs -/

/-- The first line that fails, with the lines on its two sides. -/
private theorem exists_of_find?_eq_some {evaluated : List (String × Nat)}
    (h : (evaluated.find? fun l => !(evaluateLine l.1).isOk) = some (text, number)) :
    ∃ cause before after, evaluated = before ++ (text, number) :: after ∧
      (∀ l ∈ before, (evaluateLine l.1).isOk = true) ∧ evaluateLine text = .error cause := by
  obtain ⟨hfails, before, after, hevaluated, hbefore⟩ := List.find?_eq_some_iff_append.1 h
  have hok : ∀ l ∈ before, (evaluateLine l.1).isOk = true := by
    intro l hl
    simpa using hbefore l hl
  cases hcause : evaluateLine text with
  | ok r =>
    rw [hcause] at hfails
    contradiction
  | error cause => exact ⟨cause, before, after, hevaluated, hok, rfl⟩

/-- Where no expression line fails, a batch that stops at errors is the one that does not. -/
theorem runBatch_failFast_of_isOk {lines : List Line} (hs : s.capacity = none)
    (h : ∀ l ∈ expressionLines (lines.zipIdx 1), (evaluateLine l.1).isOk = true) :
    runBatch { failFast := true } lines s = runBatch {} lines s := by
  rcases runBatch_cases lines with ⟨e, -, hrun⟩ | ⟨announced, rest, -, hlines, hrun⟩
  · rw [hrun, hrun]
  · rw [hlines] at h
    rw [hrun, hrun, answerLines_failFast_of_isOk hs h]

/-- A batch that stops at errors answers the expression lines before the first that fails. -/
theorem runBatch_failFast_of_error {lines : List Line} (hs : s.capacity = none)
    (hlines : expressionLines (lines.zipIdx 1) = before ++ (text, number) :: after)
    (hbefore : ∀ l ∈ before, (evaluateLine l.1).isOk = true)
    (hcause : evaluateLine text = .error cause) :
    runBatch { failFast := true } lines s =
      ⟨s.push (answersTo (before.map Prod.fst)).flatten, .error (.line number cause)⟩ := by
  rcases runBatch_cases lines with ⟨e, hnil, -⟩ | ⟨announced, rest, -, hrest, hrun⟩
  · rw [hnil] at hlines
    exact absurd hlines.symm (List.append_ne_nil_of_right_ne_nil _ (List.cons_ne_nil _ _))
  · rw [hrest] at hlines
    rw [hrun, answerLines_failFast_of_error hs hlines hbefore hcause]

/-- For every input the batch that stops at errors is compared with the one that does not, which
answers every expression line. Where no expression line fails they end and write alike. Otherwise
the first ends with the number and the error of the first line that fails, where the number counts
all lines of the input from one, and it has written what the second has written before its answer to
that line. -/
theorem runBatch_failFast (bytes : Bytes) :
    let lines := linesOf bytes
    let full := runBatch {} lines .unbounded
    let failFast := runBatch { failFast := true } lines .unbounded
    let evaluated := expressionLines (lines.zipIdx 1)
    let failing := evaluated.find? fun l => !(evaluateLine l.1).isOk
    cutLines full.sink.bytes = answersTo (evaluated.map Prod.fst) ∧
    (failing = none →
      failFast.result = full.result ∧ failFast.sink.bytes = full.sink.bytes) ∧
    ∀ text number, failing = some (text, number) →
      ∃ cause before after,
        evaluated = before ++ (text, number) :: after ∧
        (∀ l ∈ before, (evaluateLine l.1).isOk = true) ∧ evaluateLine text = .error cause ∧
        1 ≤ number ∧ lines[number - 1]? = some (.ok text) ∧
        failFast.result = .error (.line number cause) ∧
        cutLines failFast.sink.bytes = answersTo (before.map Prod.fst) ∧
        full.sink.bytes = failFast.sink.bytes ++ utf8 ("error: " ++ cause.message ++ "\n") ++
          (answersTo (after.map Prod.fst)).flatten := by
  intro lines full failFast evaluated failing
  refine ⟨cutLines_runBatch lines, fun hnone => ?_, fun text number hsome => ?_⟩
  · have hok : ∀ l ∈ evaluated, (evaluateLine l.1).isOk = true := by
      intro l hl
      simpa using List.find?_eq_none.1 hnone l hl
    have hrun : failFast = full := runBatch_failFast_of_isOk rfl hok
    rw [hrun]
    exact ⟨rfl, rfl⟩
  · obtain ⟨cause, before, after, hevaluated, hok, hcause⟩ := exists_of_find?_eq_some hsome
    have hmem : (text, number) ∈ evaluated := by
      rw [hevaluated]
      exact List.mem_append_right before (.head after)
    obtain ⟨hpos, hline⟩ := getElem?_of_mem_expressionLines hmem
    have hstopped : failFast = ⟨_, _⟩ := runBatch_failFast_of_error rfl hevaluated hok hcause
    have hwritten : failFast.sink.bytes = (answersTo (before.map Prod.fst)).flatten := by
      rw [hstopped, Sink.bytes_push_of_unbounded rfl, Sink.bytes_unbounded, List.nil_append]
    refine ⟨cause, before, after, hevaluated, hok, hcause, hpos, hline, ?_, ?_, ?_⟩
    · rw [hstopped]
    · rw [hwritten, cutLines_answersTo]
    · rw [hwritten]
      exact bytes_runBatch_of_error hevaluated hcause

/-- The fourth line fails, behind a blank line and the count, and the sixth is no text; in another
batch no line fails but one is missing. -/
theorem runBatch_failFast_line_four :
    let lines := linesOf (utf8 "\n4\n+ x y\n+ x 2X\n* x x\n" ++ [255, 10])
    let full := runBatch {} lines .unbounded
    let failFast := runBatch { failFast := true } lines .unbounded
    let short := linesOf (utf8 "2\n+ x y\n")
    full.result = .error (.transfer .invalidUtf8) ∧
    failFast.result =
      .error (.line 4 (.evaluation (.malformed 1 (.unexpectedCharacter 'X')))) ∧
    (∃ rest, full.sink.bytes = failFast.sink.bytes ++
      utf8 "error: parse error at position 1: unexpected character `X`\n" ++ rest) ∧
    (runBatch { failFast := true } short .unbounded).result =
      (runBatch {} short .unbounded).result := by
  have hlines : linesOf (utf8 "\n4\n+ x y\n+ x 2X\n* x x\n" ++ [255, 10]) =
      [.ok "", .ok "4", .ok "+ x y", .ok "+ x 2X", .ok "* x x", .error .invalidUtf8] := rfl
  have hshort : linesOf (utf8 "2\n+ x y\n") = [.ok "2", .ok "+ x y"] := rfl
  have hgood : (evaluateLine "+ x y").isOk = true := by decide +kernel
  have hbad : evaluateLine "+ x 2X" =
      .error (.evaluation (.malformed 1 (.unexpectedCharacter 'X'))) := by decide +kernel
  intro lines full failFast short
  have hfull : (runBatch {} lines .unbounded).result = .error (.transfer .invalidUtf8) := by
    have hcount : takeCount (lines.zipIdx 1) = .ok (4, [(.ok "+ x y", 3), (.ok "+ x 2X", 4),
        (.ok "* x x", 5), (.error .invalidUtf8, 6)]) := by
      rw [show lines = _ from hlines]
      rfl
    have hstop := BatchOptions.stop?_default
    rw [runBatch, hcount]
    simp only
    rw [answerLines_cons rfl (hstop _ _), answerLines_cons rfl (hstop _ _),
      answerLines_cons rfl (hstop _ _)]
    rfl
  have hfailing : ((expressionLines (lines.zipIdx 1)).find?
      fun l => !(evaluateLine l.1).isOk) = some ("+ x 2X", 4) := by
    have hevaluated : expressionLines (lines.zipIdx 1) =
        [("+ x y", 3), ("+ x 2X", 4), ("* x x", 5)] := by
      rw [show lines = _ from hlines]
      rfl
    have hfails : (evaluateLine "+ x 2X").isOk = false := by
      rw [hbad]
      rfl
    simp [hevaluated, hgood, hfails]
  have hnone : ((expressionLines (short.zipIdx 1)).find?
      fun l => !(evaluateLine l.1).isOk) = none := by
    have hevaluated : expressionLines (short.zipIdx 1) = [("+ x y", 2)] := by
      rw [show short = _ from hshort]
      rfl
    simp [hevaluated, hgood]
  obtain ⟨cause, before, after, -, -, hcause, -, -, hstopped, -, hwritten⟩ :=
    (runBatch_failFast _).2.2 "+ x 2X" 4 hfailing
  obtain rfl := Except.error.inj (hbad.symm.trans hcause)
  exact ⟨hfull, hstopped, ⟨_, hwritten⟩,
    ((runBatch_failFast (utf8 "2\n+ x y\n")).2.1 hnone).1⟩

end SparsePoly

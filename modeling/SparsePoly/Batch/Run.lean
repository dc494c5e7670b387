import SparsePoly.Batch.Sink
import SparsePoly.Expression
import SparsePoly.Text.Written

/-!
# Batches

A batch begins with the number of its expressions, on the first line that is not blank. The
announced number of expression lines follows, and each is answered by one line of output: the
result in its written form or, after `error: `, the reason why there is none. Whatever comes after
the announced lines is not looked at.

A failing expression does not disturb the others, unless the batch is told to stop at the first
one. `runBatch` gives the sink that the answers went to and a `Summary`, or the `BatchError` that
ended the batch early; what was written until then stays in the sink.
-/

namespace SparsePoly

/-- How a batch is to be run. -/
structure BatchOptions where
  /-- Whether to stop at the first expression that has no result. -/
  failFast : Bool := false
deriving DecidableEq, Repr

/-- How many expressions a batch has answered. -/
structure Summary where
  /-- The expressions with a result. -/
  evaluated : Nat := 0
  /-- The expressions without one. -/
  failed : Nat := 0
deriving DecidableEq, Repr

/-- The number of expressions answered so far. -/
def Summary.answered (s : Summary) : Nat := s.evaluated + s.failed

/-- Why a batch ended early. -/
inductive BatchError where
  /-- A line could not be read or an answer could not be written. -/
  | transfer (cause : TransferError)
  /-- All lines are blank. -/
  | missingCount
  /-- The first line that is not blank holds no count. -/
  | invalidCount (text : String)
  /-- There are fewer expression lines than announced. -/
  | missingLines (expected found : Nat)
  /-- The expression on a line, counted from one over all lines, has no result. -/
  | line (number : Nat) (cause : LineError)
deriving DecidableEq, Repr

/-- The wording of the error. -/
def BatchError.message : BatchError → String
  | transfer cause => "I/O error: " ++ cause.message
  | missingCount => "missing expression count"
  | invalidCount text => s!"invalid expression count `{text}`"
  | missingLines expected found => s!"expected {expected} expressions, found {found}"
  | line number cause => s!"line {number}: " ++ cause.message

/-- What a batch leaves behind. -/
structure BatchOutcome where
  /-- The sink with the answers. -/
  sink : Sink
  /-- The number of answers, or why the batch ended early. -/
  result : Except BatchError Summary

/-! ### The count -/

/-- The number that a count writes: decimal digits, perhaps after a plus, for a number that fits in
an unsigned word of 64 bits. -/
def countOfText? (text : List Char) : Option Nat :=
  let digits := match text with
    | '+' :: digits => digits
    | digits => digits
  let count := Nat.ofDigitChars 10 digits 0
  if digits ≠ [] ∧ digits.all Char.isDigit ∧ count < UInt64.size then some count else none

/-- The count on the first line that is not blank, and the lines after it. -/
def takeCount : List (Line × Nat) → Except BatchError (Nat × List (Line × Nat))
  | [] => .error .missingCount
  | (.error e, _) :: _ => .error (.transfer e)
  | (.ok text, _) :: lines =>
    match trim text.toList with
    | [] => takeCount lines
    | word =>
      match countOfText? word with
      | some count => .ok (count, lines)
      | none => .error (.invalidCount (String.ofList word))

/-- A blank line is passed over. -/
theorem takeCount_cons_of_blank {text : String} {k : Nat} {lines : List (Line × Nat)}
    (h : trim text.toList = []) : takeCount ((.ok text, k) :: lines) = takeCount lines := by
  rw [takeCount, h]

/-- A line that is not blank holds the count, or there is none. -/
theorem takeCount_cons_of_text {text : String} {k : Nat} {lines : List (Line × Nat)}
    (h : trim text.toList ≠ []) :
    takeCount ((.ok text, k) :: lines) =
      match countOfText? (trim text.toList) with
      | some count => .ok (count, lines)
      | none => .error (.invalidCount (String.ofList (trim text.toList))) := by
  rw [takeCount]
  split
  · next hnil => exact absurd hnil h
  · rfl

/-! ### The expressions -/

/-- The answer to an expression, a line of its own. -/
def answer : Except LineError Polynomial → String
  | .ok p => toString p ++ "\n"
  | .error e => "error: " ++ e.message ++ "\n"

/-- The summary with one more answer. -/
def Summary.count (s : Summary) : Except LineError Polynomial → Summary
  | .ok _ => { s with evaluated := s.evaluated + 1 }
  | .error _ => { s with failed := s.failed + 1 }

/-- The error that a batch stops with at an evaluation, if it stops there. -/
def BatchOptions.stop? (options : BatchOptions) (number : Nat) :
    Except LineError Polynomial → Option BatchError
  | .ok _ => none
  | .error e => if options.failFast then some (.line number e) else none

/-- Answers the expressions that are still to come of those announced. -/
def answerLines (options : BatchOptions) (announced : Nat) :
    Nat → List (Line × Nat) → Summary → Sink → BatchOutcome
  | 0, _, summary, sink => ⟨sink, .ok summary⟩
  | _ + 1, [], summary, sink => ⟨sink, .error (.missingLines announced summary.answered)⟩
  | _ + 1, (.error e, _) :: _, _, sink => ⟨sink, .error (.transfer e)⟩
  | remaining + 1, (.ok text, number) :: lines, summary, sink =>
    let evaluation := evaluateLine text
    match options.stop? number evaluation with
    | some e => ⟨sink, .error e⟩
    | none =>
      let written := utf8 (answer evaluation)
      if sink.hasRoom written then
        answerLines options announced remaining lines (summary.count evaluation) (sink.push written)
      else
        ⟨sink.push written, .error (.transfer .sinkFull)⟩

section

variable {options : BatchOptions} {announced remaining k : Nat} {lines : List (Line × Nat)}
  {summary : Summary} {s : Sink} {text : String} {e : BatchError}

/-- The batch stops at a line. -/
theorem answerLines_cons_of_stop (hstop : options.stop? k (evaluateLine text) = some e) :
    answerLines options announced (remaining + 1) ((.ok text, k) :: lines) summary s =
      ⟨s, .error e⟩ := by
  simp only [answerLines, hstop]

/-- A line is answered, where the batch does not stop at it and the sink has room. -/
theorem answerLines_cons_of_hasRoom (hstop : options.stop? k (evaluateLine text) = none)
    (hroom : s.hasRoom (utf8 (answer (evaluateLine text))) = true) :
    answerLines options announced (remaining + 1) ((.ok text, k) :: lines) summary s =
      answerLines options announced remaining lines (summary.count (evaluateLine text))
        (s.push (utf8 (answer (evaluateLine text)))) := by
  simp only [answerLines, hstop, hroom, if_true]

/-- The batch fails at a line whose answer the sink has no room for. -/
theorem answerLines_cons_of_full (hstop : options.stop? k (evaluateLine text) = none)
    (hroom : s.hasRoom (utf8 (answer (evaluateLine text))) = false) :
    answerLines options announced (remaining + 1) ((.ok text, k) :: lines) summary s =
      ⟨s.push (utf8 (answer (evaluateLine text))), .error (.transfer .sinkFull)⟩ := by
  simp only [answerLines, hstop, hroom, Bool.false_eq_true, if_false]

end

/-- Runs a batch from its lines. -/
def runBatch (options : BatchOptions) (lines : List Line) (sink : Sink) : BatchOutcome :=
  match takeCount (lines.zipIdx 1) with
  | .error e => ⟨sink, .error e⟩
  | .ok (announced, rest) => answerLines options announced announced rest {} sink

section

variable {options : BatchOptions} {lines : List Line} {s : Sink}

/-- Without a count no line is answered. -/
theorem runBatch_of_takeCount_eq_error {e : BatchError}
    (h : takeCount (lines.zipIdx 1) = .error e) : runBatch options lines s = ⟨s, .error e⟩ := by
  rw [runBatch, h]

/-- With a count the lines behind it are answered. -/
theorem runBatch_of_takeCount_eq_ok {announced : Nat} {rest : List (Line × Nat)}
    (h : takeCount (lines.zipIdx 1) = .ok (announced, rest)) :
    runBatch options lines s = answerLines options announced announced rest {} s := by
  rw [runBatch, h]

end

end SparsePoly

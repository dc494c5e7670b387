import SparsePoly.Batch.Run
import SparsePoly.Command.Conventions
import SparsePoly.Command.Host

/-!
# The command

`ArgumentReader.runCommand` does what a list of arguments asks for, on any host and with any reader
of the arguments. The input is opened first, then the output is created, and only then is anything
read; so an input that cannot be opened leaves every file as it was, and a file that is both input
and output is empty when it is read. All that the batch has written goes to the output, also when
the batch ended early.
-/

namespace SparsePoly

/-- How a command ends. -/
inductive ExitStatus where
  /-- Everything that was asked for is done. -/
  | success
  /-- An expression or the whole batch has failed. -/
  | failure
  /-- The arguments are wrong. -/
  | misuse
deriving DecidableEq, Repr

/-- The number that tells a status to the system. -/
def ExitStatus.code : ExitStatus → Nat
  | success => 0
  | failure => 1
  | misuse => 2

/-- How a command ends after a batch. -/
def statusOfResult : Except BatchError Summary → ExitStatus
  | .ok summary => if summary.failed = 0 then .success else .failure
  | .error _ => .failure

/-- What a command has to complain about after a batch, which is nothing when all went well. -/
def complaintOfResult : Except BatchError Summary → String
  | .ok summary =>
    if summary.failed = 0 then ""
    else
      "warning: " ++ toString summary.failed ++ " of " ++ toString summary.answered ++
        " expressions could not be evaluated\n"
  | .error e => "error: " ++ e.message ++ "\n"

section

variable {summary : Summary}

theorem statusOfResult_of_failed_eq_zero (h : summary.failed = 0) :
    statusOfResult (.ok summary) = .success :=
  if_pos h

theorem statusOfResult_of_failed_ne_zero (h : summary.failed ≠ 0) :
    statusOfResult (.ok summary) = .failure :=
  if_neg h

theorem complaintOfResult_of_failed_eq_zero (h : summary.failed = 0) :
    complaintOfResult (.ok summary) = "" :=
  if_pos h

theorem complaintOfResult_of_failed_ne_zero (h : summary.failed ≠ 0) :
    complaintOfResult (.ok summary) =
      "warning: " ++ toString summary.failed ++ " of " ++ toString summary.answered ++
        " expressions could not be evaluated\n" :=
  if_neg h

/-- A command succeeds just when its batch has found a result for every expression. -/
theorem code_statusOfResult_eq_zero_iff {result : Except BatchError Summary} :
    (statusOfResult result).code = 0 ↔ ∃ summary, result = .ok summary ∧ summary.failed = 0 := by
  constructor
  · intro h
    cases result with
    | error e => contradiction
    | ok summary =>
      by_cases hfailed : summary.failed = 0
      · exact ⟨summary, rfl, hfailed⟩
      · rw [statusOfResult_of_failed_ne_zero hfailed] at h
        contradiction
  · rintro ⟨summary, rfl, hfailed⟩
    rw [statusOfResult_of_failed_eq_zero hfailed, ExitStatus.code]

end

/-- The lines of an input, or the refusal to read it in place of the first line. -/
def linesOfInput : Except SystemError Bytes → List Line
  | .ok bytes => linesOf bytes
  | .error e => [.error (.system e)]

section

variable {m : Type → Type} [Monad m] [Host m]

/-- Complains that a path cannot be used. -/
def refuse (action path : String) (e : SystemError) : m ExitStatus := do
  Host.complain ("error: cannot " ++ action ++ " " ++ path ++ ": " ++ e.message ++ "\n")
  return .failure

/-- Runs a batch from the input to the output that the arguments name. -/
def runArguments (arguments : Arguments) : m ExitStatus := do
  match ← Host.openInput (Endpoint.ofPath arguments.input) with
  | .error e => refuse "open" arguments.input e
  | .ok source =>
    match ← Host.createOutput (Endpoint.ofPath arguments.output) with
    | .error e => refuse "create" arguments.output e
    | .ok target => do
      let input ← Host.readAll source
      let outcome := runBatch { failFast := arguments.failFast } (linesOfInput input) .unbounded
      Host.write target outcome.sink.bytes
      Host.complain (complaintOfResult outcome.result)
      return statusOfResult outcome.result

/-- Does what a list of arguments asks for, as a reader takes it. -/
def ArgumentReader.runCommand (reader : ArgumentReader) (arguments : List String) : m ExitStatus :=
  match reader.read arguments with
  | .run arguments => runArguments arguments
  | .answer text => do
    Host.print text
    return .success
  | .refusal text => do
    Host.complain text
    return .misuse

/-- Does what a list of arguments asks for by the conventions of command lines. -/
def runCommand (arguments : List String) : m ExitStatus :=
  ArgumentReader.conventional.runCommand arguments

end

end SparsePoly

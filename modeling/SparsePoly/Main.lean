import SparsePoly.Command.Run

/-!
# The program

Runs the command on the system that the program was started on: its files, its standard streams
and its exit status.
-/

namespace SparsePoly

/-- The number and the wording of a failure. -/
def systemErrorOf : IO.Error → SystemError
  | .alreadyExists _ code text | .otherError code text | .resourceBusy code text
  | .resourceVanished code text | .unsupportedOperation code text | .hardwareFault code text
  | .unsatisfiedConstraints code text | .illegalOperation code text | .protocolError code text
  | .timeExpired code text | .interrupted _ code text | .noFileOrDirectory _ code text
  | .invalidArgument _ code text | .permissionDenied _ code text | .resourceExhausted _ code text
  | .inappropriateType _ code text | .noSuchThing _ code text => ⟨text, code.toNat⟩
  | .unexpectedEof => ⟨"Unexpected end of file", 0⟩
  | .userError text => ⟨text, 0⟩

/-- The result of an action, or the failure that it ends with. -/
def attempt {α : Type} (action : IO α) : IO (Except SystemError α) := do
  match ← action.toBaseIO with
  | .ok a => return .ok a
  | .error e => return .error (systemErrorOf e)

instance : Host IO where
  Source := IO.FS.Stream
  Target := IO.FS.Stream
  openInput
    | .standard => return .ok (← IO.getStdin)
    | .file path => attempt do return .ofHandle (← IO.FS.Handle.mk path .read)
  createOutput
    | .standard => return .ok (← IO.getStdout)
    | .file path => attempt do return .ofHandle (← IO.FS.Handle.mk path .write)
  readAll source := attempt do return (← source.readBinToEnd).data.toList
  write target bytes := do
    target.write ⟨bytes.toArray⟩
    target.flush
  print := IO.print
  complain := IO.eprint

end SparsePoly

/-- Runs the command on the given arguments. -/
def main (arguments : List String) : IO UInt32 := do
  let status ← SparsePoly.runCommand arguments
  return status.code.toUInt32

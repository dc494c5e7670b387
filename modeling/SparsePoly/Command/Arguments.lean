/-!
# Command line arguments

The command takes an input path, an output path and the flag `--fail-fast`. It leaves the list of
arguments to an `ArgumentReader`, which finds the paths and the flag in it, or else answers or
refuses the list by itself, as for a request for help or where an argument is wrong. The command is
the same with every reader.
-/

namespace SparsePoly

/-- What a batch is run on and how. -/
structure Arguments where
  /-- The path of the input. -/
  input : String := "input.txt"
  /-- The path of the output. -/
  output : String := "output.txt"
  /-- Whether to stop at the first expression that has no result. -/
  failFast : Bool := false
deriving DecidableEq, Repr

/-- What a list of arguments asks for. -/
inductive Request where
  /-- To run a batch. -/
  | run (arguments : Arguments)
  /-- To be told something, for which no batch is run. -/
  | answer (text : String)
  /-- Nothing, as an argument is wrong for the reason given. -/
  | refusal (text : String)
deriving DecidableEq, Repr

/-- What takes the arguments of a command apart. -/
structure ArgumentReader where
  /-- What a list of arguments asks for. -/
  read : List String → Request

end SparsePoly

import SparsePoly.Command.Arguments

/-!
# The conventions of command lines

`ArgumentReader.conventional` accepts the flag and the paths in any order. It looks at the arguments
from left to right, and the first that settles the matter does: a wrong argument, or a request for
help or for the version, is answered whatever follows it.

An argument that begins with a hyphen is an option, except for the hyphen alone, which is a path,
and for everything after the argument `--`.

This is the reader that the program is started with. What a command does with the paths and the flag
does not depend on it.
-/

namespace SparsePoly

namespace ArgumentReader

/-! ### Texts -/

/-- The answer to a request for the version. -/
def versionText : String := "polycalc 0.1.0\n"

/-- Some lines as one text. -/
def textOfLines (lines : List String) : String := String.join (lines.map fun line => line ++ "\n")

/-- The answer to a request for help. -/
def helpText : String := textOfLines [
  "Evaluate lines of the form `OPERATOR POLY1 POLY2`, where the operator is one of `+`, `-` or " ++
    "`*`, and write the canonical form of every result",
  "",
  "Usage: polycalc [OPTIONS] [INPUT] [OUTPUT]",
  "",
  "Arguments:",
  "  [INPUT]   Input file that starts with the number of expressions, or `-` for stdin " ++
    "[default: input.txt]",
  "  [OUTPUT]  Output file, or `-` for stdout [default: output.txt]",
  "",
  "Options:",
  "      --fail-fast  Stop at the first expression that cannot be evaluated",
  "  -h, --help       Print help",
  "  -V, --version    Print version"]

/-- The complaint about wrong arguments. -/
def misuseText : String := textOfLines [
  "error: wrong arguments",
  "",
  "Usage: polycalc [OPTIONS] [INPUT] [OUTPUT]",
  "",
  "For more information, try '--help'."]

/-! ### The reader -/

/-- How an argument is to be taken. -/
inductive Word where
  /-- The end of the options. -/
  | endOfOptions
  /-- The flag `--fail-fast`. -/
  | failFast
  /-- The option for help. -/
  | help
  /-- The option for the version. -/
  | version
  /-- An option that the command does not have. -/
  | unknownOption
  /-- A path. -/
  | path
deriving DecidableEq, Repr

/-- How an argument is to be taken where options are allowed. Of an argument with a single hyphen
the first letter decides. -/
def Word.ofArgument (argument : String) : Word :=
  match argument.toList with
  | ['-'] => path
  | ['-', '-'] => endOfOptions
  | '-' :: '-' :: _ =>
    if argument = "--fail-fast" then failFast
    else if argument = "--help" then help
    else if argument = "--version" then version
    else unknownOption
  | '-' :: 'h' :: _ => help
  | '-' :: 'V' :: _ => version
  | '-' :: _ => unknownOption
  | _ => path

/-- The paths and flags found so far. -/
structure Found where
  /-- The paths, in their order. -/
  paths : List String := []
  /-- Whether the flag `--fail-fast` has occurred. -/
  failFast : Bool := false

/-- The paths and flags with one path more. No path is empty and there are two at most. -/
def Found.addPath? (found : Found) (path : String) : Option Found :=
  if path = "" ∨ 2 ≤ found.paths.length then none
  else some { found with paths := found.paths ++ [path] }

/-- The arguments of a batch, with the usual paths where none are given. -/
def Found.arguments (found : Found) : Arguments :=
  let usual : Arguments := {}
  { input := found.paths[0]?.getD usual.input
    output := found.paths[1]?.getD usual.output
    failFast := found.failFast }

/-- What arguments ask for after those that have given `found`. -/
def takeApart (optionsAllowed : Bool) (found : Found) : List String → Request
  | [] => .run found.arguments
  | argument :: rest =>
    match if optionsAllowed then Word.ofArgument argument else .path with
    | .endOfOptions => takeApart false found rest
    | .failFast =>
      if found.failFast then .refusal misuseText
      else takeApart optionsAllowed { found with failFast := true } rest
    | .help => .answer helpText
    | .version => .answer versionText
    | .unknownOption => .refusal misuseText
    | .path =>
      match found.addPath? argument with
      | some found => takeApart optionsAllowed found rest
      | none => .refusal misuseText

/-- The reader that keeps to the conventions of command lines. -/
def conventional : ArgumentReader := ⟨takeApart true {}⟩

end ArgumentReader

end SparsePoly

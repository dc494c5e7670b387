/-!
# Lines of a byte stream

A batch is read from bytes, one line after another. A line goes up to and including a line feed, or
up to the end of the input where the last line has none. `lineContent` takes the line feed away,
together with one carriage return before it. Bytes become text only when their line is reached:
`linesOf` gives for each line its text or the reason why it has none, and a line that is no valid
UTF-8 spoils none of the others.
-/

namespace SparsePoly

/-- A string of bytes. -/
abbrev Bytes := List UInt8

/-- A failure reported by the operating system. -/
structure SystemError where
  /-- The wording of the failure. -/
  description : String
  /-- The number of the failure. -/
  code : Nat
deriving DecidableEq, Repr

/-- The wording of a failure, with its number. -/
def SystemError.message (e : SystemError) : String :=
  e.description ++ " (os error " ++ toString e.code ++ ")"

/-- Why bytes could not be read or written. -/
inductive TransferError where
  /-- A line is no valid UTF-8. -/
  | invalidUtf8
  /-- A sink has taken a part of a text and has no room for the rest. -/
  | sinkFull
  /-- The operating system refuses. -/
  | system (e : SystemError)
deriving DecidableEq, Repr

/-- The wording of the error. -/
def TransferError.message : TransferError → String
  | invalidUtf8 => "stream did not contain valid UTF-8"
  | sinkFull => "failed to write whole buffer"
  | system e => e.message

/-- The byte that ends a line. -/
def lineFeed : UInt8 := 10

/-- The byte that may stand before the end of a line. -/
def carriageReturn : UInt8 := 13

/-- Puts a byte before lines: into the first of them, or as a line of its own where it ends one or
where there is none. -/
def consByte (b : UInt8) : List Bytes → List Bytes
  | [] => [[b]]
  | line :: lines => if b = lineFeed then [b] :: line :: lines else (b :: line) :: lines

/-- Cuts bytes after each line feed. -/
def cutLines (bytes : Bytes) : List Bytes := bytes.foldr consByte []

/-- The bytes without the given one at their end. -/
def dropEnd (b : UInt8) (bytes : Bytes) : Bytes :=
  if bytes.getLast? = some b then bytes.dropLast else bytes

/-- What a line holds, without the bytes that end it. A carriage return belongs to the end of a
line only where a line feed follows it. -/
def lineContent (line : Bytes) : Bytes :=
  if line.getLast? = some lineFeed then dropEnd carriageReturn line.dropLast else line

/-- The text of a line, or why there is none. -/
abbrev Line := Except TransferError String

/-- The text of a line given by its bytes. -/
def Line.ofBytes (line : Bytes) : Line :=
  match String.fromUTF8? ⟨(lineContent line).toArray⟩ with
  | some text => .ok text
  | none => .error .invalidUtf8

/-- The lines of some bytes. -/
def linesOf (bytes : Bytes) : List Line := (cutLines bytes).map Line.ofBytes

theorem flatten_consByte (b : UInt8) (lines : List Bytes) :
    (consByte b lines).flatten = b :: lines.flatten := by
  unfold consByte
  split
  · rfl
  · split <;> simp

/-- Cutting loses nothing. -/
theorem flatten_cutLines (bytes : Bytes) : (cutLines bytes).flatten = bytes := by
  induction bytes with
  | nil => rfl
  | cons b bytes ih => rw [cutLines, List.foldr_cons, flatten_consByte, ← cutLines, ih]

end SparsePoly

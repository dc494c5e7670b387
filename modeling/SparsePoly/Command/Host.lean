import SparsePoly.Batch.Line

/-!
# Hosts

A command reads its input from one end point and leaves its output at another. Each is a file or,
where the path is a lone hyphen, a standard stream. `Host` lists what the command needs from the
system that it runs on; the command is the same on every host.
-/

namespace SparsePoly

/-- Where a command reads from or writes to. -/
inductive Endpoint where
  /-- The standard input or output. -/
  | standard
  /-- The file with a path. -/
  | file (path : String)
deriving DecidableEq, Repr

/-- The end point that a path names. The standard streams go by every spelling of the path whose
only part is a hyphen; empty parts and dots after it add nothing. -/
def Endpoint.ofPath (path : String) : Endpoint :=
  match path.toList.splitOn '/' with
  | ['-'] :: rest => if rest.all fun part => part = [] ∨ part = ['.'] then standard else file path
  | _ => file path

/-- What a command needs from the system that it runs on. -/
class Host (m : Type → Type) where
  /-- An input that has been opened. -/
  Source : Type
  /-- An output that has been created. -/
  Target : Type
  /-- Opens an input. -/
  openInput : Endpoint → m (Except SystemError Source)
  /-- Creates an output, or empties it where it exists. -/
  createOutput : Endpoint → m (Except SystemError Target)
  /-- Reads what an input holds. -/
  readAll : Source → m (Except SystemError Bytes)
  /-- Writes to an output. -/
  write : Target → Bytes → m Unit
  /-- Writes to the standard output. -/
  print : String → m Unit
  /-- Writes to the standard error. -/
  complain : String → m Unit

end SparsePoly

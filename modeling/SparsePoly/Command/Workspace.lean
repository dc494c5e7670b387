import SparsePoly.Batch.Sink
import SparsePoly.Command.Host

/-!
# Workspaces

A workspace is a tree of folders and files with one of its folders, the one that a command is run
in, together with the three standard streams. It is a host in its own right, so that a command can
be run on a given workspace and its effects read off the workspace that comes out.

Paths are followed part by part, from the root of the tree where they begin with a slash and from
the folder of the command otherwise.
-/

namespace SparsePoly

/-- What a path can lead to. -/
inductive Entry where
  /-- A folder. -/
  | folder
  /-- A file with its content. -/
  | file (content : Bytes)
deriving DecidableEq, Repr

/-- A tree of folders and files, a folder in it and the standard streams. -/
structure Workspace where
  /-- The entries below the root, each under the names that lead to it. -/
  entries : List (List String × Entry) := []
  /-- The names that lead to the folder that a command is run in. -/
  folder : List String := []
  /-- What the standard input holds. -/
  stdin : Bytes := []
  /-- What has been written to the standard output. -/
  stdout : Bytes := []
  /-- What has been written to the standard error. -/
  stderr : Bytes := []
deriving DecidableEq, Repr

/-- There is nothing of that name. -/
def SystemError.notFound : SystemError := ⟨"No such file or directory", 2⟩

/-- A file stands where a folder is needed. -/
def SystemError.notAFolder : SystemError := ⟨"Not a directory", 20⟩

/-- A folder stands where a file is needed. -/
def SystemError.isAFolder : SystemError := ⟨"Is a directory", 21⟩

namespace Workspace

/-! ### Contents -/

/-- The parts of a path. -/
def partsOf (path : String) : List String := (path.toList.splitOn '/').map String.ofList

/-- The parts of a path without the empty ones at its end, which it has where it ends in a slash. -/
def partsNamed (path : String) : List String :=
  ((partsOf path).reverse.dropWhile fun part => part = "").reverse

/-- Whether a path begins at the root of all folders. -/
def isAbsolute (path : String) : Bool := path.toList.head? = some '/'

/-- The folders on the way to the entry with the given names. -/
def foldersAbove (names : List String) : List (List String × Entry) :=
  (List.range (names.length - 1)).map fun n => (names.take (n + 1), .folder)

/-- The workspace that holds nothing but a folder with the given folders and files, and what is on
the way to them. A command is run in that folder. -/
def ofContents (folders : List String) (files : List (String × Bytes)) (stdin : Bytes) :
    Workspace :=
  let home := ["home"]
  let names (path : String) := home ++ (partsOf path).filter fun part => part ≠ ""
  let entries :=
    folders.map (fun path => (names path, .folder)) ++
      files.map fun file => (names file.1, .file file.2)
  { entries := entries ++ entries.flatMap (fun entry => foldersAbove entry.1) ++ [(home, .folder)]
    folder := home
    stdin := stdin }

/-- The files that lie in the folder that a command is run in, not in a folder below it. -/
def files (w : Workspace) : List (String × Bytes) :=
  w.entries.filterMap fun
    | (names, .file content) =>
      if names.dropLast = w.folder then names.getLast?.map fun name => (name, content) else none
    | _ => none

/-- The entry under the given names, if there is one. -/
def entry? (w : Workspace) : List String → Option Entry
  | [] => some .folder
  | names => w.entries.lookup names

/-- The workspace with the content of a file replaced, or with a new file. -/
def putFile (w : Workspace) (names : List String) (content : Bytes) : Workspace :=
  { w with entries := (names, .file content) :: w.entries.filter fun e => e.1 ≠ names }

/-! ### Paths -/

/-- The names that one part of a path leads to from others, which have to be those of a folder.
There is nothing above the root. -/
def step (w : Workspace) (names : List String) (part : String) :
    Except SystemError (List String) :=
  match w.entry? names with
  | none => .error .notFound
  | some (.file _) => .error .notAFolder
  | some .folder =>
    if part = "" ∨ part = "." then .ok names
    else if part = ".." then .ok names.dropLast
    else .ok (names ++ [part])

/-- The names that some parts of a path lead to, where there may be an entry or not. The empty path
leads nowhere. -/
def walk (w : Workspace) (path : String) (parts : List String) : Except SystemError (List String) :=
  if path = "" then .error .notFound
  else parts.foldlM w.step (if isAbsolute path then [] else w.folder)

/-- The names that a path leads to. -/
def locate (w : Workspace) (path : String) : Except SystemError (List String) :=
  w.walk path (partsOf path)

/-! ### Inputs and outputs -/

/-- An input of a workspace that has been opened. -/
inductive Source where
  /-- The standard input. -/
  | standard
  /-- The entry under the given names. -/
  | entry (names : List String)
deriving DecidableEq, Repr

/-- An output of a workspace that has been created. -/
inductive Target where
  /-- The standard output. -/
  | standard
  /-- The file under the given names. -/
  | file (names : List String)
deriving DecidableEq, Repr

/-- Opens an input. A folder can be opened; it is reading it that fails. -/
def openInput (w : Workspace) : Endpoint → Except SystemError Source
  | .standard => .ok .standard
  | .file path =>
    match w.locate path with
    | .error e => .error e
    | .ok names => if (w.entry? names).isSome then .ok (.entry names) else .error .notFound

/-- What an opened input holds. -/
def readAll (w : Workspace) : Source → Except SystemError Bytes
  | .standard => .ok w.stdin
  | .entry names =>
    match w.entry? names with
    | some (.file content) => .ok content
    | some .folder => .error .isAFolder
    | none => .ok []

/-- Creates an output, or empties it where it exists. A path that ends in a slash can only name a
folder, so nothing is created there. -/
def createOutput (w : Workspace) : Endpoint → Except SystemError (Target × Workspace)
  | .standard => .ok (.standard, w)
  | .file path =>
    match w.walk path (partsNamed path) with
    | .error e => .error e
    | .ok names =>
      if partsNamed path ≠ partsOf path ∨ w.entry? names = some .folder then .error .isAFolder
      else .ok (.file names, w.putFile names [])

/-- Writes to an output. -/
def write (w : Workspace) (target : Target) (bytes : Bytes) : Workspace :=
  match target with
  | .standard => { w with stdout := w.stdout ++ bytes }
  | .file names =>
    match w.entry? names with
    | some (.file content) => w.putFile names (content ++ bytes)
    | _ => w.putFile names bytes

/-- Writes a text to the standard error. -/
def complain (w : Workspace) (text : String) : Workspace :=
  { w with stderr := w.stderr ++ utf8 text }

instance : Host (StateM Workspace) where
  Source := Source
  Target := Target
  openInput endpoint := return (← get).openInput endpoint
  createOutput endpoint := do
    match (← get).createOutput endpoint with
    | .error e => return .error e
    | .ok (target, w) => do
      set w
      return .ok target
  readAll source := return (← get).readAll source
  write target bytes := modify fun w => w.write target bytes
  print text := modify fun w => { w with stdout := w.stdout ++ utf8 text }
  complain text := modify fun w => w.complain text

end Workspace

end SparsePoly

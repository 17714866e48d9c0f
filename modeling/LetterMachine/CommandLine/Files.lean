/-!
# Files

Programs are read from files by path.  A path is walked name by name from the working directory.
The table of files here has one level: files, and directories without anything in them.
-/

namespace LetterMachine.CommandLine

/-- Why a file cannot be read. -/
inductive ReadError where
  | missing
  | notDirectory
  | isDirectory
  | nameTooLong
  | nulInName
  | other (text : String)
  deriving DecidableEq, Repr

def ReadError.message : ReadError → String
  | .missing => "No such file or directory (os error 2)"
  | .notDirectory => "Not a directory (os error 20)"
  | .isDirectory => "Is a directory (os error 21)"
  | .nameTooLong => "File name too long (os error 36)"
  | .nulInName => "file name contained an unexpected NUL byte"
  | .other text => text

inductive Entry where
  | file (bytes : List UInt8)
  | directory
  deriving DecidableEq, Repr

/-- The working directory. -/
structure Directory where
  entries : List (String × Entry)

namespace Directory

/-- Where a path may lead. -/
inductive Place where
  | working
  | inside
  | above
  | file (bytes : List UInt8)
  deriving DecidableEq, Repr

/-- The most bytes in one name. -/
def nameLimit : Nat := 255

/-- The most bytes in a path. -/
def pathLimit : Nat := 4095

/-- The place that a name leads to from another place. -/
def step (directory : Directory) (place : Place) (name : String) : Except ReadError Place :=
  match place with
  | .file _ => .error .notDirectory
  | _ =>
    if name = "" ∨ name = "." then .ok place
    else if name = ".." then .ok (if place = .inside then .working else .above)
    else if nameLimit < name.utf8ByteSize then .error .nameTooLong
    else if place = .working then
      match directory.entries.lookup name with
      | some (.file bytes) => .ok (.file bytes)
      | some .directory => .ok .inside
      | none => .error .missing
    else .error .missing

/-- The bytes of the file at a path. -/
def read (directory : Directory) (path : String) : Except ReadError (List UInt8) := do
  if path.contains '\x00' then throw .nulInName
  if pathLimit < path.utf8ByteSize then throw .nameTooLong
  let start := if path.startsWith "/" then Place.above else Place.working
  match ← (path.splitOn "/").foldlM directory.step start with
  | .file bytes => .ok bytes
  | _ => .error .isDirectory

end Directory

end LetterMachine.CommandLine

import SigScript.Bytes
import SigScript.Text.Blank

/-!
# Reading files

The ways in which a file cannot be read, and directories that hold files only, in which paths are
looked up.
-/

namespace SigScript

/-- Why a text could not be read from a path. -/
inductive ReadError where
  | notFound
  | permissionDenied
  | notADirectory
  | isADirectory
  | nameTooLong
  /-- Another failure of the operating system, with its number. -/
  | system (number : Nat)
  /-- The octets of the file are not UTF-8. -/
  | notText
  deriving DecidableEq, Repr

/-- The text shown for a file that could not be read.  Failures of the operating system come with
their number. -/
def ReadError.message : ReadError → String
  | .notFound => "No such file or directory (os error 2)"
  | .permissionDenied => "Permission denied (os error 13)"
  | .notADirectory => "Not a directory (os error 20)"
  | .isADirectory => "Is a directory (os error 21)"
  | .nameTooLong => "File name too long (os error 36)"
  | .system number => "System failure (os error " ++ Numeral.decimal number ++ ")"
  | .notText => "stream did not contain valid UTF-8"

/-- The failure of the operating system with a number. -/
def ReadError.ofNumber : Nat → ReadError
  | 2 => .notFound
  | 13 => .permissionDenied
  | 20 => .notADirectory
  | 21 => .isADirectory
  | 36 => .nameTooLong
  | number => .system number

/-- A directory of files. -/
structure Directory where
  files : List (String × Bytes)

/-- Where a path leads. -/
inductive Place where
  /-- To the directory. -/
  | here
  /-- To a directory outside of it, about which nothing else is known. -/
  | outside
  /-- To a file of the directory. -/
  | file (contents : Bytes)

namespace Directory

/-- The place of a name, seen from another place. -/
def enter (directory : Directory) (name : String) : Place → Except ReadError Place
  | .file _ => .error .notADirectory
  | .here =>
    if name = "" ∨ name = "." then .ok .here
    else if name = ".." then .ok .outside
    else if 255 < name.utf8ByteSize then .error .nameTooLong
    else
      match directory.files.lookup name with
      | some contents => .ok (.file contents)
      | none => .error .notFound
  | .outside =>
    if name = "" ∨ name = "." ∨ name = ".." then .ok .outside
    else if 255 < name.utf8ByteSize then .error .nameTooLong
    else .error .notFound

/-- The place that a path leads to. -/
def find (directory : Directory) (path : String) : Except ReadError Place :=
  if 4096 ≤ path.utf8ByteSize then .error .nameTooLong
  else
    match path.toList with
    | [] => .error .notFound
    | first :: _ =>
      let names := (Text.pieces (· = '/') path.toList).map String.ofList
      names.foldlM (fun place name => directory.enter name place)
        (if first = '/' then .outside else .here)

/-- The contents of the file that a path leads to. -/
def read (directory : Directory) (path : String) : Except ReadError Bytes := do
  match ← directory.find path with
  | .file contents => return contents
  | .here | .outside => throw .isADirectory

end Directory

end SigScript

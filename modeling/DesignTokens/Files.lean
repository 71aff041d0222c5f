import DesignTokens.Json.Basic
import DesignTokens.Text.Basic

/-!
# Files

What can go wrong with a file, and a directory of files that is held in memory. Paths are relative to
the directory. A part `.` of a path stays where it is; a path with a part `..` leads to no file.
-/

namespace DesignTokens

/-- Why a file cannot be read or written. -/
inductive FileError where
  | notFound
  | isDirectory
  | notDirectory
  | other (message : String)
  deriving DecidableEq, Repr

/-- The wording of a failure. -/
def FileError.message : FileError → String
  | .notFound => "No such file or directory (os error 2)"
  | .isDirectory => "Is a directory (os error 21)"
  | .notDirectory => "Not a directory (os error 20)"
  | .other message => message

/-- The files of a directory under their paths, the parts of which are joined by slashes. -/
structure Directory where
  files : KeyedList String

namespace Directory

/-- The parts of a path that lead somewhere. -/
def parts (path : String) : List (List Char) :=
  (Text.splitAt '/' path.toList).filter fun part => !part.isEmpty && part ≠ ['.']

/-- A path without parts that stay where they are. -/
def normal (path : String) : String :=
  String.ofList (['/'].intercalate (parts path))

/-- Whether a path is one of a directory: the directory itself, or one on the way to a file. -/
def isDirectory (d : Directory) (path : String) : Bool :=
  let path := normal path
  path.isEmpty ||
    d.files.any fun (file, _) => (Text.afterStart? (path.toList ++ ['/']) file.toList).isSome

/-- Whether a path asks for a directory by the slash or the dot at its end. -/
def asksDirectory (path : String) : Bool :=
  match (Text.splitAt '/' path.toList).getLast? with
  | some last => last.isEmpty || last = ['.']
  | none => false

/-- Whether the way to a path goes through a file. -/
def throughFile (d : Directory) (path : String) : Bool :=
  let path := (normal path).toList
  d.files.any fun (file, _) => (Text.afterStart? (file.toList ++ ['/']) path).isSome

/-- The content of the file at a path. -/
def read (d : Directory) (path : String) : Except FileError String :=
  if path.isEmpty then .error .notFound
  else if d.throughFile path then .error .notDirectory
  else if d.isDirectory path then .error .isDirectory
  else
    match KeyedList.get? d.files (normal path) with
    | some content => if asksDirectory path then .error .notDirectory else .ok content
    | none => .error .notFound

/-- The directory with the content of the file at a path replaced, or with the file added. -/
def write (d : Directory) (path content : String) : Except FileError Directory :=
  let file := normal path
  if path.isEmpty then .error .notFound
  else if d.throughFile path then .error .notDirectory
  else if d.isDirectory path then .error .isDirectory
  else if asksDirectory path then
    .error (if KeyedList.contains d.files file then .notDirectory else .isDirectory)
  else if d.isDirectory (String.ofList (['/'].intercalate (parts path).dropLast)) then
    .ok ⟨KeyedList.insert d.files file content⟩
  else .error .notFound

end Directory

end DesignTokens

import ParserTables.Text.Bytes

/-!
What a command may ask of its surroundings: its input, and files by their paths.
-/

namespace ParserTables

inductive FileError where
  | missing
  | notDirectory
  | isDirectory
  | nameTooLong
  | invalidName
  deriving DecidableEq, Repr

namespace FileError

def message : FileError → String
  | .missing => "no such file or directory"
  | .notDirectory => "not a directory"
  | .isDirectory => "is a directory"
  | .nameTooLong => "file name too long"
  | .invalidName => "invalid argument"

def describe (verb path : String) (e : FileError) : String := s!"{verb} {path}: {e.message}"

end FileError

structure Host (m : Type → Type) where
  input : m Bytes
  read : String → m (Except FileError Bytes)
  isDirectory : String → m (Except FileError Bool)
  write : String → Bytes → m (Except FileError Unit)

namespace Path

def components (path : String) : List String := path.splitOn "/"

/-- Takes a component onto the components before it, last first. A step up undoes a step down;
at the root it stays there. -/
def take (rooted : Bool) (before : List String) (name : String) : List String :=
  if name = "" ∨ name = "." then before
  else if name = ".." then
    match before with
    | [] => if rooted then [] else [".."]
    | last :: rest => if last = ".." then ".." :: before else rest
  else name :: before

def simplify (path : String) : String :=
  let rooted := path.startsWith "/"
  let names := ((components path).foldl (take rooted) []).reverse
  let text := String.intercalate "/" names
  if rooted then "/" ++ text else if text = "" then "." else text

def inDirectory (directory name : String) : String := simplify (directory ++ "/" ++ name)

end Path

end ParserTables

import ParserTables.Host

/-!
A tree of files held as a value, with a working directory in it that paths start from unless they
are rooted.
-/

namespace ParserTables

/-- Files and directories are named by the components of their paths from the root. -/
structure Workspace where
  here : List String
  directories : List (List String)
  files : List (List String × Bytes)

namespace Workspace

inductive Found where
  | file (content : Bytes)
  | directory
  | absent
  deriving DecidableEq

def addDirectory (w : Workspace) (names : List String) : Workspace :=
  let chain := (List.range names.length).map fun n => names.take (n + 1)
  { w with directories := w.directories ++ chain.filter (· ∉ w.directories) }

def within (here : List String) : Workspace := addDirectory ⟨here, [], []⟩ here

def inside (w : Workspace) (names : List String) : List String := w.here ++ names

/-- A file that is always empty; what is written to it is lost. -/
def nullFile : List String := ["dev", "null"]

def putFile (w : Workspace) (names : List String) (content : Bytes) : Workspace :=
  let content := if names = nullFile then [] else content
  if w.files.any (·.1 = names) then
    { w with files := w.files.map fun f => if f.1 = names then (names, content) else f }
  else { w with files := w.files ++ [(names, content)] }

def addFile (w : Workspace) (names : List String) (content : Bytes) : Workspace :=
  (w.addDirectory names.dropLast).putFile names content

def lookup (w : Workspace) (names : List String) : Found :=
  match w.files.find? (·.1 = names) with
  | some f => .file f.2
  | none => if names = [] ∨ names ∈ w.directories then .directory else .absent

def maxNameBytes : Nat := 255

def maxPathBytes : Nat := 4095

/-- Follows the components of a path from a directory. A step up from the root stays there. What is
absent may be named by the last component only. -/
def follow (w : Workspace) (here : List String) :
    List String → Except FileError (List String × Found)
  | [] => .ok (here, .directory)
  | name :: rest =>
    if name = "" ∨ name = "." then follow w here rest
    else if name = ".." then follow w here.dropLast rest
    else if maxNameBytes < name.utf8ByteSize then .error .nameTooLong
    else
      let next := here ++ [name]
      match w.lookup next with
      | .directory => follow w next rest
      | .file content => if rest = [] then .ok (next, .file content) else .error .notDirectory
      | .absent => if rest.all (· = "") then .ok (next, .absent) else .error .missing

def resolve (w : Workspace) (path : String) : Except FileError (List String × Found) :=
  if path.contains '\x00' then .error .invalidName
  else if path = "" then .error .missing
  else if maxPathBytes < path.utf8ByteSize then .error .nameTooLong
  else w.follow (if path.startsWith "/" then [] else w.here) (Path.components path)

def read (w : Workspace) (path : String) : Except FileError Bytes := do
  match ← w.resolve path with
  | (_, .file content) => .ok content
  | (_, .directory) => .error .isDirectory
  | (_, .absent) => .error .missing

def isDirectory (w : Workspace) (path : String) : Except FileError Bool := do
  match ← w.resolve path with
  | (_, .file _) => .ok false
  | (_, .directory) => .ok true
  | (_, .absent) => .error .missing

/-- A file that is absent is created, unless its path is written like that of a directory. -/
def write (w : Workspace) (path : String) (content : Bytes) : Except FileError Workspace := do
  match ← w.resolve path with
  | (names, .file _) => .ok (w.putFile names content)
  | (_, .directory) => .error .isDirectory
  | (names, .absent) =>
    if path.endsWith "/" then .error .isDirectory else .ok (w.putFile names content)

def host (input : Bytes) : Host (StateM Workspace) where
  input := return input
  read path := return (← get).read path
  isDirectory path := return (← get).isDirectory path
  write path content := do
    match (← get).write path content with
    | .ok w => set w; return .ok ()
    | .error e => return .error e

end Workspace

end ParserTables

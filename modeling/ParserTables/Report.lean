import ParserTables.Grammar.Basic

/-!
Errors that point at a place in a source. A report names its source and position where it has
them, and quotes the line it points at when the source is a file. Reports are ordered by
position, and those at one position keep their order.
-/

namespace ParserTables

structure Report (ε : Type) where
  cause : ε
  detail : String
  pos : Position
  source : String
  file : Option String

namespace Report

/-- A line this long cannot be read, and neither can the lines after it. -/
def maxLineBytes : Nat := 65536

def dropCarriageReturn (line : String) : String :=
  match line.toList.reverse with
  | '\r' :: rest => String.ofList rest.reverse
  | _ => line

def lineAt? : Nat → List String → Option String
  | _, [] => none
  | row, line :: rest =>
    if maxLineBytes ≤ line.utf8ByteSize then none
    else match row with
      | 0 => none
      | 1 => some (dropCarriageReturn line)
      | n + 1 => lineAt? n rest

def quotedLine (file : Option String) (row : Int) : Option String :=
  if row ≤ 0 then none
  else file.bind fun content => (lineAt? row.toNat (content.splitOn "\n")).filter (· ≠ "")

def render {ε : Type} (causeText : ε → String) (r : Report ε) : String :=
  let source := if r.source = "" then "" else r.source ++ ": "
  let place := if r.pos.row ≠ 0 ∧ r.pos.col ≠ 0 then r.pos.text ++ ": " else ""
  let detail := if r.detail = "" then "" else ": " ++ r.detail
  let line := match quotedLine r.file r.pos.row with
    | some line => "\n    " ++ line
    | none => ""
  source ++ place ++ "error: " ++ causeText r.cause ++ detail ++ line

def renderAll {ε : Type} (causeText : ε → String) (rs : List (Report ε)) : String :=
  String.intercalate "\n" (rs.map (render causeText))

def notAfter {ε : Type} (a b : Report ε) : Bool :=
  if a.pos.row = b.pos.row then a.pos.col ≤ b.pos.col else a.pos.row ≤ b.pos.row

def sort {ε : Type} (rs : List (Report ε)) : List (Report ε) := rs.mergeSort notAfter

end Report

end ParserTables

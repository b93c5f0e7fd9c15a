import ParserTables.Text.Markup
import ParserTables.Tree

/-!
What a command shows: notices with a label, whose further lines stand under the first, tables with
columns of even width, and trees drawn with joints. Markup is stripped from each part, and tags
once more from the whole for each layer that a text goes through on its way out; tags nested more
deeply than that are shown, and so are colour codes that come together late.
-/

namespace ParserTables.Console

inductive Notice where
  | info
  | warning
  | error
  deriving DecidableEq, Repr

namespace Notice

def label : Notice → String
  | .info => " INFO  "
  | .warning => " WARNING  "
  | .error => "  ERROR   "

end Notice

def newline : UInt8 := 0x0A

def splitLines : Bytes → List Bytes
  | [] => [[]]
  | b :: bs =>
    if b = newline then [] :: splitLines bs
    else match splitLines bs with
      | [] => [[b]]
      | line :: lines => (b :: line) :: lines

def dropLastNewlines (bs : Bytes) : Bytes := (bs.reverse.dropWhile (· = newline)).reverse

/-- How many times tags are stripped from all that is shown. -/
def layers : Nat := 5

def out (shown : Bytes) : Bytes := Text.stripTagsTimes layers shown

/-- Line feeds at the end of a message are dropped, but if there are any the notice ends with one
more. -/
def notice (n : Notice) (message : Bytes) : Bytes :=
  let message := Text.stripTags message
  let indent := Bytes.ofString (String.ofList (List.replicate n.label.length ' '))
  let lines := (splitLines (dropLastNewlines message)).map Text.stripMarkup
  let last := if message.getLast? = some newline then [newline, newline] else [newline]
  out (Bytes.ofString n.label ++ List.intercalate (newline :: indent) lines ++ last)

def cellWidth (cell : Bytes) : Nat := (Text.stripMarkup cell).length

def padCell (width : Nat) (cell : Bytes) : Bytes :=
  cell ++ List.replicate (width - cellWidth cell) 0x20

def columnWidth (rows : List (List Bytes)) (i : Nat) : Nat :=
  rows.foldl (fun width row => max width (cellWidth ((row[i]?).getD []))) 0

/-- Every cell is as wide as the widest of its column. -/
def table (rows : List (List String)) : Bytes :=
  let rows := rows.map (·.map Bytes.ofString)
  let columns := rows.foldl (fun n row => max n row.length) 0
  let widths := (List.range columns).map (columnWidth rows)
  out (rows.flatMap fun row =>
    let cells := (List.zipWith padCell widths row).map Text.stripMarkup
    List.intercalate (Bytes.ofString " | ") cells ++ [newline])

def tree (t : Tree) : Bytes :=
  let lines := t.drawn.flatMap fun (joints, caption) =>
    Bytes.ofString joints ++ Text.stripMarkup (Bytes.ofString caption) ++ [newline]
  out (lines ++ [newline])

end ParserTables.Console

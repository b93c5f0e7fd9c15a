import ParserTables.Text.Quoted

/-!
Syntax trees and their renderings: ruled lines, a flat list of captions with levels, and captions
with joints. A place in a tree may be absent; ruled lines pass over it, and a list of levels does
not exist for a tree with such a place.
-/

namespace ParserTables

structure Label where
  kind : String
  text : Bytes
  row : Int
  col : Int
  error : Bool
  deriving DecidableEq, Repr

inductive Tree where
  | absent
  | node (label : Label) (children : List Tree)
  deriving Inhabited, Repr

namespace Label

def caption (l : Label) : String :=
  if l.error then "!" ++ l.kind
  else if l.text = [] then l.kind
  else l.kind ++ " " ++ Text.quoteBytes l.text

end Label

namespace Tree

def branch (last : Bool) : String := if last then "└─ " else "├─ "

def trunk (last : Bool) : String := if last then "   " else "│  "

mutual

/-- The lines of a tree: `ruled` stands before its own caption, `below` before its children. -/
def lines (ruled below : String) : Tree → List String
  | .absent => []
  | .node l cs => (ruled ++ l.caption) :: childLines below cs

def childLines (below : String) : List Tree → List String
  | [] => []
  | c :: cs =>
    lines (below ++ branch cs.isEmpty) (below ++ trunk cs.isEmpty) c ++ childLines below cs

end

def print (t : Tree) : String := String.join ((t.lines "" "").map (· ++ "\n"))

mutual

def levelsFrom? (level : Nat) : Tree → Option (List (Nat × String))
  | .absent => none
  | .node l cs => (childLevels? (level + 1) cs).map ((level, l.caption) :: ·)

def childLevels? (level : Nat) : List Tree → Option (List (Nat × String))
  | [] => some []
  | c :: cs => do
    let first ← levelsFrom? level c
    let others ← childLevels? level cs
    return first ++ others

end

/-- The captions in the order they are met, with their distance from the root. -/
def levels? (t : Tree) : Option (List (Nat × String)) := t.levelsFrom? 0

mutual

/-- The captions of a tree, each with the joints that are drawn in front of it. -/
def drawnFrom (before : String) (last : Bool) : Tree → List (String × String)
  | .absent => []
  | .node l cs =>
    let joint := (if last then "└" else "├") ++ (if cs.isEmpty then "──" else "─┬")
    (before ++ joint, l.caption) :: drawnAll (before ++ if last then "  " else "│ ") cs

def drawnAll (before : String) : List Tree → List (String × String)
  | [] => []
  | c :: cs => drawnFrom before cs.isEmpty c ++ drawnAll before cs

end

def drawn (t : Tree) : List (String × String) := t.drawnFrom "" true

end Tree

end ParserTables

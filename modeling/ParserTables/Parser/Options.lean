/-!
Options of a parser. Options take effect in order, and the first that fails is reported. The
tree builder is an observer of its own kind, so a parser has either it or another observer.
-/

namespace ParserTables

inductive ParserOption where
  | buildTree
  | observe
  | failing (message : String)
  deriving DecidableEq, Repr

namespace ParserOption

def failure? : ParserOption → Option String
  | .failing message => some message
  | _ => none

def refusal? (options : List ParserOption) : Option String :=
  match options.findSome? failure? with
  | some message => some message
  | none =>
    if .buildTree ∈ options ∧ .observe ∈ options then
      some "MakeCST and SemanticAction cannot be used together"
    else none

end ParserOption

end ParserTables

/-!
The grammars that parsing tables are generated from: token and precedence declarations,
nonterminals with their rules, and a start symbol. A position counts rows and columns from one;
zero stands for an unknown position.
-/

namespace ParserTables

structure Position where
  row : Int
  col : Int
  deriving DecidableEq, Repr

namespace Position

def unknown : Position := ⟨0, 0⟩

def text (p : Position) : String := s!"{p.row}:{p.col}"

end Position

/-- A code that names no associativity can only come from outside; it decides nothing. -/
inductive Associativity where
  | left
  | right
  | nonassoc
  | invalid (code : Int)
  deriving DecidableEq, Repr

def endName : String := "END_"

def errorName : String := "%error"

structure RuleToken where
  name : String
  boundTo : String
  pos : Position
  deriving DecidableEq, Repr

structure Rule where
  tokens : List RuleToken
  precedence : String
  assoc : Associativity
  action : String
  pos : Position
  deriving DecidableEq, Repr

structure Nonterminal where
  name : String
  rules : List Rule
  pos : Position
  deriving DecidableEq, Repr

structure TokenDecl where
  name : String
  valueType : String
  pattern : String
  skip : Bool
  pos : Position
  deriving DecidableEq, Repr

structure PrecedenceDecl where
  name : String
  assoc : Associativity
  pos : Position
  deriving DecidableEq, Repr

structure StartDecl where
  name : String
  pos : Position
  deriving DecidableEq, Repr

/-- A missing declaration in a list of tokens or precedences declares nothing. -/
structure Grammar where
  name : String
  start : Option StartDecl
  tokens : List (Option TokenDecl)
  precedences : List (Option PrecedenceDecl)
  nonterminals : List Nonterminal
  deriving DecidableEq, Repr

/-- A rule of `owner` of the shape `owner → owner op owner`. -/
def Rule.isBinary (owner : String) (r : Rule) : Bool :=
  match r.tokens with
  | [a, op, b] => a.name = owner && b.name = owner && op.name ≠ owner
  | _ => false

def literalChar? (name : String) : Option Char :=
  match name.toList with
  | ['\'', c, '\''] => some c
  | _ => none

def isLiteral (name : String) : Bool := (literalChar? name).isSome

end ParserTables

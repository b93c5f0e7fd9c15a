import ParserTables.Parser.Step
import ParserTables.Tree

/-!
Syntax trees from the events of a run. The trees built so far lie on a stack in step with the
parser's stack of states; a reduction gathers the trees of its rule under a new root, and the
error symbol stands for the trees that were given up. The tree of an accepted input is the first
tree of the start rule.
-/

namespace ParserTables

/-- The stack of trees has its top first. -/
structure Forest where
  trees : List Tree
  root : Option Tree

namespace Forest

def empty : Forest := ⟨[], none⟩

def pop (trees : List Tree) (count : Int) : Except Breach (List Tree × List Tree) :=
  if count < 0 ∨ (trees.length : Int) < count then .error .outOfRange
  else .ok ((trees.take count.toNat).reverse, trees.drop count.toNat)

def leaf (t : Table) (token : Token) : Except Breach Tree := do
  let kind ← t.tokenName (t.terminalOf (some token))
  return .node ⟨kind, token.lexeme, token.row, token.col, false⟩ []

/-- A node stands where its first child stands. -/
def rowOf : List Tree → Int
  | .node l _ :: _ => l.row
  | _ => 0

def colOf : List Tree → Int
  | .node l _ :: _ => l.col
  | _ => 0

def inner (t : Table) (rule : Int) (children : List Tree) : Except Breach Tree := do
  let kind ← t.tokenName (← t.lhs rule)
  return .node ⟨kind, [], rowOf children, colOf children, false⟩ children

def errorLeaf (t : Table) (cause : Token) : Except Breach Tree := do
  let kind ← t.tokenName t.errorSymbol
  return .node ⟨kind, [], cause.row, cause.col, true⟩ []

def apply (t : Table) (f : Forest) : Event → Except Breach Forest
  | .shift token _ => do return { f with trees := (← leaf t token) :: f.trees }
  | .reduce rule _ => do
    let (children, below) ← pop f.trees (← t.tokenCount rule)
    return { f with trees := (← inner t rule children) :: below }
  | .accept => do
    let (children, below) ← pop f.trees (← t.tokenCount t.startRule)
    match children with
    | first :: _ => return ⟨below, some first⟩
    | [] => .error .outOfRange
  | .trap cause popped => do
    let (_, below) ← pop f.trees popped
    return { f with trees := (← errorLeaf t cause) :: below }
  | .miss _ => return f

def ofEvents (t : Table) (events : List Event) : Except Breach Forest :=
  events.foldlM (apply t) empty

end Forest

end ParserTables

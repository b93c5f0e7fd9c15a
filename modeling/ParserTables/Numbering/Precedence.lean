import ParserTables.Numbering.Fault

/-!
Precedence levels: the declared precedences, numbered from one in the order of declaration. The
first declaration of a name counts.
-/

namespace ParserTables

structure Precedence where
  name : String
  level : Nat
  assoc : Associativity
  pos : Position
  deriving DecidableEq, Repr

namespace Precedence

def find? (known : List Precedence) (name : String) : Option Precedence :=
  known.find? (·.name = name)

def ofDecl (known : List Precedence) (d : PrecedenceDecl) : Precedence :=
  ⟨d.name, known.length + 1, d.assoc, d.pos⟩

def declareAll (known : List Precedence) :
    List (Option PrecedenceDecl) → List Precedence × List Issue
  | [] => (known, [])
  | none :: ds => declareAll known ds
  | some d :: ds =>
    if d.name = "" then
      let (all, issues) := declareAll known ds
      (all, .new .invalidName "a precedence needs a name" d.pos :: issues)
    else match find? known d.name with
      | some earlier =>
        let (all, issues) := declareAll known ds
        (all, .new .duplicatePrecedence (Issue.again d.name earlier.pos) d.pos :: issues)
      | none => declareAll (known ++ [ofDecl known d]) ds

end Precedence

end ParserTables

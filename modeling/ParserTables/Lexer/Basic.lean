import ParserTables.Lexer.Machine

/-!
Lexers. A lexer is in a mode, and each mode has a machine of its own, whose kinds are numbered for
the mode alone. After a lexeme of some kinds the lexer enters another mode or goes back to the one
before; it keeps the modes it is in, the inmost first. Mode 0 is none.
-/

namespace ParserTables

structure Mode where
  enters : Slots Int
  leaves : Slots Int
  machine : Option Machine
  deriving DecidableEq, Repr

structure Lexer where
  name : String
  initialMode : Int
  kindNames : Slots String
  kindIds : Slots (Slots Int)
  level : Machine.Level
  modes : Slots (Option Mode)
  deriving DecidableEq, Repr

namespace Lexer

def mode (l : Lexer) (id : Int) : Except Breach Mode := do
  present (← l.modes.get id)

def kindId (l : Lexer) (mode kind : Int) : Except Breach Int := do
  let id ← (← l.kindIds.get mode).get kind
  let _ ← l.kindNames.get id
  return id

def modesAfter (m : Mode) (kind : Int) (modes : List Int) : Except Breach (List Int) := do
  let leaves ← m.leaves.get kind
  let entered ← m.enters.get kind
  let modes := if leaves = 1 then modes.tail else modes
  return if entered = 0 then modes else entered :: modes

/-- A lexer of one mode; its kinds are named from the first on. -/
def single (name : String) (kindNames : List String) (machine : Machine) : Lexer :=
  let zeros : Slots Int := .ofArray (Array.replicate (kindNames.length + 1) 0)
  { name
    initialMode := 1
    kindNames := .ofArray ("" :: kindNames).toArray
    kindIds := .ofArray #[.empty, numbersBelow (kindNames.length + 1)]
    level := Machine.displacedLevel
    modes := .ofArray #[none, some ⟨zeros, zeros, some machine⟩] }

end Lexer

end ParserTables

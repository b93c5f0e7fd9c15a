import ParserTables.Slots
import ParserTables.Word

/-!
Machines that follow a source byte by byte, as tables of numbers. State 0 is none, and kind 0 is
no kind. The rows of the states stand in one list, each whole, or one for all states with the same
row; or they are displaced so that the gaps of a row hold entries of other rows, each entry with
the row that owns it. Tables from elsewhere may lack what is asked of them.
-/

namespace ParserTables

structure DisplacedRows where
  offsets : Slots Int
  owners : Slots Int
  targets : Slots Int
  deriving DecidableEq, Repr

structure SharedRows where
  columns : Int
  rowOf : Slots Int
  targets : Slots Int
  displaced : Option DisplacedRows
  deriving DecidableEq, Repr

structure Machine where
  start : Int
  accepted : Slots Int
  columns : Int
  targets : Slots Int
  shared : Option SharedRows
  deriving DecidableEq, Repr

def numbersBelow (n : Nat) : Slots Int := .ofArray ((List.range n).map Int.ofNat).toArray

namespace Machine

/-- How the rows are stored: 0 for whole rows, 1 for shared ones, 2 for shared and displaced. -/
abbrev Level := Int

def displacedLevel : Level := 2

def byteCount : Nat := 256

def orNone (target : Int) : Option Int := if target = 0 then none else some target

def place (row columns : Int) (b : UInt8) : Int := Word.wrap (row * columns + b.toNat)

def next? (m : Machine) (level : Level) (state : Int) (b : UInt8) : Except Breach (Option Int) :=
  if level = 2 then do
    let rows ← present m.shared
    let table ← present rows.displaced
    let row ← rows.rowOf.get state
    let slot := Word.wrap ((← table.offsets.get row) + b.toNat)
    let owner ← table.owners.get slot
    if owner = row then return some (← table.targets.get slot) else return none
  else if level = 1 then do
    let rows ← present m.shared
    let row ← rows.rowOf.get state
    return orNone (← rows.targets.get (place row rows.columns b))
  else do
    return orNone (← m.targets.get (place state m.columns b))

end Machine

end ParserTables

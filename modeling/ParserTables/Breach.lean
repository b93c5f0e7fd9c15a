import ParserTables.Item

/-!
Breaches: what happens when an automaton or a table is asked for something that it does not have.
A table made from a grammar without faults is never breached by the parser; tables from elsewhere
can be.
-/

namespace ParserTables

inductive Breach where
  | outOfRange
  | unknownRule (item : Item)
  | phaseTooLarge (item : Item) (rule : String)
  | unknownState (kernel : ItemSet)
  | notOneRule (target : ItemSet)
  deriving DecidableEq

namespace Breach

def message? : Breach → Option String
  | .outOfRange => none
  | .unknownRule a => some ("a rule phase refers to an unknown rule: " ++ a.text)
  | .phaseTooLarge a rule =>
    some ("a phase exceeds the length of the rule: " ++ a.text ++ ", rule: " ++ rule)
  | .unknownState kernel => some ("a state was not found: " ++ kernel.text)
  | .notOneRule target => some ("a reduction must have exactly one rule: " ++ target.text)

end Breach

/-- The element at a place that may lie outside, on either side. -/
def elementAt {α : Type} (as : Array α) (i : Int) : Except Breach α :=
  if i < 0 then .error .outOfRange
  else match as[i.toNat]? with
    | some a => .ok a
    | none => .error .outOfRange

def present {α : Type} : Option α → Except Breach α
  | some a => .ok a
  | none => .error .outOfRange

end ParserTables

import ParserTables.Item

/-!
Transitions of a state: an action with its target. A shift or a push leads to the state whose
kernel is the target; a reduction has the complete item of its rule for a target.
-/

namespace ParserTables

inductive Action where
  | shift
  | push
  | reduce
  | accept
  | throwAway
  deriving DecidableEq, Repr

namespace Action

def name : Action → String
  | .shift => "shift-and-push"
  | .push => "push"
  | .reduce => "reduce-by-rule"
  | .accept => "reduce-and-accept"
  | .throwAway => "throw-away-error-token"

def ofCode? (code : Int) : Option Action :=
  if code = 1 then some .shift
  else if code = 2 then some .push
  else if code = 3 then some .reduce
  else if code = 4 then some .accept
  else if code = 5 then some .throwAway
  else none

def codeName (code : Int) : String :=
  match ofCode? code with
  | some a => a.name
  | none => s!"<invalid action: {code}>"

end Action

structure Transition where
  action : Action
  target : ItemSet
  deriving DecidableEq

def Transition.isNontrivial (t : Transition) : Bool := !t.target.isEmpty || t.action = .throwAway

end ParserTables

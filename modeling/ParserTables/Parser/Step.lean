import ParserTables.Parser.Stack
import ParserTables.Parser.Token
import ParserTables.Table.Basic

/-!
One step of the parser on a table. A step shifts the token ahead, reduces by a rule, accepts, or
deals with an error: it discards the token while recovering, or goes back to a state that shifts
the error symbol and shifts it there. The end of input is shifted without reading past it, and
from then on only default transitions apply.
-/

namespace ParserTables

inductive Event where
  | shift (token : Token) (recovering : Bool)
  | reduce (rule : Int) (recovering : Bool)
  | accept
  | trap (cause : Token) (popped : Nat)
  | miss (cause : Token)
  deriving DecidableEq, Repr

structure SyntaxError where
  token : Token
  expected : List String
  deriving DecidableEq, Repr

def SyntaxError.message : String := "unexpected token"

inductive ParseError where
  | noGoto (state : Int) (symbol : String)
  | nothingAfterEnd (state : Int)
  | errorNotShifted (state : Int)
  | stream (message : String)
  deriving DecidableEq, Repr

namespace ParseError

def message : ParseError → String
  | .noGoto state symbol => s!"state {state} has no transition on {symbol}"
  | .nothingAfterEnd state => s!"state {state} has no transition after the end of input"
  | .errorNotShifted state => s!"state {state} must shift the error symbol"
  | .stream message => message

end ParseError

/-- A run ends in acceptance, gives up on an input with errors, or fails. -/
inductive Ending where
  | accepted
  | abandoned
  | failed (e : ParseError)
  deriving DecidableEq, Repr

/-- There is no token ahead once the end of input has been shifted. `shifts` counts the shifts of
a recovery. -/
structure Config where
  stack : StateStack
  ahead : Option Token
  stream : Stream
  recovering : Bool
  shifts : Nat
  errors : List SyntaxError

inductive Outcome where
  | next (c : Config) (event : Option Event)
  | stop (c : Config) (event : Option Event) (ending : Ending)

namespace Config

def top (c : Config) : Except Breach Int := c.stack.top

def pop (c : Config) (count : Int) : Except Breach Config := do
  return { c with stack := ← c.stack.pop count }

def push (c : Config) (state : Int) : Config := { c with stack := c.stack.push state }

def advance (c : Config) (event : Option Event) : Except Breach Outcome :=
  match c.stream.next with
  | .ok (t, stream) => .ok (.next { c with ahead := some t, stream } event)
  | .error (.failed message) => .ok (.stop c event (.failed (.stream message)))
  | .error (.breach b) => .error b

end Config

namespace Table

/-- The number of shifts of a recovery after which the next shift ends it. -/
def recoveryShifts : Nat := 3

/-- The terminal of the token ahead; -1 when there is none. -/
def terminalOf (t : Table) : Option Token → Int
  | none => -1
  | some token => if token.isEnd then t.endSymbol else token.terminal

def countShift (c : Config) : Config :=
  if c.recovering then
    if c.shifts < recoveryShifts then { c with shifts := c.shifts + 1 }
    else { c with recovering := false, shifts := 0 }
  else c

def shiftStep (c : Config) (state : Int) : Except Breach Outcome :=
  match c.ahead with
  | none => .error .outOfRange
  | some token =>
    let c := (countShift c).push state
    let event := some (Event.shift token c.recovering)
    if token.isEnd then .ok (.next { c with ahead := none } event) else c.advance event

def reduceStep (t : Table) (c : Config) (rule : Int) : Except Breach Outcome := do
  let c ← c.pop (← t.tokenCount rule)
  let lhs ← t.lhs rule
  let state ← c.top
  match ← t.goto? state lhs with
  | some next => return .next (c.push next) (some (.reduce rule c.recovering))
  | none => return .stop c none (.failed (.noGoto state (← t.tokenName lhs)))

def acceptStep (t : Table) (c : Config) (rule : Int) : Except Breach Outcome := do
  let c ← c.pop (← t.tokenCount rule)
  return .stop c (some .accept) .accepted

def expectedNames (t : Table) (state : Int) : Except Breach (List String) := do
  let terminals := (← t.expected state).filter (· ≠ t.errorSymbol)
  terminals.mapM fun s => if s = t.endSymbol then return "<eof>" else t.tokenName s

/-- How many states lie above the first that shifts the error symbol, if there is one. -/
def trapDepth? (t : Table) : List Int → Except Breach (Option Nat)
  | [] => .error .outOfRange
  | [s] => do return if ← t.trapsError s then some 0 else none
  | s :: rest => do
    if ← t.trapsError s then return some 0
    return (← t.trapDepth? rest).map (· + 1)

def trapStep (t : Table) (c : Config) (token : Token) : Except Breach Outcome := do
  let expected ← t.expectedNames (← c.top)
  let c := { c with errors := c.errors ++ [⟨token, expected⟩] }
  match ← t.trapDepth? c.stack.states with
  | none => return .stop c (some (.miss token)) .abandoned
  | some popped =>
    let c := { c with stack := c.stack.drop popped, recovering := true, shifts := 0 }
    let state ← c.top
    match ← t.action state t.errorSymbol with
    | (.shift, next) => return .next (c.push next) (some (.trap token popped))
    | _ => return .stop c none (.failed (.errorNotShifted state))

def errorStep (t : Table) (c : Config) (state : Int) : Except Breach Outcome := do
  match c.ahead with
  | none => return .stop c none (.failed (.nothingAfterEnd state))
  | some token =>
    let discards ← if c.recovering then pure true else t.throwsAway state
    if !discards then t.trapStep c token
    else if token.isEnd then return .stop c none .abandoned
    else c.advance none

def step (t : Table) (c : Config) : Except Breach Outcome := do
  let state ← c.top
  match ← t.action state (t.terminalOf c.ahead) with
  | (.shift, next) => shiftStep c next
  | (.reduce, rule) => t.reduceStep c rule
  | (.accept, rule) => t.acceptStep c rule
  | _ => t.errorStep c state

end Table

end ParserTables

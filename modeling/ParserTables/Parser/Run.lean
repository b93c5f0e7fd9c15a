import ParserTables.Parser.Step

/-!
Runs of the parser. A run is given a number of steps; it ends earlier when the parser stops or
the table is breached, and otherwise runs out of steps. An observer follows the events of a run
as they happen, and a breach of the observer ends the run too.
-/

namespace ParserTables

inductive RunEnd where
  | ended (ending : Ending)
  | breached (b : Breach)
  | outOfSteps
  deriving DecidableEq

/-- How an observer's state changes with an event. -/
abbrev Observer (σ : Type) := σ → Event → Except Breach σ

structure Observed (σ : Type) where
  state : σ
  errors : List SyntaxError
  result : RunEnd

structure Run where
  events : List Event
  errors : List SyntaxError
  result : RunEnd

namespace Observer

variable {σ : Type}

def after (o : Observer σ) (s : σ) : Option Event → Except Breach σ
  | none => .ok s
  | some event => o s event

def recorder : Observer (List Event) := fun past event => .ok (event :: past)

def idle : Observer Unit := fun _ _ => .ok ()

end Observer

namespace Table

variable {σ : Type}

def watchFrom (t : Table) (o : Observer σ) : Nat → σ → Config → Observed σ
  | 0, s, c => ⟨s, c.errors, .outOfSteps⟩
  | n + 1, s, c =>
    match t.step c with
    | .error b => ⟨s, c.errors, .breached b⟩
    | .ok (.next c' event) =>
      match o.after s event with
      | .error b => ⟨s, c'.errors, .breached b⟩
      | .ok s' => t.watchFrom o n s' c'
    | .ok (.stop c' event ending) =>
      match o.after s event with
      | .error b => ⟨s, c'.errors, .breached b⟩
      | .ok s' => ⟨s', c'.errors, .ended ending⟩

/-- Runs the parser on a stream for at most the given number of steps. -/
def watch (t : Table) (o : Observer σ) (start : σ) (steps : Nat) (s : Stream) : Observed σ :=
  match s.next with
  | .error (.failed message) => ⟨start, [], .ended (.failed (.stream message))⟩
  | .error (.breach b) => ⟨start, [], .breached b⟩
  | .ok (token, stream) =>
    let stack := StateStack.empty.push t.initialState
    t.watchFrom o steps start ⟨stack, some token, stream, false, 0, []⟩

def run (t : Table) (steps : Nat) (s : Stream) : Run :=
  let seen := t.watch Observer.recorder [] steps s
  ⟨seen.state.reverse, seen.errors, seen.result⟩

end Table

end ParserTables

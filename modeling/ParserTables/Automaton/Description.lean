import ParserTables.Automaton.Basic
import ParserTables.Breach
import ParserTables.Grammar.Associativity
import ParserTables.Text.Space

/-!
The automaton in words: rules, states with their items and transitions, and the transitions that
lost a conflict.
-/

namespace ParserTables.Automaton

def ruleOf (m : Automaton) (a : Item) : Except Breach Production :=
  match m.rules[a.rule]? with
  | none => .error (.unknownRule a)
  | some r => if r.tokens.length < a.phase then .error (.phaseTooLarge a r.text) else .ok r

def tokenText (m : Automaton) : Option Nat → String
  | some s => m.symbols.nameOf s
  | none => "<undefined>"

def itemText (m : Automaton) (a : Item) : Except Breach String := do
  let r ← m.ruleOf a
  return Production.itemText (m.symbols.nameOf r.lhs) (r.tokens.map m.tokenText) a.phase

def itemTexts (m : Automaton) (s : ItemSet) : Except Breach (List String) :=
  s.items.mapM m.itemText

/-- Where a shift or a push leads; a target that is no state is shown by its items. -/
def destination (m : Automaton) (verb : String) (target : ItemSet) : Except Breach String := do
  if target.isEmpty then return verb ++ " nothing"
  match m.stateIndex? target with
  | some i => return s!"{verb} state {i}"
  | none => return verb ++ " [" ++ String.intercalate " " (← m.itemTexts target) ++ "]"

def reductionText (m : Automaton) (verb : String) (target : ItemSet) : Except Breach String := do
  let texts ← target.items.mapM fun a => do
    let r ← elementAt m.rules a.rule
    return s!"rule {a.rule} ({r.text})"
  return verb ++ " " ++ String.intercalate ", " texts

def transitionText (m : Automaton) (t : Transition) : Except Breach String :=
  match t.action with
  | .shift => m.destination "shift and go to" t.target
  | .push => m.destination "go to" t.target
  | .reduce => m.reductionText "reduce by" t.target
  | .accept => m.reductionText "accept by" t.target
  | .throwAway => .ok "throw away error tokens"

def ruleLine (r : Production) (index : Nat) : String :=
  let prec := if 0 < r.level then s!" [prec {r.level}, {r.assoc.name}]" else ""
  Text.padLeft 4 (toString index) ++ " " ++ r.text ++ prec ++ "\n"

def transitionLine (name text : String) : String :=
  "    " ++ Text.padRight 12 name ++ " " ++ text ++ "\n"

def transitionLines (m : Automaton) (ts : List (Nat × Transition)) :
    Except Breach (List String) :=
  ts.mapM fun (s, t) => do return transitionLine (m.symbols.nameOf s) (← m.transitionText t)

def conflictLines (m : Automaton) (ts : List (Nat × Transition)) : Except Breach (List String) :=
  ts.mapM fun (s, t) => do
    let text ← m.transitionText t
    return transitionLine (m.symbols.nameOf s) s!"[{text}] (conflict)"

def stateText (m : Automaton) (s : State) (index : Nat) : Except Breach String := do
  let items ← m.itemTexts s.kernel
  let terminals ← m.transitionLines s.terminals
  let fallback ← s.fallback.toList.mapM fun t => do
    return transitionLine "$default" (← m.transitionText t)
  let nonterminals ← m.transitionLines s.nonterminals
  let conflicts ← m.conflictLines s.conflicts
  let itemLines := items.map fun text => s!"    {text}\n"
  return s!"\n## State {index}\n\n" ++ String.join itemLines ++ "\n"
    ++ String.join (terminals ++ fallback ++ nonterminals ++ conflicts)

def describe (m : Automaton) : Except Breach String := do
  let rules := m.rules.toList.zipIdx.map fun (r, i) => ruleLine r i
  let states ← m.states.toList.zipIdx.mapM fun (s, i) => m.stateText s i
  let counts := s!"{m.shiftReduce} shift/reduce conflicts, {m.reduceReduce} reduce/reduce conflicts"
  return "# Conflicts\n\n" ++ counts ++ "\n\n# Rules\n\n" ++ String.join rules
    ++ "\n# States\n" ++ String.join states

end ParserTables.Automaton

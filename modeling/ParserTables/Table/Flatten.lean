import ParserTables.Automaton.Basic
import ParserTables.Table.Basic

/-!
From an automaton to its table. The states take their places one after another: their entries on
terminals, then their default, then their entries on nonterminals.
-/

namespace ParserTables

namespace Action

def kind : Action → EntryKind
  | .shift => .shift
  | .push => .push
  | .reduce => .reduce
  | .accept => .accept
  | .throwAway => .throwAway

end Action

structure Row where
  terminals : List Entry
  fallback : Option Entry
  nonterminals : List Entry

namespace Row

def entries (r : Row) : List Entry := r.terminals ++ r.fallback.toList ++ r.nonterminals

def offsetOf (slot count : Nat) : Int := if count = 0 then 0 else slot

def place (slot : Nat) (r : Row) : TableState :=
  let afterTerminals := slot + r.terminals.length
  let afterFallback := afterTerminals + r.fallback.toList.length
  { terminalOffset := offsetOf slot r.terminals.length
    terminalCount := r.terminals.length
    fallbackOffset := offsetOf afterTerminals r.fallback.toList.length
    nonterminalOffset := offsetOf afterFallback r.nonterminals.length
    nonterminalCount := r.nonterminals.length }

def placeAll : Nat → List Row → List TableState
  | _, [] => []
  | slot, r :: rs => r.place slot :: placeAll (slot + r.entries.length) rs

end Row

namespace Automaton

def entryData (m : Automaton) (t : Transition) : Except Breach Nat :=
  match t.action with
  | .shift | .push =>
    match m.stateIndex? t.target with
    | some i => .ok i
    | none => .error (.unknownState t.target)
  | .reduce | .accept =>
    match t.target.items with
    | [a] => .ok a.rule
    | _ => .error (.notOneRule t.target)
  | .throwAway => .ok 0

def entry (m : Automaton) (token : Int) (t : Transition) : Except Breach Entry := do
  return ⟨token, t.action.kind, ← m.entryData t⟩

def row (m : Automaton) (s : State) : Except Breach Row := do
  let terminals ← s.terminals.mapM fun (x, t) => m.entry x t
  let fallback ← match s.fallback with
    | some t => some <$> m.entry (-1) t
    | none => pure none
  let nonterminals ← s.nonterminals.mapM fun (x, t) => m.entry x t
  return ⟨terminals, fallback, nonterminals⟩

def reservedEntry : Entry := ⟨0, .nothing, 0⟩

def table (m : Automaton) : Except Breach Table := do
  let rows ← m.states.toList.mapM m.row
  return {
    rules := .ofParts (m.rules.map fun r => ⟨r.lhs, r.tokens.length, r.text⟩)
    states := .ofParts (Row.placeAll 1 rows).toArray
    entries := .ofParts (reservedEntry :: rows.flatMap Row.entries).toArray
    initialState := 0
    startRule := 0
    tokens := .ofArray m.symbols.texts
    terminalCount := m.symbols.terminalCount
    endSymbol := SymbolTable.endSymbol
    errorSymbol := SymbolTable.errorSymbol
    shiftReduce := m.shiftReduce
    reduceReduce := m.reduceReduce }

end Automaton

end ParserTables

import ParserTables.Slots
import ParserTables.Word

/-!
Parsing tables. The transitions of all states lie in one list, and each state has the places of
its own: those on terminals and those on nonterminals in ascending order of their tokens, and one
by default. Place 0 is reserved, so that it can stand for none. Tables may come from elsewhere;
their numbers are unchecked and some of their parts may be missing, and every lookup that leaves a
list or needs a missing part is a breach.
-/

namespace ParserTables

inductive EntryKind where
  | nothing
  | shift
  | push
  | reduce
  | accept
  | throwAway
  | unknown (code : Int)
  deriving DecidableEq, Repr

namespace EntryKind

def ofCode (code : Int) : EntryKind :=
  if code = 0 then .nothing
  else if code = 1 then .shift
  else if code = 2 then .push
  else if code = 3 then .reduce
  else if code = 4 then .accept
  else if code = 5 then .throwAway
  else .unknown code

def code : EntryKind → Int
  | .nothing => 0
  | .shift => 1
  | .push => 2
  | .reduce => 3
  | .accept => 4
  | .throwAway => 5
  | .unknown code => code

def name : EntryKind → String
  | .nothing => "nil"
  | .shift => "shift"
  | .push => "push"
  | .reduce => "reduce"
  | .accept => "accept"
  | .throwAway => "throw-away"
  | .unknown _ => "<unknown>"

end EntryKind

/-- The data of an entry is a state for shifts and pushes and a rule for reductions. -/
structure Entry where
  token : Int
  kind : EntryKind
  data : Int
  deriving DecidableEq, Repr

structure TableRule where
  lhs : Int
  tokenCount : Int
  text : String
  deriving DecidableEq, Repr

structure TableState where
  terminalOffset : Int
  terminalCount : Int
  fallbackOffset : Int
  nonterminalOffset : Int
  nonterminalCount : Int
  deriving DecidableEq, Repr

structure Table where
  rules : Slots (Option TableRule)
  states : Slots (Option TableState)
  entries : Slots (Option Entry)
  initialState : Int
  startRule : Int
  tokens : Slots String
  terminalCount : Int
  endSymbol : Int
  errorSymbol : Int
  shiftReduce : Int
  reduceReduce : Int
  deriving DecidableEq

namespace Table

/-- Whether one token stands before another. Their difference is taken as a word, so tokens that
lie too far apart compare the other way round. -/
def precedes (a b : Int) : Bool := Word.wrap (a - b) < 0

/-- The first place from `low` on, below `high`, whose token does not precede `token`, provided
the tokens ascend. An entry that is missing does no harm unless it is compared. -/
def lowerBound (entries : Array (Option Entry)) (token : Int) :
    Nat → Nat → Nat → Except Breach Nat
  | 0, low, _ => .ok low
  | n + 1, low, high =>
    if low < high then do
      let mid := (low + high) / 2
      let e ← present (← elementAt entries mid)
      if precedes e.token token then lowerBound entries token n (mid + 1) high
      else lowerBound entries token n low mid
    else .ok low

def find? (entries : Array (Option Entry)) (token : Int) : Except Breach (Option Entry) := do
  match entries[← lowerBound entries token entries.size 0 entries.size]? with
  | none => return none
  | some e => return some (← present e) |>.filter (·.token = token)

def rule (t : Table) (i : Int) : Except Breach TableRule := do present (← t.rules.get i)

def state (t : Table) (i : Int) : Except Breach TableState := do present (← t.states.get i)

/-- The entries at `count` places from `offset` on; offset 0 stands for none. -/
def slice (t : Table) (offset count : Int) : Except Breach (Array (Option Entry)) :=
  if offset = 0 then .ok #[] else t.entries.window offset count

def terminalEntries (t : Table) (state : Int) : Except Breach (Array (Option Entry)) := do
  let s ← t.state state
  t.slice s.terminalOffset s.terminalCount

def nonterminalEntries (t : Table) (state : Int) : Except Breach (Array (Option Entry)) := do
  let s ← t.state state
  t.slice s.nonterminalOffset s.nonterminalCount

/-- The default of a state; it is not wrong for that entry to be missing. -/
def fallbackOf? (t : Table) (state : Int) : Except Breach (Option Entry) := do
  let s ← t.state state
  if s.fallbackOffset = 0 then return none
  t.entries.get s.fallbackOffset

def ownEntryOn? (t : Table) (state terminal : Int) : Except Breach (Option Entry) := do
  if terminal < 0 then return none
  find? (← t.terminalEntries state) terminal

/-- What a state does on a terminal: its own entry, otherwise its default, otherwise nothing. -/
def action (t : Table) (state terminal : Int) : Except Breach (EntryKind × Int) := do
  match ← t.ownEntryOn? state terminal with
  | some e => return (e.kind, e.data)
  | none =>
    match ← t.fallbackOf? state with
    | some e => return (e.kind, e.data)
    | none => return (.nothing, 0)

def goto? (t : Table) (state lhs : Int) : Except Breach (Option Int) := do
  let entry ← find? (← t.nonterminalEntries state) lhs
  return (entry.filter (·.kind = .push)).map (·.data)

def entryOnError? (t : Table) (state : Int) : Except Breach (Option Entry) := do
  find? (← t.terminalEntries state) t.errorSymbol

def trapsError (t : Table) (state : Int) : Except Breach Bool := do
  return (← t.entryOnError? state).any (·.kind = .shift)

def throwsAway (t : Table) (state : Int) : Except Breach Bool := do
  return (← t.entryOnError? state).any (·.kind = .throwAway)

def expected (t : Table) (state : Int) : Except Breach (List Int) := do
  (← t.terminalEntries state).toList.mapM fun e => do return (← present e).token

def lhs (t : Table) (rule : Int) : Except Breach Int := do return (← t.rule rule).lhs

def tokenCount (t : Table) (rule : Int) : Except Breach Int := do
  return (← t.rule rule).tokenCount

def tokenName (t : Table) (symbol : Int) : Except Breach String := t.tokens.get symbol

end Table

end ParserTables

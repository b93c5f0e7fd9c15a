import Std.Data.TreeMap

/-!
The symbol table. Terminals and nonterminals share one dense range of numbers, the terminals
first, so that a number alone tells the kind of a symbol. The end of input has number 0 and the
error symbol number 1. A registration that fails leaves the table as it was.
-/

namespace ParserTables

inductive SymbolKind where
  | terminal
  | nonterminal
  deriving DecidableEq, Repr

def SymbolKind.name : SymbolKind → String
  | .terminal => "terminal"
  | .nonterminal => "non-terminal"

inductive SymbolError where
  | otherKind (text : String) (kind : SymbolKind)
  | lateTerminal (text : String)
  | secondStart (first : String)
  | lateStart
  | tooMany (limit passed : Nat)
  deriving DecidableEq, Repr

namespace SymbolError

def message : SymbolError → String
  | .otherKind text kind => "'" ++ text ++ "' is already registered as a " ++ kind.name
  | .lateTerminal text => s!"a terminal cannot be registered after non-terminals: {text}"
  | .secondStart first => s!"a start symbol is already registered: {first}"
  | .lateStart => "a start symbol must be registered before other non-terminals"
  | .tooMany limit passed =>
    s!"a symbol number exceeds the limit; limit: {limit}, passed: {passed}"

end SymbolError

structure SymbolTable where
  texts : Array String
  ids : Std.TreeMap String Nat
  terminalCount : Nat
  start : Option Nat

namespace SymbolTable

def endSymbol : Nat := 0

def errorSymbol : Nat := 1

def maxSymbol : Nat := 0xffff

def new (endText errorText : String) : SymbolTable where
  texts := #[endText, errorText]
  ids := ((∅ : Std.TreeMap String Nat).insert endText endSymbol).insert errorText errorSymbol
  terminalCount := 2
  start := none

def size (t : SymbolTable) : Nat := t.texts.size

def id? (t : SymbolTable) (text : String) : Option Nat := t.ids[text]?

def text? (t : SymbolTable) (id : Nat) : Option String := t.texts[id]?

def isTerminal (t : SymbolTable) (id : Nat) : Bool := id < t.terminalCount

def isNonterminal (t : SymbolTable) (id : Nat) : Bool := t.terminalCount ≤ id && id < t.size

def kindOf (t : SymbolTable) (id : Nat) : SymbolKind :=
  if t.isTerminal id then .terminal else .nonterminal

def terminals (t : SymbolTable) : List Nat := List.range t.terminalCount

def nonterminals (t : SymbolTable) : List Nat :=
  (List.range (t.size - t.terminalCount)).map (t.terminalCount + ·)

def append (t : SymbolTable) (text : String) : SymbolTable :=
  let id := t.size
  match t with
  | ⟨texts, ids, terminalCount, start⟩ =>
    ⟨texts.push text, ids.insert text id, terminalCount, start⟩

def register (t : SymbolTable) (text : String) (kind : SymbolKind) :
    Except SymbolError Nat × SymbolTable :=
  match t.id? text with
  | some id =>
    if t.kindOf id = kind then (.ok id, t) else (.error (.otherKind text (t.kindOf id)), t)
  | none =>
    if maxSymbol < t.size then (.error (.tooMany maxSymbol t.size), t)
    else (.ok t.size, t.append text)

/-- A new terminal must come before the first nonterminal. -/
def registerTerminal (t : SymbolTable) (text : String) : Except SymbolError Nat × SymbolTable :=
  match (t.id? text).filter t.isTerminal with
  | some id => (.ok id, t)
  | none =>
    if t.terminalCount < t.size then (.error (.lateTerminal text), t)
    else match t.register text .terminal with
      | (.ok id, t') => (.ok id, { t' with terminalCount := t'.terminalCount + 1 })
      | (.error e, t') => (.error e, t')

/-- The start symbol must be the first nonterminal. -/
def registerStart (t : SymbolTable) (text : String) : Except SymbolError Nat × SymbolTable :=
  match t.start with
  | some id => (.error (.secondStart ((t.text? id).getD "")), t)
  | none =>
    if t.terminalCount < t.size then (.error .lateStart, t)
    else match t.register text .nonterminal with
      | (.ok id, t') => (.ok id, { t' with start := some id })
      | (.error e, t') => (.error e, t')

def registerNonterminal (t : SymbolTable) (text : String) :
    Except SymbolError Nat × SymbolTable :=
  t.register text .nonterminal

end SymbolTable

def symbolText : Option Nat → String
  | some id => toString id
  | none => "<nil>"

namespace SymbolTable

def nameOfRef (t : SymbolTable) (s : Option Nat) : String :=
  (s.bind t.text?).getD s!"<unknown symbol: {symbolText s}>"

def nameOf (t : SymbolTable) (id : Nat) : String := t.nameOfRef (some id)

end SymbolTable

def symbolOfInt? (n : Int) : Option Nat := if n < 0 then none else some n.toNat

end ParserTables

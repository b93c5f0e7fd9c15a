import ParserTables.Symbol
import ParserTables.Numbering.Fault

/-!
Numbers for the names of a grammar: the sentinels, the declared tokens in order, the character
literals of the rules in the order of their first use, the augmented start symbol, and the
nonterminals in order. A name that cannot be declared is reported and passed over; only running
out of numbers ends the naming.
-/

namespace ParserTables

/-- What has been named so far. The terminals besides the sentinels have their positions in
`positions`; `declared` and `owners` hold the declarations behind the numbers, in their order. -/
structure Naming where
  symbols : SymbolTable
  positions : Std.TreeMap String Position
  declared : Array TokenDecl
  owners : Array Nonterminal
  issues : Array Issue

namespace Naming

def start : Naming := ⟨SymbolTable.new endName errorName, ∅, #[], #[], #[]⟩

def isReserved (name : String) : Bool := name = endName || name = errorName

def report (n : Naming) (issue : Issue) : Naming :=
  match n with
  | ⟨symbols, positions, declared, owners, issues⟩ =>
    ⟨symbols, positions, declared, owners, issues.push issue⟩

def each {α : Type} (step : Naming → α → Naming × Option SymbolError) (n : Naming) :
    List α → Naming × Option SymbolError
  | [] => (n, none)
  | a :: as =>
    match step n a with
    | (n', none) => each step n' as
    | (n', some e) => (n', some e)

def declareToken (n : Naming) (d : TokenDecl) : Naming × Option SymbolError :=
  if d.name = "" then
    (n.report (.new .invalidName "a terminal needs a name" d.pos), none)
  else if isReserved d.name then
    (n.report (.new .reservedName d.name d.pos), none)
  else match n.positions[d.name]? with
    | some earlier =>
      (n.report (.new .duplicateTerminal (Issue.again d.name earlier) d.pos), none)
    | none =>
      match n with
      | ⟨symbols, positions, declared, owners, issues⟩ =>
        match symbols.registerTerminal d.name with
        | (.ok _, symbols) =>
          (⟨symbols, positions.insert d.name d.pos, declared.push d, owners, issues⟩, none)
        | (.error e, symbols) => (⟨symbols, positions, declared, owners, issues⟩, some e)

def declareLiteral (n : Naming) (name : String) : Naming × Option SymbolError :=
  if n.positions.contains name then (n, none)
  else match n with
    | ⟨symbols, positions, declared, owners, issues⟩ =>
      match symbols.registerTerminal name with
      | (.ok _, symbols) =>
        (⟨symbols, positions.insert name .unknown, declared, owners, issues⟩, none)
      | (.error e, symbols) => (⟨symbols, positions, declared, owners, issues⟩, some e)

def literalsOf (g : Grammar) : List String :=
  (g.nonterminals.flatMap fun n => n.rules.flatMap fun r => r.tokens.map (·.name)).filter isLiteral

def freshName (taken : String → Bool) : Nat → String → String
  | 0, name => name
  | k + 1, name => if taken name then freshName taken k (name ++ "'") else name

def isTaken (n : Naming) (g : Grammar) (name : String) : Bool :=
  n.positions.contains name || g.nonterminals.any (·.name = name)

def startName (g : Grammar) : String :=
  match g.start with
  | some s => if s.name = "" then "start" else s.name
  | none => "start"

def augmentedName (n : Naming) (g : Grammar) : String :=
  freshName (n.isTaken g) (n.positions.size + g.nonterminals.length) (startName g ++ "'")

def namesStart (g : Grammar) : Bool := g.start.any (·.name ≠ "")

def declareStart (n : Naming) (g : Grammar) : Naming × Option SymbolError :=
  let name := n.augmentedName g
  let n := if namesStart g then n else n.report (.new .noStartSymbol "" .unknown)
  match n with
  | ⟨symbols, positions, declared, owners, issues⟩ =>
    match symbols.registerStart name with
    | (.ok _, symbols) => (⟨symbols, positions, declared, owners, issues⟩, none)
    | (.error e, symbols) => (⟨symbols, positions, declared, owners, issues⟩, some e)

def ownerPos (n : Naming) (name : String) : Position :=
  match n.owners.find? (·.name = name) with
  | some owner => owner.pos
  | none => .unknown

def declareNonterminal (n : Naming) (nt : Nonterminal) : Naming × Option SymbolError :=
  if nt.name = "" then
    (n.report (.new .invalidName "a non-terminal needs a name" nt.pos), none)
  else if isReserved nt.name then
    (n.report (.new .reservedName nt.name nt.pos), none)
  else match n.positions[nt.name]? with
    | some earlier => (n.report (.new .duplicateName (Issue.again nt.name earlier) nt.pos), none)
    | none =>
      if (n.symbols.id? nt.name).isSome then
        let detail := Issue.again nt.name (n.ownerPos nt.name)
        (n.report (.new .duplicateNonterminal detail nt.pos), none)
      else match n with
        | ⟨symbols, positions, declared, owners, issues⟩ =>
          match symbols.registerNonterminal nt.name with
          | (.ok _, symbols) =>
            let named : Naming := ⟨symbols, positions, declared, owners.push nt, issues⟩
            (if nt.rules = [] then named.report (.new .noRule nt.name nt.pos) else named, none)
          | (.error e, symbols) => (⟨symbols, positions, declared, owners, issues⟩, some e)

def userStart? (n : Naming) (g : Grammar) : Option Nat :=
  match g.start with
  | some s => if s.name = "" then none else (n.symbols.id? s.name).filter n.symbols.isNonterminal
  | none => none

def checkStart (n : Naming) (g : Grammar) : Naming :=
  match g.start with
  | some s =>
    if s.name ≠ "" ∧ (n.userStart? g).isNone then
      n.report (.new .undefinedStartSymbol s.name s.pos)
    else n
  | none => n

def andThen (r : Naming × Option SymbolError) (step : Naming → Naming × Option SymbolError) :
    Naming × Option SymbolError :=
  match r with
  | (n, none) => step n
  | (n, some e) => (n, some e)

/-- Names everything in a grammar; the second part is set when the numbers have run out. -/
def ofGrammar (g : Grammar) : Naming × Option SymbolError :=
  let tokens := each declareToken start (g.tokens.filterMap id)
  let literals := andThen tokens fun n => each declareLiteral n (literalsOf g)
  let begun := andThen literals fun n => n.declareStart g
  let named := andThen begun fun n => each declareNonterminal n g.nonterminals
  andThen named fun n => (n.checkStart g, none)

def tokenDecl? (n : Naming) (id : Nat) : Option TokenDecl :=
  if id < 2 then none else n.declared[id - 2]?

end Naming

end ParserTables

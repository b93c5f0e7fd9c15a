import ParserTables.Numbering.Naming
import ParserTables.Numbering.Precedence
import ParserTables.Numbering.Production

/-!
From a grammar to productions over numbers. A rule takes the level and the associativity of its
explicit precedence, otherwise those of its last terminal that has a declared precedence,
otherwise level 0 and its own associativity.
-/

namespace ParserTables

structure Numbering where
  naming : Naming
  precedences : List Precedence
  rules : Array Production
  userStart : Option Nat
  issues : List Issue

namespace Numbering

/-- The number of a token of a rule. The augmented start symbol cannot be referred to, and the
end of input only by the start production. -/
def resolve (n : Naming) (name : String) : Except Fault Nat :=
  match n.symbols.id? name with
  | none => .error .undefinedSymbol
  | some s =>
    if n.symbols.start = some s then .error .undefinedSymbol
    else if s = SymbolTable.endSymbol then .error .reservedName
    else .ok s

def number? (n : Naming) (name : String) : Option Nat :=
  match resolve n name with
  | .ok s => some s
  | .error _ => none

/-- The issues of the tokens of a rule; `seen` are the names before them and `before` is the
number of the last of those. -/
def tokenIssues (n : Naming) (owner : String) (seen : List String) (before : Option Nat) :
    List RuleToken → List Issue
  | [] => []
  | t :: ts =>
    let seen := seen ++ [t.name]
    match resolve n t.name with
    | .error fault => .new fault t.name t.pos :: tokenIssues n owner seen none ts
    | .ok s =>
      let rest := tokenIssues n owner seen (some s) ts
      if s = SymbolTable.errorSymbol ∧ before = some SymbolTable.errorSymbol then
        .new .adjacentErrorTokens (Production.ruleText owner seen) t.pos :: rest
      else rest

/-- The precedence of the last terminal that has one. -/
def inherited? (n : Naming) (precs : List Precedence) (r : Rule) : Option Precedence :=
  (r.tokens.filterMap fun t =>
    ((number? n t.name).filter n.symbols.isTerminal).bind fun _ =>
      Precedence.find? precs t.name).getLast?

def explicit? (precs : List Precedence) (r : Rule) : Option Precedence :=
  if r.precedence = "" then none else Precedence.find? precs r.precedence

def precedenceIssues (precs : List Precedence) (r : Rule) : List Issue :=
  if r.precedence ≠ "" ∧ (explicit? precs r).isNone then
    [.new .undefinedPrecedence r.precedence r.pos]
  else []

def production (n : Naming) (precs : List Precedence) (lhs : Nat) (owner : String) (r : Rule) :
    Production :=
  let prec := (explicit? precs r).or (inherited? n precs r)
  { lhs := lhs
    tokens := r.tokens.map fun t => number? n t.name
    level := (prec.map (·.level)).getD 0
    assoc := (prec.map (·.assoc)).getD r.assoc
    action := r.action
    pos := r.pos
    binary := r.isBinary owner
    text := Production.ruleText owner (r.tokens.map (·.name)) }

def ruleIssues (n : Naming) (precs : List Precedence) (owner : String) (r : Rule) : List Issue :=
  tokenIssues n owner [] none r.tokens ++ precedenceIssues precs r

def startProduction (n : Naming) (g : Grammar) (start : Nat) : Production :=
  let userStart := n.userStart? g
  let name := if userStart.isSome then Naming.startName g else "<undefined>"
  { lhs := start
    tokens := [userStart, some SymbolTable.endSymbol]
    level := 0
    assoc := .left
    action := ""
    pos := .unknown
    binary := false
    text := Production.ruleText (n.symbols.nameOf start) [name, endName] }

def ownedRules (n : Naming) (start : Nat) : List (Nat × String × Rule) :=
  n.owners.toList.zipIdx.flatMap fun (nt, i) => nt.rules.map fun r => (start + 1 + i, nt.name, r)

def ofGrammar (g : Grammar) : Numbering :=
  let (precs, precIssues) := Precedence.declareAll [] g.precedences
  let (n, overflow) := Naming.ofGrammar g
  let issues := precIssues ++ n.issues.toList
  match overflow, n.symbols.start with
  | none, some start =>
    let owned := ownedRules n start
    { naming := n
      precedences := precs
      rules := (startProduction n g start ::
        owned.map fun (lhs, owner, r) => production n precs lhs owner r).toArray
      userStart := n.userStart? g
      issues := issues ++ owned.flatMap fun (_, owner, r) => ruleIssues n precs owner r }
  | some e, _ =>
    { naming := n
      precedences := precs
      rules := #[]
      userStart := none
      issues := issues ++ [.new .tooManySymbols e.message .unknown] }
  | none, none =>
    { naming := n
      precedences := precs
      rules := #[]
      userStart := none
      issues := issues }

def grammar (n : Numbering) : NumberedGrammar where
  rules := n.rules
  terminalCount := n.naming.symbols.terminalCount
  symbolCount := n.naming.symbols.size
  startSymbol := n.naming.symbols.start.getD 0

end Numbering

end ParserTables

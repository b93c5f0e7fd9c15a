import ParserTables.Grammar.Basic
import ParserTables.Item

/-!
Productions: rules over symbol numbers. A token that could not be resolved has no number. The
production with number 0 is the start production; its left-hand side is the augmented start
symbol, which no token refers to.
-/

namespace ParserTables

structure Production where
  lhs : Nat
  tokens : List (Option Nat)
  level : Nat
  assoc : Associativity
  action : String
  pos : Position
  binary : Bool
  text : String
  deriving DecidableEq, Repr

namespace Production

def ruleText (lhs : String) (rhs : List String) : String :=
  lhs ++ " →" ++ (if rhs = [] then " ε" else String.join (rhs.map (" " ++ ·)))

def itemText (lhs : String) (rhs : List String) (phase : Nat) : String :=
  let tokens := rhs.zipIdx.map fun (name, i) => (if i = phase then " ・" else " ") ++ name
  lhs ++ " →" ++ String.join tokens ++ (if phase = rhs.length then " ・" else "")

end Production

/-- A grammar over numbers: symbols below `terminalCount` are terminals, those from there on
below `symbolCount` are nonterminals. -/
structure NumberedGrammar where
  rules : Array Production
  terminalCount : Nat
  symbolCount : Nat
  startSymbol : Nat

namespace NumberedGrammar

def isTerminal (g : NumberedGrammar) (s : Nat) : Bool := s < g.terminalCount

def lhs? (g : NumberedGrammar) (rule : Nat) : Option Nat := (g.rules[rule]?).map (·.lhs)

/-- The token right of the dot. -/
def tokenAt? (g : NumberedGrammar) (a : Item) : Option Nat := do
  let r ← g.rules[a.rule]?
  let token ← r.tokens[a.phase]?
  token

def tokenBefore? (g : NumberedGrammar) (a : Item) : Option Nat :=
  match a.phase with
  | 0 => none
  | p + 1 => g.tokenAt? ⟨a.rule, p⟩

def isFinal (g : NumberedGrammar) (a : Item) : Bool :=
  (g.rules[a.rule]?).any fun r => a.phase = r.tokens.length

def isItem (g : NumberedGrammar) (a : Item) : Bool :=
  (g.rules[a.rule]?).any fun r => a.phase ≤ r.tokens.length

def rulesOf (g : NumberedGrammar) (s : Nat) : List Nat :=
  (List.range g.rules.size).filter fun i => g.lhs? i = some s

def occurrences (g : NumberedGrammar) (s : Nat) : List Item :=
  (List.range g.rules.size).flatMap fun i =>
    ((List.range (((g.rules[i]?).map (·.tokens.length)).getD 0)).map fun p => Item.mk i p).filter
      fun a => g.tokenAt? a = some s

def itemCount (g : NumberedGrammar) : Nat :=
  g.rules.toList.foldr (fun r count => r.tokens.length + 1 + count) 0

end NumberedGrammar

end ParserTables

import ParserTables.Automaton.Reach
import ParserTables.Numbering.Production

/-!
The closure of a set of items, and what it offers: where each symbol leads, and which rules are
complete. The closure has, besides the items themselves, the rules of every nonterminal that can
come right after a dot, with the dot at their beginning.
-/

namespace ParserTables.NumberedGrammar

def nonterminalAt? (g : NumberedGrammar) (a : Item) : Option Nat :=
  (g.tokenAt? a).filter fun s => !g.isTerminal s

/-- The rules of a nonterminal with the dot at their beginning. -/
def spawned (g : NumberedGrammar) (s : Nat) : List Item :=
  (g.rulesOf s).map fun r => ⟨r, 0⟩

/-- The nonterminals that begin the rules of a nonterminal. -/
def leads (g : NumberedGrammar) (s : Nat) : List Nat :=
  (g.spawned s).filterMap g.nonterminalAt?

def closure (g : NumberedGrammar) (as : List Item) : List Item :=
  as ++ (reach g.symbolCount g.leads (as.filterMap g.nonterminalAt?)).flatMap g.spawned

def goto (g : NumberedGrammar) (as : List Item) (s : Nat) : ItemSet :=
  ItemSet.ofList ((as.filter fun a => g.tokenAt? a = some s).map Item.advance)

def finals (g : NumberedGrammar) (as : List Item) : ItemSet :=
  ItemSet.ofList (as.filter g.isFinal)

def shiftable (g : NumberedGrammar) (as : List Item) : List Nat :=
  (List.range g.terminalCount).filter fun t => as.any fun a => g.tokenAt? a = some t

def nonterminals (g : NumberedGrammar) : List Nat :=
  (List.range (g.symbolCount - g.terminalCount)).map (g.terminalCount + ·)

end ParserTables.NumberedGrammar

import Std.Data.TreeMap
import ParserTables.Automaton.State

/-!
The transitions of a set of items, gathered in one walk through its closure. An item gives its
transition at once; before a nonterminal the walk goes on with the rules of the nonterminal. It is
cut short where a rule was entered before, and where the push of an item is there already.
-/

namespace ParserTables

def Transition.insert (t : Transition) (a : Item) : Transition :=
  { t with target := t.target.insert a }

/-- The transition with one more item in its target; it begins with the given action. -/
def Transition.put (a : Item) (action : Action) (t : Option Transition) : Transition :=
  (t.getD ⟨action, ItemSet.empty⟩).insert a

structure Gathered where
  terminals : Std.TreeMap Nat Transition
  nonterminals : Std.TreeMap Nat Transition
  fallback : Option Transition
  /-- The rules that were entered, with the dot at their beginning. -/
  visited : ItemSet

namespace Gathered

def empty : Gathered := ⟨∅, ∅, none, ItemSet.empty⟩

def shift (s : Gathered) (x : Nat) (a : Item) : Gathered :=
  { s with terminals := s.terminals.insert x (Transition.put a .shift s.terminals[x]?) }

def push (s : Gathered) (x : Nat) (a : Item) : Gathered :=
  { s with nonterminals := s.nonterminals.insert x (Transition.put a .push s.nonterminals[x]?) }

/-- The action is that of the item that was complete first. -/
def complete (s : Gathered) (action : Action) (a : Item) : Gathered :=
  { s with fallback := some (Transition.put a action s.fallback) }

def visit (s : Gathered) (a : Item) : Gathered := { s with visited := s.visited.insert a }

def pushes (s : Gathered) (x : Nat) (a : Item) : Bool :=
  (s.nonterminals[x]?).any fun t => decide (a ∈ t.target)

end Gathered

namespace NumberedGrammar

def pushAll (g : NumberedGrammar) (bs : List Item) (s : Gathered) : Gathered :=
  bs.foldl (fun s b => match g.nonterminalAt? b with
    | some x => s.push x b.advance
    | none => s) s

/-- Gathers the transitions of an item and, before a nonterminal, those of its rules. The walk
enters a new rule with every step down, so it goes no deeper than there are rules. -/
def gatherFrom (g : NumberedGrammar) : Nat → Item → Gathered → Gathered
  | 0, _, s => s
  | n + 1, a, s =>
    if g.isFinal a then s.complete (g.reduction a).action a
    else match g.tokenAt? a with
      | none => s
      | some x =>
        if g.isTerminal x then s.shift x a.advance
        else if s.pushes x a.advance then s
        else
          let entered := (g.spawned x).foldl (fun s b =>
            if b ∈ s.visited then s else gatherFrom g n b (s.visit b)) (s.push x a.advance)
          g.pushAll (g.spawned x) entered

def gather (g : NumberedGrammar) (k : ItemSet) : Gathered :=
  k.items.foldl (fun s a => g.gatherFrom (g.rules.size + 1) a s) .empty

end NumberedGrammar

end ParserTables

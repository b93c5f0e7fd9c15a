import ParserTables.Automaton.Closure

/-!
The terminals that can come after a reduction. They are looked for one token past the places
where the left-hand side occurs; an occurrence at the end of a rule stands for the occurrences of
that rule's own left-hand side.
-/

namespace ParserTables.NumberedGrammar

/-- The left-hand sides of the rules that end with `s`. -/
def endedBy (g : NumberedGrammar) (s : Nat) : List Nat :=
  ((g.occurrences s).map Item.advance).filterMap fun a =>
    if g.isFinal a then g.lhs? a.rule else none

/-- The items right after an occurrence of `s` that is not at the end of its rule. -/
def after (g : NumberedGrammar) (s : Nat) : List Item :=
  ((g.occurrences s).map Item.advance).filter fun a => !g.isFinal a

def contexts (g : NumberedGrammar) (s : Nat) : List Item :=
  (reach g.symbolCount g.endedBy [s]).flatMap g.after

def follow (g : NumberedGrammar) (s : Nat) : List Nat :=
  g.shiftable (g.closure (g.contexts s))

def followOf (g : NumberedGrammar) (a : Item) : List Nat :=
  match g.lhs? a.rule with
  | some s => g.follow s
  | none => []

end ParserTables.NumberedGrammar

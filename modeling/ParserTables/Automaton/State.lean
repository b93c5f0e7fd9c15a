import ParserTables.Automaton.Follow
import ParserTables.Automaton.Transition
import ParserTables.Symbol
import ParserTables.Numbering.Fault

/-!
The states of the automaton. A state is built from its kernel in three passes over what the
closure of the kernel offers on each terminal.

First, a state that has just moved over the error symbol, and does not shift it again, throws
away the tokens that it cannot act on. Second, where several rules are complete, or one is and
the state acts on the error symbol, each is reduced on the terminals that can follow it; the
first of several wins, a transition that was there loses to it unless the state acts on the error
symbol. The last complete rule stays the default, except in a state that acts on the error
symbol. Third, a shift that competes with the default is kept or dropped by precedence and
associativity.
-/

namespace ParserTables

structure State where
  kernel : ItemSet
  terminals : List (Nat × Transition)
  fallback : Option Transition
  nonterminals : List (Nat × Transition)
  conflicts : List (Nat × Transition)
  shiftReduce : Nat
  reduceReduce : Nat
  undecided : List (Nat × Fault)

/-- What the closure of a kernel offers, and what the passes need to know of all terminals. -/
structure Offer where
  items : List Item
  finals : List Item
  /-- The complete items with the terminals that can follow their rules. -/
  followed : List (Item × List Nat)
  throws : Bool
  actsOnError : Bool

namespace NumberedGrammar

def reduction (g : NumberedGrammar) (a : Item) : Transition :=
  ⟨if g.lhs? a.rule = some g.startSymbol then .accept else .reduce, ItemSet.ofList [a]⟩

def level (g : NumberedGrammar) (a : Item) : Nat := ((g.rules[a.rule]?).map (·.level)).getD 0

def assoc (g : NumberedGrammar) (a : Item) : Associativity :=
  ((g.rules[a.rule]?).map (·.assoc)).getD .left

def isBinary (g : NumberedGrammar) (a : Item) : Bool := (g.rules[a.rule]?).any (·.binary)

def afterError (g : NumberedGrammar) (kernel : ItemSet) : Bool :=
  kernel.items.any fun a => g.tokenBefore? a = some SymbolTable.errorSymbol

/-- Whether the complete rules are reduced on the terminals that follow them. -/
def splits (finals : List Item) (actsOnError : Bool) : Bool :=
  2 ≤ finals.length || (finals.length = 1 && actsOnError)

def offer (g : NumberedGrammar) (kernel : ItemSet) : Offer :=
  let items := g.closure kernel.items
  let finals := (g.finals items).items
  let shiftsError := !(g.goto items SymbolTable.errorSymbol).isEmpty
  let throws := !shiftsError && g.afterError kernel
  let actsOnError := shiftsError || throws
  { items
    finals
    followed := if splits finals actsOnError then finals.map fun a => (a, g.followOf a) else []
    throws
    actsOnError }

/-- The transition on a terminal before any reduction is considered. -/
def offered (g : NumberedGrammar) (o : Offer) (t : Nat) : Option Transition :=
  let target := g.goto o.items t
  if !target.isEmpty then some ⟨.shift, target⟩
  else if t = SymbolTable.errorSymbol && o.throws then some ⟨.throwAway, ItemSet.empty⟩
  else none

def candidates (o : Offer) (t : Nat) : List Item :=
  (o.followed.filter fun c => c.2.contains t).map (·.1)

def fallbackItem? (o : Offer) : Option Item :=
  if splits o.finals o.actsOnError && o.actsOnError then none else o.finals.getLast?

inductive Verdict where
  | keep
  | drop
  | fault (f : Fault)
  deriving DecidableEq, Repr

/-- Decides between the default reduction by the rule of `d` and a shift of the rules of `cs`. -/
def verdict (g : NumberedGrammar) (d : Item) (cs : List Item) : Verdict :=
  match cs with
  | [] => .keep
  | c :: others =>
    let order (a : Item) : Ordering := compare (g.level a) (g.level d)
    if !others.all fun a => order a = order c then .fault .levelMismatch
    else match order c with
      | .lt => .drop
      | .gt => .keep
      | .eq =>
        if !(g.isBinary c && g.isBinary d) then .keep
        else if !others.all fun a => g.assoc a = g.assoc c then .fault .assocMismatch
        else match g.assoc c with
          | .left => .drop
          | .nonassoc => if g.assoc d = .nonassoc then .fault .nonassocNesting else .keep
          | _ => .keep

structure Decision where
  terminal : Nat
  transition : Option Transition
  losers : List Transition
  shiftReduce : Bool
  reduceReduce : Bool
  fault : Option Fault

def settle (g : NumberedGrammar) (o : Offer) (kept : Option Transition) :
    Option Transition × Option Fault :=
  match kept, fallbackItem? o with
  | some ⟨.shift, target⟩, some d =>
    match g.verdict d target.items with
    | .keep => (some ⟨.shift, target⟩, none)
    | .drop => (none, none)
    | .fault f => (some ⟨.shift, target⟩, some f)
  | kept, _ => (kept, none)

def decision (g : NumberedGrammar) (o : Offer) (t : Nat) : Decision :=
  let before := g.offered o t
  match candidates o t with
  | [] =>
    let (transition, fault) := g.settle o before
    ⟨t, transition, [], false, false, fault⟩
  | c :: others =>
    let reduce := g.reduction c
    let losers := others.map g.reduction
    let (kept, lost) : Transition × List Transition := match before with
      | none => (reduce, [])
      | some old => if o.actsOnError then (old, [reduce]) else (reduce, [old])
    let (transition, fault) := g.settle o (some kept)
    ⟨t, transition, losers ++ lost, before.isSome, !others.isEmpty, fault⟩

def pushes (g : NumberedGrammar) (items : List Item) : List (Nat × Transition) :=
  g.nonterminals.filterMap fun s =>
    let target := g.goto items s
    if target.isEmpty then none else some (s, ⟨.push, target⟩)

def state (g : NumberedGrammar) (kernel : ItemSet) : State :=
  let o := g.offer kernel
  let decisions := (List.range g.terminalCount).map (g.decision o)
  { kernel
    terminals := decisions.filterMap fun d => d.transition.map fun t => (d.terminal, t)
    fallback := (fallbackItem? o).map g.reduction
    nonterminals := g.pushes o.items
    conflicts := decisions.flatMap fun d => d.losers.map fun t => (d.terminal, t)
    shiftReduce := decisions.countP (·.shiftReduce)
    reduceReduce := decisions.countP (·.reduceReduce)
    undecided := decisions.filterMap fun d => d.fault.map fun f => (d.terminal, f) }

end NumberedGrammar

namespace State

def onTerminal? (s : State) (t : Nat) : Option Transition := s.terminals.lookup t

def onNonterminal? (s : State) (nt : Nat) : Option Transition := s.nonterminals.lookup nt

def successors (s : State) : List ItemSet :=
  (s.terminals.filterMap fun (_, t) => if t.action = .shift then some t.target else none)
    ++ s.nonterminals.map fun (_, t) => t.target

end State

end ParserTables

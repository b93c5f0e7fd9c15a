import ParserTables.Automaton.State
import ParserTables.Numbering.Basic

/-!
The automaton of a grammar. Its states are built in the order in which their kernels are
discovered, starting from the start production with the dot at its beginning; each kernel is
built once.
-/

namespace ParserTables

namespace NumberedGrammar

def newKernels (known : List ItemSet) : List ItemSet → List ItemSet
  | [] => []
  | k :: ks =>
    if k ∈ known then newKernels known ks else k :: newKernels (known ++ [k]) ks

/-- Builds the states of the queued kernels and of those discovered from them, behind the states
built already. -/
def explore (g : NumberedGrammar) : Nat → List State → List ItemSet → List State
  | 0, built, _ => built
  | _ + 1, built, [] => built
  | n + 1, built, k :: queue =>
    let s := g.state k
    let known := built.map (·.kernel) ++ k :: queue
    explore g n (built ++ [s]) (queue ++ newKernels known s.successors)

/-- A kernel is a set of items, so there are no more kernels than this. -/
def kernelBound (g : NumberedGrammar) : Nat := Nat.pow 2 g.itemCount

def initialKernel : ItemSet := ItemSet.ofList [⟨0, 0⟩]

def states (g : NumberedGrammar) : List State := g.explore g.kernelBound [] [initialKernel]

end NumberedGrammar

structure Automaton where
  numbering : Numbering
  states : Array State

namespace Automaton

/-- The states are left out when the grammar has no proper start symbol. -/
def generate (g : Grammar) : Automaton :=
  let numbering := Numbering.ofGrammar g
  ⟨numbering, if numbering.userStart.isSome then numbering.grammar.states.toArray else #[]⟩

def grammar (m : Automaton) : NumberedGrammar := m.numbering.grammar

def symbols (m : Automaton) : SymbolTable := m.numbering.naming.symbols

def rules (m : Automaton) : Array Production := m.numbering.rules

def tokenDecl? (m : Automaton) (id : Nat) : Option TokenDecl :=
  m.numbering.naming.tokenDecl? id

def shiftReduce (m : Automaton) : Nat :=
  m.states.toList.foldr (fun s count => s.shiftReduce + count) 0

def reduceReduce (m : Automaton) : Nat :=
  m.states.toList.foldr (fun s count => s.reduceReduce + count) 0

def hasConflicts (m : Automaton) : Bool := 0 < m.shiftReduce || 0 < m.reduceReduce

def undecidedIssue (m : Automaton) (index : Nat) (s : State) (t : Nat) (f : Fault) : Issue :=
  let rule := do m.rules[(← (← s.fallback).target.first?).rule]?
  let text := (rule.map (·.text)).getD ""
  let pos := (rule.map (·.pos)).getD .unknown
  .new f s!"state {index}, terminal {m.symbols.nameOf t}, rule {text}" pos

def issues (m : Automaton) : List Issue :=
  m.numbering.issues ++ m.states.toList.zipIdx.flatMap fun (s, i) =>
    s.undecided.map fun (t, f) => m.undecidedIssue i s t f

def hasIssues (m : Automaton) : Bool := !m.issues.isEmpty

def stateIndex? (m : Automaton) (kernel : ItemSet) : Option Nat :=
  m.states.findIdx? (·.kernel = kernel)

end Automaton

end ParserTables

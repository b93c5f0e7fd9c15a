import ParserTables.Lexer.Machine
import ParserTables.Lexer.Network

/-!
Machines made from patterns. The states are the sets of nodes that reading can lead to, numbered
from one in the order in which they are found, and the rows of their entries are laid one behind
the other without the empty places at their ends.
-/

namespace ParserTables

namespace Machine

structure Edge where
  low : Nat
  high : Nat
  target : Nat
  deriving DecidableEq, Repr

structure Reader where
  low : Nat
  high : Nat
  next : Nat
  deriving DecidableEq, Repr

def readerOf? (net : Network) (n : Nat) : Option Reader :=
  match net[n]? with
  | some (.byte low high next) => some ⟨low.toNat, high.toNat, next⟩
  | _ => none

def kindOf? (net : Network) (n : Nat) : Option Nat :=
  match net[n]? with
  | some (.done kind) => some kind
  | _ => none

/-- States found so far, and the rows of those that have been visited, last first. A state is
looked up among those with the same first node. -/
structure Draft where
  states : Array (List Nat)
  known : Array (List (List Nat × Nat))
  rows : List (List Edge)

namespace Draft

def number (d : Draft) (nodes : List Nat) : Draft × Nat :=
  let first := nodes.headD 0
  match ((d.known[first]?).getD []).lookup nodes with
  | some n => (d, n)
  | none =>
    let n := d.states.size + 1
    ({ d with states := d.states.push nodes, known := d.known.modify first ((nodes, n) :: ·) }, n)

def cuts (readers : List Reader) : List Nat :=
  let put (n : Nat) (cs : List Nat) : List Nat := (Network.insert? n cs).getD cs
  readers.foldl (fun cs r => if r.low ≤ r.high then put r.low (put (r.high + 1) cs) else cs) []

def spans : List Nat → List (Nat × Nat)
  | a :: b :: rest => (a, b - 1) :: spans (b :: rest)
  | _ => []

/-- The edges of a state on ranges of bytes that its readers do not tell apart. -/
def edges (net : Network) (readers : List Reader) :
    List (Nat × Nat) → Draft → Draft × List Edge
  | [], d => (d, [])
  | (low, high) :: rest, d =>
    match readers.filter fun r => r.low ≤ low && low ≤ r.high with
    | [] => edges net readers rest d
    | taken =>
      let (d, target) := d.number (net.reach (taken.map (·.next)))
      let (d, more) := edges net readers rest d
      (d, ⟨low, high, target⟩ :: more)

def visit (net : Network) (d : Draft) (nodes : List Nat) : Draft :=
  let readers := nodes.filterMap (readerOf? net)
  let (d, row) := edges net readers (spans (cuts readers)) d
  { d with rows := row :: d.rows }

def explore (net : Network) : Nat → Nat → Draft → Draft
  | 0, _, d => d
  | rounds + 1, i, d =>
    match d.states[i]? with
    | none => d
    | some nodes => explore net rounds (i + 1) (d.visit net nodes)

/-- All states. There are no more of them than sets of nodes. -/
def ofNetwork (net : Network) (starts : List Nat) : Draft :=
  let empty : Draft := ⟨#[], Array.replicate net.size [], []⟩
  explore net (Nat.pow 2 net.size) 0 (empty.number (net.reach starts)).1

end Draft

structure Layout where
  slots : List (Int × Int)
  used : Nat
  offsets : List Int

namespace Layout

def vacant : Int × Int := (-1, 0)

def placeEdge (row offset : Nat) (l : Layout) (e : Edge) : Layout :=
  let gap := List.replicate (offset + e.low - l.used) vacant
  let entries := List.replicate (e.high + 1 - e.low) ((row : Int), (e.target : Int))
  { l with slots := entries ++ gap ++ l.slots, used := offset + e.high + 1 }

/-- A row begins so that its first entry comes behind all the entries so far, if it can. -/
def placeRow (l : Layout) (r : List Edge × Nat) : Layout :=
  let offset := match r.1 with
    | [] => 0
    | e :: _ => l.used - e.low
  let l := r.1.foldl (placeEdge r.2 offset) l
  { l with offsets := (offset : Int) :: l.offsets }

def ofRows (rows : List (List Edge)) : DisplacedRows :=
  let l := rows.zipIdx.foldl placeRow ⟨[], 0, []⟩
  let slots := (List.replicate byteCount vacant ++ l.slots).reverse
  { offsets := .ofArray l.offsets.reverse.toArray
    owners := .ofArray (slots.map (·.1)).toArray
    targets := .ofArray (slots.map (·.2)).toArray }

end Layout

def acceptedKind (net : Network) (nodes : List Nat) : Nat :=
  ((nodes.filterMap (kindOf? net)).min?).getD 0

/-- A machine that follows all the patterns at once; their kinds are numbered from one. -/
def ofPatterns (ps : List Pattern) : Machine :=
  let (net, starts) := Network.ofPatterns ps
  let d := Draft.ofNetwork net starts
  let accepted := d.states.toList.map fun nodes => (acceptedKind net nodes : Int)
  let rows := [] :: d.rows.reverse
  { start := 1
    accepted := .ofArray (0 :: accepted).toArray
    columns := byteCount
    targets := .empty
    shared := some
      { columns := byteCount
        rowOf := numbersBelow rows.length
        targets := .empty
        displaced := some (Layout.ofRows rows) } }

end Machine

end ParserTables

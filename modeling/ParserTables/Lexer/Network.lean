import ParserTables.Lexer.Encoding

/-!
Networks for patterns. A node reads one byte of a range and leads on to another node, forks, or
tells that a pattern has been matched. The nodes of a pattern are laid out from its end to its
start, so that every node is told where to lead; only a repetition leads back.
-/

namespace ParserTables

inductive Node where
  | byte (low high : UInt8) (next : Nat)
  | fork (left right : Nat)
  | done (kind : Nat)
  deriving DecidableEq, Repr

abbrev Network := Array Node

namespace Network

def deadEnd (next : Nat) : Node := .byte 1 0 next

def add (net : Network) (n : Node) : Network × Nat :=
  let number := net.size
  (net.push n, number)

def addBytes (next : Nat) : List (UInt8 × UInt8) → Network → Network × Nat
  | [], net => (net, next)
  | (low, high) :: rest, net =>
    let (net, after) := addBytes next rest net
    net.add (.byte low high after)

def addAnyOf (next : Nat) : List (List (UInt8 × UInt8)) → Network → Network × Nat
  | [], net => net.add (deadEnd next)
  | [bytes], net => addBytes next bytes net
  | bytes :: rest, net =>
    let (net, left) := addBytes next bytes net
    let (net, right) := addAnyOf next rest net
    net.add (.fork left right)

/-- A pattern that leads to `next`; the number is that of the node it starts with. -/
def addPattern : Pattern → Nat → Network → Network × Nat
  | .range a b, next, net => addAnyOf next (Encoding.byteRanges a b) net
  | .concat l r, next, net =>
    let (net, next) := addPattern r next net
    addPattern l next net
  | .either l r, next, net =>
    let (net, left) := addPattern l next net
    let (net, right) := addPattern r next net
    net.add (.fork left right)
  | .star p, next, net =>
    let again := net.size
    let (net, start) := addPattern p again (net.push (deadEnd next))
    (net.setIfInBounds again (.fork start next), again)
  | .plus p, next, net =>
    let again := net.size
    let (net, start) := addPattern p again (net.push (deadEnd next))
    (net.setIfInBounds again (.fork start next), start)
  | .opt p, next, net =>
    let (net, start) := addPattern p next net
    net.add (.fork start next)
  | .fragment _, next, net => net.add (deadEnd next)

def addPatterns : Nat → List Pattern → Network → Network × List Nat
  | _, [], net => (net, [])
  | kind, p :: ps, net =>
    let (net, last) := net.add (.done kind)
    let (net, start) := addPattern p last net
    let (net, starts) := addPatterns (kind + 1) ps net
    (net, start :: starts)

def ofPatterns (ps : List Pattern) : Network × List Nat := addPatterns 1 ps #[]

def insert? (n : Nat) : List Nat → Option (List Nat)
  | [] => some [n]
  | m :: ms =>
    if n < m then some (n :: m :: ms)
    else if n = m then none
    else (insert? n ms).map (m :: ·)

/-- Follows forks. Every node of the network is taken up once at most, so as many rounds as there
are nodes and ends of forks are enough. -/
def follow (net : Network) : Nat → List Nat → List Nat → List Nat
  | 0, _, seen => seen
  | _ + 1, [], seen => seen
  | rounds + 1, n :: todo, seen =>
    match insert? n seen with
    | none => follow net rounds todo seen
    | some seen =>
      match net[n]? with
      | some (.fork l r) => follow net rounds (l :: r :: todo) seen
      | _ => follow net rounds todo seen

def isFork (net : Network) (n : Nat) : Bool :=
  match net[n]? with
  | some (.fork _ _) => true
  | _ => false

def reach (net : Network) (ns : List Nat) : List Nat :=
  (net.follow (ns.length + 2 * net.size + 1) ns []).filter (!net.isFork ·)

end Network

end ParserTables

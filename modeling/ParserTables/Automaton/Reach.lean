/-!
What can be reached from some points along a relation given by lists of successors. Each step
adds one point that was not seen before, so as many steps as there are points are enough.
-/

namespace ParserTables

def reachFrom (next : Nat → List Nat) : Nat → List Nat → List Nat → List Nat
  | 0, seen, _ => seen
  | k + 1, seen, todo =>
    match todo.dropWhile (seen.contains ·) with
    | [] => seen
    | a :: rest => reachFrom next k (seen ++ [a]) (next a ++ rest)

def reach (bound : Nat) (next : Nat → List Nat) (starts : List Nat) : List Nat :=
  reachFrom next bound [] starts

end ParserTables

import ParserTables.Text.Bytes

/-!
The distance of two texts: the least number of bytes to insert, delete or replace to get from one
to the other.
-/

namespace ParserTables.Text

/-- A row of the table of distances from the row above it: `left` is the distance before the
place to be filled, `above` the one over `left`. -/
def distanceRow (b : UInt8) (left above : Nat) : Bytes → List Nat → List Nat
  | c :: cs, up :: row =>
    let d := if b = c then above else min (min up left) above + 1
    d :: distanceRow b d up cs row
  | _, _ => []

def nextRow (target : Bytes) (row : List Nat) (b : UInt8) : List Nat :=
  match row with
  | [] => []
  | d :: rest => (d + 1) :: distanceRow b (d + 1) d target rest

def distance (source target : Bytes) : Nat :=
  (source.foldl (nextRow target) (List.range (target.length + 1))).getLastD 0

end ParserTables.Text

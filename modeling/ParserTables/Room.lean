/-!
Rooms for lists that grow an element at a time. A full room is left for the next larger one: small
rooms come in fixed sizes, and large ones grow by a quarter and a little more, in blocks of 1024
places.
-/

namespace ParserTables

namespace Room

def numbers : List Nat :=
  [1, 2, 4, 8, 16, 32, 64, 128, 256, 512, 848, 1280, 1792, 2560, 3408]

/-- The sizes of small rooms for records. From the eighth on a place is taken by the room itself. -/
def records : List Nat :=
  [1, 2, 4, 8, 16, 32, 64, 143, 287, 607, 1023, 1535, 2303, 3071, 4095]

def next (small : List Nat) (room : Nat) : Nat :=
  match small.find? (room < ·) with
  | some size => size
  | none => (room + (room + 768) / 4 + 1023) / 1024 * 1024

end Room

end ParserTables

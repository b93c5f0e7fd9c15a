import ParserTables.Lexer.Pattern

/-!
Ranges of code points as ranges of bytes. A range is cut where the lengths or the allowed lead
bytes of its UTF-8 forms change; each piece stands for the byte strings that lie, byte by byte,
between the forms of its ends.
-/

namespace ParserTables

namespace Encoding

def cuts : List Nat := [0x7F, 0x7FF, 0xFFF, 0xCFFF, 0xD7FF, 0xFFFF, 0x3FFFF, 0xFFFFF]

/-- Cuts a range from the left, passing over the surrogates. -/
def pieces (low high : Nat) : List Nat → List (Nat × Nat)
  | [] => if low ≤ high then [(low, high)] else []
  | cut :: rest =>
    if high < low then []
    else if low ≤ cut ∧ cut < high then
      (low, cut) :: pieces (if cut = 0xD7FF then 0xE000 else cut + 1) high rest
    else pieces low high rest

def utf8 (n : Nat) : Bytes := Bytes.ofString (Char.ofNat n).toString

def byteRanges (low high : Nat) : List (List (UInt8 × UInt8)) :=
  (pieces low high cuts).map fun (a, b) => (utf8 a).zip (utf8 b)

/-- The number of bytes that a pattern has, with what may come more than once written out. -/
def positions : Pattern → Nat
  | .range a b => (pieces a b cuts).foldr (fun (low, _) n => (utf8 low).length + n) 0
  | .concat l r => positions l + positions r
  | .either l r => positions l + positions r
  | .star p => positions p
  | .plus p => 2 * positions p
  | .opt p => positions p
  | .fragment _ => 0

end Encoding

end ParserTables

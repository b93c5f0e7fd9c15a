/-!
Source texts and lexemes are bytes. Decoding never fails: a byte that does not belong to a
well-formed UTF-8 sequence is kept as a stray byte of its own.
-/

namespace ParserTables

abbrev Bytes := List UInt8

namespace Bytes

def ofString (s : String) : Bytes := s.toUTF8.data.toList

inductive Piece where
  | char (c : Char)
  | stray (b : UInt8)
  deriving DecidableEq, Repr

/-- What stands at the head of `b :: rest`, and how many bytes of `rest` belong to it. -/
def leading (b : UInt8) (rest : Bytes) : Piece × Nat :=
  let tail (c : UInt8) : Bool := 0x80 ≤ c && c ≤ 0xBF
  let low (c : UInt8) : Nat := c.toNat % 64
  if b < 0x80 then (.char (Char.ofNat b.toNat), 0)
  else if b < 0xC2 then (.stray b, 0)
  else if b < 0xE0 then
    match rest with
    | c :: _ =>
      if tail c then (.char (Char.ofNat (b.toNat % 32 * 64 + low c)), 1) else (.stray b, 0)
    | [] => (.stray b, 0)
  else if b < 0xF0 then
    match rest with
    | c :: d :: _ =>
      let least : UInt8 := if b = 0xE0 then 0xA0 else 0x80
      let greatest : UInt8 := if b = 0xED then 0x9F else 0xBF
      if least ≤ c && c ≤ greatest && tail d then
        (.char (Char.ofNat (b.toNat % 16 * 4096 + low c * 64 + low d)), 2)
      else (.stray b, 0)
    | _ => (.stray b, 0)
  else if b < 0xF5 then
    match rest with
    | c :: d :: e :: _ =>
      let least : UInt8 := if b = 0xF0 then 0x90 else 0x80
      let greatest : UInt8 := if b = 0xF4 then 0x8F else 0xBF
      if least ≤ c && c ≤ greatest && tail d && tail e then
        (.char (Char.ofNat (b.toNat % 8 * 262144 + low c * 4096 + low d * 64 + low e)), 3)
      else (.stray b, 0)
    | _ => (.stray b, 0)
  else (.stray b, 0)

/-- Decodes after skipping the given number of bytes that an earlier piece has used. -/
def decodeFrom : Nat → Bytes → List Piece
  | _, [] => []
  | k + 1, _ :: rest => decodeFrom k rest
  | 0, b :: rest =>
    let (piece, used) := leading b rest
    piece :: decodeFrom used rest

def decode (bs : Bytes) : List Piece := decodeFrom 0 bs

def Piece.toChar : Piece → Char
  | .char c => c
  | .stray _ => '\uFFFD'

def Piece.char? : Piece → Option Char
  | .char c => some c
  | .stray _ => none

def toText (bs : Bytes) : String := String.ofList (bs.decode.map Piece.toChar)

def text? (bs : Bytes) : Option String := (bs.decode.mapM Piece.char?).map String.ofList

def hexDigit (n : Nat) : Char :=
  if n < 10 then Char.ofNat (48 + n) else Char.ofNat (87 + n)

/-- The given number of hexadecimal digits of `n`, in front of `after`. -/
def hexDigits : Nat → Nat → List Char → List Char
  | 0, _, after => after
  | width + 1, n, after => hexDigits width (n / 16) (hexDigit (n % 16) :: after)

def hexPadded (width n : Nat) : String :=
  String.ofList (hexDigits width n [])

def toHex (bs : Bytes) : String := String.join (bs.map fun b => hexPadded 2 b.toNat)

def hexValue? (c : Char) : Option Nat :=
  if '0' ≤ c ∧ c ≤ '9' then some (c.toNat - 48)
  else if 'a' ≤ c ∧ c ≤ 'f' then some (c.toNat - 87)
  else if 'A' ≤ c ∧ c ≤ 'F' then some (c.toNat - 55)
  else none

def ofHex? : List Char → Option Bytes
  | [] => some []
  | [_] => none
  | a :: b :: rest => do
    let hi ← hexValue? a
    let lo ← hexValue? b
    let bs ← ofHex? rest
    return UInt8.ofNat (hi * 16 + lo) :: bs

end Bytes

end ParserTables

import ParserTables.Text.Bytes

/-!
Markup in texts for a terminal. A tag is a name, or settings with commas and semicolons, between
angle brackets; `</>` ends what a tag began, and without it nothing in a text is a tag. A colour
code is an escape character and numbers between `[` and `m`.
-/

namespace ParserTables.Text

def isTagByte (b : UInt8) : Bool :=
  (0x61 ≤ b && b ≤ 0x7A) || (0x41 ≤ b && b ≤ 0x5A) || b = 0x5F || b = 0x3D || b = 0x2C || b = 0x3B

def tagLength? (bs : Bytes) : Option Nat :=
  let slash := if bs.head? = some 0x2F then 1 else 0
  let body := bs.drop slash
  let name := body.takeWhile isTagByte
  if body[name.length]? = some 0x3E then some (slash + name.length + 1) else none

def isCodeByte (b : UInt8) : Bool := (0x30 ≤ b && b ≤ 0x39) || b = 0x3B || b = 0x3F

def codeLength? : Bytes → Option Nat
  | 0x5B :: bs =>
    let numbers := bs.takeWhile isCodeByte
    if numbers ≠ [] ∧ bs[numbers.length]? = some 0x6D then some (numbers.length + 2) else none
  | _ => none

/-- Leaves out what begins with `mark` and goes on for the length found, after skipping the given
number of bytes that are left out already. -/
def removeFrom (mark : UInt8) (length? : Bytes → Option Nat) : Nat → Bytes → Bytes
  | _, [] => []
  | k + 1, _ :: bs => removeFrom mark length? k bs
  | 0, b :: bs =>
    if b = mark then
      match length? bs with
      | some k => removeFrom mark length? k bs
      | none => b :: removeFrom mark length? 0 bs
    else b :: removeFrom mark length? 0 bs

def removeTags (bs : Bytes) : Bytes := removeFrom 0x3C tagLength? 0 bs

def removeCodes (bs : Bytes) : Bytes := removeFrom 0x1B codeLength? 0 bs

def hasEndTag : Bytes → Bool
  | 0x3C :: 0x2F :: 0x3E :: _ => true
  | _ :: bs => hasEndTag bs
  | [] => false

/-- A text without its tags. What stood around one may come together as a new tag, which stays. -/
def stripTags (bs : Bytes) : Bytes := if hasEndTag bs then removeTags bs else bs

def stripTagsTimes : Nat → Bytes → Bytes
  | 0, bs => bs
  | n + 1, bs => stripTagsTimes n (stripTags bs)

def stripMarkup (bs : Bytes) : Bytes := removeCodes (stripTags bs)

end ParserTables.Text

import ParserTables.Text.Bytes
import ParserTables.Word

/-!
JSON values and their reader. Members stay in the order of the text, repeated names included,
and a number keeps its spelling. The reader takes the first value of a text and ignores what
follows it.
-/

namespace ParserTables

inductive Json where
  | null
  | bool (value : Bool)
  | num (literal : String)
  | str (text : String)
  | arr (elements : List Json)
  | obj (members : List (String × Json))
  deriving Inhabited

namespace Json

inductive ReadError where
  | empty
  | unexpectedEnd
  | malformed
  deriving DecidableEq, Repr

def maxDepth : Nat := 10000

def isBlank (b : UInt8) : Bool := b = 0x20 || b = 0x09 || b = 0x0A || b = 0x0D

def skipBlank (bs : Bytes) : Bytes := bs.dropWhile isBlank

def isDigit (b : UInt8) : Bool := 0x30 ≤ b && b ≤ 0x39

def expect : Bytes → Bytes → Except ReadError Bytes
  | [], rest => .ok rest
  | _ :: _, [] => .error .unexpectedEnd
  | w :: word, b :: rest => if w = b then expect word rest else .error .malformed

def digits (bs : Bytes) : Except ReadError (Bytes × Bytes) :=
  match bs with
  | [] => .error .unexpectedEnd
  | b :: _ => if isDigit b then .ok (bs.span isDigit) else .error .malformed

def integerPart : Bytes → Except ReadError (Bytes × Bytes)
  | 0x30 :: rest => .ok ([0x30], rest)
  | bs => digits bs

def fractionPart : Bytes → Except ReadError (Bytes × Bytes)
  | 0x2E :: rest => do
    let (ds, rest) ← digits rest
    return (0x2E :: ds, rest)
  | bs => .ok ([], bs)

def exponentPart : Bytes → Except ReadError (Bytes × Bytes)
  | b :: rest =>
    if b = 0x65 || b = 0x45 then
      let (sign, rest) : Bytes × Bytes := match rest with
        | c :: more => if c = 0x2B || c = 0x2D then ([c], more) else ([], rest)
        | [] => ([], rest)
      (digits rest).map fun (ds, rest) => (b :: sign ++ ds, rest)
    else .ok ([], b :: rest)
  | [] => .ok ([], [])

def number (bs : Bytes) : Except ReadError (Json × Bytes) := do
  let (sign, rest) : Bytes × Bytes := match bs with
    | 0x2D :: more => ([0x2D], more)
    | _ => ([], bs)
  let (whole, rest) ← integerPart rest
  let (fraction, rest) ← fractionPart rest
  let (exponent, rest) ← exponentPart rest
  return (.num (Bytes.toText (sign ++ whole ++ fraction ++ exponent)), rest)

/-- What a string is made of: raw bytes, and code units written as escapes. -/
inductive Part where
  | raw (b : UInt8)
  | unit (n : Nat)

def simpleEscape? (b : UInt8) : Option Nat :=
  if b = 0x22 || b = 0x5C || b = 0x2F then some b.toNat
  else if b = 0x62 then some 8
  else if b = 0x66 then some 12
  else if b = 0x6E then some 10
  else if b = 0x72 then some 13
  else if b = 0x74 then some 9
  else none

def hexDigits : Nat → Nat → Bytes → Except ReadError (Nat × Bytes)
  | 0, value, rest => .ok (value, rest)
  | _ + 1, _, [] => .error .unexpectedEnd
  | n + 1, value, b :: rest =>
    match Bytes.hexValue? (Char.ofNat b.toNat) with
    | some d => hexDigits n (value * 16 + d) rest
    | none => .error .malformed

/-- Reads the parts of a string up to its closing quote; the parts come back last first. -/
def parts : Nat → List Part → Bytes → Except ReadError (List Part × Bytes)
  | 0, _, _ => .error .unexpectedEnd
  | _ + 1, _, [] => .error .unexpectedEnd
  | fuel + 1, acc, b :: rest =>
    if b = 0x22 then .ok (acc, rest)
    else if b = 0x5C then
      match rest with
      | [] => .error .unexpectedEnd
      | 0x75 :: more =>
        match hexDigits 4 0 more with
        | .error e => .error e
        | .ok (n, more) => parts fuel (.unit n :: acc) more
      | e :: more =>
        match simpleEscape? e with
        | some n => parts fuel (.unit n :: acc) more
        | none => .error .malformed
    else if b < 0x20 then .error .malformed
    else parts fuel (.raw b :: acc) rest

def isHighSurrogate (n : Nat) : Bool := 0xD800 ≤ n && n < 0xDC00

def isLowSurrogate (n : Nat) : Bool := 0xDC00 ≤ n && n < 0xE000

def codePointBytes (n : Nat) : Bytes :=
  Bytes.ofString (if isHighSurrogate n || isLowSurrogate n then '\uFFFD' else Char.ofNat n).toString

/-- The bytes of parts given last first, put in front of `acc`. A low surrogate joins the high
surrogate written right before it; any other surrogate becomes the replacement character. -/
def partBytes (acc : Bytes) : List Part → Bytes
  | [] => acc
  | .raw b :: rest => partBytes (b :: acc) rest
  | .unit low :: .unit high :: rest =>
    if isLowSurrogate low && isHighSurrogate high then
      let n := 0x10000 + (high - 0xD800) * 1024 + (low - 0xDC00)
      partBytes (codePointBytes n ++ acc) rest
    else partBytes (codePointBytes low ++ acc) (.unit high :: rest)
  | .unit n :: rest => partBytes (codePointBytes n ++ acc) rest

def string (fuel : Nat) (bs : Bytes) : Except ReadError (String × Bytes) := do
  let (ps, rest) ← parts fuel [] bs
  return (Bytes.toText (partBytes [] ps), rest)

mutual

def value : Nat → Nat → Bytes → Except ReadError (Json × Bytes)
  | 0, _, _ => .error .malformed
  | fuel + 1, depth, bs =>
    match skipBlank bs with
    | [] => .error .unexpectedEnd
    | b :: rest =>
      if b = 0x7B then
        if maxDepth ≤ depth then .error .malformed
        else match skipBlank rest with
          | [] => .error .unexpectedEnd
          | 0x7D :: rest => .ok (.obj [], rest)
          | rest => members fuel (depth + 1) [] rest
      else if b = 0x5B then
        if maxDepth ≤ depth then .error .malformed
        else match skipBlank rest with
          | [] => .error .unexpectedEnd
          | 0x5D :: rest => .ok (.arr [], rest)
          | rest => elements fuel (depth + 1) [] rest
      else if b = 0x22 then (string fuel rest).map fun (s, rest) => (.str s, rest)
      else if b = 0x6E then (expect [0x75, 0x6C, 0x6C] rest).map fun rest => (.null, rest)
      else if b = 0x74 then (expect [0x72, 0x75, 0x65] rest).map fun rest => (.bool true, rest)
      else if b = 0x66 then
        (expect [0x61, 0x6C, 0x73, 0x65] rest).map fun rest => (.bool false, rest)
      else if b = 0x2D || isDigit b then number (b :: rest)
      else .error .malformed

/-- Reads the elements of an array whose first elements, last first, are `acc`. -/
def elements : Nat → Nat → List Json → Bytes → Except ReadError (Json × Bytes)
  | 0, _, _, _ => .error .malformed
  | fuel + 1, depth, acc, bs =>
    match value fuel depth bs with
    | .error e => .error e
    | .ok (v, rest) =>
      match skipBlank rest with
      | [] => .error .unexpectedEnd
      | b :: rest =>
        if b = 0x2C then elements fuel depth (v :: acc) rest
        else if b = 0x5D then .ok (.arr (v :: acc).reverse, rest)
        else .error .malformed

def members : Nat → Nat → List (String × Json) → Bytes → Except ReadError (Json × Bytes)
  | 0, _, _, _ => .error .malformed
  | fuel + 1, depth, acc, bs =>
    match skipBlank bs with
    | [] => .error .unexpectedEnd
    | q :: rest =>
      if q = 0x22 then
        match string fuel rest with
        | .error e => .error e
        | .ok (name, rest) =>
          match skipBlank rest with
          | [] => .error .unexpectedEnd
          | c :: rest =>
            if c = 0x3A then
              match value fuel depth rest with
              | .error e => .error e
              | .ok (v, rest) =>
                match skipBlank rest with
                | [] => .error .unexpectedEnd
                | b :: rest =>
                  if b = 0x2C then members fuel depth ((name, v) :: acc) rest
                  else if b = 0x7D then .ok (.obj ((name, v) :: acc).reverse, rest)
                  else .error .malformed
            else .error .malformed
      else .error .malformed

end

def read (bs : Bytes) : Except ReadError Json :=
  if skipBlank bs = [] then .error .empty
  else (value (2 * bs.length + 2) 0 bs).map Prod.fst

/-- The value of an integer literal that fits in a word; a literal with a fraction
or an exponent is no integer, whatever its value. -/
def intOfLiteral? (literal : String) : Option Int :=
  let natural (cs : List Char) : Option Nat :=
    if cs = [] then none
    else cs.foldlM (fun n c => if c.isDigit then some (n * 10 + (c.toNat - 48)) else none) 0
  match literal.toList with
  | '-' :: cs =>
    (natural cs).bind fun n => if n ≤ Word.limit then some (-(n : Int)) else none
  | cs => (natural cs).bind fun n => if n < Word.limit then some (n : Int) else none

def ofInt (n : Int) : Json := .num (toString n)

def ofInts (ns : Array Int) : Json := .arr (ns.toList.map ofInt)

def ofNat (n : Nat) : Json := .num (toString n)

def escapeChar (c : Char) : String :=
  if c = '"' then "\\\""
  else if c = '\\' then "\\\\"
  else if c.toNat < 0x20 || 0x7F ≤ c.toNat && c.toNat < 0x10000 then
    "\\u" ++ Bytes.hexPadded 4 c.toNat
  else c.toString

def renderString (s : String) : String :=
  "\"" ++ String.join (s.toList.map escapeChar) ++ "\""

mutual

def render : Json → String
  | .null => "null"
  | .bool b => if b then "true" else "false"
  | .num literal => literal
  | .str s => renderString s
  | .arr xs => "[" ++ String.intercalate "," (renderList xs) ++ "]"
  | .obj ms => "\x7b" ++ String.intercalate "," (renderMembers ms) ++ "\x7d"

def renderList : List Json → List String
  | [] => []
  | x :: xs => render x :: renderList xs

def renderMembers : List (String × Json) → List String
  | [] => []
  | (name, v) :: ms => (renderString name ++ ":" ++ render v) :: renderMembers ms

end

end Json

end ParserTables

import ParserTables.Lexer.PatternToken

/-!
Patterns: expressions over ranges of code points. A pattern is parsed by descent with one token
ahead; an error in the tokens is raised when the parser reaches it.
-/

namespace ParserTables

inductive Pattern where
  | range (low high : Nat)
  | concat (l r : Pattern)
  | either (l r : Pattern)
  | star (p : Pattern)
  | plus (p : Pattern)
  | opt (p : Pattern)
  | fragment (name : String)
  deriving DecidableEq, Repr

namespace Pattern

def maxCodePoint : Nat := 0x10FFFF

abbrev Tokens := List (Except PatternError PatternToken)

abbrev P (α : Type) := Tokens → Except PatternError (α × Tokens)

def peek (ts : Tokens) : Except PatternError (Option PatternToken) :=
  match ts with
  | [] => .ok none
  | .ok t :: _ => .ok (some t)
  | .error e :: _ => .error e

def take? (t : PatternToken) (ts : Tokens) : Except PatternError (Option Tokens) := do
  return if (← peek ts) = some t then some ts.tail else none

def atEnd (ts : Tokens) : Except PatternError Bool := do return (← peek ts) = none

def raise {α : Type} (cause : String) : Except PatternError α := .error (.plain cause)

def need (t : PatternToken) (cause : String) (ts : Tokens) : Except PatternError Tokens := do
  match ← take? t ts with
  | some ts => return ts
  | none => raise cause

def upperHex (n : Nat) : String :=
  String.ofList ((Nat.toDigits 16 n).map Char.toUpper)

def hexNumber? (cs : List Char) : Option Nat :=
  cs.foldlM (fun n c => (Bytes.hexValue? c).map (n * 16 + ·)) 0

def codePoint : P Nat := fun ts => do
  let ts ← need .braceOpen "invalid code point expression" ts
  match ← peek ts with
  | some (.digits text) =>
    match hexNumber? text.toList with
    | none =>
      raise (s!"failed to decode a code point ({text}) into a int: strconv.ParseInt: parsing "
        ++ "\"" ++ text ++ "\": invalid syntax")
    | some n =>
      if maxCodePoint < n then raise "a code point must be between U+0000 to U+10FFFF"
      else
        let ts ← need .braceClose "invalid code point expression" ts.tail
        return (n, ts)
  | _ => raise "invalid code point expression"

def fragmentName : P String := fun ts => do
  let ts ← need .braceOpen "invalid fragment expression" ts
  match ← peek ts with
  | some (.symbol name) =>
    let ts ← need .braceClose "invalid fragment expression" ts.tail
    return (name, ts)
  | _ => raise "invalid fragment expression"

def bound? : P (Option Nat) := fun ts => do
  match ← peek ts with
  | some (.char c) => return (some c, ts.tail)
  | some .codePointLeader =>
    let (c, ts) ← codePoint ts.tail
    return (some c, ts)
  | _ => return (none, ts)

def element? : P (Option (Nat × Nat)) := fun ts => do
  match ← bound? ts with
  | (none, ts) => return (none, ts)
  | (some low, ts) =>
    match ← take? .range ts with
    | none => return (some (low, low), ts)
    | some ts =>
      match ← bound? ts with
      | (none, _) => raise "invalid range expression"
      | (some high, ts) =>
        if high < low then
          .error ⟨"a range expression with invalid order", upperHex low ++ ".." ++ upperHex high⟩
        else return (some (low, high), ts)

/-- What remains of intervals after `low` to `high` has been cut out. -/
def cutOut (low high : Nat) (intervals : List (Nat × Nat)) : List (Nat × Nat) :=
  intervals.flatMap fun (a, b) =>
    if high < a ∨ b < low then [(a, b)]
    else (if a < low then [(a, low - 1)] else []) ++ (if high < b then [(high + 1, b)] else [])

/-- Reads elements up to the first token that is none, folding them into what is gathered. -/
def elements (add : List (Nat × Nat) → Nat × Nat → Except PatternError (List (Nat × Nat))) :
    Nat → List (Nat × Nat) → P (List (Nat × Nat))
  | 0, gathered, ts => .ok (gathered, ts)
  | n + 1, gathered, ts => do
    match ← element? ts with
    | (none, ts) => return (gathered, ts)
    | (some e, ts) => elements add n (← add gathered e) ts

def addElement (gathered : List (Nat × Nat)) (e : Nat × Nat) :
    Except PatternError (List (Nat × Nat)) :=
  .ok (gathered ++ [e])

def removeElement (gathered : List (Nat × Nat)) (e : Nat × Nat) :
    Except PatternError (List (Nat × Nat)) :=
  match cutOut e.1 e.2 gathered with
  | [] => raise "a pattern cannot match any characters"
  | left => .ok left

def ofIntervals : List (Nat × Nat) → Pattern
  | [] => .range 1 0
  | (a, b) :: rest => rest.foldl (fun p (c, d) => .either p (.range c d)) (.range a b)

def bracket (inverse : Bool) : P Pattern := fun ts => do
  let add := if inverse then removeElement else addElement
  match ← element? ts with
  | (none, ts) =>
    if ← atEnd ts then raise "unclosed bracket expression"
    else raise "a bracket expression must include at least one character"
  | (some e, ts) =>
    let first ← add (if inverse then [(0, maxCodePoint)] else []) e
    let (all, ts) ← elements add ts.length first ts
    if ← atEnd ts then raise "unclosed bracket expression"
    let ts ← need .bracketClose "unexpected token" ts
    return (ofIntervals all, ts)

def single? : P (Option Pattern) := fun ts => do
  match ← peek ts with
  | some .anyChar => return (some (.range 0 maxCodePoint), ts.tail)
  | some .bracketOpen =>
    let (p, ts) ← bracket false ts.tail
    return (some p, ts)
  | some .inverseOpen =>
    let (p, ts) ← bracket true ts.tail
    return (some p, ts)
  | some .codePointLeader =>
    let (c, ts) ← codePoint ts.tail
    return (some (.range c c), ts)
  | some .fragmentLeader =>
    let (name, ts) ← fragmentName ts.tail
    return (some (.fragment name), ts)
  | some (.char c) => return (some (.range c c), ts.tail)
  | _ => return (none, ts)

def repeatOperator? : PatternToken → Option (String × (Pattern → Pattern))
  | .star => some ("*", .star)
  | .plus => some ("+", .plus)
  | .option => some ("?", .opt)
  | _ => none

mutual

def alternation? : Nat → P (Option Pattern)
  | 0, _ => raise "unexpected token"
  | n + 1, ts => do
    match ← sequence? n ts with
    | (some p, ts) =>
      let (p, ts) ← moreAlternatives n p ts
      return (some p, ts)
    | (none, ts) =>
      if (← take? .bar ts).isSome then raise "an alternation expression must have operands"
      else return (none, ts)

def moreAlternatives : Nat → Pattern → P Pattern
  | 0, _, _ => raise "unexpected token"
  | n + 1, p, ts => do
    match ← take? .bar ts with
    | none => return (p, ts)
    | some ts =>
      match ← sequence? n ts with
      | (none, _) => raise "an alternation expression must have operands"
      | (some q, ts) => moreAlternatives n (.either p q) ts

def sequence? : Nat → P (Option Pattern)
  | 0, _ => raise "unexpected token"
  | n + 1, ts => do
    match ← repeated? n ts with
    | (none, ts) => return (none, ts)
    | (some p, ts) =>
      let (p, ts) ← moreOfSequence n p ts
      return (some p, ts)

def moreOfSequence : Nat → Pattern → P Pattern
  | 0, _, _ => raise "unexpected token"
  | n + 1, p, ts => do
    match ← repeated? n ts with
    | (none, ts) => return (p, ts)
    | (some q, ts) => moreOfSequence n (.concat p q) ts

def repeated? : Nat → P (Option Pattern)
  | 0, _ => raise "unexpected token"
  | n + 1, ts => do
    match ← group? n ts with
    | (some p, ts) =>
      match (← peek ts).bind repeatOperator? with
      | some (_, wrap) => return (some (wrap p), ts.tail)
      | none => return (some p, ts)
    | (none, ts) =>
      match (← peek ts).bind repeatOperator? with
      | some (sign, _) =>
        .error ⟨"a repeat expression must have an operand", sign ++ " needs an operand"⟩
      | none => return (none, ts)

def group? : Nat → P (Option Pattern)
  | 0, _ => raise "unexpected token"
  | n + 1, ts => do
    match ← take? .groupOpen ts with
    | none => single? ts
    | some ts =>
      match ← alternation? n ts with
      | (none, ts) =>
        if ← atEnd ts then raise "unclosed grouping expression"
        else raise "a grouping expression must include at least one character"
      | (some p, ts) =>
        if ← atEnd ts then raise "unclosed grouping expression"
        let ts ← need .groupClose "invalid grouping expression" ts
        return (some p, ts)

end

/-- Every token takes a bounded number of calls, so this many nested ones are enough. -/
def descentBound (ts : Tokens) : Nat := 8 * ts.length + 16

def parse (pattern : String) : Except PatternError Pattern := do
  let ts := PatternToken.ofPattern pattern
  let (p, ts) ← alternation? (descentBound ts) ts
  if (← take? .groupClose ts).isSome then raise ") needs preceding ("
  match p with
  | none => raise "a pattern must be a non-empty byte sequence"
  | some p =>
    if ← atEnd ts then return p else raise "unexpected token"

def fragments : Pattern → List String
  | .range _ _ => []
  | .concat l r => l.fragments ++ r.fragments
  | .either l r => l.fragments ++ r.fragments
  | .star p => p.fragments
  | .plus p => p.fragments
  | .opt p => p.fragments
  | .fragment name => [name]

/-- Parses a pattern that may refer to no fragments, as none can be defined. -/
def read (pattern : String) : Except PatternError Pattern := do
  let p ← parse pattern
  let names := p.fragments.eraseDups.mergeSort fun a b => a ≤ b
  if names = [] then return p
  else .error ⟨"pattern contains undefined fragments", "[" ++ String.intercalate " " names ++ "]"⟩

def isSurrogate (n : Nat) : Bool := 0xD800 ≤ n && n ≤ 0xDFFF

/-- The first range of a pattern that begins or ends with a surrogate. -/
def surrogateRange? : Pattern → Option (Nat × Nat)
  | .range a b => if isSurrogate a || isSurrogate b then some (a, b) else none
  | .concat l r => l.surrogateRange?.or r.surrogateRange?
  | .either l r => l.surrogateRange?.or r.surrogateRange?
  | .star p => p.surrogateRange?
  | .plus p => p.surrogateRange?
  | .opt p => p.surrogateRange?
  | .fragment _ => none

def escape (c : Char) : String :=
  if c ∈ ['.', '*', '+', '?', '|', '(', ')', '[', '\\'] then "\\" ++ c.toString else c.toString

end Pattern

end ParserTables

import ParserTables.Text.Bytes
import ParserTables.Text.Space

/-!
The tokens of patterns. Outside brackets the usual operators are special; inside brackets only
the closing bracket, the range operator and escapes are. A code point and a fragment name are
written between braces after their leaders. Where the next character decides what a bracket or a
range operator means, it must not be null.
-/

namespace ParserTables

structure PatternError where
  cause : String
  detail : String
  deriving DecidableEq, Repr

namespace PatternError

def text (e : PatternError) : String :=
  if e.detail = "" then e.cause else e.cause ++ ": " ++ e.detail

def plain (cause : String) : PatternError := ⟨cause, ""⟩

def openEscape : PatternError := plain "incompleted escape sequence; unexpected EOF following \\"

def unknownEscape (c : Char) (place : String) : PatternError :=
  ⟨"invalid escape sequence", "\\" ++ c.toString ++ " is not supported" ++ place⟩

def badCodePoint : PatternError := plain "code points must consist of just 4 or 6 hex digits"

def badFragmentSymbol : PatternError := plain "invalid fragment symbol"

/-- A null character was looked at to tell what stands before it. -/
def nullAhead : PatternError :=
  plain "failed to call restore() because the last character is null"

end PatternError

inductive PatternToken where
  | star
  | plus
  | option
  | anyChar
  | bar
  | groupOpen
  | groupClose
  | bracketOpen
  | inverseOpen
  | bracketClose
  | range
  | char (c : Nat)
  | codePointLeader
  | fragmentLeader
  | braceOpen
  | braceClose
  | digits (text : String)
  | symbol (name : String)
  deriving DecidableEq, Repr

namespace PatternToken

/-- Where a range stands inside brackets: nothing read, its lower bound read, or its upper bound
still to come. -/
inductive RangeState where
  | ready
  | begun
  | pending
  deriving DecidableEq, Repr

inductive Braced where
  | none
  | codePoint
  | fragment
  deriving DecidableEq, Repr

structure Mode where
  bracket : Option RangeState
  braced : Braced
  deriving DecidableEq, Repr

abbrev Scanned := Except PatternError (PatternToken × Mode × List Char)

def RangeState.afterBound : RangeState → RangeState
  | .pending => .ready
  | _ => .begun

def isCodePointChar (c : Char) : Bool := c.isAlphanum

def scanCodePoint (m : Mode) (c : Char) (rest : List Char) : Scanned :=
  if c = '{' then .ok (.braceOpen, m, rest)
  else if c = '}' then .ok (.braceClose, { m with braced := .none }, rest)
  else
    let run := c :: rest.takeWhile (· ≠ '}')
    let after := rest.dropWhile (· ≠ '}')
    if run.all isCodePointChar && (run.length = 4 || run.length = 6) then
      .ok (.digits (String.ofList run), m, after)
    else .error .badCodePoint

def scanFragment (m : Mode) (c : Char) (rest : List Char) : Scanned :=
  if c = '{' then .ok (.braceOpen, m, rest)
  else if c = '}' then .ok (.braceClose, { m with braced := .none }, rest)
  else
    let name := Text.trimChars (c :: rest.takeWhile (· ≠ '}'))
    if name = [] then .error .badFragmentSymbol
    else .ok (.symbol (String.ofList name), m, rest.dropWhile (· ≠ '}'))

def scanBracket (m : Mode) (state : RangeState) (c : Char) (rest : List Char) : Scanned :=
  let bound : Mode := { m with bracket := some state.afterBound }
  match c, rest with
  | ']', _ => .ok (.bracketClose, { m with bracket := none }, rest)
  | '-', next :: _ =>
    if state ≠ .begun ∨ next = ']' then .ok (.char c.toNat, bound, rest)
    else if next = '\x00' then .error .nullAhead
    else .ok (.range, { m with bracket := some .pending }, rest)
  | '\\', [] => .error .openEscape
  | '\\', 'u' :: more => .ok (.codePointLeader, { bound with braced := .codePoint }, more)
  | '\\', e :: more =>
    if e ∈ ['\\', '^', '-', ']'] then .ok (.char e.toNat, bound, more)
    else .error (.unknownEscape e " in a bracket expression")
  | _, _ => .ok (.char c.toNat, bound, rest)

def scanPlain (m : Mode) (c : Char) (rest : List Char) : Scanned :=
  let inside : Mode := { m with bracket := some .ready }
  match c, rest with
  | '*', _ => .ok (.star, m, rest)
  | '+', _ => .ok (.plus, m, rest)
  | '?', _ => .ok (.option, m, rest)
  | '.', _ => .ok (.anyChar, m, rest)
  | '|', _ => .ok (.bar, m, rest)
  | '(', _ => .ok (.groupOpen, m, rest)
  | ')', _ => .ok (.groupClose, m, rest)
  | '[', '\x00' :: _ => .error .nullAhead
  | '[', '^' :: '\x00' :: _ => .error .nullAhead
  | '[', '^' :: ']' :: _ => .ok (.bracketOpen, inside, rest)
  | '[', '^' :: more => .ok (.inverseOpen, inside, more)
  | '[', _ => .ok (.bracketOpen, inside, rest)
  | '\\', [] => .error .openEscape
  | '\\', 'u' :: more => .ok (.codePointLeader, { m with braced := .codePoint }, more)
  | '\\', 'f' :: more => .ok (.fragmentLeader, { m with braced := .fragment }, more)
  | '\\', e :: more =>
    if e ∈ ['\\', '.', '*', '+', '?', '|', '(', ')', '[', ']'] then .ok (.char e.toNat, m, more)
    else .error (.unknownEscape e "")
  | _, _ => .ok (.char c.toNat, m, rest)

def scan (m : Mode) (c : Char) (rest : List Char) : Scanned :=
  match m.braced, m.bracket with
  | .codePoint, _ => scanCodePoint m c rest
  | .fragment, _ => scanFragment m c rest
  | .none, some state => scanBracket m state c rest
  | .none, none => scanPlain m c rest

/-- The tokens of a pattern; an error takes the place of the rest. -/
def scanAll : Nat → Mode → List Char → List (Except PatternError PatternToken)
  | 0, _, _ => []
  | _ + 1, _, [] => []
  | n + 1, m, c :: rest =>
    match scan m c rest with
    | .error e => [.error e]
    | .ok (token, m', rest') => .ok token :: scanAll n m' rest'

def ofPattern (pattern : String) : List (Except PatternError PatternToken) :=
  let cs := pattern.toList
  scanAll cs.length ⟨none, .none⟩ cs

end PatternToken

end ParserTables

import ParserTables.Text.Number

/-!
Keys. Control characters and escape sequences stand for keys that edit a line; any other character
is typed as it is, a tab among them.
-/

namespace ParserTables.Editor

inductive Key where
  | typed (c : Char)
  | unknown
  | enter
  | null
  | interrupt
  | clearScreen
  | erase
  | delete
  | back
  | ahead
  | backWord
  | aheadWord
  | toStart
  | toEnd
  | killAhead
  | killBefore
  | killWordAhead
  | killWordBefore
  | yank
  | transpose
  | previous
  | next
  | nothing
  deriving DecidableEq, Repr

namespace Key

def escapeChar : Char := '\x1b'

/-- The key of a single character. Searching and suspending have no effect. -/
def ofChar (c : Char) : Key :=
  match c.toNat with
  | 0 => .null
  | 1 => .toStart
  | 2 => .back
  | 3 => .interrupt
  | 4 => .delete
  | 5 => .toEnd
  | 6 => .ahead
  | 7 => .nothing
  | 8 => .erase
  | 10 => .enter
  | 11 => .killAhead
  | 12 => .clearScreen
  | 13 => .enter
  | 14 => .next
  | 16 => .previous
  | 18 => .nothing
  | 19 => .nothing
  | 20 => .transpose
  | 21 => .killBefore
  | 23 => .killWordBefore
  | 25 => .yank
  | 26 => .nothing
  | 127 => .erase
  | _ => .typed c

/-- The key of a character after an escape character, where it differs. A transposition of words
is not known. -/
def ofEscaped? (c : Char) : Option Key :=
  if c = 'b' then some .backWord
  else if c = 'f' then some .aheadWord
  else if c = 'd' then some .killWordAhead
  else if c = '\x14' then some .unknown
  else if c = '\x7f' then some .killWordBefore
  else none

/-- The key of an escape sequence with numbers of any script in it; most sequences are none. -/
def ofSequence? (numbers : List Char) (final : Char) : Option Key :=
  if final = 'A' then some .previous
  else if final = 'B' then some .next
  else if final = 'C' then some .ahead
  else if final = 'D' then some .back
  else if final = 'H' then some .toStart
  else if final = 'F' then some .toEnd
  else if final = '~' ∧ numbers = ['3'] then some .delete
  else none

inductive Pending where
  | none
  | escape
  | application
  | sequence (numbers : List Char)
  deriving DecidableEq, Repr

def plain (c : Char) : List Key × Pending :=
  if c = escapeChar then ([], .escape) else ([ofChar c], .none)

def read (c : Char) : Pending → List Key × Pending
  | .none => plain c
  | .escape =>
    if c = '[' then ([], .sequence [])
    else if c = 'O' then ([], .application)
    else match ofEscaped? c with
      | some k => ([k], .none)
      | none => plain c
  | .application =>
    if c = 'H' then ([.toStart], .none)
    else if c = 'F' then ([.toEnd], .none)
    else
      let (keys, pending) := plain c
      (.typed 'O' :: keys, pending)
  | .sequence numbers =>
    if c = ';' ∨ Text.isNumber c then ([], .sequence (numbers ++ [c]))
    else ((ofSequence? numbers c).toList, .none)

/-- The keys of a text. A sequence that does not end is dropped. -/
def readAll : Pending → List Char → List Key
  | .application, [] => [.typed 'O']
  | _, [] => []
  | pending, c :: cs =>
    let (keys, pending) := read c pending
    keys ++ readAll pending cs

def ofText (cs : List Char) : List Key := readAll .none cs

end Key

end ParserTables.Editor

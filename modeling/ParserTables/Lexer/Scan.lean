import ParserTables.Lexer.Basic
import ParserTables.Text.Bytes

/-!
Cutting a source into lexemes. From each place the longest match wins; bytes that no match begins
with are invalid, and neighbouring invalid lexemes are joined. Only a newline ends a row, and only
the first byte of a character takes a column. A lexer that has left all its modes fails, and one
whose tables lack something breaks off where it is needed.
-/

namespace ParserTables

/-- An invalid lexeme has no kind. -/
structure Lexeme where
  kind : Option Int
  bytes : Bytes
  row : Nat
  col : Nat
  deriving DecidableEq, Repr

inductive LexFault where
  | noModeLeft
  | breach (b : Breach)
  deriving DecidableEq

abbrev Lexed := Except LexFault Lexeme

/-- A place in a source, with the row and column of the byte read last. -/
structure Cursor where
  rest : Bytes
  row : Nat
  col : Nat
  lastRow : Nat
  lastCol : Nat

namespace Cursor

def start (source : Bytes) : Cursor := ⟨source, 0, 0, 0, 0⟩

def read (c : Cursor) (b : UInt8) (rest : Bytes) : Cursor :=
  let (row, col) :=
    if b = 0x0A then (c.row + 1, 0)
    else if b < 0x80 ∨ (0xC0 ≤ b ∧ b ≤ 0xF7) then (c.row, c.col + 1)
    else (c.row, c.col)
  ⟨rest, row, col, c.row, c.col⟩

/-- Goes back to an earlier rest; row and column go back by one byte only. -/
def backTo (c : Cursor) (rest : Bytes) : Cursor :=
  ⟨rest, c.lastRow, c.lastCol, c.lastRow, c.lastCol⟩

end Cursor

/-- The longest match so far, its bytes last first, and the rest after it. The kind is that of the
mode, and `id` that of the lexer. -/
structure Match where
  kind : Int
  id : Int
  read : Bytes
  rest : Bytes

structure Found where
  lexeme : Lexeme
  kind : Option Int

namespace Lexer

def finish (row col : Nat) (read : Bytes) (best : Option Match) (c : Cursor) :
    Option Found × Cursor :=
  match best with
  | some m => (some ⟨⟨some m.id, m.read.reverse, row, col⟩, some m.kind⟩, c.backTo m.rest)
  | none =>
    if read = [] then (none, c) else (some ⟨⟨none, read.reverse, row, col⟩, none⟩, c)

def better (l : Lexer) (mode : Int) (m : Machine) (state : Int) (read rest : Bytes)
    (best : Option Match) : Except Breach (Option Match) := do
  let kind ← m.accepted.get state
  if kind = 0 then return best
  return some ⟨kind, ← l.kindId mode kind, read, rest⟩

/-- Reads on from a state; `read` are the bytes of the lexeme so far, last first. -/
def scanFrom (l : Lexer) (mode : Int) (m : Machine) (row col : Nat) :
    Bytes → Int → Bytes → Option Match → Cursor → Except Breach (Option Found × Cursor)
  | [], _, read, best, c => .ok (finish row col read best c)
  | b :: rest, state, read, best, c =>
    match m.next? l.level state b with
    | .error e => .error e
    | .ok none => .ok (finish row col (b :: read) best (c.read b rest))
    | .ok (some state) =>
      match l.better mode m state (b :: read) rest best with
      | .error e => .error e
      | .ok best => scanFrom l mode m row col rest state (b :: read) best (c.read b rest)

def next? (l : Lexer) (mode : Int) (c : Cursor) : Except Breach (Option Found × Cursor) := do
  let m ← present (← l.mode mode).machine
  l.scanFrom mode m c.row c.col c.rest m.start [] none c

def modesAfterFound (l : Lexer) (f : Found) (mode : Int) (modes : List Int) :
    Except Breach (List Int) :=
  match f.kind with
  | none => .ok modes
  | some kind => do modesAfter (← l.mode mode) kind modes

/-- The lexemes from a place on, after those found before, last first. Each takes a byte at least,
and once more the end is looked at. -/
def scanAll (l : Lexer) : Nat → Int → List Int → Cursor → List Lexed → List Lexed
  | 0, _, _, _, found => found.reverse
  | n + 1, mode, outer, c, found =>
    match l.next? mode c with
    | .error b => (.error (.breach b) :: found).reverse
    | .ok (none, _) => found.reverse
    | .ok (some f, c) =>
      match l.modesAfterFound f mode (mode :: outer) with
      | .error b => (.error (.breach b) :: found).reverse
      | .ok [] => (.error .noModeLeft :: found).reverse
      | .ok (mode :: outer) => scanAll l n mode outer c (.ok f.lexeme :: found)

end Lexer

namespace Lexeme

/-- Joins neighbouring invalid lexemes. A fault takes the place of those before it. -/
def joinInvalid : List Lexed → List Lexed
  | [] => []
  | .error fault :: ls => .error fault :: joinInvalid ls
  | .ok l :: ls =>
    match l.kind, joinInvalid ls with
    | none, .ok ⟨none, bytes, _, _⟩ :: rest => .ok { l with bytes := l.bytes ++ bytes } :: rest
    | none, .error fault :: rest => .error fault :: rest
    | _, rest => .ok l :: rest

end Lexeme

def Lexer.lexemes (l : Lexer) (source : Bytes) : List Lexed :=
  Lexeme.joinInvalid (l.scanAll (source.length + 1) l.initialMode [] (.start source) [])

end ParserTables

import ParserTables.Breach
import ParserTables.Text.Bytes

/-!
Tokens, and the streams that a parser reads them from. A stream has some tokens to come, among
which reading may fail, and then yields the end of input for ever.
-/

namespace ParserTables

inductive TokenClass where
  | ordinary
  | invalid
  | endOfInput
  deriving DecidableEq, Repr

structure Token where
  cls : TokenClass
  terminal : Int
  lexeme : Bytes
  row : Int
  col : Int
  deriving DecidableEq, Repr

def Token.isEnd (t : Token) : Bool := t.cls = .endOfInput

/-- Why there is no next token: reading failed, or what it goes by lacks something. -/
inductive StreamFault where
  | failed (message : String)
  | breach (b : Breach)
  deriving DecidableEq

structure Stream where
  upcoming : List (Except StreamFault Token)
  last : Token

namespace Stream

def next (s : Stream) : Except StreamFault (Token × Stream) :=
  match s.upcoming with
  | [] => .ok (s.last, s)
  | .ok t :: rest => .ok (t, { s with upcoming := rest })
  | .error fault :: _ => .error fault

def endToken (symbol : Int) : Token := ⟨.endOfInput, symbol, [], 0, 0⟩

end Stream

end ParserTables

import ParserTables.Text.Bytes
import ParserTables.Text.Printable

/-!
Quoted texts, as messages and printed trees show them: printable code points stand for
themselves, everything else is escaped, and a stray byte is written by its value.
-/

namespace ParserTables.Text

def escapeChar (c : Char) : String :=
  let n := c.toNat
  if c = '"' then "\\\""
  else if c = '\\' then "\\\\"
  else if isPrintable c then c.toString
  else if n = 7 then "\\a"
  else if n = 8 then "\\b"
  else if n = 12 then "\\f"
  else if n = 10 then "\\n"
  else if n = 13 then "\\r"
  else if n = 9 then "\\t"
  else if n = 11 then "\\v"
  else if n < 0x80 then "\\x" ++ Bytes.hexPadded 2 n
  else if n < 0x10000 then "\\u" ++ Bytes.hexPadded 4 n
  else "\\U" ++ Bytes.hexPadded 8 n

def escapePiece : Bytes.Piece → String
  | .char c => escapeChar c
  | .stray b => "\\x" ++ Bytes.hexPadded 2 b.toNat

def quoteBytes (bs : Bytes) : String :=
  "\"" ++ String.join (bs.decode.map escapePiece) ++ "\""

def quote (s : String) : String :=
  "\"" ++ String.join (s.toList.map escapeChar) ++ "\""

/-- A single character between apostrophes, which are escaped in place of quotation marks. -/
def quoteChar (c : Char) : String :=
  let inner := if c = '\'' then "\\'" else if c = '"' then "\"" else escapeChar c
  "'" ++ inner ++ "'"

end ParserTables.Text

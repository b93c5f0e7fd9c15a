import ParserTables.Parser.Step

/-!
Messages for syntax errors. Lexemes go into them as they are, so a message is bytes.
-/

namespace ParserTables.SyntaxError

def tokenText (t : Table) (token : Token) : Except Breach Bytes := do
  let quoted := Bytes.ofString "'" ++ token.lexeme ++ Bytes.ofString "' "
  match token.cls with
  | .endOfInput => return Bytes.ofString "<eof>"
  | .invalid => return quoted ++ Bytes.ofString "(<invalid>)"
  | .ordinary =>
    let name ← t.tokenName token.terminal
    return quoted ++ Bytes.ofString s!"({name})"

/-- Rows and columns are shown counted from one. -/
def text (t : Table) (e : SyntaxError) : Except Breach Bytes := do
  let shown ← tokenText t e.token
  let row := Word.wrap (e.token.row + 1)
  let col := Word.wrap (e.token.col + 1)
  let place := s!"{row}:{col}: {message}: "
  let expected :=
    if e.expected = [] then "" else "; expected: " ++ String.intercalate ", " e.expected
  return Bytes.ofString place ++ shown ++ Bytes.ofString expected

end ParserTables.SyntaxError

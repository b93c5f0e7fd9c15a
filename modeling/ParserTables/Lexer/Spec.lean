import ParserTables.Automaton.Basic
import ParserTables.Lexer.Machine.OfPatterns
import ParserTables.Lexer.Scan
import ParserTables.Parser.Token
import ParserTables.Text.Lower

/-!
Lexical specifications: a lexer, and which terminals its kinds stand for. Character literals
without a pattern of their own come first, so that they win over the patterns of declared tokens.
Kind 0 is the kind of invalid lexemes and stands for no terminal. A lexer knows its kinds by name
only, so what they stand for is looked up by their names.
-/

namespace ParserTables

structure LexEntry where
  terminal : Nat
  pattern : String
  skip : Bool
  deriving DecidableEq, Repr

/-- A specification that was read from elsewhere may lack the lexer. -/
structure LexicalSpec where
  lexer : Option Lexer
  kindToTerminal : Slots Int
  terminalToKind : Slots Int
  skip : Slots Int

def kindName (id : Nat) : String := s!"x_{id}"

structure KindTables where
  toTerminal : Array Int
  toKind : Array Int
  skip : Array Int

namespace KindTables

def blank (kindCount terminalCount : Nat) : KindTables where
  toTerminal := .replicate kindCount 0
  toKind := .replicate terminalCount 0
  skip := .replicate kindCount 0

/-- Enters what a kind stands for; the kind of invalid lexemes is the one without a name. -/
def enter (entries : Std.TreeMap String LexEntry) (tables : KindTables) (kind : Nat)
    (name : String) : Except String KindTables :=
  match tables with
  | ⟨toTerminal, toKind, skip⟩ =>
    if name = "" then .ok ⟨toTerminal.setIfInBounds 0 (-1), toKind, skip⟩
    else match entries[name]? with
      | none => .error ("a lexical kind '" ++ name ++ "' has no terminal")
      | some e =>
        .ok ⟨toTerminal.setIfInBounds kind e.terminal, toKind.setIfInBounds e.terminal kind,
          if e.skip then skip.setIfInBounds kind 1 else skip⟩

def enterAll (entries : Std.TreeMap String LexEntry) (tables : KindTables) (kind : Nat) :
    List String → Except String KindTables
  | [] => .ok tables
  | name :: names => do enterAll entries (← tables.enter entries kind name) (kind + 1) names

def ofNames (terminalCount : Nat) (es : List LexEntry) (names : Array String) :
    Except String KindTables :=
  let entries : Std.TreeMap String LexEntry := .ofList (es.map fun e => (kindName e.terminal, e))
  enterAll entries (blank names.size terminalCount) 0 names.toList

end KindTables

namespace LexicalSpec

def isNameChar (c : Char) : Bool := c.isLower || c.isDigit

/-- The groups of name characters in a text, joined by single underscores; `gap` tells whether an
underscore is due before the next group. -/
def joinGroups (gap : Bool) : List Char → List Char
  | [] => []
  | c :: cs =>
    if isNameChar c then (if gap then ['_', c] else [c]) ++ joinGroups false cs
    else joinGroups true cs

/-- The name of the specification of a grammar: lower-case letters and digits in groups joined by
single underscores, beginning with a letter. -/
def nameOf (grammarName : String) : String :=
  let cs := (Text.lower grammarName).toList.dropWhile fun c => !isNameChar c
  match joinGroups false cs with
  | [] => "grammar"
  | c :: rest => String.ofList (if c.isDigit then 'g' :: '_' :: c :: rest else c :: rest)

/-- The entry of a terminal: its declared pattern, or the character of a literal. -/
def entryOf? (m : Automaton) (id : Nat) : Option LexEntry :=
  let decl := m.tokenDecl? id
  match decl.filter (·.pattern ≠ "") with
  | some d => some ⟨id, d.pattern, d.skip⟩
  | none => (literalChar? (m.symbols.nameOf id)).map fun c => ⟨id, Pattern.escape c, false⟩

def hasPattern (m : Automaton) (id : Nat) : Bool := (m.tokenDecl? id).any (·.pattern ≠ "")

def lexedTerminals (m : Automaton) : List Nat := m.symbols.terminals.drop 2

def entries (m : Automaton) : List LexEntry :=
  let (declared, others) := (lexedTerminals m).partition (hasPattern m)
  others.filterMap (entryOf? m) ++ declared.filterMap (entryOf? m)

def patternErrors (m : Automaton) (es : List LexEntry) : List String :=
  es.filterMap fun e =>
    match Pattern.read e.pattern with
    | .ok _ => none
    | .error err => some (m.symbols.nameOf e.terminal ++ ": " ++ err.text)

def surrogateMessage (a b : Nat) : String :=
  "failed to compile in default mode: surrogate code points U+D800..U+DFFF are not allowed in "
    ++ "UTF-8: U+" ++ Pattern.upperHex a ++ "..U+" ++ Pattern.upperHex b

/-- A lexer has room for so many positions: one for each byte of its expressions, and one for the
end of each of them. -/
def maxPosition : Nat := 32767

/-- Whether the first position that there is no room for is the end of an expression, if the
expressions do not fit; `used` positions are taken already. -/
def overflow? (used : Nat) : List Pattern → Option Bool
  | [] => none
  | p :: ps =>
    let inner := used + Encoding.positions p
    if maxPosition < inner then some false
    else if maxPosition < inner + 1 then some true
    else overflow? (inner + 1) ps

def overflowMessage (endMark : Bool) : String :=
  s!"failed to compile in default mode: symbol position must be within 1 to {maxPosition}: "
    ++ s!"n: {maxPosition + 1}, endMark: {endMark}"

def readAll (patterns : List String) : Except PatternError (List Pattern) :=
  patterns.mapM Pattern.read

def ofLexer (terminalCount : Nat) (es : List LexEntry) (lexer : Lexer) :
    Except String LexicalSpec := do
  let tables ← KindTables.ofNames terminalCount es lexer.kindNames.elements
  return {
    lexer := some lexer
    kindToTerminal := .ofArray tables.toTerminal
    terminalToKind := .ofArray tables.toKind
    skip := .ofArray tables.skip }

/-- The specification of a grammar; there is none when no terminal has a pattern. -/
def compile (grammarName : String) (m : Automaton) : Except String (Option LexicalSpec) :=
  let es := entries m
  if es = [] then .ok none
  else match patternErrors m es, readAll (es.map (·.pattern)) with
    | [], .ok patterns =>
      match patterns.findSome? Pattern.surrogateRange? with
      | some (a, b) => .error (surrogateMessage a b)
      | none =>
        match overflow? 0 patterns with
        | some endMark => .error (overflowMessage endMark)
        | none =>
          let lexer := Lexer.single (nameOf grammarName) (es.map fun e => kindName e.terminal)
            (Machine.ofPatterns patterns)
          (ofLexer m.symbols.terminalCount es lexer).map some
    | errors, _ => .error (String.intercalate "\n" errors)

def kindOfLexeme (l : Lexeme) : Int := l.kind.getD 0

def token? (s : LexicalSpec) (l : Lexeme) : Except Breach (Option Token) := do
  if 0 < (← s.skip.get (kindOfLexeme l)) then return none
  return some
    { cls := if l.kind.isSome then .ordinary else .invalid
      terminal := ← s.kindToTerminal.get (kindOfLexeme l)
      lexeme := l.bytes
      row := l.row
      col := l.col }

def noModeLeft : String := "a mode stack must have at least one element"

def streamed? (s : LexicalSpec) : Lexed → Option (Except StreamFault Token)
  | .error .noModeLeft => some (.error (.failed noModeLeft))
  | .error (.breach b) => some (.error (.breach b))
  | .ok l =>
    match s.token? l with
    | .error b => some (.error (.breach b))
    | .ok token => token.map .ok

def stream (s : LexicalSpec) (endSymbol : Int) (source : Bytes) : Except Breach Stream := do
  let lexer ← present s.lexer
  return ⟨(lexer.lexemes source).filterMap s.streamed?, Stream.endToken endSymbol⟩

end LexicalSpec

end ParserTables

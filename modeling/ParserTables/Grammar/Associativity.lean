import ParserTables.Grammar.Basic
import ParserTables.Text.Lower
import ParserTables.Text.Quoted

/-!
Names and codes of associativities. Reading ignores case and takes the empty name for `left`;
only the three proper associativities can be written.
-/

namespace ParserTables.Associativity

def ofCode (code : Int) : Associativity :=
  if code = 0 then .left
  else if code = 1 then .right
  else if code = 2 then .nonassoc
  else .invalid code

def code : Associativity → Int
  | .left => 0
  | .right => 1
  | .nonassoc => 2
  | .invalid code => code

def name : Associativity → String
  | .left => "left"
  | .right => "right"
  | .nonassoc => "nonassoc"
  | .invalid code => s!"<invalid associativity: {code}>"

structure UnknownName where
  text : String
  deriving DecidableEq, Repr

def UnknownName.message (e : UnknownName) : String :=
  "invalid associativity: " ++ Text.quote e.text

def ofName (text : String) : Except UnknownName Associativity :=
  let word := Text.lower text
  if word = "" || word = "left" then .ok .left
  else if word = "right" then .ok .right
  else if word = "nonassoc" then .ok .nonassoc
  else .error ⟨text⟩

def write : Associativity → Except String String
  | .invalid code => .error s!"invalid associativity: {code}"
  | a => .ok a.name

end ParserTables.Associativity

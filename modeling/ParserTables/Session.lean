import ParserTables.Compiled
import ParserTables.Parser.Forest
import ParserTables.Parser.Run

/-!
Parsing sources with compiled grammars.
-/

namespace ParserTables

inductive SessionError where
  | noLexicalSpec (name : String)
  | unreadable (message : String)
  | parse (e : ParseError)
  | breach (b : Breach)
  deriving DecidableEq

namespace SessionError

def message : SessionError → String
  | .noLexicalSpec name => name ++ " has no lexical specification"
  | .unreadable message => message
  | .parse e => e.message
  | .breach b => b.message?.getD ""

end SessionError

def Observed.outcome {σ : Type} (o : Observed σ) :
    Except SessionError (σ × List SyntaxError) :=
  match o.result with
  | .ended (.failed e) => .error (.parse e)
  | .breached b => .error (.breach b)
  | _ => .ok (o.state, o.errors)

namespace CompiledGrammar

def stream (g : CompiledGrammar) (source : Except String Bytes) : Except SessionError Stream :=
  match g.lexical with
  | none => .error (.noLexicalSpec g.name)
  | some lexical =>
    match source, g.table with
    | .error message, _ => .error (.unreadable message)
    | .ok _, none => .error (.breach .outOfRange)
    | .ok bs, some table =>
      match lexical.stream table.endSymbol bs with
      | .ok s => .ok s
      | .error b => .error (.breach b)

/-- More steps than any run can take in practice. -/
def stepBound : Nat := Nat.pow 2 62

def parse (g : CompiledGrammar) (source : Except String Bytes) (buildTree : Bool) :
    Except SessionError (Option Tree × List SyntaxError) := do
  let s ← g.stream source
  match g.table with
  | none => .error (.breach .outOfRange)
  | some table =>
    if buildTree then
      let (forest, errors) ← (table.watch (Forest.apply table) Forest.empty stepBound s).outcome
      return (forest.root, errors)
    else
      let (_, errors) ← (table.watch Observer.idle () stepBound s).outcome
      return (none, errors)

end CompiledGrammar

end ParserTables

import ParserTables.Automaton.Description
import ParserTables.Lexer.Spec
import ParserTables.Table.Flatten

/-!
Compiled grammars: a parsing table with the lexical specification that goes with it. A grammar
with issues is not compiled, nor is one with conflicts when they are not tolerated.
-/

namespace ParserTables

/-- A compiled grammar that was read from elsewhere may lack either part. -/
structure CompiledGrammar where
  name : String
  lexical : Option LexicalSpec
  table : Option Table

inductive CompileError where
  | issues (all : List Issue)
  | unwritten (message : String)
  | conflicts (shiftReduce reduceReduce : Nat)
  | lexical (message : String)
  | breach (b : Breach)

namespace CompileError

def message : CompileError → String
  | .issues all => Report.renderAll Fault.message all
  | .unwritten message => s!"failed to write a description: {message}"
  | .conflicts sr rr => s!"the grammar has conflicts: {sr} shift/reduce, {rr} reduce/reduce"
  | .lexical message => message
  | .breach b => b.message?.getD ""

end CompileError

abbrev Writer := String → Except String Unit

structure CompileOptions where
  strict : Bool
  describeTo : Option Writer

structure Compilation where
  automaton : Automaton
  described : String
  result : Except CompileError CompiledGrammar

namespace Compilation

def finish (name : String) (strict : Bool) (m : Automaton) :
    Except CompileError CompiledGrammar :=
  if strict && m.hasConflicts then .error (.conflicts m.shiftReduce m.reduceReduce)
  else match LexicalSpec.compile name m with
    | .error message => .error (.lexical message)
    | .ok lexical =>
      match m.table with
      | .error b => .error (.breach b)
      | .ok table => .ok ⟨name, lexical, some table⟩

end Compilation

def Grammar.compile (g : Grammar) (options : CompileOptions) : Compilation :=
  let m := Automaton.generate g
  if m.hasIssues then ⟨m, "", .error (.issues (Report.sort m.issues))⟩
  else match options.describeTo with
    | none => ⟨m, "", Compilation.finish g.name options.strict m⟩
    | some write =>
      match m.describe with
      | .error b => ⟨m, "", .error (.breach b)⟩
      | .ok text =>
        match write text with
        | .error message => ⟨m, "", .error (.unwritten message)⟩
        | .ok () => ⟨m, text, Compilation.finish g.name options.strict m⟩

end ParserTables

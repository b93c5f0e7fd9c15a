import ParserTables.Command.Arguments
import ParserTables.Compiled.Format
import ParserTables.Console
import ParserTables.Editor.Basic
import ParserTables.Grammar.Reader
import ParserTables.Host
import ParserTables.Parser.Message
import ParserTables.Session

/-!
What the commands do. A command shows its result or fails with a message; a syntax error in a
source is a result like any other.
-/

namespace ParserTables

namespace Command

inductive Failure where
  | message (text : String)
  | breach (b : Breach)

abbrev Act (m : Type → Type) := ExceptT Failure m

section

variable {m : Type → Type} [Monad m]

def fail {α : Type} (text : String) : Act m α := throw (.message text)

def orFail {ε α : Type} (message : ε → String) : Except ε α → Act m α
  | .ok a => pure a
  | .error e => fail (message e)

def orBreach {α : Type} : Except Breach α → Act m α
  | .ok a => pure a
  | .error b => throw (.breach b)

/-- A grammar in its written form; without a path it is the input. A directory can be opened, but
not read. -/
def readGrammar (host : Host m) (path : String) : Act m Grammar := do
  if path = "" then orFail ReadError.message (Grammar.read (← host.input))
  else match ← host.read path with
    | .ok content => orFail ReadError.message (Grammar.read content)
    | .error .isDirectory =>
      fail ("invalid grammar description: " ++ FileError.describe "read" path .isDirectory)
    | .error e =>
      fail (s!"cannot open the grammar file {path}: " ++ FileError.describe "open" path e)

def readCompiled (host : Host m) (path : String) : Act m CompiledGrammar := do
  let unreadable (cause : String) : String :=
    s!"cannot read the compiled grammar {path}: " ++ cause
  match ← host.read path with
  | .ok content => orFail (fun e => unreadable e.cause) (CompiledGrammar.read content)
  | .error .isDirectory => fail (unreadable (FileError.describe "read" path .isDirectory))
  | .error e =>
    fail (s!"cannot open the compiled grammar {path}: " ++ FileError.describe "open" path e)

/-- A source to be parsed; that it cannot be read shows when its tokens are asked for. -/
def readSource (host : Host m) (path : String) : Act m (Except String Bytes) := do
  if path = "" then return .ok (← host.input)
  else match ← host.read path with
    | .ok content => return .ok content
    | .error .isDirectory => return .error (FileError.describe "read" path .isDirectory)
    | .error e =>
      fail (s!"cannot open the source file {path}: " ++ FileError.describe "open" path e)

/-- Where a compiled grammar goes: in a directory, to a file named after the grammar. -/
def outputPath (host : Host m) (name path : String) : Act m String := do
  match ← host.isDirectory path with
  | .ok true => return Path.inDirectory path (name ++ ".json")
  | .ok false | .error .missing => return path
  | .error e =>
    fail ("cannot write the compiled grammar: " ++ FileError.describe "stat" path e)

def writeCompiled (host : Host m) (g : CompiledGrammar) (path : String) : Act m Bytes := do
  let content := Bytes.ofString g.write
  if path = "" then return content
  let path ← outputPath host g.name path
  match ← host.write path content with
  | .ok () => return []
  | .error e =>
    fail ("cannot write the compiled grammar: " ++ FileError.describe "open" path e)

def issuesText (source : String) (issues : List Issue) : String :=
  Report.renderAll Fault.message ((Report.sort issues).map fun r => { r with source })

def notice (n : Console.Notice) (text : String) : Bytes := Console.notice n (Bytes.ofString text)

def conflictWarning (c : Automaton) : Bytes :=
  if c.hasConflicts then
    notice .warning
      s!"{c.shiftReduce} shift/reduce conflicts, {c.reduceReduce} reduce/reduce conflicts"
  else []

def runCompile (host : Host m) (path output : String) (strict : Bool) : Act m Bytes := do
  let grammar ← readGrammar host path
  let compilation := grammar.compile ⟨strict, none⟩
  match compilation.result with
  | .ok compiled =>
    let shown ← writeCompiled host compiled output
    return shown ++ conflictWarning compilation.automaton
  | .error (.issues issues) => fail (issuesText (if path = "" then "stdin" else path) issues)
  | .error (.breach b) => throw (.breach b)
  | .error e => fail e.message

def conflictRows (a : Automaton) : Except Breach (List (List String)) := do
  let rows ← a.states.toList.zipIdx.mapM fun (s, i) =>
    s.conflicts.mapM fun (terminal, t) => do
      return [toString i, a.symbols.nameOf terminal, ← a.transitionText t]
  return rows.flatten

def summary (a : Automaton) : Except Breach Bytes := do
  let t ← a.table
  let counts := [t.rules.count, t.states.count, t.entries.count - 1, a.shiftReduce, a.reduceReduce]
  let sizes := Console.table [
    ["rules", "states", "transitions", "shift/reduce", "reduce/reduce"], counts.map toString]
  let rows ← conflictRows a
  let conflicts := if rows = [] then notice .info "no conflicts" else
    Console.table (["state", "terminal", "discarded transition"] :: rows)
  return sizes ++ conflicts

def runDescribe (host : Host m) (path : String) (summaryOnly : Bool) : Act m Bytes := do
  let grammar ← readGrammar host path
  let a := Automaton.generate grammar
  if a.hasIssues then fail (issuesText path a.issues)
  let description ← if summaryOnly then pure "" else
    (· ++ "\n") <$> orBreach a.describe
  return Bytes.ofString description ++ (← orBreach (summary a))

def parseAndShow (g : CompiledGrammar) (source : Except String Bytes) (buildTree : Bool)
    (render : Tree → Bytes) : Except SessionError Bytes := do
  let (tree, errors) ← g.parse source buildTree
  let shown ← errors.mapM fun e =>
    match e.text (g.table.getD .blank) with
    | .ok text => Except.ok (Console.notice .error text)
    | .error b => .error (.breach b)
  match errors, tree with
  | [], some t => return render t
  | _, _ => return shown.flatten

def sessionFailure : SessionError → Failure
  | .breach b => .breach b
  | e => .message e.message

def runParse (host : Host m) (path source : String) (cst pretty : Bool) : Act m Bytes := do
  let g ← readCompiled host path
  let source ← readSource host source
  let render (t : Tree) : Bytes := if pretty then Console.tree t else Bytes.ofString t.print
  match parseAndShow g source (cst || pretty) render with
  | .ok shown => return shown
  | .error e => throw (sessionFailure e)

/-- Shows what comes of a line. White space around it does not count, and a blank line shows
nothing. -/
def showLine (g : CompiledGrammar) (line : List Char) : Act m Bytes := do
  match Text.trimChars line with
  | [] => return []
  | text =>
    let source := Bytes.ofString (String.ofList text)
    match parseAndShow g (.ok source) true (fun t => Bytes.ofString t.print) with
    | .ok shown => return shown
    | .error (.breach b) => throw (.breach b)
    | .error e => return notice .error e.message

def runRepl (host : Host m) (path : String) : Act m Bytes := do
  let g ← readCompiled host path
  let shown ← (Editor.run (← host.input)).mapM fun
    | .sign text => pure (Bytes.ofString text)
    | .line text => showLine g text
  return notice .info "Quit with <ctrl>D" ++ shown.flatten

def usage : String :=
  "Usage:\n"
    ++ "  ptgen compile [grammar file path] [-o path] [--strict]\n"
    ++ "  ptgen describe <grammar file path> [--summary]\n"
    ++ "  ptgen parse <compiled grammar file path> [-s path] [--cst] [--pretty]\n"
    ++ "  ptgen repl <compiled grammar file path>\n"

def act (host : Host m) : Command → Act m Bytes
  | .compile grammar output strict => runCompile host grammar output strict
  | .describe grammar summary => runDescribe host grammar summary
  | .parse grammar source cst pretty => runParse host grammar source cst pretty
  | .repl grammar => runRepl host grammar
  | .help => return Bytes.ofString usage

structure Outcome where
  output : Bytes
  failed : Bool

def run (host : Host m) (arguments : List String) : m (Except Breach Outcome) := do
  match ofArguments arguments with
  | .error e => return .ok ⟨notice .error e.message, true⟩
  | .ok command =>
    match ← (act host command).run with
    | .ok output => return .ok ⟨output, false⟩
    | .error (.message text) => return .ok ⟨notice .error text, true⟩
    | .error (.breach b) => return .error b

end

end Command

end ParserTables

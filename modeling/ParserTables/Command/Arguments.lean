import ParserTables.Command.Basic
import ParserTables.Text.Distance
import ParserTables.Text.Lower
import ParserTables.Text.Quoted

/-!
Reading the arguments of the program. The first word that is neither a flag nor the value of one
names the command; flags and operands of the command may then come in any order, on either side
of its name. Before the command is known every flag without a `=` is taken to have a value.
-/

namespace ParserTables

inductive UsageError where
  | unknownCommand (name : String)
  | notOneOperand (received : Nat)
  | tooManyOperands (received : Nat)
  | malformedFlag (argument : String)
  | unknownFlag (name : String)
  | unknownShorthand (group : String)
  | valueMissing (argument : String)
  | shorthandValueMissing (group : String)
  | notBoolean (value : String) (flag : Flag)
  deriving DecidableEq, Repr

namespace UsageError

def programName : String := "ptgen"

/-- The words that a mistyped command is compared with; the word for help is not among them. -/
def knownWords : List String := ["compile", "describe", "parse", "repl", "completion"]

def resembles (typed word : String) : Bool :=
  let typed := Text.lower typed
  Text.distance (Bytes.ofString typed) (Bytes.ofString word) ≤ 2 || word.startsWith typed

def suggestions (typed : String) : String :=
  match knownWords.filter (resembles typed) with
  | [] => ""
  | words => "\n\nDid you mean this?\n" ++ String.join (words.map fun w => s!"\t{w}\n")

/-- Shorthands are single bytes, so a group is blamed by its first byte. -/
def firstByte (group : String) : Char :=
  match Bytes.ofString group with
  | b :: _ => Char.ofNat b.toNat
  | [] => '\x00'

def message : UsageError → String
  | .unknownCommand name =>
    "unknown command " ++ Text.quote name ++ " for " ++ Text.quote programName ++ suggestions name
  | .notOneOperand n => s!"accepts 1 arg(s), received {n}"
  | .tooManyOperands n => s!"accepts at most 1 arg(s), received {n}"
  | .malformedFlag argument => "bad flag syntax: " ++ argument
  | .unknownFlag name => "unknown flag: --" ++ name
  | .unknownShorthand group =>
    "unknown shorthand flag: " ++ Text.quoteChar (firstByte group) ++ " in -" ++ group
  | .valueMissing argument => "flag needs an argument: " ++ argument
  | .shorthandValueMissing group =>
    "flag needs an argument: " ++ Text.quoteChar (firstByte group) ++ " in -" ++ group
  | .notBoolean value flag =>
    "invalid argument " ++ Text.quote value ++ " for " ++ Text.quote flag.text
      ++ " flag: strconv.ParseBool: parsing " ++ Text.quote value ++ ": invalid syntax"

end UsageError

abbrev Setting := Flag × String

namespace Setting

def booleanOf? (value : String) : Option Bool :=
  if value ∈ ["1", "t", "T", "TRUE", "true", "True"] then some true
  else if value ∈ ["0", "f", "F", "FALSE", "false", "False"] then some false
  else none

def make (f : Flag) (value : String) : Except UsageError Setting :=
  if f.switch && (booleanOf? value).isNone then .error (.notBoolean value f)
  else .ok (f, value)

def value? (settings : List Setting) (f : Flag) : Option String :=
  (settings.reverse.find? (·.1 = f)).map (·.2)

def text (settings : List Setting) (f : Flag) : String := (value? settings f).getD ""

def isOn (settings : List Setting) (f : Flag) : Bool :=
  ((value? settings f).bind booleanOf?).getD false

end Setting

namespace Arguments

/-- Whether an argument in front of the command has the next argument for its value. -/
def takesNext (argument : String) : Bool :=
  !argument.contains '=' &&
    (argument.startsWith "--" || argument.startsWith "-" && argument.utf8ByteSize = 2)

/-- The words among the arguments; a flag that could have the very last argument for its value
ends them. -/
def words : List String → List String
  | [] => []
  | [a] => if a ≠ "" ∧ ¬ a.startsWith "-" then [a] else []
  | a :: b :: rest =>
    if a = "--" then []
    else if takesNext a then (if rest = [] then [] else words rest)
    else if a ≠ "" ∧ ¬ a.startsWith "-" then a :: words (b :: rest)
    else words (b :: rest)

/-- Reads a flag in its long form; the result tells whether it has used the next argument. -/
def long (flags : List Flag) (argument : String) (next : Option String) :
    Except UsageError (Setting × Bool) := do
  let body := argument.toList.drop 2
  if body.head? = some '-' ∨ body.head? = some '=' then .error (.malformedFlag argument)
  let name := String.ofList (body.takeWhile (· ≠ '='))
  match flags.find? (·.name = name), body.dropWhile (· ≠ '=') with
  | none, _ => .error (.unknownFlag name)
  | some f, _ :: value => return (← Setting.make f (String.ofList value), false)
  | some f, [] =>
    if f.switch then return (← Setting.make f "true", false)
    match next with
    | some value => return (← Setting.make f value, true)
    | none => .error (.valueMissing argument)

/-- Reads a group of shorthands. A switch may be followed by further shorthands; what follows any
other flag is its value. A group beginning with `test.` is meant for a test runner. -/
def short (flags : List Flag) (next : Option String) :
    List Char → Except UsageError (List Setting × Bool)
  | [] => .ok ([], false)
  | 't' :: 'e' :: 's' :: 't' :: '.' :: _ => .ok ([], false)
  | c :: more =>
    match flags.find? (·.short = some c) with
    | none => .error (.unknownShorthand (String.ofList (c :: more)))
    | some f =>
      match more with
      | '=' :: v :: value => do
        return ([← Setting.make f (String.ofList (v :: value))], false)
      | _ =>
        if f.switch then do
          let first ← Setting.make f "true"
          let (others, used) ← short flags next more
          return (first :: others, used)
        else if more ≠ [] then do
          return ([← Setting.make f (String.ofList more)], false)
        else match next with
          | some value => do return ([← Setting.make f value], true)
          | none => .error (.shorthandValueMissing (String.ofList (c :: more)))

/-- Tells the flags with their values from the operands. After `--` there are operands only. -/
def split (flags : List Flag) (arguments : List String) :
    Except UsageError (List Setting × List String) :=
  match arguments with
  | [] => .ok ([], [])
  | a :: rest =>
    if a = "--" then .ok ([], rest)
    else if a.startsWith "-" ∧ a ≠ "-" then do
      let (found, used) ←
        if a.startsWith "--" then do
          let (s, used) ← long flags a rest.head?
          pure ([s], used)
        else short flags rest.head? (a.toList.drop 1)
      let (settings, operands) ← split flags (if used then rest.drop 1 else rest)
      return (found ++ settings, operands)
    else do
      let (settings, operands) ← split flags rest
      return (settings, a :: operands)
termination_by arguments.length
decreasing_by
  · split <;> simp only [List.length_drop, List.length_cons] <;> omega
  · simp

end Arguments

namespace Command

def oneOperand (operands : List String) : Except UsageError String :=
  match operands with
  | [a] => .ok a
  | _ => .error (.notOneOperand operands.length)

def ofParts (verb : Verb) (settings : List Setting) (operands : List String) :
    Except UsageError Command := do
  if Setting.isOn settings .help then return .help
  match verb with
  | .compile =>
    if 1 < operands.length then .error (.tooManyOperands operands.length)
    return .compile (operands.head?.getD "") (Setting.text settings .output)
      (Setting.isOn settings .strict)
  | .describe => return .describe (← oneOperand operands) (Setting.isOn settings .summary)
  | .parse =>
    return .parse (← oneOperand operands) (Setting.text settings .source)
      (Setting.isOn settings .cst) (Setting.isOn settings .pretty)
  | .repl => return .repl (← oneOperand operands)
  | .help => return .help

def ofArguments (arguments : List String) : Except UsageError Command :=
  match Arguments.words arguments with
  | [] => do
    let _ ← Arguments.split Verb.commonFlags arguments
    return .help
  | word :: _ =>
    match Verb.ofName? word with
    | none => .error (.unknownCommand word)
    | some verb => do
      let (settings, operands) ← Arguments.split verb.flags (arguments.erase word)
      ofParts verb settings operands

end Command

end ParserTables

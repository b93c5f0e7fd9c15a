/-!
The commands of the program and the flags they take.
-/

namespace ParserTables

/-- A switch needs no value; any other flag takes one. -/
structure Flag where
  name : String
  short : Option Char
  switch : Bool
  deriving DecidableEq, Repr

namespace Flag

def trace : Flag := ⟨"trace", none, false⟩
def help : Flag := ⟨"help", some 'h', true⟩
def output : Flag := ⟨"output", some 'o', false⟩
def strict : Flag := ⟨"strict", none, true⟩
def summary : Flag := ⟨"summary", none, true⟩
def source : Flag := ⟨"source", some 's', false⟩
def cst : Flag := ⟨"cst", none, true⟩
def pretty : Flag := ⟨"pretty", none, true⟩

def text (f : Flag) : String :=
  match f.short with
  | some c => s!"-{c}, --{f.name}"
  | none => s!"--{f.name}"

end Flag

inductive Verb where
  | compile
  | describe
  | parse
  | repl
  | help
  deriving DecidableEq, Repr

namespace Verb

def all : List Verb := [.compile, .describe, .parse, .repl, .help]

def name : Verb → String
  | .compile => "compile"
  | .describe => "describe"
  | .parse => "parse"
  | .repl => "repl"
  | .help => "help"

def ofName? (name : String) : Option Verb := all.find? (·.name = name)

def commonFlags : List Flag := [.trace, .help]

def flags : Verb → List Flag
  | .compile => [.output, .strict] ++ commonFlags
  | .describe => .summary :: commonFlags
  | .parse => [.source, .cst, .pretty] ++ commonFlags
  | .repl => commonFlags
  | .help => commonFlags

end Verb

/-- What to do. An empty path of a grammar to compile or to describe, or of a source, stands for
the input, and an empty output for the output of the program. -/
inductive Command where
  | compile (grammar output : String) (strict : Bool)
  | describe (grammar : String) (summary : Bool)
  | parse (grammar source : String) (cst pretty : Bool)
  | repl (grammar : String)
  | help
  deriving DecidableEq, Repr

end ParserTables

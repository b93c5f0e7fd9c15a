import ParserTables.Report

/-!
The faults that a grammar can have. They are collected rather than thrown, so that one run
reports as many of them as it can.
-/

namespace ParserTables

inductive Fault where
  | noStartSymbol
  | undefinedStartSymbol
  | noRule
  | undefinedSymbol
  | undefinedPrecedence
  | invalidName
  | reservedName
  | duplicateTerminal
  | duplicateNonterminal
  | duplicatePrecedence
  | duplicateName
  | adjacentErrorTokens
  | levelMismatch
  | assocMismatch
  | nonassocNesting
  | tooManySymbols
  deriving DecidableEq, Repr

namespace Fault

def message : Fault → String
  | .noStartSymbol => "a grammar needs a start symbol"
  | .undefinedStartSymbol => "undefined start symbol"
  | .noRule => "a non-terminal needs at least one rule"
  | .undefinedSymbol => "undefined symbol"
  | .undefinedPrecedence => "undefined precedence"
  | .invalidName => "invalid name"
  | .reservedName => "reserved name"
  | .duplicateTerminal => "duplicate terminal"
  | .duplicateNonterminal => "duplicate non-terminal"
  | .duplicatePrecedence => "duplicate precedence"
  | .duplicateName => "duplicate names are not allowed between terminals and non-terminals"
  | .adjacentErrorTokens => "%error tokens cannot be adjacent"
  | .levelMismatch => "shifts competing with a reduction disagree on precedence"
  | .assocMismatch => "shifts competing with a reduction disagree on associativity"
  | .nonassocNesting => "nesting of %nonassoc"
  | .tooManySymbols => "too many symbols"

end Fault

abbrev Issue := Report Fault

namespace Issue

def new (fault : Fault) (detail : String) (pos : Position) : Issue := ⟨fault, detail, pos, "", none⟩

def again (name : String) (earlier : Position) : String :=
  if earlier = .unknown then name else s!"{name} (previously declared at {earlier.text})"

end Issue

end ParserTables

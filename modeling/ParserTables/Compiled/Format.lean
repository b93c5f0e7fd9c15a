import ParserTables.Compiled
import ParserTables.Lexer.Format

/-!
The written form of a compiled grammar: one JSON object. Fields that are not known are passed over,
and either part of a compiled grammar may be missing.
-/

namespace ParserTables

namespace TableRule

def toJson (r : TableRule) : Json :=
  .obj [("lhs", .ofInt r.lhs), ("token_count", .ofInt r.tokenCount), ("description", .str r.text)]

def decode : TableRule → Json → Decode TableRule := Decode.openRecord
  [("lhs", fun r j => return { r with lhs := ← Decode.int r.lhs j }),
   ("token_count", fun r j => return { r with tokenCount := ← Decode.int r.tokenCount j }),
   ("description", fun r j => return { r with text := ← Decode.string r.text j })]

end TableRule

namespace TableState

def toJson (s : TableState) : Json :=
  .obj [("terminal_offset", .ofInt s.terminalOffset), ("terminal_count", .ofInt s.terminalCount),
    ("default_offset", .ofInt s.fallbackOffset),
    ("non_terminal_offset", .ofInt s.nonterminalOffset),
    ("non_terminal_count", .ofInt s.nonterminalCount)]

def decode : TableState → Json → Decode TableState := Decode.openRecord
  [("terminal_offset", fun s j =>
      return { s with terminalOffset := ← Decode.int s.terminalOffset j }),
   ("terminal_count", fun s j =>
      return { s with terminalCount := ← Decode.int s.terminalCount j }),
   ("default_offset", fun s j =>
      return { s with fallbackOffset := ← Decode.int s.fallbackOffset j }),
   ("non_terminal_offset", fun s j =>
      return { s with nonterminalOffset := ← Decode.int s.nonterminalOffset j }),
   ("non_terminal_count", fun s j =>
      return { s with nonterminalCount := ← Decode.int s.nonterminalCount j })]

end TableState

namespace Entry

def toJson (e : Entry) : Json :=
  .obj [("token", .ofInt e.token), ("action", .ofInt e.kind.code), ("data", .ofInt e.data)]

def decode : Entry → Json → Decode Entry := Decode.openRecord
  [("token", fun e j => return { e with token := ← Decode.int e.token j }),
   ("action", fun e j => do
      let code ← Decode.int e.kind.code j
      return { e with kind := EntryKind.ofCode code }),
   ("data", fun e j => return { e with data := ← Decode.int e.data j })]

end Entry

namespace Table

def blank : Table := ⟨.empty, .empty, .empty, 0, 0, .empty, 0, 0, 0, 0, 0⟩

/-- A list of parts, in which `null` stands for a missing one. -/
def partsToJson {α : Type} (part : α → Json) (s : Slots (Option α)) : Json :=
  .arr (s.elements.toList.map fun p => (p.map part).getD .null)

def toJson (t : Table) : Json :=
  .obj [("rules", partsToJson TableRule.toJson t.rules),
    ("states", partsToJson TableState.toJson t.states),
    ("transitions", partsToJson Entry.toJson t.entries),
    ("initial_state", .ofInt t.initialState), ("start_rule", .ofInt t.startRule),
    ("tokens", .arr (t.tokens.elements.toList.map .str)),
    ("terminal_count", .ofInt t.terminalCount),
    ("eof_symbol", .ofInt t.endSymbol), ("error_symbol", .ofInt t.errorSymbol),
    ("shift_reduce_conflicts", .ofInt t.shiftReduce),
    ("reduce_reduce_conflicts", .ofInt t.reduceReduce)]

def decode : Table → Json → Decode Table := Decode.openRecord
  [("rules", fun t j =>
      return { t with rules := ← Decode.parts ⟨0, 0, ""⟩ TableRule.decode t.rules j }),
   ("states", fun t j =>
      return { t with states := ← Decode.parts ⟨0, 0, 0, 0, 0⟩ TableState.decode t.states j }),
   ("transitions", fun t j =>
      return { t with entries := ← Decode.parts ⟨0, .nothing, 0⟩ Entry.decode t.entries j }),
   ("initial_state", fun t j => return { t with initialState := ← Decode.int t.initialState j }),
   ("start_rule", fun t j => return { t with startRule := ← Decode.int t.startRule j }),
   ("tokens", fun t j => return { t with tokens := ← Decode.strings t.tokens j }),
   ("terminal_count", fun t j =>
      return { t with terminalCount := ← Decode.int t.terminalCount j }),
   ("eof_symbol", fun t j => return { t with endSymbol := ← Decode.int t.endSymbol j }),
   ("error_symbol", fun t j => return { t with errorSymbol := ← Decode.int t.errorSymbol j }),
   ("shift_reduce_conflicts", fun t j =>
      return { t with shiftReduce := ← Decode.int t.shiftReduce j }),
   ("reduce_reduce_conflicts", fun t j =>
      return { t with reduceReduce := ← Decode.int t.reduceReduce j })]

end Table

namespace LexicalSpec

def blank : LexicalSpec := ⟨none, .empty, .empty, .empty⟩

def toJson (s : LexicalSpec) : Json :=
  let kinds := Json.obj [("spec", (s.lexer.map Lexer.toJson).getD .null),
    ("kind_to_terminal", .ofInts s.kindToTerminal.elements),
    ("terminal_to_kind", .ofInts s.terminalToKind.elements), ("skip", .ofInts s.skip.elements)]
  .obj [("lexer", .str "maleeni"), ("maleeni", kinds)]

def decodeKinds : LexicalSpec → Json → Decode LexicalSpec := Decode.openRecord
  [("spec", fun s j =>
      return { s with lexer := ← Decode.optional Lexer.blank Lexer.decode s.lexer j }),
   ("kind_to_terminal", fun s j =>
      return { s with kindToTerminal := ← Decode.ints s.kindToTerminal j }),
   ("terminal_to_kind", fun s j =>
      return { s with terminalToKind := ← Decode.ints s.terminalToKind j }),
   ("skip", fun s j => return { s with skip := ← Decode.ints s.skip j })]

/-- A specification that does not name its kinds is none. -/
def decode : Option LexicalSpec → Json → Decode (Option LexicalSpec) := Decode.openRecord
  [("lexer", fun s j => do
      let _ ← Decode.string "" j
      return s),
   ("maleeni", Decode.optional blank decodeKinds)]

end LexicalSpec

namespace CompiledGrammar

def toJson (g : CompiledGrammar) : Json :=
  .obj [("name", .str g.name),
    ("lexical_specification", (g.lexical.map LexicalSpec.toJson).getD .null),
    ("parsing_table", (g.table.map Table.toJson).getD .null)]

def write (g : CompiledGrammar) : String := g.toJson.render ++ "\n"

def decode : CompiledGrammar → Json → Decode CompiledGrammar := Decode.openRecord
  [("name", fun g j => return { g with name := ← Decode.string g.name j }),
   ("lexical_specification", fun g j => do
      let lexical ← match j with
        | .null => pure none
        | j => LexicalSpec.decode g.lexical j
      return { g with lexical }),
   ("parsing_table", fun g j =>
      return { g with table := ← Decode.optional Table.blank Table.decode g.table j })]

def read (bs : Bytes) : Except ReadError CompiledGrammar :=
  match Json.read bs with
  | .error e => .error (.json e)
  | .ok j => (decode ⟨"", none, none⟩ j).result

end CompiledGrammar

end ParserTables

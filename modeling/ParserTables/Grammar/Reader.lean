import ParserTables.Decode
import ParserTables.Grammar.Basic

/-!
Reading a grammar from JSON text. An unknown field is a mismatch like a value of the wrong type;
an unknown associativity ends the reading at once.
-/

namespace ParserTables

def ReadError.message (e : ReadError) : String := "invalid grammar description: " ++ e.cause

/-- Grammars as they are written, before missing nonterminals, rules and tokens are refused. -/
structure RuleText where
  tokens : Slots (Option RuleToken)
  precedence : String
  assoc : Associativity
  action : String
  pos : Position

structure NonterminalText where
  name : String
  rules : Slots (Option RuleText)
  pos : Position

structure GrammarText where
  name : String
  start : Option StartDecl
  tokens : Slots (Option TokenDecl)
  precedences : Slots (Option PrecedenceDecl)
  nonterminals : Slots (Option NonterminalText)

namespace Decode

def assoc (old : Associativity) : Json → Decode Associativity
  | .str s =>
    match Associativity.ofName s with
    | .ok a => pure a
    | .error e => throw (.unknownAssociativity e)
  | .null => pure old
  | _ => do mismatch .wrongType; pure old

def position : Position → Json → Decode Position := record
  [("row", fun p j => return { p with row := ← int p.row j }),
   ("col", fun p j => return { p with col := ← int p.col j })]

def start : StartDecl → Json → Decode StartDecl := record
  [("name", fun d j => return { d with name := ← string d.name j }),
   ("pos", fun d j => return { d with pos := ← position d.pos j })]

def token : TokenDecl → Json → Decode TokenDecl := record
  [("name", fun d j => return { d with name := ← string d.name j }),
   ("type", fun d j => return { d with valueType := ← string d.valueType j }),
   ("pattern", fun d j => return { d with pattern := ← string d.pattern j }),
   ("skip", fun d j => return { d with skip := ← bool d.skip j }),
   ("pos", fun d j => return { d with pos := ← position d.pos j })]

def precedence : PrecedenceDecl → Json → Decode PrecedenceDecl := record
  [("name", fun d j => return { d with name := ← string d.name j }),
   ("assoc", fun d j => return { d with assoc := ← assoc d.assoc j }),
   ("pos", fun d j => return { d with pos := ← position d.pos j })]

def ruleToken : RuleToken → Json → Decode RuleToken := record
  [("name", fun t j => return { t with name := ← string t.name j }),
   ("var", fun t j => return { t with boundTo := ← string t.boundTo j }),
   ("pos", fun t j => return { t with pos := ← position t.pos j })]

def rule : RuleText → Json → Decode RuleText := record
  [("tokens", fun r j => do
      let tokens ← parts ⟨"", "", .unknown⟩ ruleToken r.tokens j
      return { r with tokens }),
   ("prec", fun r j => return { r with precedence := ← string r.precedence j }),
   ("assoc", fun r j => return { r with assoc := ← assoc r.assoc j }),
   ("action", fun r j => return { r with action := ← string r.action j }),
   ("pos", fun r j => return { r with pos := ← position r.pos j })]

def nonterminal : NonterminalText → Json → Decode NonterminalText := record
  [("name", fun n j => return { n with name := ← string n.name j }),
   ("rules", fun n j => do
      let rules ← parts ⟨.empty, "", .left, "", .unknown⟩ rule n.rules j
      return { n with rules }),
   ("pos", fun n j => return { n with pos := ← position n.pos j })]

def grammar : GrammarText → Json → Decode GrammarText := record
  [("name", fun g j => return { g with name := ← string g.name j }),
   ("start", fun g j => do
      let start ← optional ⟨"", .unknown⟩ start g.start j
      return { g with start }),
   ("tokens", fun g j => do
      let tokens ← parts ⟨"", "", "", false, .unknown⟩ token g.tokens j
      return { g with tokens }),
   ("precedences", fun g j => do
      let precedences ← parts ⟨"", .left, .unknown⟩ precedence g.precedences j
      return { g with precedences }),
   ("nonterminals", fun g j => do
      let nonterminals ← parts ⟨"", .empty, .unknown⟩ nonterminal g.nonterminals j
      return { g with nonterminals })]

end Decode

namespace RuleText

def check (owner : String) (r : RuleText) : Except ReadError Rule := do
  let tokens ← r.tokens.elements.toList.mapM fun
    | some t => if t.name = "" then .error (.unnamedToken owner) else .ok t
    | none => .error (.unnamedToken owner)
  return ⟨tokens, r.precedence, r.assoc, r.action, r.pos⟩

end RuleText

namespace NonterminalText

def check (n : NonterminalText) : Except ReadError Nonterminal := do
  let rules ← n.rules.elements.toList.mapM fun
    | some r => r.check n.name
    | none => .error (.nullRule n.name)
  return ⟨n.name, rules, n.pos⟩

end NonterminalText

namespace GrammarText

def blank : GrammarText := ⟨"", none, .empty, .empty, .empty⟩

def check (g : GrammarText) : Except ReadError Grammar := do
  let nonterminals ← g.nonterminals.elements.toList.mapM fun
    | some n => n.check
    | none => .error .nullNonterminal
  return ⟨g.name, g.start, g.tokens.elements.toList, g.precedences.elements.toList, nonterminals⟩

end GrammarText

def Grammar.ofJson (j : Json) : Except ReadError Grammar :=
  (Decode.grammar .blank j).result.bind GrammarText.check

def Grammar.read (bs : Bytes) : Except ReadError Grammar :=
  match Json.read bs with
  | .error e => .error (.json e)
  | .ok j => Grammar.ofJson j

end ParserTables

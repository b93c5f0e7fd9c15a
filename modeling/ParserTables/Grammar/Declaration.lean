import ParserTables.Grammar.Basic

/-!
Grammars written as a list of declarations. Each declaration has a row of its own, counted from
one, so that messages can point at it; the tokens of a rule stand in the columns after the first.
The first rule's owner is the start symbol unless some declaration names one, and of several such
declarations the last counts. The rules of one owner are gathered where its first rule stands.
-/

namespace ParserTables

/-- An unfinished rule introduces its owner and adds nothing else. -/
structure RuleDraft where
  owner : String
  symbols : List (String × String)
  precedence : String
  assoc : Associativity
  action : String
  finished : Bool
  deriving DecidableEq, Repr

inductive Declaration where
  | start (name : String)
  | token (name pattern : String)
  | skip (name pattern : String)
  | precedence (assoc : Associativity) (name : String)
  | rule (draft : RuleDraft)
  deriving DecidableEq, Repr

namespace Declaration

structure Placed where
  row : Nat
  decl : Declaration

def Placed.pos (p : Placed) : Position := ⟨p.row, 1⟩

def place (ds : List Declaration) : List Placed :=
  ds.zipIdx.map fun (d, i) => ⟨i + 1, d⟩

def Placed.start? (p : Placed) : Option StartDecl :=
  match p.decl with
  | .start name => some ⟨name, p.pos⟩
  | _ => none

def Placed.token? (p : Placed) : Option TokenDecl :=
  match p.decl with
  | .token name pattern => some ⟨name, "", pattern, false, p.pos⟩
  | .skip name pattern => some ⟨name, "", pattern, true, p.pos⟩
  | _ => none

def Placed.precedence? (p : Placed) : Option PrecedenceDecl :=
  match p.decl with
  | .precedence assoc name => some ⟨name, assoc, p.pos⟩
  | _ => none

def Placed.draft? (p : Placed) : Option (Nat × RuleDraft) :=
  match p.decl with
  | .rule draft => some (p.row, draft)
  | _ => none

end Declaration

namespace RuleDraft

def toRule (row : Nat) (d : RuleDraft) : Rule where
  tokens := d.symbols.zipIdx.map fun ((name, boundTo), i) => ⟨name, boundTo, ⟨row, i + 2⟩⟩
  precedence := d.precedence
  assoc := d.assoc
  action := d.action
  pos := ⟨row, 1⟩

def addTo (row : Nat) (d : RuleDraft) : List Nonterminal → List Nonterminal
  | [] => [⟨d.owner, if d.finished then [d.toRule row] else [], ⟨row, 1⟩⟩]
  | n :: ns =>
    if n.name = d.owner then
      (if d.finished then { n with rules := n.rules ++ [d.toRule row] } else n) :: ns
    else n :: addTo row d ns

end RuleDraft

open Declaration in
def Grammar.ofDeclarations (name : String) (ds : List Declaration) : Grammar :=
  let placed := place ds
  let drafts := placed.filterMap Placed.draft?
  let firstOwner := drafts.head?.map fun (row, d) => (⟨d.owner, ⟨row, 1⟩⟩ : StartDecl)
  { name := name
    start := (placed.filterMap Placed.start?).getLast?.or firstOwner
    tokens := (placed.filterMap Placed.token?).map some
    precedences := (placed.filterMap Placed.precedence?).map some
    nonterminals := drafts.foldl (fun ns (row, d) => d.addTo row ns) [] }

end ParserTables

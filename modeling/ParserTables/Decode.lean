import ParserTables.Grammar.Associativity
import ParserTables.Json
import ParserTables.Slots
import ParserTables.Text.Lower
import ParserTables.Text.Quoted

/-!
Decoding JSON values into records. A value is decoded onto what its field holds already, so a
repeated field refines the earlier one; `null` empties a list or an optional part and leaves any
other field alone. The elements of a list are decoded onto the slots of the list before, so that
one that has become shorter keeps the elements it had, and a longer one later refines them; an
empty list keeps nothing. Field names match whatever their case. The
first mismatch found is reported after the whole value has been looked at; an error that is thrown
ends the decoding at once.
-/

namespace ParserTables

inductive ReadError where
  | json (e : Json.ReadError)
  | wrongType
  | unknownField (name : String)
  | unknownAssociativity (e : Associativity.UnknownName)
  | nullNonterminal
  | nullRule (owner : String)
  | unnamedToken (owner : String)
  deriving DecidableEq, Repr

namespace ReadError

def cause : ReadError → String
  | .json .empty => "EOF"
  | .json .unexpectedEnd => "unexpected EOF"
  | .json .malformed => "malformed JSON"
  | .wrongType => "a value has the wrong type"
  | .unknownField name => "json: unknown field " ++ Text.quote name
  | .unknownAssociativity e => e.message
  | .nullNonterminal => "a nonterminal must not be null"
  | .nullRule owner => s!"a rule of '{owner}' must not be null"
  | .unnamedToken owner => s!"a rule of '{owner}' has an unnamed token"

end ReadError

/-- Decoding keeps the first mismatch in its state; a thrown error wins over it. -/
abbrev Decode := StateT (Option ReadError) (Except ReadError)

namespace Decode

def mismatch (e : ReadError) : Decode Unit :=
  modify fun first => first.or (some e)

def string (old : String) : Json → Decode String
  | .str s => pure s
  | .null => pure old
  | _ => do mismatch .wrongType; pure old

def int (old : Int) : Json → Decode Int
  | .num literal =>
    match Json.intOfLiteral? literal with
    | some n => pure n
    | none => do mismatch .wrongType; pure old
  | .null => pure old
  | _ => do mismatch .wrongType; pure old

def bool (old : Bool) : Json → Decode Bool
  | .bool b => pure b
  | .null => pure old
  | _ => do mismatch .wrongType; pure old

def optional {α : Type} (blank : α) (item : α → Json → Decode α) (old : Option α) :
    Json → Decode (Option α)
  | .null => pure none
  | j => some <$> item (old.getD blank) j

def onto {α : Type} (blank : α) (item : α → Json → Decode α) :
    Array α → Nat → List Json → Decode (Array α)
  | all, _, [] => pure all
  | all, i, j :: js => do
    let all := Slots.withRoom blank all i
    let x ← item (all.getD i blank) j
    onto blank item (all.setIfInBounds i x) (i + 1) js

def list {α : Type} (blank : α) (item : α → Json → Decode α) (old : Slots α) :
    Json → Decode (Slots α)
  | .null => pure .empty
  | .arr [] => pure .empty
  | .arr js => do return .first js.length (← onto blank item old.all 0 js)
  | _ => do mismatch .wrongType; pure old

/-- A list in which `null` stands for a missing part. -/
def parts {α : Type} (blank : α) (item : α → Json → Decode α) :
    Slots (Option α) → Json → Decode (Slots (Option α)) :=
  list none (optional blank item)

def ints : Slots Int → Json → Decode (Slots Int) := list 0 int

def strings : Slots String → Json → Decode (Slots String) := list "" string

abbrev Field (α : Type) := String × (α → Json → Decode α)

def field? {α : Type} (fields : List (Field α)) (name : String) : Option (Field α) :=
  (fields.find? fun f => f.1 = name).or
    (fields.find? fun f => f.1 = Text.foldName name)

/-- Decodes the members of an object one after another; `other` deals with the names that are not
among the fields. -/
def members {α : Type} (fields : List (Field α)) (other : String → Decode Unit) (old : α) :
    List (String × Json) → Decode α
  | [] => pure old
  | (name, j) :: rest =>
    match field? fields name with
    | some f => do
      let new ← f.2 old j
      members fields other new rest
    | none => do
      other name
      members fields other old rest

def recordWith {α : Type} (fields : List (Field α)) (other : String → Decode Unit) (old : α) :
    Json → Decode α
  | .obj ms => members fields other old ms
  | .null => pure old
  | _ => do mismatch .wrongType; pure old

def record {α : Type} (fields : List (Field α)) (old : α) : Json → Decode α :=
  recordWith fields (fun name => mismatch (.unknownField name)) old

/-- A record that may have further fields, which are passed over. -/
def openRecord {α : Type} (fields : List (Field α)) (old : α) : Json → Decode α :=
  recordWith fields (fun _ => pure ()) old

def result {α : Type} (d : Decode α) : Except ReadError α :=
  match d.run none with
  | .error e => .error e
  | .ok (_, some e) => .error e
  | .ok (a, none) => .ok a

end Decode

end ParserTables

import ParserTables.Editor.Line

/-!
The lines entered so far. The newest entry is the line that is being written; the one above it was
entered last. Going back to an entry and changing it keeps the change until a line is entered.
-/

namespace ParserTables.Editor

structure Entry where
  text : List Glyph
  draft : Option Line
  deriving DecidableEq, Repr

namespace Entry

def blank : Entry := ⟨[], none⟩

def shown (e : Entry) : List Glyph :=
  match e.draft with
  | some l => l.toList
  | none => e.text

def withoutDraft (e : Entry) : Entry := { e with draft := none }

end Entry

/-- Entries from the newest to the oldest, and how many of them lie after the one at hand. -/
structure History where
  entries : List Entry
  place : Nat
  deriving DecidableEq, Repr

namespace History

def empty : History := ⟨[], 0⟩

def limit : Nat := 500

def note (h : History) (l : Line) : History :=
  match h.entries with
  | [] => ⟨[⟨l.toList, none⟩], 0⟩
  | entries =>
    ⟨(entries.modify h.place fun e => { e with draft := some l }).take limit, h.place⟩

/-- Enters a line. An empty line, or the one that was entered last, is not entered again. -/
def enter (h : History) (text : List Glyph) : History :=
  match h.entries with
  | [] => ⟨[.blank, ⟨text, none⟩], 0⟩
  | _ :: older =>
    let older := older.map Entry.withoutDraft
    if text = [] ∨ older.head?.map Entry.text = some text then ⟨.blank :: older, 0⟩
    else ⟨.blank :: ⟨text, none⟩ :: older, 0⟩

def goTo? (h : History) (place : Nat) : Option (List Glyph × History) :=
  (h.entries[place]?).map fun e => (e.shown, { h with place })

def previous? (h : History) : Option (List Glyph × History) := h.goTo? (h.place + 1)

def next? (h : History) : Option (List Glyph × History) :=
  match h.place with
  | 0 => none
  | n + 1 => h.goTo? n

end History

end ParserTables.Editor

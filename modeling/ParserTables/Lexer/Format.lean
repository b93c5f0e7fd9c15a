import ParserTables.Decode
import ParserTables.Lexer.Basic

/-!
The written form of lexers: their tables as lists of numbers. What the tables tell by themselves is
written too, but only looked at for its type when it is read.
-/

namespace ParserTables

namespace Decode

def unused {α β : Type} (blank : β) (item : β → Json → Decode β) (old : α) (j : Json) :
    Decode α := do
  let _ ← item blank j
  return old

end Decode

namespace SharedRows

/-- The names of the size that a table had before its rows were shared. -/
def rowsField : String := "original_row_count"

def columnsField : String := "original_col_count"

end SharedRows

namespace DisplacedRows

def blank : DisplacedRows := ⟨.empty, .empty, .empty⟩

def toJson (t : DisplacedRows) : Json :=
  .obj [(SharedRows.rowsField, .ofNat t.offsets.count),
    (SharedRows.columnsField, .ofNat Machine.byteCount), ("empty_value", .ofNat 0),
    ("entries", .ofInts t.targets.elements), ("bounds", .ofInts t.owners.elements),
    ("row_displacement", .ofInts t.offsets.elements)]

def decode : DisplacedRows → Json → Decode DisplacedRows := Decode.openRecord
  [(SharedRows.rowsField, Decode.unused 0 Decode.int),
   (SharedRows.columnsField, Decode.unused 0 Decode.int),
   ("empty_value", Decode.unused 0 Decode.int),
   ("entries", fun t j => return { t with targets := ← Decode.ints t.targets j }),
   ("bounds", fun t j => return { t with owners := ← Decode.ints t.owners j }),
   ("row_displacement", fun t j => return { t with offsets := ← Decode.ints t.offsets j })]

end DisplacedRows

namespace SharedRows

def blank : SharedRows := ⟨0, .empty, .empty, none⟩

def toJson (t : SharedRows) : Json :=
  .obj [("unique_entries", (t.displaced.map DisplacedRows.toJson).getD .null),
    ("uncompressed_unique_entries", .ofInts t.targets.elements),
    ("row_nums", .ofInts t.rowOf.elements), (rowsField, .ofNat t.rowOf.count),
    (columnsField, .ofInt t.columns), ("empty_value", .ofNat 0)]

def decode : SharedRows → Json → Decode SharedRows := Decode.openRecord
  [("unique_entries", fun t j =>
      return { t with displaced :=
        ← Decode.optional DisplacedRows.blank DisplacedRows.decode t.displaced j }),
   ("uncompressed_unique_entries", fun t j =>
      return { t with targets := ← Decode.ints t.targets j }),
   ("row_nums", fun t j => return { t with rowOf := ← Decode.ints t.rowOf j }),
   (rowsField, Decode.unused 0 Decode.int),
   (columnsField, fun t j => return { t with columns := ← Decode.int t.columns j }),
   ("empty_value", Decode.unused 0 Decode.int)]

end SharedRows

namespace Machine

def blank : Machine := ⟨0, .empty, 0, .empty, none⟩

def toJson (m : Machine) : Json :=
  .obj [("initial_state_id", .ofInt m.start),
    ("accepting_states", .ofInts m.accepted.elements), ("row_count", .ofNat m.accepted.count),
    ("col_count", .ofInt m.columns),
    ("transition", (m.shared.map SharedRows.toJson).getD .null),
    ("uncompressed_transition", .ofInts m.targets.elements)]

def decode : Machine → Json → Decode Machine := Decode.openRecord
  [("initial_state_id", fun m j => return { m with start := ← Decode.int m.start j }),
   ("accepting_states", fun m j => return { m with accepted := ← Decode.ints m.accepted j }),
   ("row_count", Decode.unused 0 Decode.int),
   ("col_count", fun m j => return { m with columns := ← Decode.int m.columns j }),
   ("transition", fun m j =>
      return { m with shared := ← Decode.optional SharedRows.blank SharedRows.decode m.shared j }),
   ("uncompressed_transition", fun m j =>
      return { m with targets := ← Decode.ints m.targets j })]

end Machine

namespace Mode

def blank : Mode := ⟨.empty, .empty, none⟩

def toJson (m : Mode) : Json :=
  .obj [("push", .ofInts m.enters.elements), ("pop", .ofInts m.leaves.elements),
    ("dfa", (m.machine.map Machine.toJson).getD .null)]

def decode : Mode → Json → Decode Mode := Decode.openRecord
  [("kind_names", Decode.unused .empty Decode.strings),
   ("push", fun m j => return { m with enters := ← Decode.ints m.enters j }),
   ("pop", fun m j => return { m with leaves := ← Decode.ints m.leaves j }),
   ("dfa", fun m j =>
      return { m with machine := ← Decode.optional Machine.blank Machine.decode m.machine j })]

end Mode

namespace Lexer

def blank : Lexer := ⟨"", 0, .empty, .empty, 0, .empty⟩

def toJson (l : Lexer) : Json :=
  let modes := l.modes.elements.toList.map fun m => (m.map Mode.toJson).getD .null
  .obj [("name", .str l.name), ("initial_mode_id", .ofInt l.initialMode),
    ("kind_names", .arr (l.kindNames.elements.toList.map .str)),
    ("kind_ids", .arr (l.kindIds.elements.toList.map fun ids => .ofInts ids.elements)),
    ("compression_level", .ofInt l.level), ("specs", .arr modes)]

def decode : Lexer → Json → Decode Lexer := Decode.openRecord
  [("name", fun l j => return { l with name := ← Decode.string l.name j }),
   ("initial_mode_id", fun l j =>
      return { l with initialMode := ← Decode.int l.initialMode j }),
   ("mode_names", Decode.unused .empty Decode.strings),
   ("kind_names", fun l j => return { l with kindNames := ← Decode.strings l.kindNames j }),
   ("kind_ids", fun l j =>
      return { l with kindIds := ← Decode.list .empty Decode.ints l.kindIds j }),
   ("compression_level", fun l j => return { l with level := ← Decode.int l.level j }),
   ("specs", fun l j =>
      return { l with modes := ← Decode.parts Mode.blank Mode.decode l.modes j })]

end Lexer

end ParserTables

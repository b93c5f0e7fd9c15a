import ParserTables.Editor.History
import ParserTables.Editor.Key
import ParserTables.Text.Bytes

/-!
Editing lines by keys. A line ends with the enter key or at the end of the input; a null character
ends a line too, and the whole input when the line is empty. What was taken out of a line last can
be put back into any line.
-/

namespace ParserTables.Editor

structure State where
  line : Line
  taken : List Glyph
  history : History
  deriving DecidableEq, Repr

inductive Shown where
  | sign (text : String)
  | line (text : List Char)
  deriving DecidableEq, Repr

namespace Shown

def bell : Shown := .sign "\x07"

def home : Shown := .sign "\x1b[H"

end Shown

namespace State

def start : State := ⟨.empty, [], .empty⟩

def withLine (s : State) (l : Line) : State := { s with line := l }

def take (s : State) (r : Line × List Glyph) : State := { s with line := r.1, taken := r.2 }

def revisit (s : State) (r : Option (List Glyph × History)) : State × List Shown :=
  match r with
  | some (text, history) => ({ s with line := .ofList text, history }, [])
  | none => (s, [.bell])

/-- What a key does that does not end the line. -/
def edit (s : State) : Key → State × List Shown
  | .typed c => (s.withLine (s.line.insert [.char c]), [])
  | .unknown => (s.withLine (s.line.insert [.unknown]), [])
  | .clearScreen => (s, [.home])
  | .erase => if s.line.isEmpty then (s, [.bell]) else (s.withLine s.line.eraseBefore, [])
  | .delete => if s.line.after = [] then (s, [.bell]) else (s.take (s.line.takeAhead 1), [])
  | .back => (s.withLine s.line.back, [])
  | .ahead => (s.withLine s.line.ahead, [])
  | .backWord => (s.withLine s.line.backWord, [])
  | .aheadWord => (s.withLine s.line.aheadWord, [])
  | .toStart => (s.withLine s.line.toStart, [])
  | .toEnd => (s.withLine s.line.toEnd, [])
  | .killAhead => (s.take (s.line.takeAhead s.line.after.length), [])
  | .killBefore =>
    if s.line.before = [] then (s, []) else (s.take (s.line.takeBefore s.line.before.length), [])
  | .killWordAhead =>
    if s.line.after = [] then (s, []) else (s.take (s.line.takeAhead s.line.wordAhead), [])
  | .killWordBefore =>
    if s.line.before = [] then (s, [])
    else match wordStart? s.line.before with
      | some n => (s.take (s.line.takeBefore n), [])
      | none => (s.withLine .empty, [])
  | .yank => if s.taken = [] then (s, []) else (s.withLine (s.line.insert s.taken), [])
  | .transpose => (s.withLine s.line.transpose, [])
  | .previous => s.revisit s.history.previous?
  | .next => s.revisit s.history.next?
  | .enter | .null | .interrupt | .nothing => (s, [])

def note (s : State) : State := { s with history := s.history.note s.line }

def enter (s : State) : State :=
  note { s with line := .empty, history := s.history.enter s.line.toList }

def entered (s : State) : Shown := .line (s.line.toList.map Glyph.toChar)

def ends (s : State) : Key → Bool
  | .interrupt => true
  | .null => s.line.isEmpty
  | .delete => s.line.isEmpty
  | _ => false

def run (s : State) : List Key → List Shown
  | [] => if s.line.isEmpty then [] else [s.entered]
  | k :: ks =>
    if s.ends k then []
    else if k = .enter ∨ k = .null then s.entered :: s.enter.run ks
    else
      let (s', shown) := s.edit k
      shown ++ s'.note.run ks

end State

def run (input : Bytes) : List Shown :=
  State.start.run (Key.ofText (input.decode.map Bytes.Piece.toChar))

end ParserTables.Editor

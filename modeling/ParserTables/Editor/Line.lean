/-!
A line of text that is being edited, and the place in it where editing goes on. Words are made of
ASCII letters and digits; everything else divides them.
-/

namespace ParserTables.Editor

/-- What stands at one place of a line: a character, or the mark that an unknown key leaves. -/
inductive Glyph where
  | char (c : Char)
  | unknown
  deriving DecidableEq, Repr

namespace Glyph

def toChar : Glyph → Char
  | .char c => c
  | .unknown => '\uFFFD'

end Glyph

/-- The text before the place of editing, last glyph first, and the text after it. The place may
lie beyond the end of the line. -/
structure Line where
  before : List Glyph
  after : List Glyph
  beyond : Nat
  deriving DecidableEq, Repr

def isDivider : Glyph → Bool
  | .char c => !c.isAlphanum
  | .unknown => true

/-- How far back a word begins, counted from the end of a reversed text; a word that begins the
text does not count. -/
def wordStart? : List Glyph → Option Nat
  | c :: d :: rest =>
    if !isDivider c && isDivider d then some 1 else (wordStart? (d :: rest)).map (· + 1)
  | _ => none

def nextWord? : List Glyph → Option Nat
  | d :: c :: rest =>
    if isDivider d && !isDivider c then some 1 else (nextWord? (c :: rest)).map (· + 1)
  | _ => none

namespace Line

def empty : Line := ⟨[], [], 0⟩

def ofList (gs : List Glyph) : Line := ⟨gs.reverse, [], 0⟩

def toList (l : Line) : List Glyph := l.before.reverse ++ l.after

def isEmpty (l : Line) : Bool := l.before.isEmpty && l.after.isEmpty

def insert (l : Line) (gs : List Glyph) : Line := ⟨gs.reverse ++ l.before, l.after, 0⟩

def backBy (l : Line) (n : Nat) : Line :=
  ⟨l.before.drop n, (l.before.take n).reverse ++ l.after, 0⟩

def aheadBy (l : Line) (n : Nat) : Line :=
  ⟨(l.after.take n).reverse ++ l.before, l.after.drop n, 0⟩

/-- One place back; from beyond the end it goes back over places without glyphs. -/
def back (l : Line) : Line :=
  match l.beyond with
  | 0 => l.backBy 1
  | n + 1 => { l with beyond := n }

/-- One place ahead. It stops at the end, but not beyond it. -/
def ahead (l : Line) : Line :=
  match l.beyond with
  | 0 => l.aheadBy 1
  | n + 1 => { l with beyond := n + 2 }

def toStart (l : Line) : Line := l.backBy l.before.length

def toEnd (l : Line) : Line := l.aheadBy l.after.length

def backWord (l : Line) : Line := l.backBy ((wordStart? l.before).getD l.before.length)

def aheadWord (l : Line) : Line := l.aheadBy ((nextWord? l.after).getD l.after.length)

def eraseBefore (l : Line) : Line := ⟨l.before.tail, l.after, 0⟩

/-- Exchanges the two glyphs around the place of editing and moves behind them; at the end it
exchanges the last two. On a line of one glyph it only moves ahead, and beyond the end too. -/
def transpose (l : Line) : Line :=
  match l.before, l.after with
  | [], [g] => ⟨[g], [], 0⟩
  | [_], [] => { l with beyond := l.beyond + 1 }
  | [], g :: h :: rest => ⟨[g, h], rest, 0⟩
  | g :: rest, h :: after => ⟨g :: h :: rest, after, 0⟩
  | g :: h :: rest, [] => ⟨h :: g :: rest, [], 0⟩
  | [], [] => l

/-- Takes out the glyphs ahead, a number of them; they come second. -/
def takeAhead (l : Line) (n : Nat) : Line × List Glyph :=
  (⟨l.before, l.after.drop n, 0⟩, l.after.take n)

def takeBefore (l : Line) (n : Nat) : Line × List Glyph :=
  (⟨l.before.drop n, l.after, 0⟩, (l.before.take n).reverse)

/-- How many glyphs a deleted word has: the dividers in front of it, the word, and all but one of
the dividers after it. -/
def wordAhead (l : Line) : Nat :=
  let dividers := (l.after.takeWhile isDivider).length
  match nextWord? (l.after.drop dividers) with
  | some n => dividers + n - 1
  | none => l.after.length

end Line

end ParserTables.Editor

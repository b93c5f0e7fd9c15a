import ParserTables.Breach
import ParserTables.Room

/-!
The stack of states of a parser. It lies in a room of slots that grows when it is full; the slots
above the top keep what they held. Taking a negative number of states off the stack brings back
the slots above it, as far as the room goes.
-/

namespace ParserTables

/-- The states on the stack, top first, and the spare slots above it, the nearest first. -/
structure StateStack where
  states : List Int
  spare : List Int
  deriving DecidableEq, Repr

namespace StateStack

def empty : StateStack := ⟨[], []⟩

def top (s : StateStack) : Except Breach Int :=
  match s.states with
  | state :: _ => .ok state
  | [] => .error .outOfRange

def push (s : StateStack) (state : Int) : StateStack :=
  match s.spare with
  | _ :: rest => ⟨state :: s.states, rest⟩
  | [] =>
    let size := s.states.length
    ⟨state :: s.states, List.replicate (Room.next Room.numbers size - size - 1) 0⟩

@[simp] theorem states_push (s : StateStack) (state : Int) :
    (s.push state).states = state :: s.states := by
  unfold push
  split <;> rfl

def drop (s : StateStack) (count : Nat) : StateStack :=
  ⟨s.states.drop count, (s.states.take count).reverse ++ s.spare⟩

def restore (s : StateStack) (count : Nat) : StateStack :=
  ⟨(s.spare.take count).reverse ++ s.states, s.spare.drop count⟩

def pop (s : StateStack) (count : Int) : Except Breach StateStack :=
  match count with
  | .ofNat n => if n ≤ s.states.length then .ok (s.drop n) else .error .outOfRange
  | .negSucc n => if n < s.spare.length then .ok (s.restore (n + 1)) else .error .outOfRange

theorem pop_ofNat (s : StateStack) (count : Nat) (h : count ≤ s.states.length) :
    s.pop count = .ok (s.drop count) :=
  if_pos h

end StateStack

end ParserTables

import ParserTables.Breach
import ParserTables.Room

/-!
Lists that lie in slots. The slots behind the elements keep what they held when the list was
longer, or a blank; a window on a list may reach into them, but no single lookup does.
-/

namespace ParserTables

structure Slots (α : Type) where
  all : Array α
  count : Nat
  count_le : count ≤ all.size
  deriving DecidableEq, Repr

namespace Slots

variable {α : Type}

def first (n : Nat) (all : Array α) : Slots α := ⟨all, min n all.size, Nat.min_le_right _ _⟩

def ofArray (as : Array α) : Slots α := ⟨as, as.size, Nat.le_refl _⟩

def empty : Slots α := ofArray #[]

def ofParts (as : Array α) : Slots (Option α) := ofArray (as.map some)

def elements (s : Slots α) : Array α := s.all.extract 0 s.count

theorem elements_ofArray (as : Array α) : (ofArray as).elements = as := Array.extract_size

@[simp] theorem count_ofArray (as : Array α) : (ofArray as).count = as.size := rfl

def get (s : Slots α) (i : Int) : Except Breach α :=
  if i < s.count then elementAt s.all i else .error .outOfRange

theorem get_ofArray (as : Array α) (i : Int) : (ofArray as).get i = elementAt as i := by
  unfold get
  split
  · rfl
  · next h =>
    have hi : ¬ i < 0 := by
      simp only [count_ofArray] at h
      omega
    have hn : as[i.toNat]? = none := by
      simp only [count_ofArray] at h
      exact Array.getElem?_eq_none (by omega)
    simp [elementAt, hi, hn]

def window (s : Slots α) (offset n : Int) : Except Breach (Array α) :=
  if offset < 0 ∨ n < 0 ∨ (s.all.size : Int) < offset + n then .error .outOfRange
  else .ok (s.all.extract offset.toNat (offset + n).toNat)

/-- The slots, with blank ones added if there is none for the `i`-th element. -/
def withRoom (blank : α) (all : Array α) (i : Nat) : Array α :=
  if i < all.size then all
  else all ++ Array.replicate (Room.next Room.records all.size - all.size) blank

end Slots

end ParserTables

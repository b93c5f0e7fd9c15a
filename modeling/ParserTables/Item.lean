/-!
Items, that is rules with a dot, given by the number of the rule and the number of tokens left of
the dot, and finite sets of items in ascending order. Two sets with the same members are equal.
-/

namespace ParserTables

structure Item where
  rule : Nat
  phase : Nat
  deriving DecidableEq, Repr

namespace Item

def lt (a b : Item) : Prop := a.rule < b.rule ∨ (a.rule = b.rule ∧ a.phase < b.phase)

instance (a b : Item) : Decidable (lt a b) := by
  unfold lt
  infer_instance

theorem lt_irrefl (a : Item) : ¬ lt a a := by
  unfold lt
  omega

theorem lt_trans {a b c : Item} (hab : lt a b) (hbc : lt b c) : lt a c := by
  unfold lt at *
  omega

theorem eq_of_not_lt {a b : Item} (hab : ¬ lt a b) (hba : ¬ lt b a) : a = b := by
  obtain ⟨r, p⟩ := a
  obtain ⟨r', p'⟩ := b
  simp only [lt] at hab hba
  simp only [Item.mk.injEq]
  omega

def advance (a : Item) : Item := ⟨a.rule, a.phase + 1⟩

def phaseLimit : Nat := 0x100000000

/-- `advance` on the 32-bit words that items are exchanged in; it goes round at their end. -/
def next (a : Item) : Item := ⟨a.rule, (a.phase + 1) % phaseLimit⟩

def text (a : Item) : String := s!"({a.rule}, {a.phase})"

def insertInto (a : Item) : List Item → List Item
  | [] => [a]
  | b :: bs => if lt a b then a :: b :: bs else if lt b a then b :: insertInto a bs else b :: bs

theorem mem_insertInto {a b : Item} {bs : List Item} :
    b ∈ insertInto a bs ↔ b = a ∨ b ∈ bs := by
  induction bs with
  | nil => simp [insertInto]
  | cons c cs ih =>
    unfold insertInto
    split
    · simp
    · split
      · simp only [List.mem_cons, ih]
        constructor
        · rintro (h | h | h) <;> simp [h]
        · rintro (h | h | h) <;> simp [h]
      · next hac hca =>
        obtain rfl := eq_of_not_lt hac hca
        simp

theorem pairwise_insertInto {a : Item} {bs : List Item} (h : bs.Pairwise lt) :
    (insertInto a bs).Pairwise lt := by
  induction bs with
  | nil => simp [insertInto]
  | cons c cs ih =>
    obtain ⟨hc, hcs⟩ := List.pairwise_cons.mp h
    unfold insertInto
    split
    · next hac =>
      refine List.pairwise_cons.mpr ⟨fun d hd => ?_, h⟩
      rcases List.mem_cons.mp hd with rfl | hd
      · exact hac
      · exact lt_trans hac (hc d hd)
    · split
      · next hca =>
        refine List.pairwise_cons.mpr ⟨fun d hd => ?_, ih hcs⟩
        rcases mem_insertInto.mp hd with rfl | hd
        · exact hca
        · exact hc d hd
      · exact h

end Item

structure ItemSet where
  items : List Item
  ascending : items.Pairwise Item.lt
  deriving DecidableEq

namespace ItemSet

instance : Membership Item ItemSet := ⟨fun s a => a ∈ s.items⟩

instance (a : Item) (s : ItemSet) : Decidable (a ∈ s) :=
  inferInstanceAs (Decidable (a ∈ s.items))

def empty : ItemSet := ⟨[], List.Pairwise.nil⟩

def insert (s : ItemSet) (a : Item) : ItemSet :=
  ⟨a.insertInto s.items, Item.pairwise_insertInto s.ascending⟩

def ofList (as : List Item) : ItemSet := as.foldl insert empty

def erase (s : ItemSet) (a : Item) : ItemSet :=
  ⟨s.items.filter (· ≠ a), s.ascending.filter _⟩

def difference (s t : ItemSet) : ItemSet :=
  ⟨s.items.filter (· ∉ t), s.ascending.filter _⟩

def size (s : ItemSet) : Nat := s.items.length

def isEmpty (s : ItemSet) : Bool := s.items.isEmpty

def first? (s : ItemSet) : Option Item := s.items.head?

def isOnly (s : ItemSet) (a : Item) : Bool := s.items = [a]

def text (s : ItemSet) : String :=
  "\x7b" ++ String.intercalate ", " (s.items.map Item.text) ++ "\x7d"

theorem mem_def {a : Item} {s : ItemSet} : a ∈ s ↔ a ∈ s.items := Iff.rfl

@[simp] theorem not_mem_empty (a : Item) : a ∉ empty := by
  simp [mem_def, empty]

@[simp] theorem mem_insert {a b : Item} {s : ItemSet} : b ∈ s.insert a ↔ b = a ∨ b ∈ s :=
  Item.mem_insertInto

theorem mem_foldl_insert {a : Item} {as : List Item} {s : ItemSet} :
    a ∈ as.foldl insert s ↔ a ∈ s ∨ a ∈ as := by
  induction as generalizing s with
  | nil => simp
  | cons b bs ih =>
    simp only [List.foldl_cons, ih, mem_insert, List.mem_cons]
    constructor
    · rintro ((h | h) | h) <;> simp [h]
    · rintro (h | h | h) <;> simp [h]

@[simp] theorem mem_ofList {a : Item} {as : List Item} : a ∈ ofList as ↔ a ∈ as := by
  simp [ofList, mem_foldl_insert]

end ItemSet

end ParserTables

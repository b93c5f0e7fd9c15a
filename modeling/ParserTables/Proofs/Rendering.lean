import Mathlib.Data.List.Infix
import ParserTables.Tree

/-!
The two plain renderings of a tree agree. A place in a tree is given by the numbers of the children
on the way to it, so the order of the places in which a node stands before its children, and these
from left to right, is the lexicographic one. Ruled lines and levels both go through the places in
this order. The level of a place is its length, and in front of its caption the ruled lines have a
piece for each node on the way to it: whether a node is the last child of its parent is seen in the
branch to it and in the trunk below it.
-/

namespace ParserTables.Tree

variable {t c : Tree} {cs ds : List Tree} {l : Label} {p : List Nat} {a i : Nat}

def children : Tree → List Tree
  | .absent => []
  | .node _ cs => cs

def at? (t : Tree) : List Nat → Option Tree
  | [] => some t
  | i :: p => t.children[i]?.bind fun c => c.at? p

def Full (t : Tree) : Prop := ∀ p, t.at? p ≠ some .absent

def captionAt (t : Tree) (p : List Nat) : String :=
  match t.at? p with
  | some (.node l _) => l.caption
  | _ => ""

def isLast (t : Tree) (p : List Nat) : Bool :=
  (t.at? p.dropLast).any fun parent => p.getLast?.map (· + 1) = some parent.children.length

/-- What is drawn in front of the caption at a place: the trunk below each node on the way from the
root to it, and the branch to the place itself. -/
def pieces (t : Tree) (p : List Nat) : List String :=
  p.inits.tail.map fun q => if q = p then branch (t.isLast q) else trunk (t.isLast q)

mutual

def places : Tree → List (List Nat)
  | .absent => []
  | .node _ cs => [] :: placesFrom 0 cs

def placesFrom (i : Nat) : List Tree → List (List Nat)
  | [] => []
  | c :: cs => (places c).map (i :: ·) ++ placesFrom (i + 1) cs

end

/-! ### Places -/

theorem at_cons (h : t.children[i]? = some c) : t.at? (i :: p) = c.at? p := by
  simp [at?, h]

theorem full_node : (Tree.node l cs).Full ↔ ∀ c ∈ cs, c.Full := by
  constructor
  · intro h c hc p
    obtain ⟨i, hi⟩ := List.getElem?_of_mem hc
    have hplace := h (i :: p)
    rwa [at_cons (show (Tree.node l cs).children[i]? = some c from hi)] at hplace
  · intro h p
    cases p with
    | nil => simp [at?]
    | cons i p =>
      cases hi : cs[i]? with
      | none => simp [at?, children, hi]
      | some c =>
        rw [at_cons (show (Tree.node l cs).children[i]? = some c from hi)]
        exact h c (List.mem_of_getElem? hi) p

theorem mem_placesFrom : p ∈ placesFrom i cs ↔
    ∃ j c q, cs[j]? = some c ∧ q ∈ c.places ∧ (i + j) :: q = p := by
  induction cs generalizing i with
  | nil => simp [placesFrom]
  | cons c cs ih =>
    rw [placesFrom, List.mem_append, List.mem_map, ih]
    constructor
    · rintro (⟨q, hq, rfl⟩ | ⟨j, d, q, hd, hq, rfl⟩)
      · exact ⟨0, c, q, rfl, hq, rfl⟩
      · exact ⟨j + 1, d, q, hd, hq, congrArg (· :: q) (by omega)⟩
    · rintro ⟨j, d, q, hd, hq, rfl⟩
      cases j with
      | zero =>
        cases hd
        exact Or.inl ⟨q, hq, rfl⟩
      | succ j => exact Or.inr ⟨j, d, q, hd, hq, congrArg (· :: q) (by omega)⟩

theorem mem_places : p ∈ t.places ↔ ∃ l cs, t.at? p = some (.node l cs) := by
  induction p generalizing t with
  | nil =>
    cases t with
    | absent => simp [places, at?]
    | node l cs => simp [places, at?]
  | cons i p ih =>
    cases t with
    | absent => simp [places, at?, children]
    | node l cs =>
      simp only [places, List.mem_cons, reduceCtorEq, false_or, mem_placesFrom, Nat.zero_add,
        List.cons.injEq]
      constructor
      · rintro ⟨j, c, q, hc, hq, rfl, rfl⟩
        rw [at_cons (show (Tree.node l cs).children[j]? = some c from hc)]
        exact ih.mp hq
      · rintro ⟨l', cs', hplace⟩
        obtain ⟨c, hc, hp⟩ := Option.bind_eq_some_iff.mp hplace
        exact ⟨i, c, p, hc, ih.mpr ⟨l', cs', hp⟩, rfl, rfl⟩

theorem Full.mem_places (h : t.Full) : p ∈ t.places ↔ (t.at? p).isSome := by
  rw [Tree.mem_places]
  cases hplace : t.at? p with
  | none => simp
  | some s =>
    cases s with
    | absent => exact absurd hplace (h p)
    | node l cs => simp

mutual

theorem places_ascending : (t : Tree) → t.places.Pairwise (· < ·)
  | .absent => List.Pairwise.nil
  | .node l cs => by
    refine List.pairwise_cons.mpr ⟨?_, placesFrom_ascending 0 cs⟩
    intro p hp
    obtain ⟨j, c, q, -, -, rfl⟩ := mem_placesFrom.mp hp
    exact List.nil_lt_cons _ _

theorem placesFrom_ascending (i : Nat) : (cs : List Tree) → (placesFrom i cs).Pairwise (· < ·)
  | [] => List.Pairwise.nil
  | c :: cs => by
    refine List.pairwise_append.mpr ⟨?_, placesFrom_ascending (i + 1) cs, ?_⟩
    · refine (places_ascending c).map _ ?_
      intro p q hpq
      exact List.cons_lt_cons_iff.mpr (Or.inr ⟨rfl, hpq⟩)
    · intro p hp q hq
      obtain ⟨p, -, rfl⟩ := List.mem_map.mp hp
      obtain ⟨j, d, q, -, -, rfl⟩ := mem_placesFrom.mp hq
      exact List.cons_lt_cons_iff.mpr (Or.inl (by omega))

end

/-! ### Pieces -/

theorem isLast_single : t.isLast [i] = decide (i + 1 = t.children.length) := by
  simp [isLast, at?]

theorem isLast_cons (h : t.children[i]? = some c) :
    t.isLast (i :: a :: p) = c.isLast (a :: p) := by
  simp [isLast, at_cons h]

/-- On the way to a place the first piece belongs to a child of the root, and the others are those
of the place in the tree of the child. -/
theorem pieces_cons (h : t.children[i]? = some c) : t.pieces (i :: p) =
    if p = [] then [branch (t.isLast [i])] else trunk (t.isLast [i]) :: c.pieces p := by
  cases p with
  | nil => simp [pieces]
  | cons a p => simp [pieces, isLast_cons h]

theorem length_pieces : (t.pieces p).length = p.length := by
  simp [pieces]

theorem length_piece {piece : String} (h : piece ∈ t.pieces p) : piece.length = 3 := by
  obtain ⟨q, -, rfl⟩ := List.mem_map.mp h
  split
  · cases t.isLast q <;> rfl
  · cases t.isLast q <;> rfl

/-! ### Renderings -/

theorem captionAt_cons (h : t.children[i]? = some c) :
    t.captionAt (i :: p) = c.captionAt p := by
  simp [captionAt, at_cons h]

theorem children_behind : (Tree.node l (ds ++ c :: cs)).children[ds.length]? = some c := by
  simp [children]

theorem isLast_behind : (Tree.node l (ds ++ c :: cs)).isLast [ds.length] = cs.isEmpty := by
  rw [isLast_single]
  cases cs <;> simp [children]

mutual

theorem lines_eq (ruled below : String) : (t : Tree) → t.lines ruled below = t.places.map fun p =>
    (if p = [] then ruled else below ++ String.join (t.pieces p)) ++ t.captionAt p
  | .absent => rfl
  | .node l cs => by
    have hchildren := childLines_eq below l [] cs
    rw [lines, places, List.map_cons, hchildren]
    refine congrArg _ (List.map_congr_left fun p hp => ?_)
    obtain ⟨j, c, q, -, -, rfl⟩ := mem_placesFrom.mp hp
    rfl

/-- The lines of the last children, when `ds` are the children before them. -/
theorem childLines_eq (below : String) (l : Label) (ds : List Tree) : (cs : List Tree) →
    childLines below cs = (placesFrom ds.length cs).map fun p =>
      below ++ String.join ((Tree.node l (ds ++ cs)).pieces p) ++
        (Tree.node l (ds ++ cs)).captionAt p
  | [] => rfl
  | c :: cs => by
    have hothers := childLines_eq below l (ds ++ [c]) cs
    rw [List.append_assoc, List.singleton_append, List.length_append, List.length_singleton]
      at hothers
    rw [childLines, placesFrom, List.map_append, List.map_map, hothers, lines_eq _ _ c]
    refine congrArg (· ++ _) (List.map_congr_left fun p _ => ?_)
    rw [Function.comp_apply, pieces_cons children_behind, captionAt_cons children_behind,
      isLast_behind]
    by_cases hp : p = []
    · simp [hp]
    · simp [hp, String.append_assoc]

end

mutual

theorem levelsFrom_eq (level : Nat) : (t : Tree) → t.Full →
    t.levelsFrom? level = some (t.places.map fun p => (level + p.length, t.captionAt p))
  | .absent, h => absurd rfl (h [])
  | .node l cs, h => by
    rw [levelsFrom?, childLevels_eq level l [] cs (full_node.mp h)]
    rfl

theorem childLevels_eq (level : Nat) (l : Label) (ds : List Tree) : (cs : List Tree) →
    (∀ c ∈ cs, c.Full) → childLevels? (level + 1) cs = some ((placesFrom ds.length cs).map fun p =>
      (level + p.length, (Tree.node l (ds ++ cs)).captionAt p))
  | [], _ => rfl
  | c :: cs, h => by
    obtain ⟨hc, hcs⟩ := List.forall_mem_cons.mp h
    have hothers := childLevels_eq level l (ds ++ [c]) cs hcs
    rw [List.append_assoc, List.singleton_append, List.length_append, List.length_singleton]
      at hothers
    rw [childLevels?, levelsFrom_eq (level + 1) c hc, hothers, placesFrom, List.map_append,
      List.map_map]
    refine congrArg (fun first => some (first ++ _)) (List.map_congr_left fun p _ => ?_)
    rw [Function.comp_apply, captionAt_cons children_behind, List.length_cons]
    exact congrArg (·, c.captionAt p) (by omega)

end

/-- The two renderings of a tree without absent places go through its places in lexicographic
order. The level of a place is its length, and it is drawn with as many pieces of three characters
in front of its caption. -/
theorem renderings_agree (t : Tree) (h : t.Full) :
    t.places.Pairwise (· < ·) ∧ (∀ p, p ∈ t.places ↔ (t.at? p).isSome = true) ∧
    t.levels? = some (t.places.map fun p => (p.length, t.captionAt p)) ∧
    t.print = String.join (t.places.map fun p =>
      String.join (t.pieces p) ++ t.captionAt p ++ "\n") ∧
    ∀ p, (t.pieces p).length = p.length ∧ ∀ piece ∈ t.pieces p, piece.length = 3 := by
  refine ⟨places_ascending t, fun p => h.mem_places, ?_, ?_,
    fun p => ⟨length_pieces, fun _ => length_piece⟩⟩
  · rw [levels?, levelsFrom_eq 0 t h]
    simp only [Nat.zero_add]
  · rw [print, lines_eq, List.map_map]
    refine congrArg String.join (List.map_congr_left fun p _ => ?_)
    by_cases hp : p = []
    · simp [hp, pieces]
    · simp [hp]

def mendedSum : Tree :=
  let leaf (kind : String) (text : Bytes) : Tree := .node ⟨kind, text, 0, 0, false⟩ []
  let inner (kind : String) : List Tree → Tree := .node ⟨kind, [], 0, 0, false⟩
  inner "sum" [inner "sum" [leaf "n" [0x31]], leaf "'+'" [0x2B],
    inner "n" [.node ⟨"%error", [], 0, 4, true⟩ [], leaf ")" [0x29]]]

theorem mended_sum_rendered : mendedSum.Full ∧
    mendedSum.levels? = some [(0, "sum"), (1, "sum"), (2, "n \"1\""), (1, "'+' \"+\""), (1, "n"),
      (2, "!%error"), (2, ") \")\"")] ∧
    mendedSum.print = "sum\n├─ sum\n│  └─ n \"1\"\n├─ '+' \"+\"\n└─ n\n" ++
      "   ├─ !%error\n   └─ ) \")\"\n" := by
  have hfull : mendedSum.Full := by simp [mendedSum, full_node]
  obtain ⟨-, -, hlevels, hprint, -⟩ := renderings_agree mendedSum hfull
  exact ⟨hfull, hlevels.trans (by decide +kernel), hprint.trans (by decide +kernel)⟩

end ParserTables.Tree

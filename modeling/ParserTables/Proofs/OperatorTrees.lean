import ParserTables.Proofs.Operators
import ParserTables.Proofs.Trees

/-!
The trees of expressions with binary operators. Many trees have the same tokens; that which the
bindings of the operators ask for has, at every operation, operands that may stand there. Such a
tree exists for every sequence of atoms with operators between them: the next operator and its
right operand are put in on the right side of the tree, as far up as the operators there let it.
-/

namespace ParserTables

namespace Tree

def ofToken (name : String) (token : Token) : Tree :=
  .node ⟨name, token.lexeme, token.row, token.col, false⟩ []

def ofChildren (name : String) (children : List Tree) : Tree :=
  .node ⟨name, [], Forest.rowOf children, Forest.colOf children, false⟩ children

/-- The operator of an operation, which is a node with a leaf between two operands. -/
def operator? : Tree → Option String
  | .node _ [_, .node l [], _] => some l.kind
  | _ => none

/-- Every operand of an operation may stand where it stands. -/
inductive Grouped (g : Grammar) : Tree → Prop
  | atom {l l' : Label} : Grouped g (.node l [.node l' []])
  | operation {l l' : Label} {left right : Tree} : left.Grouped g → right.Grouped g →
      (∀ o, left.operator? = some o → (g.binding o).GroupsLeft (g.binding l'.kind)) →
      (∀ o, right.operator? = some o → (g.binding o).GroupsRight (g.binding l'.kind)) →
      Grouped g (.node l [left, .node l' [], right])

end Tree

/-- Names that an atom comes first of, and then operators with an atom behind each. -/
inductive Alternates (e : String) (rules : List Rule) : List String → Prop
  | atom {r : Rule} {a : String} : r ∈ rules → r.names = [a] → Alternates e rules [a]
  | operation {r r' : Rule} {o a : String} {w : List String} : Alternates e rules w → r ∈ rules →
      r.names = [e, o, e] → r' ∈ rules → r'.names = [a] → Alternates e rules (w ++ [o, a])

/-- The trees of atoms and operations, with their tokens. -/
inductive Expression (t : Table) (e : String) (rules : List Rule) : Tree → List Token → Prop
  | atom {r : Rule} {a : String} {token : Token} : r ∈ rules → r.names = [a] →
      t.tokenName (t.terminalOf (some token)) = .ok a →
      Expression t e rules (.ofChildren e [.ofToken a token]) [token]
  | operation {r : Rule} {o : String} {token : Token} {left right : Tree} {us vs : List Token} :
      r ∈ rules → r.names = [e, o, e] → t.tokenName (t.terminalOf (some token)) = .ok o →
      Expression t e rules left us → Expression t e rules right vs →
      Expression t e rules (.ofChildren e [left, .ofToken o token, right]) (us ++ token :: vs)

/-- The trees of some names: an expression for the nonterminal, a token for every other name. -/
inductive Operands (t : Table) (e : String) (rules : List Rule) :
    List String → List Tree → List Token → Prop
  | nil : Operands t e rules [] [] []
  | token {x : String} {xs : List String} {token : Token} {trees : List Tree} {ts : List Token} :
      x ≠ e → t.tokenName (t.terminalOf (some token)) = .ok x → Operands t e rules xs trees ts →
      Operands t e rules (x :: xs) (.ofToken x token :: trees) (token :: ts)
  | expression {xs : List String} {root : Tree} {trees : List Tree} {us ts : List Token} :
      Expression t e rules root us → Operands t e rules xs trees ts →
      Operands t e rules (e :: xs) (root :: trees) (us ++ ts)

namespace Expression

variable {g : Grammar} {t : Table} {e o a : String} {rules : List Rule} {r r' : Rule} {root : Tree}
  {trees : List Tree} {ts us : List Token} {token token' : Token} {xs w : List String}

theorem operands_of_parses (ho : g.Operators e rules) {recovered : Prop} (hno : ¬ recovered)
    (h : g.Parses t recovered xs trees ts) : Operands t e rules xs trees ts := by
  obtain ⟨pos, hnt⟩ := ho.nonterminals
  have hone : ∀ nt ∈ g.nonterminals, nt = ⟨e, rules, pos⟩ := by
    intro nt hmem
    rw [hnt] at hmem
    exact List.mem_singleton.mp hmem
  induction h with
  | nil => exact .nil
  | @token x token _ _ _ hx hname _ ih =>
    have hne : x ≠ e := (hx ⟨e, rules, pos⟩ (by simp [hnt])).symm
    exact .token hne hname ih
  | error hrec _ _ => exact absurd hrec hno
  | @rule nt r children trees us ts xs hmem hr _ _ ihc ih =>
    obtain rfl := hone nt hmem
    refine .expression ?_ ih
    change Operands t e rules r.names children us at ihc
    obtain ⟨i, hi⟩ := List.getElem?_of_mem hr
    obtain ⟨x, hxe, -, hnames | hnames⟩ := ho.mark_of_rule hi
    · rw [hnames] at ihc
      cases ihc with
      | token hne _ _ => exact absurd rfl hne
      | expression hleft hrest =>
        cases hrest with
        | expression _ _ => exact absurd rfl hxe
        | token _ hname hrest =>
          cases hrest with
          | token hne _ _ => exact absurd rfl hne
          | expression hright hnil =>
            cases hnil
            rw [List.append_nil]
            exact .operation hr hnames hname hleft hright
    · rw [hnames] at ihc
      cases ihc with
      | token _ hname hrest =>
        cases hrest
        exact .atom hr hnames hname
      | expression _ _ => exact absurd rfl hxe

theorem parses_iff (ho : g.Operators e rules) :
    g.Parses t False [e] [root] ts ↔ Expression t e rules root ts := by
  constructor
  · intro h
    cases operands_of_parses ho not_false h with
    | token hne _ _ => exact absurd rfl hne
    | expression hroot hnil =>
      cases hnil
      rw [List.append_nil]
      exact hroot
  · intro h
    obtain ⟨pos, hnt⟩ := ho.nonterminals
    have hnode : ∀ {r : Rule} {children : List Tree} {us : List Token}, r ∈ rules →
        g.Parses t False r.names children us →
        g.Parses t False [e] [.ofChildren e children] us := by
      intro r children us hr hchildren
      have hmem : (⟨e, rules, pos⟩ : Nonterminal) ∈ g.nonterminals := by simp [hnt]
      have hroot := Grammar.Parses.rule hmem hr hchildren .nil
      rwa [List.append_nil] at hroot
    have hother : ∀ {r : Rule} {x : String}, r ∈ rules → (r.names = [e, x, e] ∨ r.names = [x]) →
        ∀ nt ∈ g.nonterminals, nt.name ≠ x := by
      intro r x hr hnames nt hmem
      obtain ⟨i, hi⟩ := List.getElem?_of_mem hr
      rw [hnt] at hmem
      rw [List.mem_singleton.mp hmem]
      exact (ho.mark_ne hi hnames).symm
    induction h with
    | atom hr hnames hname =>
      apply hnode hr
      rw [hnames]
      exact .token (hother hr (Or.inr hnames)) hname .nil
    | operation hr hnames hname _ _ ihl ihr =>
      apply hnode hr
      rw [hnames]
      exact ihl.append (.token (hother hr (Or.inl hnames)) hname ihr)

/-- An operator and an atom more, put in where they may stand. -/
theorem exists_extended (h : Expression t e rules root us) (hgrouped : root.Grouped g)
    (hr : r ∈ rules) (hnames : r.names = [e, o, e])
    (hname : t.tokenName (t.terminalOf (some token)) = .ok o)
    (hassoc : (g.binding o).assoc = .left ∨ (g.binding o).assoc = .right)
    (hr' : r' ∈ rules) (hnames' : r'.names = [a])
    (hname' : t.tokenName (t.terminalOf (some token')) = .ok a) :
    ∃ root', Expression t e rules root' (us ++ [token, token']) ∧ root'.Grouped g ∧
      (root'.operator? = some o ∨ root'.operator? = root.operator?) := by
  have hatom : Expression t e rules (.ofChildren e [.ofToken a token']) [token'] :=
    .atom hr' hnames' hname'
  have htop : ∀ {root : Tree} {us : List Token}, Expression t e rules root us → root.Grouped g →
      (∀ p, root.operator? = some p → (g.binding p).GroupsLeft (g.binding o)) →
      ∃ root', Expression t e rules root' (us ++ [token, token']) ∧ root'.Grouped g ∧
        (root'.operator? = some o ∨ root'.operator? = root.operator?) := by
    intro root us hroot hgrouped hleft
    refine ⟨_, .operation hr hnames hname hroot hatom, .operation hgrouped .atom hleft ?_,
      Or.inl rfl⟩
    intro p hp
    cases hp
  induction h with
  | atom hr hnames hname =>
    refine htop (.atom hr hnames hname) hgrouped ?_
    intro p hp
    cases hp
  | @operation r₁ p token₁ left right us vs hr₁ hnames₁ hname₁ hleft hright _ ihr =>
    by_cases hgroups : (g.binding p).GroupsLeft (g.binding o)
    · refine htop (.operation hr₁ hnames₁ hname₁ hleft hright) hgrouped ?_
      intro p' hp'
      cases hp'
      exact hgroups
    · have hbelow : (g.binding o).GroupsRight (g.binding p) :=
        Binding.groupsRight_of_not_left hgroups (g.binding_consistent p o) hassoc
      cases hgrouped with
      | operation hgl hgr hll hrr =>
        obtain ⟨right', hright', hgr', hoperator⟩ := ihr hgr
        have hroot := Expression.operation hr₁ hnames₁ hname₁ hleft hright'
        rw [← List.cons_append, ← List.append_assoc] at hroot
        refine ⟨_, hroot, .operation hgl hgr' hll ?_, Or.inr rfl⟩
        intro p' hp'
        rcases hoperator with ho | ho
        · cases ho.symm.trans hp'
          exact hbelow
        · exact hrr p' (ho.symm.trans hp')

/-- Atoms with operators between them have a tree in which every operand may stand where it is. -/
theorem exists_grouped (hw : Alternates e rules w)
    (hassoc : ∀ r ∈ rules, ∀ o, r.names = [e, o, e] →
      (g.binding o).assoc = .left ∨ (g.binding o).assoc = .right)
    (hnames : List.Forall₂ (fun token x => t.tokenName (t.terminalOf (some token)) = .ok x) ts w) :
    ∃ root, Expression t e rules root ts ∧ root.Grouped g := by
  induction hw generalizing ts with
  | atom hr hatom =>
    obtain ⟨token, rfl, hname⟩ := exists_one hnames
    exact ⟨_, .atom hr hatom hname, .atom⟩
  | @operation r r' o a w _ hr hoperator hr' hatom ih =>
    have hfirst := List.forall₂_take w.length hnames
    have hlast := List.forall₂_drop w.length hnames
    rw [List.take_left] at hfirst
    rw [List.drop_left] at hlast
    obtain ⟨root, hroot, hgrouped⟩ := ih hfirst
    obtain ⟨token, rest, hname, hrest, htokens⟩ := List.forall₂_cons_right_iff.mp hlast
    obtain ⟨token', rfl, hname'⟩ := exists_one hrest
    obtain ⟨root', hroot', hgrouped', -⟩ := hroot.exists_extended hgrouped hr hoperator hname
      (hassoc r hr o hoperator) hr' hatom hname'
    rw [← htokens, List.take_append_drop] at hroot'
    exact ⟨root', hroot', hgrouped'⟩

end Expression

end ParserTables

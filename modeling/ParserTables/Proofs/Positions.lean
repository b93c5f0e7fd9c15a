import ParserTables.Proofs.Soundness

/-!
Where the nodes of a tree stand. A reduction puts its node where the first child stands, so a node
stands where one gets to by going from child to first child. That is its leftmost leaf unless one
gets to the node of an empty rule, which stands at the very beginning, whatever stands behind it.
Where no rule begins with a symbol that can be empty, one always gets to the leftmost leaf.
-/

namespace ParserTables

namespace Tree

mutual

/-- The leaves of a tree from left to right: its nodes that are not of an inner kind. -/
def leaves (inner : String → Bool) : Tree → List Label
  | .absent => []
  | .node l cs => if inner l.kind then leavesOfAll inner cs else [l]

def leavesOfAll (inner : String → Bool) : List Tree → List Label
  | [] => []
  | c :: cs => leaves inner c ++ leavesOfAll inner cs

end

mutual

/-- The leaf at the left edge of a tree: the one that first children lead to, if they lead to a
leaf. -/
def edge? (inner : String → Bool) : Tree → Option Label
  | .absent => none
  | .node l cs => if inner l.kind then edgeOfFirst? inner cs else some l

def edgeOfFirst? (inner : String → Bool) : List Tree → Option Label
  | [] => none
  | c :: _ => edge? inner c

end

inductive Within : Tree → Tree → Prop
  | self {t : Tree} : Within t t
  | child {s c : Tree} {l : Label} {cs : List Tree} : c ∈ cs → Within s c → Within s (.node l cs)

variable {inner : String → Bool} {l e : Label} {cs : List Tree}

mutual

theorem head_leaves : (t : Tree) → t.edge? inner = some e → (t.leaves inner).head? = some e
  | .absent, h => by cases h
  | .node l cs, h => by
    unfold edge? at h
    unfold leaves
    split
    · next hinner =>
      rw [if_pos hinner] at h
      exact head_leavesOfAll cs h
    · next hinner =>
      rw [if_neg hinner] at h
      exact h

theorem head_leavesOfAll : (cs : List Tree) → edgeOfFirst? inner cs = some e →
    (leavesOfAll inner cs).head? = some e
  | [], h => by cases h
  | c :: cs, h => by
    unfold edgeOfFirst? at h
    unfold leavesOfAll
    rw [List.head?_append, head_leaves c h]
    rfl

end

/-- The place of a leaf; the beginning if there is none. -/
def placeOf : Option Label → Int × Int
  | some l => (l.row, l.col)
  | none => (0, 0)

end Tree

namespace Grammar

def isNonterminal (g : Grammar) (name : String) : Bool := g.nonterminals.any (·.name = name)

/-- No rule begins with a symbol that the empty sequence can be derived from. -/
def FirstsFilled (g : Grammar) : Prop :=
  ∀ nt ∈ g.nonterminals, ∀ r ∈ nt.rules, ∀ first, r.tokens.head? = some first →
    ¬ g.Generates [first.name] []

theorem Generates.eq_nil {g : Grammar}
    (hrules : ∀ nt ∈ g.nonterminals, ∀ r ∈ nt.rules, r.tokens ≠ []) {xs w : List String}
    (h : g.Generates xs w) (hw : w = []) : xs = [] := by
  induction h with
  | nil => rfl
  | terminal _ _ _ => cases hw
  | rule hnt hr _ _ ihu _ =>
    have htokens := ihu (List.append_eq_nil_iff.mp hw).1
    exact absurd (List.map_eq_nil_iff.mp htokens) (hrules _ hnt _ hr)

theorem firstsFilled_of_rules {g : Grammar}
    (hrules : ∀ nt ∈ g.nonterminals, ∀ r ∈ nt.rules, r.tokens ≠ []) : g.FirstsFilled := by
  intro nt _ r _ first _ h
  cases h.eq_nil hrules rfl

theorem isNonterminal_eq_false {g : Grammar} {name : String} :
    g.isNonterminal name = false ↔ ∀ nt ∈ g.nonterminals, nt.name ≠ name := by
  simp [isNonterminal]

theorem isNonterminal_of_mem {g : Grammar} {nt : Nonterminal} (hnt : nt ∈ g.nonterminals) :
    g.isNonterminal nt.name = true :=
  List.any_eq_true.mpr ⟨nt, hnt, decide_eq_true rfl⟩

namespace Parses

open ParserTables.Tree (Within edge? leaves placeOf)

variable {g : Grammar} {t : Table} {recovered : Prop} {xs : List String} {trees : List Tree}
  {ts : List Token} {x : String} {root : Tree}

theorem within (h : g.Parses t recovered xs trees ts) {s : Tree} (hroot : root ∈ trees)
    (hs : Within s root) : ∃ x us, g.Parses t recovered [x] [s] us := by
  induction h generalizing root with
  | nil => cases hroot
  | token hx hname _ ih =>
    rcases List.mem_cons.mp hroot with rfl | hroot
    · cases hs with
      | self => exact ⟨_, _, .token hx hname .nil⟩
      | child hc _ => cases hc
    · exact ih hroot hs
  | error hrec _ ih =>
    rcases List.mem_cons.mp hroot with rfl | hroot
    · cases hs with
      | self => exact ⟨_, _, .error hrec .nil⟩
      | child hc _ => cases hc
    · exact ih hroot hs
  | rule hnt hr hchildren _ ihc ih =>
    rcases List.mem_cons.mp hroot with rfl | hroot
    · cases hs with
      | self => exact ⟨_, _, .rule hnt hr hchildren .nil⟩
      | child hc hs => exact ihc hc hs
    · exact ih hroot hs

theorem stands (herror : g.isNonterminal errorName = false)
    (h : g.Parses t recovered xs trees ts) : ∀ root ∈ trees, ∃ l cs, root = .node l cs ∧
      (l.row, l.col) = placeOf (root.edge? g.isNonterminal) := by
  induction h with
  | nil => simp
  | @token x token _ _ _ hx _ _ ih =>
    have hleaf := isNonterminal_eq_false.mpr hx
    refine List.forall_mem_cons.mpr ⟨⟨_, _, rfl, ?_⟩, ih⟩
    simp [edge?, hleaf, placeOf]
  | error _ _ ih =>
    refine List.forall_mem_cons.mpr ⟨⟨_, _, rfl, ?_⟩, ih⟩
    simp [edge?, herror, placeOf]
  | @rule nt r children trees _ _ _ hnt _ _ _ ihc ih =>
    have hinner := isNonterminal_of_mem hnt
    refine List.forall_mem_cons.mpr ⟨⟨_, _, rfl, ?_⟩, ih⟩
    simp only [edge?, hinner, if_true]
    cases children with
    | nil => rfl
    | cons c cs =>
      obtain ⟨l, cs', rfl, hplace⟩ := ihc c List.mem_cons_self
      exact hplace

/-- The trees of names have leaves at their left edges where the empty sequence cannot be derived
from the names. -/
abbrev Edged (g : Grammar) (xs : List String) (trees : List Tree) : Prop :=
  List.Forall₂ (fun x root => ¬ g.Generates [x] [] → (edge? g.isNonterminal root).isSome = true)
    xs trees

theorem Edged.first (hfilled : g.FirstsFilled) {nt : Nonterminal} (hnt : nt ∈ g.nonterminals)
    {r : Rule} (hr : r ∈ nt.rules) (h : Edged g (r.tokens.map (·.name)) trees)
    (hne : r.tokens ≠ []) : (Tree.edgeOfFirst? g.isNonterminal trees).isSome = true := by
  obtain ⟨first, rest, htokens⟩ := List.exists_cons_of_ne_nil hne
  rw [htokens, List.map_cons] at h
  cases h with
  | cons hfirst _ => exact hfirst (hfilled nt hnt r hr first (by rw [htokens]; rfl))

/-- A symbol that the empty sequence cannot be derived from has a leaf at the left edge. -/
theorem edge_of_filled (hfilled : g.FirstsFilled) (herror : g.isNonterminal errorName = false)
    (h : g.Parses t recovered xs trees ts) : Edged g xs trees := by
  induction h with
  | nil => exact .nil
  | @token x _ _ _ _ hx _ _ ih =>
    have hleaf := isNonterminal_eq_false.mpr hx
    exact .cons (fun _ => by simp [edge?, hleaf]) ih
  | error _ _ ih => exact .cons (fun _ => by simp [edge?, herror]) ih
  | @rule nt r children _ _ _ _ hnt hr _ _ ihc ih =>
    have hinner := isNonterminal_of_mem hnt
    refine .cons (fun hne => ?_) ih
    simp only [edge?, hinner, if_true]
    refine ihc.first hfilled hnt hr fun htokens => ?_
    exact hne (.rule hnt hr (by rw [htokens]; exact .nil) .nil)

theorem edge_of_leaves (hfilled : g.FirstsFilled) (herror : g.isNonterminal errorName = false)
    (h : g.Parses t recovered [x] [root] ts) (hleaves : root.leaves g.isNonterminal ≠ []) :
    ∃ e, root.edge? g.isNonterminal = some e := by
  rw [← Option.isSome_iff_exists]
  cases h with
  | token hx _ _ =>
    have hleaf := isNonterminal_eq_false.mpr hx
    simp [edge?, hleaf]
  | error _ _ => simp [edge?, herror]
  | @rule nt r children _ _ _ _ hnt hr hchildren _ =>
    have hinner := isNonterminal_of_mem hnt
    have hedges := hchildren.edge_of_filled hfilled herror
    simp only [edge?, hinner, if_true]
    refine hedges.first hfilled hnt hr fun htokens => ?_
    rw [htokens] at hchildren
    cases hchildren
    simp [leaves, hinner, Tree.leavesOfAll] at hleaves

end Parses

end Grammar

namespace Table

open ParserTables.Tree (Within)

variable {g : Grammar} {options : CompileOptions} {cg : CompiledGrammar} {t : Table}

theorem accepted_parses (h : (g.compile options).result = .ok cg) (ht : cg.table = some t)
    {n : Nat} {s : Stream}
    (hrun : (t.watch (Forest.apply t) Forest.empty n s).result = .ended .accepted) :
    let run := t.watch (Forest.apply t) Forest.empty n s
    ∃ d root ts, g.start = some d ∧ run.state.root = some root ∧
      g.Parses t (run.errors ≠ []) [d.name] [root] ts := by
  have hg := Automaton.generated_of_compile h ht
  have hends := hg.watch_ends n s
  dsimp only at hends ⊢
  rw [hrun] at hends
  rcases hends with hout | ⟨b, hb, -⟩ | ⟨message, hm, -⟩ | ⟨ending, hhalts⟩
  · cases hout
  · cases hb
  · cases hm
  · cases hhalts.result.symm.trans hrun
    obtain ⟨-, f, c, xs, done, event, c', -, -, hb, hhalt, herrors, hafter⟩ := hhalts
    cases hhalt with
    | accept hr hsym hxs herr =>
      subst hxs
      obtain ⟨d, root, ts, e, hd, happly, hparses, -⟩ := hg.bears_accept hr hsym hb
      have hstate : Forest.apply t f .accept = .ok _ := hafter
      rw [happly] at hstate
      rw [herrors, herr, ← Except.ok.inj hstate]
      exact ⟨d, root, ts, hd, rfl, hparses⟩

/-- In the tree of an accepted input every node stands at its left edge: where its leftmost leaf
does if first children lead there, and at the beginning if they lead to an empty rule. Where no
rule begins with a symbol that can be empty, every node with leaves stands at its leftmost one. -/
theorem nodes_stand (h : (g.compile options).result = .ok cg) (ht : cg.table = some t)
    {n : Nat} {s : Stream}
    (hrun : (t.watch (Forest.apply t) Forest.empty n s).result = .ended .accepted) :
    ∃ root, (t.watch (Forest.apply t) Forest.empty n s).state.root = some root ∧
      ∀ l cs, Within (.node l cs) root →
        let node : Tree := .node l cs
        (∀ e, node.edge? g.isNonterminal = some e →
          (node.leaves g.isNonterminal).head? = some e ∧ l.row = e.row ∧ l.col = e.col) ∧
        (node.edge? g.isNonterminal = none → l.row = 0 ∧ l.col = 0) ∧
        (g.FirstsFilled → ∀ e, (node.leaves g.isNonterminal).head? = some e →
          l.row = e.row ∧ l.col = e.col) := by
  have hg := Automaton.generated_of_compile h ht
  have herror : g.isNonterminal errorName = false := by
    obtain ⟨name, htext, -, hne⟩ := hg.terminal_name hg.well_formed.error_lt
    cases hg.represents.error_text.symm.trans htext
    exact Grammar.isNonterminal_eq_false.mpr hne
  obtain ⟨d, root, ts, -, hroot, hparses⟩ := accepted_parses h ht hrun
  refine ⟨root, hroot, fun l cs hwithin => ?_⟩
  obtain ⟨x, us, hnode⟩ := hparses.within List.mem_cons_self hwithin
  obtain ⟨l', cs', heq, hplace⟩ := hnode.stands herror _ List.mem_cons_self
  cases heq
  have hedge : ∀ e, (Tree.node l cs).edge? g.isNonterminal = some e →
      ((Tree.node l cs).leaves g.isNonterminal).head? = some e ∧ l.row = e.row ∧
        l.col = e.col := by
    intro e he
    rw [he] at hplace
    exact ⟨Tree.head_leaves _ he, congrArg Prod.fst hplace, congrArg Prod.snd hplace⟩
  refine ⟨hedge, ?_, ?_⟩
  · intro hnone
    rw [hnone] at hplace
    exact ⟨congrArg Prod.fst hplace, congrArg Prod.snd hplace⟩
  · intro hfilled e he
    obtain ⟨e', he'⟩ := hnode.edge_of_leaves hfilled herror fun hnone => by
      rw [hnone] at he
      cases he
    obtain ⟨hhead, hstands⟩ := hedge e' he'
    cases hhead.symm.trans he
    exact hstands

set_option maxRecDepth 100000 in
theorem letters_stand : ∃ cg t, (Grammar.letters.compile ⟨true, none⟩).result = .ok cg ∧
    cg.table = some t ∧
    let run := t.watch (Forest.apply t) Forest.empty 20 (Stream.ofTerminals [2, 2])
    run.result = .ended .accepted ∧ ∃ root, run.state.root = some root ∧
      ∀ l cs, Within (.node l cs) root →
        ∀ e, ((Tree.node l cs).leaves Grammar.letters.isNonterminal).head? = some e →
          l.row = e.row ∧ l.col = e.col := by
  obtain ⟨cg, t, h, ht, hrun⟩ := @Grammar.exists_table Grammar.letters ⟨true, none⟩
    (fun t => (t.watch (Forest.apply t) Forest.empty 20 (Stream.ofTerminals [2, 2])).result =
      .ended .accepted) (by decide +kernel)
  have hresult := of_decide_eq_true hrun
  obtain ⟨root, hroot, hall⟩ := nodes_stand h ht hresult
  have hfilled : Grammar.letters.FirstsFilled := Grammar.firstsFilled_of_rules (by decide)
  exact ⟨cg, t, h, ht, hresult, root, hroot, fun l cs hwithin =>
    (hall l cs hwithin).2.2 hfilled⟩

def emptyFirst : Grammar where
  name := "empty first"
  start := some ⟨"s", .unknown⟩
  tokens := [some ⟨"x", "", "", false, .unknown⟩]
  precedences := []
  nonterminals := [("s", ["e", "x"]), ("e", [])].map fun (owner, names) =>
    ⟨owner, [⟨names.map fun name => ⟨name, "", .unknown⟩, "", .left, "", .unknown⟩], .unknown⟩

def lateToken : Stream := ⟨[.ok ⟨.ordinary, 2, [0x78], 0, 5⟩], Stream.endToken 0⟩

set_option maxRecDepth 100000 in
/-- The root stands at the beginning, and its only leaf does not. -/
theorem empty_first_stands_at_beginning : ∃ cg t,
    (emptyFirst.compile ⟨true, none⟩).result = .ok cg ∧ cg.table = some t ∧
    let run := t.watch (Forest.apply t) Forest.empty 20 lateToken
    run.result = .ended .accepted ∧ run.errors = [] ∧ ∃ l cs e,
      run.state.root = some (.node l cs) ∧ emptyFirst.isNonterminal l.kind = true ∧
      ((Tree.node l cs).leaves emptyFirst.isNonterminal).head? = some e ∧
      (l.row, l.col) = (0, 0) ∧ (e.row, e.col) = (0, 5) := by
  obtain ⟨cg, t, h, ht, hrun⟩ := @Grammar.exists_table emptyFirst ⟨true, none⟩
    (fun t =>
      let run := t.watch (Forest.apply t) Forest.empty 20 lateToken
      decide (run.result = .ended .accepted ∧ run.errors = []) && match run.state.root with
        | some (.node l cs) => decide (emptyFirst.isNonterminal l.kind = true ∧
            ((Tree.node l cs).leaves emptyFirst.isNonterminal).head? =
              some ⟨"x", [0x78], 0, 5, false⟩ ∧ (l.row, l.col) = (0, 0))
        | some .absent => false
        | none => false) (by decide +kernel)
  obtain ⟨hends, hroot⟩ := Bool.and_eq_true_iff.mp hrun
  obtain ⟨hresult, herrors⟩ := of_decide_eq_true hends
  refine ⟨cg, t, h, ht, hresult, herrors, ?_⟩
  split at hroot
  · next l cs hnode =>
    obtain ⟨hinner, hleaf, hplace⟩ := of_decide_eq_true hroot
    exact ⟨l, cs, _, hnode, hinner, hleaf, hplace, rfl⟩
  · cases hroot
  · cases hroot

end Table

end ParserTables

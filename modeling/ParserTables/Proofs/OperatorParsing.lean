import ParserTables.Proofs.Flattening
import ParserTables.Proofs.OperatorStates
import ParserTables.Proofs.OperatorTrees

/-!
Parsing with operators. The run follows the tree that the bindings of the operators ask for: where
an operation is complete, the operator before it and the one behind it both leave it alone, so it is
reduced there and nowhere earlier. A run has one end, hence there is one such tree.
-/

namespace ParserTables

namespace Automaton

/-- A run without errors that has the stream `s` before it. -/
structure Reading (m : Automaton) (c : Config) (s : Stream) (ks : List ItemSet) (xs : List Nat) :
    Prop extends Clean m c ks xs where
  input : ∃ token, s.next = .ok (token, c.stream) ∧ c.ahead = some token

section Events

variable {g : Grammar} {m : Automaton} {t : Table} {c : Config} {f : Forest} {s s' s'' : Stream}
  {k k' : ItemSet} {ks ks' : List ItemSet} {xs : List Nat} {a : Item} {i x : Nat} {r : Production}
  {token token' : Token} {name : String} {trees : List Tree} {root : Option Tree}

theorem Reading.ahead_eq (hc : Reading m c s ks xs) (hs : s.next = .ok (token, s')) :
    c.ahead = some token ∧ c.stream = s' := by
  obtain ⟨token', hnext, hahead⟩ := hc.input
  cases hnext.symm.trans hs
  exact ⟨hahead, rfl⟩

theorem Reading.shift (hc : Reading m c s (k :: ks) xs) (h : Generated g m t)
    (hs : s.next = .ok (token, s')) (hne : token.isEnd = false)
    (hs' : s'.next = .ok (token', s'')) (hx : t.terminalOf (some token) = x)
    (hname : t.tokenName (t.terminalOf (some token)) = .ok name)
    (ha : a ∈ m.grammar.closure k.items) (ht : m.grammar.tokenAt? a = some x)
    (hm : (m.grammar.state k).moveOn? x =
      some ⟨.shift, m.grammar.goto (m.grammar.closure k.items) x⟩) :
    ∃ c', t.Traces (Forest.apply t) (f, c) (⟨.ofToken name token :: f.trees, f.root⟩, c') ∧
      Reading m c' s' (m.grammar.goto (m.grammar.closure k.items) x :: k :: ks) (x :: xs) := by
  obtain ⟨hahead, hstream⟩ := hc.ahead_eq hs
  obtain ⟨c', hstep, hclean, hahead', hstream'⟩ := hc.toClean.shift h hahead hne (hstream ▸ hs') hx
    (NumberedGrammar.goto_nonempty ha ht) hm
  have happly : Forest.apply t f (.shift token false) =
      .ok ⟨.ofToken name token :: f.trees, f.root⟩ := Forest.apply_shift hname
  refine ⟨c', .single hstep happly, hclean, token', ?_, hahead'⟩
  rw [hstream']
  exact hs'

theorem Reading.reduce (children : List Tree) {ss : List Nat} {u : Nat}
    (hr : m.grammar.rules[i]? = some r) (hsym : r.symbols = ss) (hl : r.lhs = u)
    (hc : Reading m c s (k' :: ks') (ss.reverse ++ xs)) (h : Generated g m t) (hi : i ≠ 0)
    (ha : ⟨i, ss.length⟩ ∈ m.grammar.closure k'.items)
    (hbelow : m.grammar.Path (k :: ks) xs) (hs : s.next = .ok (token, s'))
    (hm : (m.grammar.state k').moveOn? (t.terminalOf (some token)) =
      some (m.grammar.reduction ⟨i, ss.length⟩))
    (hname : m.symbols.text? u = some name) (hcount : children.length = ss.length) :
    ∃ c', t.Traces (Forest.apply t) (⟨children.reverse ++ trees, root⟩, c)
        (⟨.ofChildren name children :: trees, root⟩, c') ∧
      Reading m c' s (m.grammar.goto (m.grammar.closure k.items) u :: k :: ks) (u :: xs) := by
  subst hsym
  subst hl
  obtain ⟨hahead, -⟩ := hc.ahead_eq hs
  rw [← hahead] at hm
  obtain ⟨c', hstep, hclean, hahead', hstream'⟩ := hc.toClean.reduce h hr hi ha hbelow hm
  have htokens : t.tokenCount i = .ok (children.length : Int) := by
    rw [hcount, ← h.well_formed.length_tokens hr]
    exact h.shows.token_count hr
  have happly := @Forest.apply_reduce t ⟨children.reverse ++ trees, root⟩ trees.reverse children
    i r.lhs false name htokens (h.shows.lhs_eq hr) (h.shows.token_name hname) (by simp)
  rw [List.reverse_reverse] at happly
  refine ⟨c', .single hstep happly, hclean, ?_⟩
  rw [hahead', hstream']
  exact hc.input

end Events

structure ForOperators (g : Grammar) (e : String) (rules : List Rule) (m : Automaton) (t : Table)
    (u : Nat) : Prop where
  operators : g.Operators e rules
  generated : Generated g m t
  operand : m.symbols.text? u = some e
  productions : m.grammar.OperatorRules u (m.numbering.bindingOf g)

/-- The tree may stand behind the symbols `xs` and before the terminal `y`. -/
structure Fits (g : Grammar) (m : Automaton) (u : Nat) (xs : List Nat) (root : Tree) (y : Nat) :
    Prop where
  awaited : NumberedGrammar.OperatorRules.Awaiting m.grammar u xs
  before : ∀ o, root.operator? = some o → ∀ x ∈ xs.head?,
    (g.binding o).GroupsRight (m.numbering.bindingOf g x)
  after : y = SymbolTable.endSymbol ∨ ∃ j, m.grammar.IsOperator u j y ∧
    ∀ o, root.operator? = some o → (g.binding o).GroupsLeft (m.numbering.bindingOf g y)

/-- A run over the tokens of the tree builds it, where the tree may stand. -/
def Builds (g : Grammar) (m : Automaton) (t : Table) (u : Nat) (root : Tree) (us : List Token) :
    Prop :=
  ∀ (f : Forest) {c : Config} {k : ItemSet} {ks : List ItemSet} {xs : List Nat} {b : Item}
    {s s' s'' : Stream} {next : Token} {y : Nat}, Reading m c s (k :: ks) xs →
    b ∈ m.grammar.closure k.items → m.grammar.tokenAt? b = some u → s.Reads us s' →
    s'.next = .ok (next, s'') → t.terminalOf (some next) = y → Fits g m u xs root y →
    ∃ c', t.Traces (Forest.apply t) (f, c) (⟨root :: f.trees, f.root⟩, c') ∧
      Reading m c' s' (m.grammar.goto (m.grammar.closure k.items) u :: k :: ks) (u :: xs)

variable {g : Grammar} {e o a : String} {rules : List Rule} {m : Automaton} {t : Table} {u : Nat}
  {r : Rule} {token : Token} {left right root : Tree} {us vs : List Token} {xs : List Nat}
  {x y i : Nat}

theorem Fits.lt (hp : m.grammar.OperatorRules u (m.numbering.bindingOf g))
    (hfits : Fits g m u xs root y) : y < m.grammar.terminalCount := by
  rcases hfits.after with rfl | ⟨j, hj, -⟩
  · exact hp.well_formed.end_lt
  · exact (hp.mark_bounds (Or.inr hj)).2.1

theorem Fits.left_operand (hfits : Fits g m u xs (.ofChildren e [left, .ofToken o token, right]) y)
    (hoperator : m.grammar.IsOperator u i x) (hbinding : m.numbering.bindingOf g x = g.binding o)
    (hleft : ∀ p, left.operator? = some p → (g.binding p).GroupsLeft (g.binding o)) :
    Fits g m u xs left x := by
  refine ⟨hfits.awaited, ?_, Or.inr ⟨i, hoperator, ?_⟩⟩
  · intro p hp z hz
    exact (hleft p hp).right_of (hfits.before o rfl z hz) (g.binding_consistent p o)
  · intro p hp
    rw [hbinding]
    exact hleft p hp

theorem Fits.right_operand (hfits : Fits g m u xs (.ofChildren e [left, .ofToken o token, right]) y)
    (hoperator : m.grammar.IsOperator u i x) (hbinding : m.numbering.bindingOf g x = g.binding o)
    (hright : ∀ p, right.operator? = some p → (g.binding p).GroupsRight (g.binding o)) :
    Fits g m u (x :: u :: xs) right y := by
  constructor
  case awaited =>
    intro z hz
    cases hz
    exact ⟨i, hoperator⟩
  case before =>
    intro p hp z hz
    cases hz
    rw [hbinding]
    exact hright p hp
  case after =>
    rcases hfits.after with hy | ⟨j, hj, hgroups⟩
    · exact Or.inl hy
    · refine Or.inr ⟨j, hj, ?_⟩
      intro p hp
      exact (hright p hp).left_of (hgroups o rfl) (g.binding_consistent p o)

namespace ForOperators

theorem exists_production (h : ForOperators g e rules m t u) (hr : r ∈ rules) :
    ∃ (i : Nat) (q : Production), m.grammar.rules[i]? = some q ∧
      m.symbols.Spells q.symbols r.names := by
  obtain ⟨pos, hnt⟩ := h.operators.nonterminals
  obtain ⟨i, q, -, hq, -, hall⟩ :=
    h.generated.represents.rule_number ⟨e, rules, pos⟩ (by simp [hnt]) r hr
  exact ⟨i, q, hq, Numbering.Represents.spells_tokens hall⟩

theorem atom_number (h : ForOperators g e rules m t u) (hr : r ∈ rules) (hnames : r.names = [a])
    (hname : t.tokenName (t.terminalOf (some token)) = .ok a) :
    ∃ i x : Nat, m.grammar.IsAtom i x ∧ t.terminalOf (some token) = x := by
  obtain ⟨i, q, hq, hspells⟩ := h.exists_production hr
  rw [hnames] at hspells
  obtain ⟨x, hsymbols, hx⟩ := exists_one hspells
  obtain ⟨n, hn, hn'⟩ := h.generated.shows.text_of_name hname
  obtain rfl := h.generated.represents.table.id_unique hn' hx
  exact ⟨i, n, ⟨q, hq, hsymbols⟩, hn⟩

theorem operator_number (h : ForOperators g e rules m t u) (hr : r ∈ rules)
    (hnames : r.names = [e, o, e]) (hname : t.tokenName (t.terminalOf (some token)) = .ok o) :
    ∃ i x : Nat, m.grammar.IsOperator u i x ∧ t.terminalOf (some token) = x ∧
      m.numbering.bindingOf g x = g.binding o := by
  obtain ⟨i, q, hq, hspells⟩ := h.exists_production hr
  rw [hnames] at hspells
  have hunique := fun {x y : Nat} {text : String} (hx : m.symbols.text? x = some text)
    (hy : m.symbols.text? y = some text) => h.generated.represents.table.id_unique hx hy
  obtain ⟨l, x, l', hsymbols, hl, hx, hl'⟩ := exists_three hspells
  obtain ⟨n, hn, hn'⟩ := h.generated.shows.text_of_name hname
  obtain rfl := hunique hl h.operand
  obtain rfl := hunique hl' h.operand
  obtain rfl := hunique hn' hx
  exact ⟨i, n, ⟨q, hq, hsymbols⟩, hn, Numbering.bindingOf_text hn'⟩

theorem builds_atom (h : ForOperators g e rules m t u) (hr : r ∈ rules) (hnames : r.names = [a])
    (hname : t.tokenName (t.terminalOf (some token)) = .ok a) :
    Builds g m t u (.ofChildren e [.ofToken a token]) [token] := by
  have hp := h.productions
  have wf := hp.well_formed
  obtain ⟨i, x, hatom, hx⟩ := h.atom_number hr hnames hname
  intro f c k ks xs b s s' s'' next y hc hb ht hreads hnext hy hfits
  cases hreads with
  | cons hs hne hrest =>
    cases hrest
    have hbegin := hp.begin_mem hb ht (Or.inl hatom)
    have hmove := hp.shift_atom hc.path hfits.awaited hbegin hatom
    obtain ⟨c₁, htrace₁, hc₁⟩ := hc.shift h.generated hs hne hnext hx hname hbegin
      (hatom.token_eq wf 0) hmove
    have hend := wf.advance_mem hbegin (hatom.token_eq wf 0)
    have hreduce := hp.reduce_atom hc₁.path hatom hend (hfits.lt hp)
    rw [← hy] at hreduce
    have hi := (hp.mark_bounds (Or.inl hatom)).1
    have hrule := hatom
    obtain ⟨q, hq, hsym⟩ := hrule
    obtain ⟨c₂, htrace₂, hc₂⟩ := Reading.reduce [.ofToken a token] hq hsym
      (hp.rule_lhs (Or.inl hatom) hq) hc₁ h.generated hi hend hc.path hnext hreduce h.operand rfl
    exact ⟨c₂, htrace₁.trans htrace₂, hc₂⟩

theorem builds_operation (h : ForOperators g e rules m t u) (hr : r ∈ rules)
    (hnames : r.names = [e, o, e]) (hname : t.tokenName (t.terminalOf (some token)) = .ok o)
    (hleft : ∀ p, left.operator? = some p → (g.binding p).GroupsLeft (g.binding o))
    (hright : ∀ p, right.operator? = some p → (g.binding p).GroupsRight (g.binding o))
    (hbl : Builds g m t u left us) (hbr : Builds g m t u right vs) :
    Builds g m t u (.ofChildren e [left, .ofToken o token, right]) (us ++ token :: vs) := by
  have hp := h.productions
  have wf := hp.well_formed
  obtain ⟨i, x, hoperator, hx, hbinding⟩ := h.operator_number hr hnames hname
  intro f c k ks xs b s s' s'' next y hc hb ht hreads hnext hy hfits
  obtain ⟨s₁, s₂, hreads₁, hs₁, hne, hreads₂⟩ := hreads.split
  obtain ⟨first, s₃, hs₂⟩ := hreads₂.exists_next hnext
  have hbegin := hp.begin_mem hb ht (Or.inr hoperator)
  have hitem₁ := wf.advance_mem hbegin (hoperator.token_eq wf 0)
  have hitem₂ := wf.advance_mem hitem₁ (hoperator.token_eq wf 1)
  have hitem₃ := wf.advance_mem hitem₂ (hoperator.token_eq wf 2)
  obtain ⟨c₁, htrace₁, hc₁⟩ := hbl f hc hb ht hreads₁ hs₁ hx
    (hfits.left_operand hoperator hbinding hleft)
  have hshift := hp.shift_operator hc₁.path hitem₁ hoperator (by
    intro z hz
    rw [hbinding]
    exact hfits.before o rfl z hz)
  obtain ⟨c₂, htrace₂, hc₂⟩ := hc₁.shift h.generated hs₁ hne hs₂ hx hname hitem₁
    (hoperator.token_eq wf 1) hshift
  obtain ⟨c₃, htrace₃, hc₃⟩ := hbr _ hc₂ hitem₂ (hoperator.token_eq wf 2) hreads₂ hnext hy
    (hfits.right_operand hoperator hbinding hright)
  have hafter : y = SymbolTable.endSymbol ∨ ∃ j, m.grammar.IsOperator u j y ∧
      (m.numbering.bindingOf g x).GroupsLeft (m.numbering.bindingOf g y) := by
    rcases hfits.after with hend | ⟨j, hj, hgroups⟩
    · exact Or.inl hend
    · rw [hbinding]
      exact Or.inr ⟨j, hj, hgroups o rfl⟩
  have hreduce := hp.reduce_operator hc₃.path hoperator hitem₃ hafter
  rw [← hy] at hreduce
  have hi := (hp.mark_bounds (Or.inr hoperator)).1
  have hrule := hoperator
  obtain ⟨q, hq, hsym⟩ := hrule
  obtain ⟨c₄, htrace₄, hc₄⟩ := Reading.reduce [left, .ofToken o token, right] hq hsym
    (hp.rule_lhs (Or.inr hoperator) hq) hc₃ h.generated hi hitem₃ hc.path hnext hreduce h.operand
    rfl
  exact ⟨c₄, htrace₁.trans (htrace₂.trans (htrace₃.trans htrace₄)), hc₄⟩

theorem builds (h : ForOperators g e rules m t u) (hroot : Expression t e rules root us)
    (hgrouped : root.Grouped g) : Builds g m t u root us := by
  induction hroot with
  | atom hr hnames hname => exact h.builds_atom hr hnames hname
  | operation hr hnames hname _ _ ihl ihr =>
    cases hgrouped with
    | operation hgl hgr hleft hright =>
      exact h.builds_operation hr hnames hname hleft hright (ihl hgl) (ihr hgr)

theorem accepts (h : ForOperators g e rules m t u) (hroot : Expression t e rules root us)
    (hgrouped : root.Grouped g) {s s' s'' : Stream} {last : Token} (hreads : s.Reads us s')
    (hlast : s'.next = .ok (last, s'')) (hend : last.isEnd = true) :
    ∃ N, ∀ n, N ≤ n →
      t.watch (Forest.apply t) Forest.empty n s = ⟨⟨[], some root⟩, [], .ended .accepted⟩ := by
  have hp := h.productions
  have wf := hp.well_formed
  obtain ⟨q, hq, hsym, -⟩ := hp.start_rule
  obtain ⟨token, stream, hnext⟩ := hreads.exists_next hlast
  have hx : t.terminalOf (some last) = SymbolTable.endSymbol := by
    simp [Table.terminalOf, hend, h.generated.shows.end_symbol]
  have hbegin : ⟨0, 0⟩ ∈ m.grammar.closure NumberedGrammar.initialKernel.items :=
    wf.mem_closure.mpr (.kernel (NumberedGrammar.mem_initialKernel.mpr rfl))
  have hoperand : m.grammar.tokenAt? ⟨0, 0⟩ = some u := by
    rw [wf.token_eq hq, hsym]
    rfl
  have hfits : Fits g m u [] root SymbolTable.endSymbol := by
    refine ⟨?_, ?_, Or.inl rfl⟩
    · intro x hx
      cases hx
    · intro o _ x hx
      cases hx
  obtain ⟨c, htrace, hc⟩ := h.builds hroot hgrouped Forest.empty
    ⟨h.generated.clean_start token stream, token, hnext, rfl⟩ hbegin hoperand hreads hlast hx hfits
  have hitem := wf.advance_mem hbegin hoperand
  obtain ⟨c₁, c₂, hshift, hstop, herrors⟩ := hc.toClean.accept h.generated hitem
    (hc.ahead_eq hlast).1 hend (hp.shift_end hc.path hitem)
  have hname : t.tokenName (t.terminalOf (some last)) = .ok endName := by
    rw [hx]
    exact h.generated.shows.token_name h.generated.represents.end_text
  have hleaf : Forest.apply t ⟨[root], none⟩ (.shift last false) =
      .ok ⟨[.ofToken endName last, root], none⟩ := Forest.apply_shift hname
  have hcount : t.tokenCount t.startRule = .ok (2 : Int) := by
    have hlength := h.generated.shows.token_count (i := 0) hq
    rw [wf.length_tokens hq, hsym] at hlength
    rw [h.generated.shows.start_rule]
    exact hlength
  have hroot : Forest.apply t ⟨[.ofToken endName last, root], none⟩ .accept =
      .ok ⟨[], some root⟩ :=
    @Forest.apply_accept t _ [] [root, .ofToken endName last] root hcount rfl rfl
  obtain ⟨N, hN⟩ :=
    Table.watch_of_traces hnext (htrace.trans (Table.Traces.single hshift hleaf)) hstop hroot
  rw [herrors] at hN
  exact ⟨N, hN⟩

end ForOperators

theorem forOperators_of_table {g : Grammar} {e : String} {rules : List Rule} {t : Table}
    (hissues : (Numbering.ofGrammar g).issues = []) (ho : g.Operators e rules)
    (ht : (generate g).table = .ok t) : ∃ u, ForOperators g e rules (generate g) t u := by
  obtain ⟨u, htext, hrules⟩ := Numbering.operatorRules_of_no_issues hissues ho
  have hgenerated := generated_of_no_issues (quiet_of_operators hissues ho).1 ht
  exact ⟨u, ho, hgenerated, htext, hrules⟩

/-- A grammar of operators has no issues and no conflicts, and its parser accepts all sequences of
atoms with operators between them. The tree is the only one in which every operand of an operation
may stand where it stands. -/
theorem operators_grouped {g : Grammar} {e : String} {rules : List Rule}
    (hissues : (Numbering.ofGrammar g).issues = []) (ho : g.Operators e rules) :
    (generate g).hasIssues = false ∧ (generate g).hasConflicts = false ∧
    ∃ t, (generate g).table = .ok t ∧
      (∀ options cg, (g.compile options).result = .ok cg → cg.table = some t) ∧
      ∀ (w : List String) (tokens : List Token) (s rest rest' : Stream) (last : Token),
        Alternates e rules w →
        List.Forall₂ (fun token x => t.tokenName (t.terminalOf (some token)) = .ok x) tokens w →
        s.Reads tokens rest → rest.next = .ok (last, rest') → last.isEnd = true →
        ∃ root, (∃ N, ∀ n, N ≤ n →
            t.watch (Forest.apply t) Forest.empty n s = ⟨⟨[], some root⟩, [], .ended .accepted⟩) ∧
          g.Parses t False [e] [root] tokens ∧ root.Grouped g ∧
          ∀ other, g.Parses t False [e] [other] tokens → other.Grouped g → other = root := by
  obtain ⟨hclean, hquiet⟩ := quiet_of_operators hissues ho
  have hexplored : (generate g).Explored :=
    explored_of_start (Numbering.represents_of_no_issues hissues).user_start
  obtain ⟨t, ht⟩ := hexplored.exists_table
  obtain ⟨u, h⟩ := forOperators_of_table hissues ho ht
  refine ⟨hclean, hquiet, t, ht, ?_, ?_⟩
  · intro options cg hcg
    obtain ⟨-, t', ht', htable⟩ := compile_eq_ok hcg
    cases ht.symm.trans ht'
    exact htable
  · intro w tokens s rest rest' last hw hnames hreads hlast hend
    have hassoc : ∀ r ∈ rules, ∀ o, r.names = [e, o, e] →
        (g.binding o).assoc = .left ∨ (g.binding o).assoc = .right := by
      intro r hr o hoperator
      obtain ⟨p, -, hbinding, hp⟩ := Numbering.binding_of_rule hissues ho hr hoperator
      rw [hbinding]
      exact hp
    obtain ⟨root, hroot, hgrouped⟩ := Expression.exists_grouped hw hassoc hnames
    obtain ⟨N, hN⟩ := h.accepts hroot hgrouped hreads hlast hend
    refine ⟨root, ⟨N, hN⟩, (Expression.parses_iff ho).mpr hroot, hgrouped, ?_⟩
    intro other hother hgrouped'
    obtain ⟨M, hM⟩ := h.accepts ((Expression.parses_iff ho).mp hother) hgrouped' hreads hlast hend
    have hsame := (hM (max N M) (by omega)).symm.trans (hN (max N M) (by omega))
    injection hsame with hforest
    injection hforest with _ hsome
    exact Option.some.inj hsome

end Automaton

namespace Grammar

def arithmeticRules : List Rule :=
  [(["n"], ""), (["e", "+", "e"], ""), (["e", "^", "e"], ""), (["e", "-", "e"], "+"),
    (["e", "*", "e"], "")].map fun (names, precedence) =>
      ⟨names.map fun name => ⟨name, "", .unknown⟩, precedence, .left, "", .unknown⟩

/-- Sums, differences, products and powers; a difference has the precedence of a sum. -/
def arithmetic : Grammar where
  name := "arithmetic"
  start := some ⟨"e", .unknown⟩
  tokens := ["n", "+", "-", "*", "^"].map fun name => some ⟨name, "", "", false, .unknown⟩
  precedences := [some ⟨"+", .left, .unknown⟩, some ⟨"*", .left, .unknown⟩,
    some ⟨"^", .right, .unknown⟩]
  nonterminals := [⟨"e", arithmeticRules, .unknown⟩]

theorem arithmetic_operators : arithmetic.Operators "e" arithmeticRules := by
  constructor
  case start => exact ⟨_, rfl, rfl⟩
  case nonterminals => exact ⟨_, rfl⟩
  case marks =>
    refine ⟨["n", "+", "^", "-", "*"], by decide, by decide, by decide, ?_⟩
    exact .cons (Or.inr rfl) (.cons (Or.inl rfl) (.cons (Or.inl rfl) (.cons (Or.inl rfl)
      (.cons (Or.inl rfl) .nil))))
  case declared =>
    intro r hr o hnames
    have hdeclared : ∀ r ∈ arithmeticRules, r.names.length = 3 → ∃ d ∈ arithmetic.declared,
        d.name = r.precedenceName (r.names.getD 1 "") ∧ (d.assoc = .left ∨ d.assoc = .right) := by
      decide
    obtain ⟨d, hd, hname, hassoc⟩ := hdeclared r hr (by rw [hnames]; rfl)
    rw [hnames] at hname
    exact ⟨d, hd, hname, hassoc⟩

end Grammar

namespace Automaton

set_option maxRecDepth 100000 in
theorem arithmetic_grouped : (Numbering.ofGrammar Grammar.arithmetic).issues = [] ∧
    Grammar.arithmetic.Operators "e" Grammar.arithmeticRules ∧
    (generate Grammar.arithmetic).hasIssues = false ∧
    (generate Grammar.arithmetic).hasConflicts = false ∧
    ∃ t, (generate Grammar.arithmetic).table = .ok t ∧ ∃ root N,
      (∀ n, N ≤ n → t.watch (Forest.apply t) Forest.empty n
        (Stream.ofTerminals [2, 3, 2, 5, 2, 6, 2, 6, 2, 4, 2]) =
          ⟨⟨[], some root⟩, [], .ended .accepted⟩) ∧ root.Grouped Grammar.arithmetic := by
  have htable : (match (generate Grammar.arithmetic).table with
      | .ok t => decide ([2, 3, 2, 5, 2, 6, 2, 6, 2, 4, 2].map t.tokenName =
          ["n", "+", "n", "*", "n", "^", "n", "^", "n", "-", "n"].map .ok)
      | .error _ => false) = true := by decide +kernel
  have hissues : (Numbering.ofGrammar Grammar.arithmetic).issues = [] := by decide +kernel
  obtain ⟨hclean, hquiet, t, ht, -, hall⟩ :=
    operators_grouped hissues Grammar.arithmetic_operators
  rw [ht] at htable
  have hw : Alternates "e" Grammar.arithmeticRules
      ["n", "+", "n", "*", "n", "^", "n", "^", "n", "-", "n"] := by
    have hmore : ∀ {w : List String} (o : String), o ∈ ["+", "^", "-", "*"] →
        Alternates "e" Grammar.arithmeticRules w →
        Alternates "e" Grammar.arithmeticRules (w ++ [o, "n"]) := by
      intro w o ho h
      have hrule : ∀ o ∈ ["+", "^", "-", "*"], ∃ r ∈ Grammar.arithmeticRules,
          r.names = ["e", o, "e"] := by decide
      obtain ⟨r, hr, hnames⟩ := hrule o ho
      exact .operation h hr hnames List.mem_cons_self rfl
    have hsum := hmore "+" (by decide) (.atom List.mem_cons_self rfl)
    have hproduct := hmore "*" (by decide) hsum
    have hpower := hmore "^" (by decide) (hmore "^" (by decide) hproduct)
    exact hmore "-" (by decide) hpower
  obtain ⟨root, ⟨N, hN⟩, -, hgrouped, -⟩ := hall _ _ _ _ _ _ hw
    (Stream.named_ofTerminals (of_decide_eq_true htable))
    (Stream.reads_ofTerminals [2, 3, 2, 5, 2, 6, 2, 6, 2, 4, 2]) rfl rfl
  exact ⟨hissues, Grammar.arithmetic_operators, hclean, hquiet, t, ht, root, N, hN, hgrouped⟩

end Automaton

end ParserTables

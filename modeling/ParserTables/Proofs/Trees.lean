import ParserTables.Parser.Forest
import ParserTables.Proofs.Derivation
import ParserTables.Proofs.Execution

/-!
The trees that a run builds. They stand for the symbols on the stack, in their order: a token for
its terminal, a node with the trees of one rule for a nonterminal, and an error node for the error
symbol. The tree builder keeps in step with the parser, so it never runs short of trees.
-/

namespace ParserTables

/-- The trees of some names of a grammar, with the tokens that stand at their leaves. Error nodes
stand only where recovery has left them. -/
inductive Grammar.Parses (g : Grammar) (t : Table) (recovered : Prop) :
    List String → List Tree → List Token → Prop
  | nil : Parses g t recovered [] [] []
  | token {x : String} {token : Token} {xs : List String} {trees : List Tree} {ts : List Token} :
      (∀ nt ∈ g.nonterminals, nt.name ≠ x) → t.tokenName (t.terminalOf (some token)) = .ok x →
      Parses g t recovered xs trees ts →
      Parses g t recovered (x :: xs)
        (.node ⟨x, token.lexeme, token.row, token.col, false⟩ [] :: trees) (token :: ts)
  | error {row col : Int} {xs : List String} {trees : List Tree} {ts : List Token} :
      recovered → Parses g t recovered xs trees ts →
      Parses g t recovered (errorName :: xs)
        (.node ⟨errorName, [], row, col, true⟩ [] :: trees) ts
  | rule {nt : Nonterminal} {r : Rule} {children trees : List Tree} {us ts : List Token}
      {xs : List String} : nt ∈ g.nonterminals → r ∈ nt.rules →
      Parses g t recovered (r.tokens.map (·.name)) children us →
      Parses g t recovered xs trees ts →
      Parses g t recovered (nt.name :: xs)
        (.node ⟨nt.name, [], Forest.rowOf children, Forest.colOf children, false⟩ children :: trees)
        (us ++ ts)

namespace Grammar.Parses

variable {g : Grammar} {t : Table} {recovered recovered' : Prop} {xs ys : List String}
  {trees trees' : List Tree} {ts us : List Token}

theorem append (h : g.Parses t recovered xs trees ts) (k : g.Parses t recovered ys trees' us) :
    g.Parses t recovered (xs ++ ys) (trees ++ trees') (ts ++ us) := by
  induction h with
  | nil => exact k
  | token hx hname _ ih => exact .token hx hname ih
  | error hrec _ ih => exact .error hrec ih
  | rule hnt hr hchildren _ _ ih =>
    rw [List.append_assoc]
    exact .rule hnt hr hchildren ih

theorem split (h : g.Parses t recovered (xs ++ ys) trees ts) :
    ∃ trees₁ trees₂ ts₁ ts₂, trees = trees₁ ++ trees₂ ∧ ts = ts₁ ++ ts₂ ∧
      g.Parses t recovered xs trees₁ ts₁ ∧ g.Parses t recovered ys trees₂ ts₂ := by
  induction xs generalizing trees ts with
  | nil => exact ⟨[], trees, [], ts, rfl, rfl, .nil, h⟩
  | cons x xs ih =>
    cases h with
    | token hx hname hrest =>
      obtain ⟨trees₁, trees₂, ts₁, ts₂, rfl, rfl, h₁, h₂⟩ := ih hrest
      exact ⟨_ :: trees₁, trees₂, _ :: ts₁, ts₂, rfl, rfl, .token hx hname h₁, h₂⟩
    | error hrec hrest =>
      obtain ⟨trees₁, trees₂, ts₁, ts₂, rfl, rfl, h₁, h₂⟩ := ih hrest
      exact ⟨_ :: trees₁, trees₂, ts₁, ts₂, rfl, rfl, .error hrec h₁, h₂⟩
    | @rule nt r children _ us _ _ hnt hr hchildren hrest =>
      obtain ⟨trees₁, trees₂, ts₁, ts₂, rfl, rfl, h₁, h₂⟩ := ih hrest
      exact ⟨_ :: trees₁, trees₂, us ++ ts₁, ts₂, rfl, (List.append_assoc _ _ _).symm,
        .rule hnt hr hchildren h₁, h₂⟩

theorem length_eq (h : g.Parses t recovered xs trees ts) : trees.length = xs.length := by
  induction h with
  | nil => rfl
  | token _ _ _ ih => simpa using ih
  | error _ _ ih => simpa using ih
  | rule _ _ _ _ _ ih => simpa using ih

theorem mono (hle : recovered → recovered') (h : g.Parses t recovered xs trees ts) :
    g.Parses t recovered' xs trees ts := by
  induction h with
  | nil => exact .nil
  | token hx hname _ ih => exact .token hx hname ih
  | error hrec _ ih => exact .error (hle hrec) ih
  | rule hnt hr _ _ ihc ih => exact .rule hnt hr ihc ih

theorem generates (h : g.Parses t recovered xs trees ts) (hno : ¬ recovered) :
    ∃ w, List.Forall₂ (fun token x => t.tokenName (t.terminalOf (some token)) = .ok x) ts w ∧
      g.Generates xs w := by
  induction h with
  | nil => exact ⟨[], .nil, .nil⟩
  | token hx hname _ ih =>
    obtain ⟨w, hw, hg⟩ := ih
    exact ⟨_ :: w, .cons hname hw, .terminal hx hg⟩
  | error hrec _ _ => exact absurd hrec hno
  | rule hnt hr _ _ ihc ih =>
    obtain ⟨u, hu, hgu⟩ := ihc
    obtain ⟨w, hw, hg⟩ := ih
    exact ⟨u ++ w, List.rel_append hu hw, .rule hnt hr hgu hg⟩

end Grammar.Parses

namespace Forest

variable {t : Table} {f : Forest} {below above : List Tree}

theorem pop_eq (h : f.trees.reverse = below ++ above) :
    pop f.trees above.length = .ok (above, below.reverse) := by
  have htrees : f.trees = above.reverse ++ below.reverse := by
    rw [← List.reverse_append, ← h, List.reverse_reverse]
  have hlen : above.length ≤ f.trees.length := by simp [htrees]
  unfold pop
  rw [if_neg (by omega), Int.toNat_natCast, htrees]
  simp

theorem apply_shift {token : Token} {flag : Bool} {name : String}
    (hname : t.tokenName (t.terminalOf (some token)) = .ok name) :
    apply t f (.shift token flag) =
      .ok ⟨.node ⟨name, token.lexeme, token.row, token.col, false⟩ [] :: f.trees, f.root⟩ := by
  simp only [apply, leaf, hname, bind, Except.bind, pure, Except.pure]

theorem apply_reduce {i lhs : Int} {flag : Bool} {name : String}
    (hcount : t.tokenCount i = .ok (above.length : Int)) (hlhs : t.lhs i = .ok lhs)
    (hname : t.tokenName lhs = .ok name) (h : f.trees.reverse = below ++ above) :
    apply t f (.reduce i flag) =
      .ok ⟨.node ⟨name, [], rowOf above, colOf above, false⟩ above :: below.reverse, f.root⟩ := by
  simp only [apply, inner, hcount, hlhs, hname, pop_eq h, bind, Except.bind, pure, Except.pure]

theorem apply_trap {cause : Token} {popped : Nat} {name : String}
    (hname : t.tokenName t.errorSymbol = .ok name) (h : f.trees.reverse = below ++ above)
    (hp : popped = above.length) : apply t f (.trap cause popped) =
      .ok ⟨.node ⟨name, [], cause.row, cause.col, true⟩ [] :: below.reverse, f.root⟩ := by
  subst hp
  simp only [apply, errorLeaf, hname, pop_eq h, bind, Except.bind, pure, Except.pure]

theorem apply_accept {root : Tree} (hcount : t.tokenCount t.startRule = .ok (above.length : Int))
    (h : f.trees.reverse = below ++ above) (hroot : above.head? = some root) :
    apply t f .accept = .ok ⟨below.reverse, some root⟩ := by
  obtain ⟨rest, rfl⟩ := List.head?_eq_some_iff.mp hroot
  simp only [apply, hcount, pop_eq h, bind, Except.bind, pure, Except.pure]

end Forest

namespace Automaton

variable {g : Grammar} {m : Automaton} {t : Table} {f : Forest} {c c' : Config} {xs ys : List Nat}
  {event : Option Event} {used done : List Token} {token : Token}

/-- The forest has the trees of the symbols on the stack. Their leaves are among the tokens that
are done with, and are all of them as long as nothing has gone wrong. -/
def Bears (g : Grammar) (m : Automaton) (t : Table) (f : Forest) (c : Config) (xs : List Nat)
    (done : List Token) : Prop :=
  ∃ names ts, m.symbols.Spells xs.reverse names ∧
    g.Parses t (c.errors ≠ []) names f.trees.reverse ts ∧ ts.Sublist done ∧
    (c.errors = [] → (∀ token ∈ done, t.terminalOf (some token) ≠ SymbolTable.errorSymbol) →
      ts = done)

theorem Generated.terminal_name (h : Generated g m t) {x : Nat}
    (hlt : x < m.grammar.terminalCount) : ∃ name, m.symbols.text? x = some name ∧
      t.tokenName x = .ok name ∧ ∀ nt ∈ g.nonterminals, nt.name ≠ name := by
  obtain ⟨name, htext, hname⟩ := h.token_name_of_lt (Nat.lt_of_lt_of_le hlt h.terminals_le)
  refine ⟨name, htext, hname, ?_⟩
  intro nt hnt heq
  have hstart := h.well_formed.start_nonterminal
  have hne : x ≠ m.grammar.startSymbol := by omega
  have hge : m.grammar.terminalCount ≤ x :=
    (h.represents.nonterminal_iff x name htext hne).mpr ⟨nt, hnt, heq⟩
  omega

theorem Generated.bears_shift (h : Generated g m t) (hb : Bears g m t f c xs done) {x : Nat}
    (flag : Bool) (hx : t.terminalOf (some token) = x) (hlt : x < m.grammar.terminalCount)
    (herr : c'.errors = c.errors) : ∃ f', Forest.apply t f (.shift token flag) = .ok f' ∧
      Bears g m t f' c' (x :: xs) (done ++ [token]) := by
  obtain ⟨names, ts, hnames, hparses, hsub, hall⟩ := hb
  obtain ⟨name, htext, hname, hnt⟩ := h.terminal_name hlt
  rw [← hx] at hname
  refine ⟨_, Forest.apply_shift hname, names ++ [name], ts ++ [token], ?_, ?_, ?_, ?_⟩
  · rw [List.reverse_cons]
    exact List.rel_append hnames (.cons htext .nil)
  · rw [List.reverse_cons, herr]
    exact hparses.append (.token hnt hname .nil)
  · exact hsub.append (List.Sublist.refl _)
  · intro hclean hids
    rw [hall (herr ▸ hclean) fun token ht => hids token (List.mem_append_left _ ht)]

theorem Generated.bears_reduce (h : Generated g m t) {i : Nat} {r : Production} (flag : Bool)
    (hb : Bears g m t f c (r.symbols.reverse ++ ys) done) (hi : i ≠ 0)
    (hr : m.grammar.rules[i]? = some r) (herr : c'.errors = c.errors) :
    ∃ f', Forest.apply t f (.reduce i flag) = .ok f' ∧ Bears g m t f' c' (r.lhs :: ys) done := by
  have wf := h.well_formed
  obtain ⟨names, ts, hnames, hparses, hsub, hall⟩ := hb
  rw [List.reverse_append, List.reverse_reverse] at hnames
  have hstart : r.lhs ≠ m.grammar.startSymbol := fun heq => hi (wf.start_only i r hr heq)
  obtain ⟨name, htext, hname⟩ := h.token_name_of_lt (wf.lhs_lt i r hr)
  obtain ⟨nt, hnt, rfl, src, hsrc, htokens⟩ := h.represents.rule_of_production hr hstart htext
  obtain ⟨before, tokens, rfl, hbefore, hrest⟩ := hnames.split
  obtain rfl : tokens = src.tokens.map (·.name) := hrest.unique htokens
  obtain ⟨below, above, ts₁, ts₂, htrees, rfl, hbelow, habove⟩ := hparses.split
  have hlen : above.length = r.tokens.length := by
    rw [habove.length_eq, ← hrest.length_eq, wf.length_tokens hr]
  have hcount : t.tokenCount i = .ok (above.length : Int) := by
    rw [hlen]
    exact h.shows.token_count hr
  refine ⟨_, Forest.apply_reduce hcount (h.shows.lhs_eq hr) hname htrees,
    before ++ [nt.name], ts₁ ++ (ts₂ ++ []), ?_, ?_, by simpa using hsub,
    fun hclean => by simpa using hall (herr ▸ hclean)⟩
  · rw [List.reverse_cons]
    exact List.rel_append hbefore (.cons htext .nil)
  · rw [List.reverse_cons, List.reverse_reverse, herr]
    exact hbelow.append (.rule hnt hsrc habove .nil)

theorem Generated.bears_trap (h : Generated g m t) (hb : Bears g m t f c xs done) {popped : Nat}
    (hp : popped ≤ xs.length) {e : SyntaxError} (herr : c'.errors = c.errors ++ [e]) :
    ∃ f', Forest.apply t f (.trap token popped) = .ok f' ∧
      Bears g m t f' c' (SymbolTable.errorSymbol :: xs.drop popped) done := by
  obtain ⟨names, ts, hnames, hparses, hsub, -⟩ := hb
  rw [← List.take_append_drop popped xs, List.reverse_append] at hnames
  obtain ⟨before, gone, rfl, hbefore, hgone⟩ := hnames.split
  obtain ⟨below, above, ts₁, ts₂, htrees, rfl, hbelow, habove⟩ := hparses.split
  have hlen : popped = above.length := by
    rw [habove.length_eq, ← hgone.length_eq, List.length_reverse, List.length_take]
    omega
  have herror : t.tokenName t.errorSymbol = .ok errorName := by
    rw [h.shows.error_symbol]
    exact h.shows.token_name h.represents.error_text
  have hne : c'.errors ≠ [] := by simp [herr]
  refine ⟨_, Forest.apply_trap herror htrees hlen, before ++ [errorName], ts₁ ++ [], ?_, ?_, ?_,
    fun hclean => absurd hclean hne⟩
  · rw [List.reverse_cons]
    exact List.rel_append hbefore (.cons h.represents.error_text .nil)
  · rw [List.reverse_cons, List.reverse_reverse]
    exact (hbelow.mono fun _ => hne).append (.error hne .nil)
  · rw [List.append_nil]
    exact (List.sublist_append_left ts₁ ts₂).trans hsub

theorem Generated.bears_effect (h : Generated g m t) (hb : Bears g m t f c xs done)
    (hrec : Recorded t c xs done) (he : Effect m t c xs event used c' ys) :
    ∃ f', Observer.after (Forest.apply t) f event = .ok f' ∧
      Bears g m t f' c' ys (done ++ used) := by
  cases he with
  | @shift token x flag _ _ hx hlt herr _ => exact h.bears_shift hb flag hx hlt herr
  | @shift_end token flag _ _ hend _ _ herr _ =>
    have hx : t.terminalOf (some token) = SymbolTable.endSymbol := by
      simp [Table.terminalOf, hend, h.shows.end_symbol]
    exact h.bears_shift hb flag hx h.well_formed.end_lt herr
  | @reduce i r zs flag _ hi hr hxs _ _ herr _ =>
    subst hxs
    rw [List.append_nil]
    exact h.bears_reduce flag hb hi hr herr
  | discard _ hwhy herr _ =>
    obtain ⟨names, ts, hnames, hparses, hsub, -⟩ := hb
    refine ⟨f, rfl, names, ts, hnames, by rw [herr]; exact hparses,
      hsub.trans (List.sublist_append_left _ _), ?_⟩
    intro hclean hids
    rcases hrec.cause hwhy with hne | ⟨token, ht, hid⟩
    · exact absurd (herr ▸ hclean) hne
    · exact absurd hid (hids token (List.mem_append_left _ ht))
  | trap _ hp _ _ herr _ _ =>
    rw [List.append_nil]
    exact h.bears_trap hb hp herr

theorem Generated.bears_reaches (h : Generated g m t) {s : Stream}
    (hr : t.Reaches (Forest.apply t) Forest.empty s f c) : ∃ xs done, m.Follows c xs ∧
      c.Progress s done ∧ Recorded t c xs done ∧ Bears g m t f c xs done := by
  refine h.reaches_invariant
    (P := fun f c xs done => Recorded t c xs done ∧ Bears g m t f c xs done) ?_ ?_ hr
  · intro c herr hrec
    exact ⟨recorded_start hrec, [], [], .nil, .nil, List.nil_sublist _, fun _ _ => rfl⟩
  · intro f f' c xs event used c' ys done hP heffect hafter
    obtain ⟨hrec, hb⟩ := hP
    obtain ⟨f'', hafter', hb'⟩ := h.bears_effect hb hrec heffect
    cases hafter.symm.trans hafter'
    exact ⟨heffect.recorded h.well_formed hrec, hb'⟩

theorem Generated.terminal_leaf (h : Generated g m t) {recovered : Prop} {trees : List Tree}
    {ts : List Token} {x : Nat} {name : String} (hlt : x < m.grammar.terminalCount)
    (hx : x ≠ SymbolTable.errorSymbol) (htext : m.symbols.text? x = some name)
    (hp : g.Parses t recovered [name] trees ts) :
    ∃ e, ts = [e] ∧ t.terminalOf (some e) = x := by
  obtain ⟨name', htext', -, hnt⟩ := h.terminal_name hlt
  cases htext'.symm.trans htext
  cases hp with
  | @token _ token _ _ _ _ hname hrest =>
    cases hrest
    obtain ⟨n, hn, hname⟩ := h.shows.text_of_name hname
    refine ⟨token, rfl, ?_⟩
    rw [hn, h.represents.table.id_unique hname htext]
  | error _ _ => exact absurd (h.represents.table.id_unique htext h.represents.error_text) hx
  | rule hmem _ _ _ => exact absurd rfl (hnt _ hmem)

theorem Generated.root_node (h : Generated g m t) {recovered : Prop} {trees : List Tree}
    {ts : List Token} {name : String} (hname : ∃ nt ∈ g.nonterminals, nt.name = name)
    (hp : g.Parses t recovered [name] trees ts) :
    ∃ nt ∈ g.nonterminals, nt.name = name ∧ ∃ r ∈ nt.rules, ∃ children,
      trees = [.node ⟨name, [], Forest.rowOf children, Forest.colOf children, false⟩ children] ∧
        g.Parses t recovered (r.tokens.map (·.name)) children ts := by
  cases hp with
  | token hx _ _ =>
    obtain ⟨nt, hnt, heq⟩ := hname
    exact absurd heq (hx nt hnt)
  | error _ _ =>
    obtain ⟨name, htext, -, hne⟩ := h.terminal_name h.well_formed.error_lt
    cases h.represents.error_text.symm.trans htext
    obtain ⟨nt, hnt, heq⟩ := hname
    exact absurd heq (hne nt hnt)
  | @rule nt r children _ us _ _ hnt hr hchildren hrest =>
    cases hrest
    exact ⟨nt, hnt, rfl, r, hr, children, rfl, by rw [List.append_nil]; exact hchildren⟩

theorem Generated.start_nonterminal (h : Generated g m t) {d : StartDecl} (hd : g.start = some d) :
    ∃ nt ∈ g.nonterminals, nt.name = d.name := by
  obtain ⟨d', r, u, hd', hr, hsym, htext⟩ := h.represents.start_names
  cases hd'.symm.trans hd
  obtain ⟨r', u', hr', -, hsym', hu⟩ := h.well_formed.start_rule
  cases hr'.symm.trans hr
  cases hsym'.symm.trans hsym
  have hne : u ≠ m.grammar.startSymbol := h.well_formed.symbol_ne_start 0 r hr u (by simp [hsym])
  exact (h.represents.nonterminal_iff u d.name htext hne).mp hu

theorem Generated.bears_accept (h : Generated g m t) {r : Production} {u : Nat}
    (hr : m.grammar.rules[0]? = some r) (hsym : r.symbols = [u, SymbolTable.endSymbol])
    (hb : Bears g m t f c [SymbolTable.endSymbol, u] done) :
    ∃ d root ts e, g.start = some d ∧ Forest.apply t f .accept = .ok ⟨[], some root⟩ ∧
      g.Parses t (c.errors ≠ []) [d.name] [root] ts ∧ (ts ++ [e]).Sublist done ∧
      t.terminalOf (some e) = SymbolTable.endSymbol ∧ (c.errors = [] →
        (∀ token ∈ done, t.terminalOf (some token) ≠ SymbolTable.errorSymbol) →
        ts ++ [e] = done) := by
  obtain ⟨names, ts, hnames, hparses, hsub, hall⟩ := hb
  obtain ⟨d, r', u', hd, hr', hsym', htext⟩ := h.represents.start_names
  cases hr'.symm.trans hr
  cases hsym'.symm.trans hsym
  have hspells : m.symbols.Spells [u, SymbolTable.endSymbol] ([d.name] ++ [endName]) :=
    .cons htext (.cons h.represents.end_text .nil)
  rw [hnames.unique hspells] at hparses
  obtain ⟨below, above, ts₁, ts₂, htrees, rfl, hroot, hend⟩ := hparses.split
  obtain ⟨e, rfl, hid⟩ := h.terminal_leaf h.well_formed.end_lt (by decide)
    h.represents.end_text hend
  obtain ⟨nt, hnt, hname, src, hsrc, children, rfl, hchildren⟩ :=
    h.root_node (h.start_nonterminal hd) hroot
  have hcount : t.tokenCount t.startRule = .ok (f.trees.reverse.length : Int) := by
    have htwo := h.shows.token_count (i := 0) hr
    rw [h.well_formed.length_tokens hr, hsym] at htwo
    rw [h.shows.start_rule, hparses.length_eq]
    exact htwo
  have happly := Forest.apply_accept hcount (List.nil_append _).symm (by rw [htrees]; rfl)
  exact ⟨d, _, ts₁, e, hd, happly, hroot, hsub, hid, hall⟩

end Automaton

end ParserTables

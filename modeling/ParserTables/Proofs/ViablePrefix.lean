import ParserTables.Proofs.Derivation
import ParserTables.Proofs.Execution

/-!
The stack of a parser is always the beginning of something: what derives from its symbols can be
continued to a word of the start symbol, as long as every nonterminal derives a word at all. So
the tokens shifted before the first error are the beginning of a sentence, whatever conflicts were
resolved and whichever reductions were taken by default.
-/

namespace ParserTables

namespace NumberedGrammar

variable {g : NumberedGrammar} {k : ItemSet} {ks : List ItemSet} {xs : List Nat} {a : Item}
  {K : Set Item} {x : Nat}

/-- Every symbol of a rule derives a word. -/
def Productive (g : NumberedGrammar) : Prop :=
  ∀ (i : Nat) (r : Production), g.rules[i]? = some r → ∀ s ∈ r.symbols, ∃ w, g.Derives [s] w

theorem exists_word (h : ∀ s ∈ xs, ∃ w, g.Derives [s] w) : ∃ w, g.Derives xs w := by
  induction xs with
  | nil => exact ⟨[], .nil⟩
  | cons x xs ih =>
    obtain ⟨u, hu⟩ := h x (by simp)
    obtain ⟨v, hv⟩ := ih fun s hs => h s (by simp [hs])
    exact ⟨u ++ v, hu.append hv⟩

/-- What is left of the rule of `a`, and what `after` derives behind it, continues what derives
from the symbols `xs` to a word of the start symbol. -/
def Continues (g : NumberedGrammar) (xs : List Nat) (a : Item) (after : List Nat) : Prop :=
  ∃ r : Production, g.rules[a.rule]? = some r ∧ ∀ u v, g.Derives xs.reverse u →
    g.Derives (r.symbols.drop a.phase ++ after) v → g.Derives [g.startSymbol] (u ++ v)

def Viable (g : NumberedGrammar) (xs : List Nat) (a : Item) : Prop :=
  ∃ after, g.Continues xs a after ∧ ∀ s ∈ after, ∃ w, g.Derives [s] w

theorem viable_initial (wf : g.WellFormed) : g.Viable [] ⟨0, 0⟩ := by
  obtain ⟨r, u, hr, hl, -⟩ := wf.start_rule
  refine ⟨[], ⟨r, hr, ?_⟩, by simp⟩
  intro u v hu hv
  cases hu
  rw [← hl]
  exact .of_rule hr (by simpa using hv)

theorem Viable.spawn (wf : g.WellFormed) (hp : g.Productive) (h : g.Viable xs a)
    (ht : g.tokenAt? a = some x) {i : Nat} (hl : g.lhs? i = some x) : g.Viable xs ⟨i, 0⟩ := by
  obtain ⟨after, ⟨r, hr, hcont⟩, hafter⟩ := h
  obtain ⟨r', hr', rfl⟩ := lhs_eq_some.mp hl
  have hdrop := wf.drop_token hr ht
  refine ⟨r.symbols.drop (a.phase + 1) ++ after, ⟨r', hr', ?_⟩, ?_⟩
  · intro u v hu hv
    obtain ⟨v₁, v₂, rfl, hv₁, hv₂⟩ := hv.split
    refine hcont u _ hu ?_
    rw [hdrop]
    exact .rule hr' hv₁ hv₂
  · intro s hs
    rcases List.mem_append.mp hs with hs | hs
    · exact hp _ r hr s (List.mem_of_mem_drop hs)
    · exact hafter s hs

theorem Viable.advance (wf : g.WellFormed) (h : g.Viable xs a) (ht : g.tokenAt? a = some x) :
    g.Viable (x :: xs) a.advance := by
  obtain ⟨after, ⟨r, hr, hcont⟩, hafter⟩ := h
  refine ⟨after, ⟨r, hr, ?_⟩, hafter⟩
  intro u v hu hv
  rw [List.reverse_cons] at hu
  obtain ⟨u₁, u₂, rfl, hu₁, hu₂⟩ := hu.split
  rw [List.append_assoc]
  refine hcont u₁ _ hu₁ ?_
  rw [wf.drop_token hr ht]
  exact hu₂.append hv

theorem Viable.closure (wf : g.WellFormed) (hp : g.Productive)
    (h : ∀ b ∈ K, g.Viable xs b) (ha : g.Closure K a) : g.Viable xs a := by
  induction ha with
  | kernel hk => exact h _ hk
  | spawn _ ht _ hl ih => exact ih.spawn wf hp ht hl

theorem Path.viable (wf : g.WellFormed) (hp : g.Productive) (h : g.Path ks xs) :
    ∀ k ∈ ks.head?, ∀ a ∈ k, g.Viable xs a := by
  induction h with
  | start =>
    rintro k ⟨⟩ a ha
    rw [mem_initialKernel.mp ha]
    exact viable_initial wf
  | @step k ks xs x _ _ ih =>
    rintro k' ⟨⟩ a ha
    obtain ⟨b, hb, ht, rfl⟩ := mem_goto.mp ha
    exact (Viable.closure wf hp (ih k rfl) (wf.mem_closure.mp hb)).advance wf ht

theorem Path.exists_item (h : g.Path (k :: ks) xs) : ∃ a, a ∈ k := by
  cases h with
  | start => exact ⟨⟨0, 0⟩, mem_initialKernel.mpr rfl⟩
  | step _ hne => exact ItemSet.isEmpty_eq_false.mp hne

/-- What derives from the symbols of a path begins a word of the start symbol. -/
theorem Path.continues (wf : g.WellFormed) (hp : g.Productive) (h : g.Path ks xs) {u : List Nat}
    (hu : g.Derives xs.reverse u) : ∃ v, g.Derives [g.startSymbol] (u ++ v) := by
  obtain ⟨k, ks, rfl⟩ := h.exists_cons
  obtain ⟨a, ha⟩ := h.exists_item
  obtain ⟨after, ⟨r, hr, hcont⟩, hafter⟩ := h.viable wf hp k rfl a ha
  have hall : ∀ s ∈ r.symbols.drop a.phase ++ after, ∃ w, g.Derives [s] w := by
    intro s hs
    rcases List.mem_append.mp hs with hs | hs
    · exact hp _ r hr s (List.mem_of_mem_drop hs)
    · exact hafter s hs
  obtain ⟨v, hv⟩ := exists_word hall
  exact ⟨v, hcont u v hu hv⟩

end NumberedGrammar

def Event.shifted? : Event → Option Token
  | .shift token _ => some token
  | _ => none

def Run.shifted (r : Run) : List Token := r.events.filterMap Event.shifted?

theorem shifted_cons (e : Event) (past : List Event) :
    (e :: past).reverse.filterMap Event.shifted? =
      past.reverse.filterMap Event.shifted? ++ e.shifted?.toList := by
  rw [List.reverse_cons, List.filterMap_append]
  cases he : e.shifted? with
  | none => simp [he]
  | some token => simp [he]

namespace Automaton

variable {g : Grammar} {m : Automaton} {t : Table} {c c' : Config} {xs ys : List Nat}
  {event : Option Event} {used done : List Token} {past past' : List Event} {s : Stream}

/-- The symbols on the stack derive the terminals that were shifted, as long as no error was
recorded. -/
def Spans (m : Automaton) (t : Table) (past : List Event) (c : Config) (xs : List Nat) : Prop :=
  c.errors = [] → ∃ ws, m.grammar.Derives xs.reverse ws ∧
    List.Forall₂ (fun token (x : Nat) => t.terminalOf (some token) = x)
      (past.reverse.filterMap Event.shifted?) ws

theorem Spans.shift (h : Spans m t past c xs) {token : Token} {x : Nat} (flag : Bool)
    (hx : t.terminalOf (some token) = x) (hlt : x < m.grammar.terminalCount)
    (herr : c'.errors = c.errors) : Spans m t (.shift token flag :: past) c' (x :: xs) := by
  intro hclean
  obtain ⟨ws, hd, hws⟩ := h (herr ▸ hclean)
  refine ⟨ws ++ [x], ?_, ?_⟩
  · rw [List.reverse_cons]
    exact hd.append (.of_terminal hlt)
  · rw [shifted_cons]
    exact List.rel_append hws (.cons hx .nil)

theorem Spans.reduce (h : Spans m t past c xs) {i : Nat} {r : Production}
    (hr : m.grammar.rules[i]? = some r) (hxs : xs = r.symbols.reverse ++ ys) (flag : Bool)
    (herr : c'.errors = c.errors) : Spans m t (.reduce i flag :: past) c' (r.lhs :: ys) := by
  intro hclean
  obtain ⟨ws, hd, hws⟩ := h (herr ▸ hclean)
  rw [hxs, List.reverse_append, List.reverse_reverse] at hd
  obtain ⟨u, v, rfl, hu, hv⟩ := hd.split
  refine ⟨u ++ v, ?_, ?_⟩
  · rw [List.reverse_cons]
    exact hu.append (.of_rule hr hv)
  · rw [shifted_cons]
    exact (List.append_nil _).symm ▸ hws

theorem Spans.effect (h : Spans m t past c xs) (wf : m.grammar.WellFormed) (hm : m.Shows t)
    (he : Effect m t c xs event used c' ys)
    (ha : Observer.recorder.after past event = .ok past') : Spans m t past' c' ys := by
  cases he with
  | @shift token x flag _ _ hx hlt herr _ =>
    cases ha
    exact h.shift flag hx hlt herr
  | @shift_end token flag _ _ hend _ _ herr _ =>
    cases ha
    refine h.shift flag ?_ wf.end_lt herr
    simp [Table.terminalOf, hend, hm.end_symbol]
  | @reduce i r zs flag _ _ hr hxs _ _ herr _ =>
    cases ha
    exact h.reduce hr hxs flag herr
  | discard _ _ herr _ =>
    cases ha
    intro hclean
    exact h (herr ▸ hclean)
  | trap _ _ _ _ herr _ _ =>
    intro hclean
    simp [herr] at hclean

theorem Generated.spans_reaches (h : Generated g m t)
    (hr : t.Reaches Observer.recorder [] s past c) :
    ∃ xs, m.Follows c xs ∧ Spans m t past c xs := by
  obtain ⟨xs, done, hc, -, hspans⟩ := h.reaches_invariant
    (P := fun past c xs _ => Spans m t past c xs)
    (fun c _ _ _ => ⟨[], .nil, .nil⟩)
    (fun hP heffect hafter => hP.effect h.well_formed h.shows heffect hafter) hr
  exact ⟨xs, hc, hspans⟩

theorem Spans.halt (h : Spans m t past c xs) {ks : List ItemSet} {ending : Ending}
    (hpath : m.grammar.Path ks xs) (he : Halt m t c xs event c' ending)
    (ha : Observer.recorder.after past event = .ok past') (hclean : c'.errors = []) :
    ∃ ks xs ws, m.grammar.Path ks xs ∧ m.grammar.Derives xs.reverse ws ∧
      List.Forall₂ (fun token (x : Nat) => t.terminalOf (some token) = x)
        (past'.reverse.filterMap Event.shifted?) ws := by
  cases he with
  | accept _ _ _ herr =>
    cases ha
    obtain ⟨ws, hd, hws⟩ := h (herr ▸ hclean)
    refine ⟨ks, xs, ws, hpath, hd, ?_⟩
    rw [shifted_cons]
    exact (List.append_nil _).symm ▸ hws
  | finish _ _ _ herr =>
    cases ha
    obtain ⟨ws, hd, hws⟩ := h (herr ▸ hclean)
    exact ⟨ks, xs, ws, hpath, hd, hws⟩
  | miss herr => simp [herr] at hclean
  | unread _ herr hevent =>
    cases event with
    | none =>
      cases ha
      obtain ⟨ws, hd, hws⟩ := h (herr ▸ hclean)
      exact ⟨ks, xs, ws, hpath, hd, hws⟩
    | some e =>
      cases ha
      obtain ⟨token, x, flag, ks', hx, hlt, hpath', rfl⟩ := hevent e rfl
      obtain ⟨ws, hd, hws⟩ := h.shift flag hx hlt herr hclean
      exact ⟨ks', x :: xs, ws, hpath', hd, hws⟩

theorem Generated.run_spans (h : Generated g m t) (n : Nat) (s : Stream)
    (hclean : (t.run n s).errors = []) : ∃ ks xs ws, m.grammar.Path ks xs ∧
      m.grammar.Derives xs.reverse ws ∧
      List.Forall₂ (fun token (x : Nat) => t.terminalOf (some token) = x)
        (t.run n s).shifted ws := by
  have hnone : ∃ ks xs ws, m.grammar.Path ks xs ∧ m.grammar.Derives xs.reverse ws ∧
      List.Forall₂ (fun token (x : Nat) => t.terminalOf (some token) = x) [] ws :=
    ⟨_, [], [], .start, .nil, .nil⟩
  unfold Table.run at hclean ⊢
  unfold Run.shifted
  dsimp only at hclean ⊢
  rcases t.watch_cases Observer.recorder [] n s with
    ⟨message, -, hrun⟩ | ⟨b, -, hrun⟩ | ⟨past, c, hreach, hends⟩
  · rw [hrun]
    exact hnone
  · rw [hrun]
    exact hnone
  · obtain ⟨xs, hfollows, hspans⟩ := h.spans_reaches hreach
    obtain ⟨ks, hpath, -⟩ := hfollows.stack
    have hkept := h.step_kept hfollows
    generalize t.watch Observer.recorder [] n s = run at hends hclean
    cases hends with
    | out_of_steps =>
      obtain ⟨ws, hd, hws⟩ := hspans hclean
      exact ⟨ks, xs, ws, hpath, hd, hws⟩
    | breached _ =>
      obtain ⟨ws, hd, hws⟩ := hspans hclean
      exact ⟨ks, xs, ws, hpath, hd, hws⟩
    | @unseen_next _ event _ _ hafter => cases event <;> cases hafter
    | @unseen_stop _ event _ _ _ hafter => cases event <;> cases hafter
    | ended hstep hafter =>
      rw [hstep] at hkept
      cases hkept with
      | stop hhalt => exact hspans.halt hpath hhalt hafter hclean

/-- Where every nonterminal of the grammar derives a word, every symbol of a production does. -/
theorem Generated.productive (h : Generated g m t)
    (hg : ∀ nt ∈ g.nonterminals, ∃ w, g.Generates [nt.name] w) : m.grammar.Productive := by
  intro i r hr s hs
  have hlt := h.well_formed.symbol_lt i r hr s hs
  have hne := h.well_formed.symbol_ne_start i r hr s hs
  by_cases hterminal : s < m.grammar.terminalCount
  · exact ⟨[s], .of_terminal hterminal⟩
  · obtain ⟨name, htext, -⟩ := h.token_name_of_lt hlt
    obtain ⟨nt, hnt, rfl⟩ :=
      (h.represents.nonterminal_iff s name htext hne).mp (Nat.le_of_not_lt hterminal)
    obtain ⟨w, hw⟩ := hg nt hnt
    have hall : ∀ s' ∈ [s], s' ≠ m.numbering.grammar.startSymbol := by
      intro s' hs'
      rw [List.mem_singleton.mp hs']
      exact hne
    obtain ⟨ws, -, hd⟩ := h.represents.derives_of_generates hw hall (.cons htext .nil)
    exact ⟨ws, hd⟩

theorem Generated.names_of_spells (h : Generated g m t) {tokens : List Token} {ws : List Nat}
    {names : List String}
    (hws : List.Forall₂ (fun token (x : Nat) => t.terminalOf (some token) = x) tokens ws)
    (hnames : m.symbols.Spells ws names) :
    List.Forall₂ (fun token x => t.tokenName (t.terminalOf (some token)) = .ok x) tokens names := by
  induction hws generalizing names with
  | nil =>
    cases hnames
    exact .nil
  | cons hx _ ih =>
    obtain ⟨name, rest, htext, hrest, rfl⟩ := List.forall₂_cons_left_iff.mp hnames
    exact .cons (by rw [hx]; exact h.shows.token_name htext) (ih hrest)

end Automaton

namespace Table

variable {g : Grammar} {options : CompileOptions} {cg : CompiledGrammar} {t : Table}

/-- The tokens shifted before the first error begin a sentence with the end of input behind it. -/
theorem shifted_begins_sentence (h : (g.compile options).result = .ok cg) (ht : cg.table = some t)
    (hwords : ∀ nt ∈ g.nonterminals, ∃ w, g.Generates [nt.name] w) (n : Nat) (s : Stream)
    (hclean : (t.run n s).errors = []) :
    ∃ names w, List.Forall₂ (fun token x => t.tokenName (t.terminalOf (some token)) = .ok x)
        (t.run n s).shifted names ∧
      g.Sentence w ∧ names <+: w ++ [endName] := by
  have hg := Automaton.generated_of_compile h ht
  have wf := hg.well_formed
  obtain ⟨ks, xs, ws, hpath, hd, hws⟩ := hg.run_spans n s hclean
  obtain ⟨vs, hstart⟩ := hpath.continues wf (hg.productive hwords) hd
  obtain ⟨r, u, v, hr, hsym, hv, heq⟩ := wf.derives_start hstart
  obtain ⟨w, hw, hsentence⟩ := hg.represents.sentence_of_derives hr hsym hv
  have hspells : (Automaton.generate g).symbols.Spells (ws ++ vs) (w ++ [endName]) := by
    rw [heq]
    exact List.rel_append hw (.cons hg.represents.end_text .nil)
  obtain ⟨names, rest, hsplit, hnames, -⟩ := hspells.split
  exact ⟨names, w, hg.names_of_spells hws hnames, hsentence, rest, hsplit.symm⟩

set_option maxRecDepth 100000 in
/-- The second token is no terminal of the grammar; before it is looked at, the first is shifted. -/
theorem letters_shifted : ∃ cg t, (Grammar.letters.compile ⟨true, none⟩).result = .ok cg ∧
    cg.table = some t ∧
    (t.run 2 (Stream.ofTerminals [2, 7])).errors = [] ∧
    (t.run 2 (Stream.ofTerminals [2, 7])).shifted.length = 1 ∧
    ∃ names w, List.Forall₂ (fun token x => t.tokenName (t.terminalOf (some token)) = .ok x)
        (t.run 2 (Stream.ofTerminals [2, 7])).shifted names ∧
      Grammar.letters.Sentence w ∧ names <+: w ++ [endName] := by
  obtain ⟨cg, t, h, ht, hrun⟩ := @Grammar.exists_table Grammar.letters ⟨true, none⟩
    (fun t => (t.run 2 (Stream.ofTerminals [2, 7])).errors = [] ∧
      (t.run 2 (Stream.ofTerminals [2, 7])).shifted.length = 1) (by decide +kernel)
  obtain ⟨hclean, hone⟩ := of_decide_eq_true hrun
  have hwords : ∀ nt ∈ Grammar.letters.nonterminals, ∃ w,
      Grammar.letters.Generates [nt.name] w := by
    intro nt hnt
    obtain rfl := List.mem_singleton.mp hnt
    have ha : Grammar.letters.Generates ["a"] ["a"] := .terminal (by decide) .nil
    exact ⟨["a"] ++ [], .of_names (by decide) ha .nil⟩
  exact ⟨cg, t, h, ht, hclean, hone, shifted_begins_sentence h ht hwords 2 _ hclean⟩

end Table

end ParserTables

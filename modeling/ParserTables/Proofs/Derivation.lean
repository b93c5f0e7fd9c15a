import Mathlib.Data.List.Forall2
import ParserTables.Proofs.Numbering

/-!
What a grammar derives. A sequence of symbols derives a word symbol by symbol: a terminal derives
itself, and a nonterminal what the tokens of one of its rules derive. This is said twice, of the
names of a grammar and of the numbers of its productions, and the two agree on every grammar
without issues.
-/

namespace ParserTables

/-- The names of a grammar that `xs` derives; a name that is no nonterminal's stands for itself. -/
inductive Grammar.Generates (g : Grammar) : List String → List String → Prop
  | nil : Generates g [] []
  | terminal {x : String} {xs w : List String} : (∀ nt ∈ g.nonterminals, nt.name ≠ x) →
      Generates g xs w → Generates g (x :: xs) (x :: w)
  | rule {nt : Nonterminal} {r : Rule} {xs u w : List String} : nt ∈ g.nonterminals →
      r ∈ nt.rules → Generates g (r.tokens.map (·.name)) u → Generates g xs w →
      Generates g (nt.name :: xs) (u ++ w)

theorem Grammar.Generates.of_names {g : Grammar} {x : String} {names xs u w : List String}
    (h : ∃ nt ∈ g.nonterminals, nt.name = x ∧ ∃ r ∈ nt.rules, r.tokens.map (·.name) = names)
    (hu : g.Generates names u) (hw : g.Generates xs w) : g.Generates (x :: xs) (u ++ w) := by
  obtain ⟨nt, hnt, rfl, r, hr, rfl⟩ := h
  exact .rule hnt hr hu hw

def Grammar.Sentence (g : Grammar) (w : List String) : Prop :=
  ∃ d, g.start = some d ∧ g.Generates [d.name] w

namespace NumberedGrammar

variable {g : NumberedGrammar} {xs ys u v w : List Nat} {x : Nat}

inductive Derives (g : NumberedGrammar) : List Nat → List Nat → Prop
  | nil : Derives g [] []
  | terminal {x : Nat} {xs w : List Nat} : x < g.terminalCount → Derives g xs w →
      Derives g (x :: xs) (x :: w)
  | rule {i : Nat} {r : Production} {xs u w : List Nat} : g.rules[i]? = some r →
      Derives g r.symbols u → Derives g xs w → Derives g (r.lhs :: xs) (u ++ w)

theorem Derives.append (h : g.Derives xs u) (k : g.Derives ys v) :
    g.Derives (xs ++ ys) (u ++ v) := by
  induction h with
  | nil => exact k
  | terminal hx _ ih => exact .terminal hx ih
  | rule hr hu _ _ ih =>
    rw [List.append_assoc]
    exact .rule hr hu ih

theorem Derives.split (h : g.Derives (xs ++ ys) w) :
    ∃ u v, w = u ++ v ∧ g.Derives xs u ∧ g.Derives ys v := by
  induction xs generalizing w with
  | nil => exact ⟨[], w, rfl, .nil, h⟩
  | cons x xs ih =>
    cases h with
    | terminal hx hw =>
      obtain ⟨u, v, rfl, hu, hv⟩ := ih hw
      exact ⟨x :: u, v, rfl, .terminal hx hu, hv⟩
    | @rule i r _ u' w' hr hu' hw =>
      obtain ⟨u, v, rfl, hu, hv⟩ := ih hw
      exact ⟨u' ++ u, v, (List.append_assoc _ _ _).symm, .rule hr hu' hu, hv⟩

theorem Derives.of_rule {i : Nat} {r : Production} (hr : g.rules[i]? = some r)
    (h : g.Derives r.symbols w) : g.Derives [r.lhs] w := by
  simpa using Derives.rule hr h .nil

theorem Derives.of_terminal (hx : x < g.terminalCount) : g.Derives [x] [x] :=
  .terminal hx .nil

theorem Derives.rule_of_nonterminal (h : g.Derives [x] w) (hx : g.terminalCount ≤ x) :
    ∃ (i : Nat) (r : Production), g.rules[i]? = some r ∧ r.lhs = x ∧ g.Derives r.symbols w := by
  cases h with
  | terminal hlt _ => omega
  | @rule i r _ u w' hr hu hw =>
    cases hw
    exact ⟨i, r, hr, rfl, by simpa using hu⟩

theorem Derives.eq_of_terminal (wf : g.WellFormed) (h : g.Derives [x] w)
    (hx : x < g.terminalCount) : w = [x] := by
  cases h with
  | terminal _ hw =>
    cases hw
    rfl
  | rule hr _ _ =>
    have := wf.lhs_nonterminal _ _ hr
    omega

/-- What derives from the start production is a word with the end of input behind it. -/
theorem WellFormed.derives_start (wf : g.WellFormed) (h : g.Derives [g.startSymbol] w) :
    ∃ r u v, g.rules[0]? = some r ∧ r.symbols = [u, SymbolTable.endSymbol] ∧
      g.Derives [u] v ∧ w = v ++ [SymbolTable.endSymbol] := by
  obtain ⟨i, r, hr, hl, hw⟩ := h.rule_of_nonterminal wf.start_nonterminal
  obtain rfl := wf.start_only i r hr hl
  obtain ⟨r₀, u, hr₀, -, hs, -⟩ := wf.start_rule
  cases hr₀.symm.trans hr
  rw [hs] at hw
  change g.Derives ([u] ++ [SymbolTable.endSymbol]) w at hw
  obtain ⟨v, e, rfl, hv, he⟩ := hw.split
  have hend := he.eq_of_terminal wf wf.end_lt
  exact ⟨r, u, v, hr, hs, hv, by rw [hend]⟩

end NumberedGrammar

def SymbolTable.Spells (t : SymbolTable) (ss : List Nat) (xs : List String) : Prop :=
  List.Forall₂ (fun s x => t.text? s = some x) ss xs

namespace SymbolTable.Spells

variable {t : SymbolTable} {ss ss' : List Nat} {xs xs' : List String}

theorem split (h : t.Spells (ss ++ ss') xs) :
    ∃ ys ys', xs = ys ++ ys' ∧ t.Spells ss ys ∧ t.Spells ss' ys' := by
  refine ⟨xs.take ss.length, xs.drop ss.length, (List.take_append_drop _ _).symm, ?_, ?_⟩
  · have hfirst := List.forall₂_take ss.length h
    rwa [List.take_left] at hfirst
  · have hrest := List.forall₂_drop ss.length h
    rwa [List.drop_left] at hrest

theorem unique (h : t.Spells ss xs) (h' : t.Spells ss xs') : xs = xs' := by
  induction h generalizing xs' with
  | nil =>
    cases h'
    rfl
  | cons hx _ ih =>
    obtain ⟨x', rest, hx', hrest, rfl⟩ := List.forall₂_cons_left_iff.mp h'
    rw [ih hrest, Option.some.inj (hx.symm.trans hx')]

theorem text_mem (h : t.Spells ss xs) {s : Nat} {x : String} (hs : s ∈ ss)
    (hx : t.text? s = some x) : x ∈ xs := by
  induction h with
  | nil => cases hs
  | cons hy _ ih =>
    rcases List.mem_cons.mp hs with rfl | hs
    · rw [Option.some.inj (hx.symm.trans hy)]
      exact List.mem_cons_self
    · exact List.mem_cons_of_mem _ (ih hs)

end SymbolTable.Spells

namespace Numbering.Represents

variable {g : Grammar} {m : Numbering} {ss ws : List Nat} {xs w : List String}

theorem lhs_zero (h : Represents g m) {r : Production} (hr : m.rules[0]? = some r) :
    r.lhs = m.grammar.startSymbol := by
  obtain ⟨r₀, u, hr₀, hl, -⟩ := h.well_formed.start_rule
  cases hr₀.symm.trans hr
  exact hl

theorem spells_tokens {tokens : List RuleToken}
    (hall : List.Forall₂ (fun s t => m.naming.symbols.text? s = some t.name) ss tokens) :
    m.naming.symbols.Spells ss (tokens.map (·.name)) := by
  rw [SymbolTable.Spells, List.forall₂_map_right_iff]
  exact hall

theorem rule_of_production (h : Represents g m) {i : Nat} {r : Production}
    (hr : m.rules[i]? = some r) (hl : r.lhs ≠ m.grammar.startSymbol) {x : String}
    (hx : m.naming.symbols.text? r.lhs = some x) : ∃ nt ∈ g.nonterminals, nt.name = x ∧
      ∃ src ∈ nt.rules, m.naming.symbols.Spells r.symbols (src.tokens.map (·.name)) := by
  have hi : i ≠ 0 := by
    rintro rfl
    exact hl (h.lhs_zero hr)
  obtain ⟨nt, hnt, src, hsrc, htext, -, hall⟩ := h.rule_source i r hr hi
  exact ⟨nt, hnt, Option.some.inj (htext.symm.trans hx), src, hsrc, spells_tokens hall⟩

theorem generates_of_derives (h : Represents g m) (hd : m.grammar.Derives ss ws)
    (hne : ∀ s ∈ ss, s ≠ m.grammar.startSymbol) (hs : m.naming.symbols.Spells ss xs) :
    ∃ w, m.naming.symbols.Spells ws w ∧ g.Generates xs w := by
  induction hd generalizing xs with
  | nil =>
    cases hs
    exact ⟨[], .nil, .nil⟩
  | @terminal t ss ws ht _ ih =>
    obtain ⟨x, xs, htext, hrest, rfl⟩ := List.forall₂_cons_left_iff.mp hs
    obtain ⟨w, hw, hg⟩ := ih (fun s hs => hne s (by simp [hs])) hrest
    refine ⟨x :: w, .cons htext hw, .terminal ?_ hg⟩
    intro nt hnt hname
    have hge := (h.nonterminal_iff t x htext (hne t (by simp))).mpr ⟨nt, hnt, hname⟩
    omega
  | @rule i r ss us ws hr _ _ ihu ihw =>
    obtain ⟨x, xs, htext, hrest, rfl⟩ := List.forall₂_cons_left_iff.mp hs
    obtain ⟨w, hw, hg⟩ := ihw (fun s hs => hne s (by simp [hs])) hrest
    obtain ⟨nt, hnt, rfl, src, hsrc, htokens⟩ :=
      h.rule_of_production hr (hne r.lhs (by simp)) htext
    obtain ⟨u, hu, hgu⟩ := ihu (h.well_formed.symbol_ne_start i r hr) htokens
    exact ⟨u ++ w, List.rel_append hu hw, .rule hnt hsrc hgu hg⟩

theorem derives_of_generates (h : Represents g m) (hg : g.Generates xs w)
    (hne : ∀ s ∈ ss, s ≠ m.grammar.startSymbol) (hs : m.naming.symbols.Spells ss xs) :
    ∃ ws, m.naming.symbols.Spells ws w ∧ m.grammar.Derives ss ws := by
  induction hg generalizing ss with
  | nil =>
    cases hs
    exact ⟨[], .nil, .nil⟩
  | @terminal x xs w hx _ ih =>
    obtain ⟨s, ss, htext, hrest, rfl⟩ := List.forall₂_cons_right_iff.mp hs
    obtain ⟨ws, hws, hd⟩ := ih (fun s hs => hne s (by simp [hs])) hrest
    refine ⟨s :: ws, .cons htext hws, .terminal ?_ hd⟩
    by_contra hge
    obtain ⟨nt, hnt, hname⟩ :=
      (h.nonterminal_iff s x htext (hne s (by simp))).mp (Nat.le_of_not_lt hge)
    exact hx nt hnt hname
  | @rule nt src xs u w hnt hsrc _ _ ihu ihw =>
    obtain ⟨s, ss, htext, hrest, rfl⟩ := List.forall₂_cons_right_iff.mp hs
    obtain ⟨ws, hws, hd⟩ := ihw (fun s hs => hne s (by simp [hs])) hrest
    obtain ⟨i, r, -, hr, hl, hall⟩ := h.rule_number nt hnt src hsrc
    obtain ⟨us, hus, hdu⟩ := ihu (h.well_formed.symbol_ne_start i r hr) (spells_tokens hall)
    obtain rfl := h.table.id_unique htext hl
    exact ⟨us ++ ws, List.rel_append hus hws, .rule hr hdu hd⟩

theorem user_start_ne (h : Represents g m) {r : Production} {u : Nat}
    (hr : m.rules[0]? = some r) (hsym : r.symbols = [u, SymbolTable.endSymbol]) :
    ∀ s ∈ [u], s ≠ m.grammar.startSymbol := by
  intro s hs
  obtain rfl := List.mem_singleton.mp hs
  exact h.well_formed.symbol_ne_start 0 r hr s (by simp [hsym])

/-- What stands before the end of input in the start production derives the sentences. -/
theorem sentence_of_derives (h : Represents g m) {r : Production} {u : Nat}
    (hr : m.rules[0]? = some r) (hsym : r.symbols = [u, SymbolTable.endSymbol])
    (hd : m.grammar.Derives [u] ws) : ∃ w, m.naming.symbols.Spells ws w ∧ g.Sentence w := by
  obtain ⟨d, r', u', hd', hr', hsym', htext⟩ := h.start_names
  cases hr.symm.trans hr'
  cases hsym.symm.trans hsym'
  obtain ⟨w, hw, hgen⟩ := h.generates_of_derives hd (h.user_start_ne hr hsym) (.cons htext .nil)
  exact ⟨w, hw, d, hd', hgen⟩

theorem derives_of_sentence (h : Represents g m) (hw : g.Sentence w) :
    ∃ (r : Production) (u : Nat) (ws : List Nat), m.rules[0]? = some r ∧
      r.symbols = [u, SymbolTable.endSymbol] ∧ m.naming.symbols.Spells ws w ∧
      m.grammar.Derives [u] ws := by
  obtain ⟨d, hd, hgen⟩ := hw
  obtain ⟨d', r, u, hd', hr, hsym, htext⟩ := h.start_names
  cases hd'.symm.trans hd
  obtain ⟨ws, hws, hderives⟩ :=
    h.derives_of_generates hgen (h.user_start_ne hr hsym) (.cons htext .nil)
  exact ⟨r, u, ws, hr, hsym, hws, hderives⟩

end Numbering.Represents

end ParserTables

import Mathlib.Data.List.Forall2
import ParserTables.Numbering.Basic
import ParserTables.Proofs.Naming

/-!
The productions that a grammar without issues is numbered to. All their tokens have numbers, the
start production alone has the augmented start symbol and the end of input, and the others are the
rules of the grammar, each once its names are looked up in the symbol table.
-/

namespace ParserTables

def Production.symbols (r : Production) : List Nat := r.tokens.filterMap id

namespace NumberedGrammar

variable {g : NumberedGrammar} {a : Item} {s i : Nat} {r : Production}

structure WellFormed (g : NumberedGrammar) : Prop where
  two_terminals : 2 ≤ g.terminalCount
  start_nonterminal : g.terminalCount ≤ g.startSymbol
  start_lt : g.startSymbol < g.symbolCount
  limit : g.symbolCount ≤ SymbolTable.maxSymbol + 1
  start_rule : ∃ (r : Production) (u : Nat), g.rules[0]? = some r ∧ r.lhs = g.startSymbol ∧
    r.symbols = [u, SymbolTable.endSymbol] ∧ g.terminalCount ≤ u
  resolved : ∀ (i : Nat) (r : Production), g.rules[i]? = some r → r.tokens = r.symbols.map some
  lhs_nonterminal : ∀ (i : Nat) (r : Production), g.rules[i]? = some r → g.terminalCount ≤ r.lhs
  lhs_lt : ∀ (i : Nat) (r : Production), g.rules[i]? = some r → r.lhs < g.symbolCount
  start_only : ∀ (i : Nat) (r : Production), g.rules[i]? = some r →
    r.lhs = g.startSymbol → i = 0
  symbol_lt : ∀ (i : Nat) (r : Production), g.rules[i]? = some r →
    ∀ s ∈ r.symbols, s < g.symbolCount
  symbol_ne_start : ∀ (i : Nat) (r : Production), g.rules[i]? = some r →
    ∀ s ∈ r.symbols, s ≠ g.startSymbol
  end_only : ∀ (i : Nat) (r : Production), g.rules[i]? = some r →
    SymbolTable.endSymbol ∈ r.symbols → i = 0

/-- Every token that has a number has that of a symbol. -/
def Bounded (g : NumberedGrammar) : Prop := ∀ a s, g.tokenAt? a = some s → s < g.symbolCount

theorem WellFormed.end_lt (wf : g.WellFormed) : SymbolTable.endSymbol < g.terminalCount :=
  Nat.lt_of_lt_of_le (by decide) wf.two_terminals

theorem WellFormed.error_lt (wf : g.WellFormed) : SymbolTable.errorSymbol < g.terminalCount :=
  Nat.lt_of_lt_of_le (by decide) wf.two_terminals

theorem tokenAt_eq_some : g.tokenAt? a = some s ↔
    ∃ r : Production, g.rules[a.rule]? = some r ∧ r.tokens[a.phase]? = some (some s) := by
  unfold tokenAt?
  cases hr : g.rules[a.rule]? with
  | none => simp
  | some r =>
    cases ht : r.tokens[a.phase]? with
    | none => simp [ht]
    | some token => simp [ht]

theorem WellFormed.length_tokens (wf : g.WellFormed) (hr : g.rules[i]? = some r) :
    r.tokens.length = r.symbols.length := by
  have hlen := congrArg List.length (wf.resolved i r hr)
  simpa using hlen

theorem WellFormed.token_iff (wf : g.WellFormed) : g.tokenAt? a = some s ↔
    ∃ r : Production, g.rules[a.rule]? = some r ∧ r.symbols[a.phase]? = some s := by
  rw [tokenAt_eq_some]
  constructor
  · rintro ⟨r, hr, ht⟩
    rw [wf.resolved _ r hr] at ht
    exact ⟨r, hr, by simpa using ht⟩
  · rintro ⟨r, hr, ht⟩
    refine ⟨r, hr, ?_⟩
    rw [wf.resolved _ r hr]
    simpa using ht

theorem WellFormed.token_eq (wf : g.WellFormed) (hr : g.rules[i]? = some r) (p : Nat) :
    g.tokenAt? ⟨i, p⟩ = r.symbols[p]? := by
  ext s
  rw [wf.token_iff]
  simp [hr]

theorem WellFormed.final_iff (wf : g.WellFormed) : g.isFinal a = true ↔
    ∃ r : Production, g.rules[a.rule]? = some r ∧ a.phase = r.symbols.length := by
  unfold isFinal
  cases hr : g.rules[a.rule]? with
  | none => simp
  | some r => simp [wf.length_tokens hr]

theorem WellFormed.drop_token (wf : g.WellFormed) (hr : g.rules[a.rule]? = some r)
    (ht : g.tokenAt? a = some s) :
    r.symbols.drop a.phase = s :: r.symbols.drop (a.phase + 1) := by
  obtain ⟨r', hr', hs⟩ := wf.token_iff.mp ht
  cases hr.symm.trans hr'
  obtain ⟨hlt, rfl⟩ := List.getElem?_eq_some_iff.mp hs
  exact List.drop_eq_getElem_cons hlt

theorem WellFormed.split_token (wf : g.WellFormed) (hr : g.rules[a.rule]? = some r)
    (ht : g.tokenAt? a = some s) :
    r.symbols = r.symbols.take a.phase ++ s :: r.symbols.drop (a.phase + 1) := by
  rw [← wf.drop_token hr ht, List.take_append_drop]

theorem WellFormed.token_of_split (wf : g.WellFormed) (hr : g.rules[i]? = some r)
    {before after : List Nat} (hsplit : r.symbols = before ++ s :: after) :
    g.tokenAt? ⟨i, before.length⟩ = some s := by
  rw [wf.token_eq hr, hsplit]
  simp

theorem WellFormed.token_of_drop (wf : g.WellFormed) (hr : g.rules[i]? = some r) {p : Nat}
    {rest : List Nat} (hdrop : r.symbols.drop p = s :: rest) :
    g.tokenAt? ⟨i, p⟩ = some s ∧ r.symbols.drop (p + 1) = rest := by
  constructor
  · rw [wf.token_eq hr, ← List.head?_drop, hdrop]
    rfl
  · rw [← List.tail_drop, hdrop]
    rfl

theorem WellFormed.token_lt (wf : g.WellFormed) (ht : g.tokenAt? a = some s) :
    s < g.symbolCount := by
  obtain ⟨r, hr, hs⟩ := wf.token_iff.mp ht
  exact wf.symbol_lt _ r hr s (List.mem_of_getElem? hs)

theorem WellFormed.bounded (wf : g.WellFormed) : g.Bounded := fun _ _ => wf.token_lt

theorem lhs_eq_some : g.lhs? i = some s ↔ ∃ r : Production, g.rules[i]? = some r ∧ r.lhs = s := by
  simp [lhs?]

theorem mem_rulesOf : i ∈ g.rulesOf s ↔ g.lhs? i = some s := by
  simp only [rulesOf, List.mem_filter, List.mem_range, decide_eq_true_eq, and_iff_right_iff_imp]
  intro hl
  obtain ⟨r, hr, -⟩ := lhs_eq_some.mp hl
  exact (Array.getElem?_eq_some_iff.mp hr).1

end NumberedGrammar

namespace Numbering

variable {g : Grammar} {n : Naming} {start : Nat}

theorem resolve_ok {name : String} {s : Nat} (h : resolve n name = .ok s) :
    n.symbols.id? name = some s ∧ n.symbols.start ≠ some s ∧ s ≠ SymbolTable.endSymbol := by
  unfold resolve at h
  split at h
  · cases h
  · next s' hid =>
    split at h
    · cases h
    · next hstart =>
      split at h
      · cases h
      · next hend =>
        cases h
        exact ⟨hid, hstart, hend⟩

theorem resolve_of_no_issues {owner : String} {seen : List String} {before : Option Nat}
    {tokens : List RuleToken} (h : tokenIssues n owner seen before tokens = []) :
    ∀ t ∈ tokens, ∃ s, resolve n t.name = .ok s := by
  induction tokens generalizing seen before with
  | nil => simp
  | cons t ts ih =>
    unfold tokenIssues at h
    dsimp only at h
    split at h
    · cases h
    · next s hs =>
      have hrest : ∀ t' ∈ ts, ∃ s, resolve n t'.name = .ok s := by
        split at h
        · cases h
        · exact ih h
      intro t' ht'
      rcases List.mem_cons.mp ht' with rfl | ht'
      · exact ⟨s, hs⟩
      · exact hrest t' ht'

def Resolves (n : Naming) (s : Nat) (t : RuleToken) : Prop :=
  resolve n t.name = .ok s

theorem numbers_of_resolved {tokens : List RuleToken}
    (h : ∀ t ∈ tokens, ∃ s, resolve n t.name = .ok s) :
    ∃ ss, tokens.map (fun t => number? n t.name) = ss.map some ∧
      List.Forall₂ (Resolves n) ss tokens := by
  induction tokens with
  | nil => exact ⟨[], rfl, .nil⟩
  | cons t ts ih =>
    obtain ⟨s, hs⟩ := h t (by simp)
    obtain ⟨ss, hmap, hall⟩ := ih fun t' ht' => h t' (by simp [ht'])
    refine ⟨s :: ss, ?_, .cons hs hall⟩
    have hnum : number? n t.name = some s := by simp [number?, hs]
    rw [List.map_cons, List.map_cons, hnum, hmap]

theorem production_symbols (precs : List Precedence) (lhs : Nat) (owner : String) {r : Rule}
    (h : ∀ t ∈ r.tokens, ∃ s, resolve n t.name = .ok s) :
    (production n precs lhs owner r).tokens =
      (production n precs lhs owner r).symbols.map some ∧
    List.Forall₂ (Resolves n) (production n precs lhs owner r).symbols r.tokens := by
  obtain ⟨ss, hmap, hall⟩ := numbers_of_resolved h
  have htokens : (production n precs lhs owner r).tokens = ss.map some := hmap
  have hsymbols : (production n precs lhs owner r).symbols = ss := by
    simp only [Production.symbols, htokens, List.filterMap_map]
    exact List.filterMap_some
  exact ⟨hsymbols ▸ htokens, hsymbols ▸ hall⟩

theorem mem_ownedRules {x : Nat × String × Rule} : x ∈ ownedRules n start ↔
    ∃ i, ∃ nt : Nonterminal, n.owners[i]? = some nt ∧ x.1 = start + 1 + i ∧ x.2.1 = nt.name ∧
      x.2.2 ∈ nt.rules := by
  obtain ⟨lhs, owner, r⟩ := x
  simp only [ownedRules, List.mem_flatMap, Prod.exists, List.mem_map, Prod.mk.injEq,
    List.mem_zipIdx_iff_getElem?]
  constructor
  · rintro ⟨nt, i, hi, r', hr, rfl, rfl, rfl⟩
    exact ⟨i, nt, by simpa using hi, rfl, rfl, hr⟩
  · rintro ⟨i, nt, hi, rfl, rfl, hr⟩
    exact ⟨nt, i, by simpa using hi, r, hr, rfl, rfl, rfl⟩

end Numbering

/-- How the productions of a grammar without issues come from its rules. -/
structure Numbering.Represents (g : Grammar) (m : Numbering) : Prop where
  well_formed : m.grammar.WellFormed
  table : m.naming.symbols.Valid
  end_text : m.naming.symbols.text? SymbolTable.endSymbol = some endName
  error_text : m.naming.symbols.text? SymbolTable.errorSymbol = some errorName
  start_names : ∃ (d : StartDecl) (r : Production) (u : Nat), g.start = some d ∧
    m.rules[0]? = some r ∧ r.symbols = [u, SymbolTable.endSymbol] ∧
    m.naming.symbols.text? u = some d.name
  user_start : m.userStart.isSome = true
  rule_source : ∀ (i : Nat) (r : Production), m.rules[i]? = some r → i ≠ 0 →
    ∃ nt ∈ g.nonterminals, ∃ src ∈ nt.rules, m.naming.symbols.text? r.lhs = some nt.name ∧
    r.binary = src.isBinary nt.name ∧
    List.Forall₂ (fun s t => m.naming.symbols.text? s = some t.name) r.symbols src.tokens
  rule_number : ∀ nt ∈ g.nonterminals, ∀ src ∈ nt.rules, ∃ (i : Nat) (r : Production),
    i ≠ 0 ∧ m.rules[i]? = some r ∧ m.naming.symbols.text? r.lhs = some nt.name ∧
    List.Forall₂ (fun s t => m.naming.symbols.text? s = some t.name) r.symbols src.tokens
  nonterminal_iff : ∀ s name, m.naming.symbols.text? s = some name → s ≠ m.grammar.startSymbol →
    (m.grammar.terminalCount ≤ s ↔ ∃ nt ∈ g.nonterminals, nt.name = name)
  start_binary : ∀ (r : Production), m.rules[0]? = some r → r.binary = false

namespace Numbering

variable {g : Grammar} {n : Naming} {start : Nat} {m : Numbering}

/-- What a numbering is made of that did not run out of numbers, whatever its issues. -/
structure Laid (g : Grammar) (m : Numbering) (start : Nat) : Prop where
  named : Naming.Named g m.naming start
  rules_eq : m.rules = (startProduction m.naming g start :: (ownedRules m.naming start).map
    fun (lhs, owner, r) => production m.naming m.precedences lhs owner r).toArray

theorem Laid.rule_zero (h : Laid g m start) :
    m.rules[0]? = some (startProduction m.naming g start) := by
  rw [h.rules_eq]
  rfl

theorem Laid.rule_succ (h : Laid g m start) {i : Nat} {r : Production} :
    m.rules[i + 1]? = some r ↔ ∃ x, (ownedRules m.naming start)[i]? = some x ∧
      production m.naming m.precedences x.1 x.2.1 x.2.2 = r := by
  rw [h.rules_eq]
  simp only [List.getElem?_toArray, List.getElem?_cons_succ, List.getElem?_map,
    Option.map_eq_some_iff]

theorem Laid.start_eq (h : Laid g m start) : m.grammar.startSymbol = start := by
  simp [grammar, h.named.start_symbol]

theorem Laid.start_first (h : Laid g m start) :
    start = m.grammar.terminalCount ∧ start < m.grammar.symbolCount :=
  h.named.table.start_first start h.named.start_symbol

theorem Laid.token_bounds (h : Laid g m start) {s : Nat} {t : RuleToken}
    (hs : Resolves m.naming s t) : m.naming.symbols.text? s = some t.name ∧
      s < m.grammar.symbolCount ∧ s ≠ start ∧ s ≠ SymbolTable.endSymbol := by
  obtain ⟨hid, hstart, hend⟩ := resolve_ok hs
  have htext := (h.named.table.id_iff_text _ _).mp hid
  refine ⟨htext, h.named.table.text_lt htext, ?_, hend⟩
  rintro rfl
  exact hstart h.named.start_symbol

structure Built (g : Grammar) (m : Numbering) (start : Nat) : Prop extends Laid g m start where
  complete : Naming.Complete g m.naming start
  user_start : m.userStart = m.naming.userStart? g
  resolved : ∀ x ∈ ownedRules m.naming start, ∀ t ∈ x.2.2.tokens,
    ∃ s, resolve m.naming t.name = .ok s

theorem built_of_no_issues (h : (ofGrammar g).issues = []) :
    ∃ start, Built g (ofGrammar g) start := by
  unfold ofGrammar at h ⊢
  generalize Precedence.declareAll [] g.precedences = declared at h ⊢
  obtain ⟨precs, precIssues⟩ := declared
  generalize hn : Naming.ofGrammar g = naming at h ⊢
  obtain ⟨n, overflow⟩ := naming
  dsimp only at h ⊢
  cases overflow with
  | some e => simp at h
  | none =>
    have hnaming : precIssues ++ n.issues.toList = [] := by
      cases hs : n.symbols.start with
      | none =>
        rw [hs] at h
        exact h
      | some start =>
        rw [hs] at h
        exact (List.append_eq_nil_iff.mp h).1
    have hissues : n.issues = #[] :=
      Array.toList_eq_nil_iff.mp (List.append_eq_nil_iff.mp hnaming).2
    obtain ⟨start, hc⟩ := Naming.of_grammar_complete hn hissues
    have hstart := hc.start_symbol
    simp only [hstart] at h ⊢
    refine ⟨start, ⟨hc.toNamed, rfl⟩, hc, rfl, ?_⟩
    intro x hx
    have hrules := (List.append_eq_nil_iff.mp h).2
    have hone := List.flatMap_eq_nil_iff.mp hrules x hx
    exact resolve_of_no_issues (List.append_eq_nil_iff.mp hone).1

theorem Built.rule_owned (h : Built g m start) {i : Nat} {r : Production}
    (hr : m.rules[i + 1]? = some r) : ∃ k, ∃ nt : Nonterminal, m.naming.owners[k]? = some nt ∧
      r.lhs = start + 1 + k ∧ ∃ src ∈ nt.rules, r.binary = src.isBinary nt.name ∧
      r.tokens = r.symbols.map some ∧ List.Forall₂ (Resolves m.naming) r.symbols src.tokens := by
  obtain ⟨⟨lhs, owner, src⟩, hx, rfl⟩ := h.rule_succ.mp hr
  have hmem := List.mem_of_getElem? hx
  obtain ⟨k, nt, hk, rfl, rfl, hsrc⟩ := mem_ownedRules.mp hmem
  obtain ⟨htokens, hnames⟩ := production_symbols m.precedences (start + 1 + k) nt.name
    (h.resolved _ hmem)
  exact ⟨k, nt, hk, rfl, src, hsrc, rfl, htokens, hnames⟩

theorem Built.owner_lt (h : Built g m start) {k : Nat} {nt : Nonterminal}
    (hk : m.naming.owners[k]? = some nt) : start + 1 + k < m.grammar.symbolCount :=
  h.complete.table.text_lt (h.complete.owner_text k nt hk)

theorem Built.symbols_bounds (h : Built g m start) {ss : List Nat} {ts : List RuleToken}
    (hall : List.Forall₂ (Resolves m.naming) ss ts) : ∀ s ∈ ss,
      s < m.grammar.symbolCount ∧ s ≠ start ∧ s ≠ SymbolTable.endSymbol := by
  induction hall with
  | nil => simp
  | cons hs _ ih =>
    intro s' hs'
    rcases List.mem_cons.mp hs' with rfl | hs'
    · exact (h.token_bounds hs).2
    · exact ih s' hs'

theorem Built.start_symbols (h : Built g m start) : ∃ d u, g.start = some d ∧
    (startProduction m.naming g start).tokens = [some u, some SymbolTable.endSymbol] ∧
    (startProduction m.naming g start).symbols = [u, SymbolTable.endSymbol] ∧
    m.naming.symbols.text? u = some d.name ∧ start < u ∧ u < m.grammar.symbolCount := by
  obtain ⟨d, u, hd, hu, htext, hlt⟩ := h.complete.user_start
  have htokens : (startProduction m.naming g start).tokens =
      [some u, some SymbolTable.endSymbol] := by
    simp [startProduction, hu]
  refine ⟨d, u, hd, htokens, ?_, htext, hlt, h.complete.table.text_lt htext⟩
  simp [Production.symbols, htokens]

/-- Only the first production has the start symbol or the end of input. -/
theorem Built.rule_bounds (h : Built g m start) {i : Nat} {r : Production}
    (hr : m.rules[i]? = some r) : r.tokens = r.symbols.map some ∧
      start ≤ r.lhs ∧ r.lhs < m.grammar.symbolCount ∧ (r.lhs = start → i = 0) ∧
      ∀ s ∈ r.symbols, s < m.grammar.symbolCount ∧ s ≠ start ∧
        (s = SymbolTable.endSymbol → i = 0) := by
  obtain ⟨hfirst, hlt⟩ := h.start_first
  have htwo : 2 ≤ m.grammar.terminalCount := h.complete.two_terminals
  cases i with
  | zero =>
    cases h.rule_zero.symm.trans hr
    obtain ⟨d, u, -, htokens, hsymbols, -, hu, hult⟩ := h.start_symbols
    rw [htokens, hsymbols]
    refine ⟨rfl, Nat.le_refl start, hlt, fun _ => rfl, ?_⟩
    intro s hs
    simp only [List.mem_cons, List.not_mem_nil, or_false, SymbolTable.endSymbol] at hs
    exact ⟨by omega, by omega, fun _ => rfl⟩
  | succ i =>
    obtain ⟨k, nt, hk, hl, src, -, -, ht, hn⟩ := h.rule_owned hr
    have hklt := h.owner_lt hk
    refine ⟨ht, by omega, by omega, by omega, ?_⟩
    intro s hs
    obtain ⟨hslt, hne, hend⟩ := h.symbols_bounds hn s hs
    exact ⟨hslt, hne, fun heq => absurd heq hend⟩

theorem Built.well_formed (h : Built g m start) : m.grammar.WellFormed := by
  obtain ⟨hfirst, hlt⟩ := h.start_first
  have hstart := h.start_eq
  constructor
  case two_terminals => exact h.complete.two_terminals
  case start_nonterminal => omega
  case start_lt => omega
  case limit => exact h.complete.table.size_le
  case start_rule =>
    obtain ⟨d, u, -, -, hsymbols, -, hu, -⟩ := h.start_symbols
    exact ⟨_, u, h.rule_zero, hstart.symm, hsymbols, by omega⟩
  case resolved =>
    intro i r hr
    exact (h.rule_bounds hr).1
  case lhs_nonterminal =>
    intro i r hr
    obtain ⟨-, hge, -⟩ := h.rule_bounds hr
    omega
  case lhs_lt =>
    intro i r hr
    exact (h.rule_bounds hr).2.2.1
  case start_only =>
    intro i r hr heq
    exact (h.rule_bounds hr).2.2.2.1 (heq.trans hstart)
  case symbol_lt =>
    intro i r hr s hs
    exact ((h.rule_bounds hr).2.2.2.2 s hs).1
  case symbol_ne_start =>
    intro i r hr s hs
    rw [hstart]
    exact ((h.rule_bounds hr).2.2.2.2 s hs).2.1
  case end_only =>
    intro i r hr hs
    exact ((h.rule_bounds hr).2.2.2.2 _ hs).2.2 rfl

theorem Built.owner_of_nonterminal (h : Built g m start) {nt : Nonterminal}
    (hnt : nt ∈ g.nonterminals) : ∃ k : Nat, m.naming.owners[k]? = some nt := by
  rw [← h.complete.all_owners] at hnt
  obtain ⟨k, hk⟩ := List.getElem?_of_mem hnt
  exact ⟨k, by simpa using hk⟩

theorem Built.nonterminal_of_owner (h : Built g m start) {k : Nat} {nt : Nonterminal}
    (hk : m.naming.owners[k]? = some nt) : nt ∈ g.nonterminals := by
  rw [← h.complete.all_owners]
  exact Array.mem_toList_iff.mpr (Array.mem_of_getElem? hk)

theorem Built.represents (h : Built g m start) : Represents g m := by
  obtain ⟨hfirst, hlt⟩ := h.start_first
  have hnames : ∀ {ss ts}, List.Forall₂ (Resolves m.naming) ss ts →
      List.Forall₂ (fun s t => m.naming.symbols.text? s = some t.name) ss ts :=
    fun hall => hall.imp fun _ _ hs => (h.token_bounds hs).1
  constructor
  case well_formed => exact h.well_formed
  case table => exact h.complete.table
  case end_text => exact h.complete.end_text
  case error_text => exact h.complete.error_text
  case start_names =>
    obtain ⟨d, u, hd, -, hsymbols, htext, -⟩ := h.start_symbols
    exact ⟨d, _, u, hd, h.rule_zero, hsymbols, htext⟩
  case user_start =>
    obtain ⟨d, u, hd, hu, -⟩ := h.complete.user_start
    simp [h.user_start, hu]
  case rule_source =>
    intro i r hr hi
    obtain ⟨i, rfl⟩ := Nat.exists_eq_succ_of_ne_zero hi
    obtain ⟨k, nt, hk, hl, src, hsrc, hb, -, hn⟩ := h.rule_owned hr
    exact ⟨nt, h.nonterminal_of_owner hk, src, hsrc, hl ▸ h.complete.owner_text k nt hk, hb,
      hnames hn⟩
  case rule_number =>
    intro nt hnt src hsrc
    obtain ⟨k, hk⟩ := h.owner_of_nonterminal hnt
    have hmem : (start + 1 + k, nt.name, src) ∈ ownedRules m.naming start :=
      mem_ownedRules.mpr ⟨k, nt, hk, rfl, rfl, hsrc⟩
    obtain ⟨i, hi⟩ := List.getElem?_of_mem hmem
    obtain ⟨-, hn⟩ := production_symbols m.precedences (start + 1 + k) nt.name
      (h.resolved _ hmem)
    exact ⟨i + 1, _, by omega, h.rule_succ.mpr ⟨_, hi, rfl⟩, h.complete.owner_text k nt hk,
      hnames hn⟩
  case nonterminal_iff =>
    intro s name htext hne
    have hsize := h.complete.size_eq
    have hstart := h.start_eq
    constructor
    · intro hge
      have hslt := h.complete.table.text_lt htext
      obtain ⟨k, rfl⟩ : ∃ k, s = start + 1 + k := ⟨s - (start + 1), by omega⟩
      have hk : m.naming.owners[k]? = some m.naming.owners[k] := by
        simp
      have hname := h.complete.owner_text k _ hk
      exact ⟨_, h.nonterminal_of_owner hk, Option.some.inj (hname.symm.trans htext)⟩
    · rintro ⟨nt, hnt, rfl⟩
      obtain ⟨k, hk⟩ := h.owner_of_nonterminal hnt
      have hs := h.complete.table.id_unique htext (h.complete.owner_text k nt hk)
      omega
  case start_binary =>
    intro r hr
    cases h.rule_zero.symm.trans hr
    rfl

theorem represents_of_no_issues (h : (ofGrammar g).issues = []) :
    Represents g (ofGrammar g) := by
  obtain ⟨start, hb⟩ := built_of_no_issues h
  exact hb.represents

end Numbering

end ParserTables

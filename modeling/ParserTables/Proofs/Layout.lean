import ParserTables.Proofs.Generation
import ParserTables.Proofs.Operators
import ParserTables.Proofs.Passes
import ParserTables.Proofs.Validity

/-!
Where everything stands in a numbering without issues. The symbols are numbered in the order of
their declarations: the sentinels, the tokens, the literals that only rules mention, the augmented
start symbol, the nonterminals. Behind the start production come the rules in their order, with the
numbers of their tokens and with the binding that their precedence, or else their last terminal
with a declared precedence, has been declared with.
-/

namespace ParserTables

namespace Naming

variable {g : Grammar} {n : Naming} {names ls : List String} {name : String}

/-- Literals that are added one after another are those that were not there, at their first use. -/
theorem foldl_withLiteral (ls names : List String) : ls.foldl withLiteral names =
    names ++ (ls.filter fun l => decide (l ∉ names)).eraseDups := by
  induction ls generalizing names with
  | nil => simp
  | cons l ls ih =>
    rw [List.foldl_cons, ih]
    unfold withLiteral
    by_cases hl : l ∈ names
    · simp [hl]
    · have hfilter : (ls.filter fun x => decide (x ∉ names ++ [l])) =
          (ls.filter fun x => decide (x ∉ names)).filter fun x => !x == l := by
        rw [List.filter_filter]
        refine List.filter_congr fun x _ => ?_
        by_cases hx : x = l <;> simp [hx]
      rw [if_neg hl, hfilter, List.filter_cons_of_pos (by simpa using hl), List.eraseDups_cons,
        List.append_assoc]
      rfl

/-- A fresh name is the first candidate that is not taken, or the last one tried. -/
theorem freshName_least (taken : String → Bool) (fuel : Nat) (name : String) :
    ∃ k, freshName taken fuel name = marked name k ∧ ∀ j < k, taken (marked name j) = true := by
  induction fuel generalizing name with
  | zero => exact ⟨0, by simp [freshName, marked], by simp⟩
  | succ fuel ih =>
    unfold freshName
    by_cases hname : taken name = true
    · obtain ⟨k, hk, hleast⟩ := ih (name ++ "'")
      refine ⟨k + 1, ?_, ?_⟩
      · rw [if_pos hname, hk, marked_succ]
      · intro j hj
        cases j with
        | zero => simpa [marked] using hname
        | succ j =>
          rw [← marked_succ]
          exact hleast j (by omega)
    · exact ⟨0, by simp [hname, marked], by simp⟩

theorem TerminalsHeld.augmented_least (h : n.TerminalsHeld names) (g : Grammar) : ∃ k, 1 ≤ k ∧
    n.augmentedName g = marked (startName g) k ∧
    ∀ j, 1 ≤ j → j < k → marked (startName g) j ∈ names ++ g.nonterminalNames := by
  obtain ⟨k, hk, hleast⟩ := freshName_least (n.isTaken g)
    (n.positions.size + g.nonterminals.length) (startName g ++ "'")
  refine ⟨k + 1, by omega, hk.trans (marked_succ _ _), ?_⟩
  intro j hj hlt
  obtain ⟨j, rfl⟩ := Nat.exists_eq_add_of_le' hj
  have htaken := hleast j (by omega)
  rw [marked_succ] at htaken
  simpa [isTaken, Std.TreeMap.contains_iff_mem, h.position_iff, Grammar.nonterminalNames]
    using htaken

end Naming

namespace Grammar

def undeclaredLiterals (g : Grammar) : List String :=
  ((Naming.literalsOf g).filter fun l => decide (l ∉ g.tokenNames)).eraseDups

/-- The terminals that rules can refer to, in the order of their numbers from the error symbol
on. -/
def terminals (g : Grammar) : List String := errorName :: (g.tokenNames ++ g.undeclaredLiterals)

def ownedRules (g : Grammar) : List (String × Rule) :=
  g.nonterminals.flatMap fun nt => nt.rules.map fun r => (nt.name, r)

/-- The name is declared as a precedence: its level is the place of the declaration, counted from
one. -/
def Binds (g : Grammar) (name : String) (b : Binding) : Prop :=
  ∃ i d, g.declared[i]? = some d ∧ d.name = name ∧ b = ⟨i + 1, d.assoc⟩

/-- How tightly a rule binds: as its own precedence, else as its last terminal that has one, else
not at all. -/
inductive RuleBinds (g : Grammar) (r : Rule) : Binding → Prop
  | explicit {b : Binding} : r.precedence ≠ "" → g.Binds r.precedence b → RuleBinds g r b
  | inherited {before after : List RuleToken} {t : RuleToken} {b : Binding} : r.precedence = "" →
      r.tokens = before ++ t :: after → t.name ∈ g.terminals → g.Binds t.name b →
      (∀ t' ∈ after, t'.name ∈ g.terminals → ∀ b', ¬g.Binds t'.name b') → RuleBinds g r b
  | none : r.precedence = "" →
      (∀ t ∈ r.tokens, t.name ∈ g.terminals → ∀ b, ¬g.Binds t.name b) →
      RuleBinds g r ⟨0, r.assoc⟩

end Grammar

namespace Numbering

variable {g : Grammar} {m : Numbering} {n : Naming} {start : Nat} {r : Rule} {name : String}

/-- The production of a rule: its left-hand side is the number of the owner, and its tokens are
those of the rule. -/
structure Numbers (m : Numbering) (g : Grammar) (owner : String) (r : Rule) (p : Production) :
    Prop where
  lhs : m.naming.symbols.text? p.lhs = some owner
  tokens : List.Forall₂ (fun s t => m.naming.symbols.text? s = some t.name) p.symbols r.tokens
  resolved : p.tokens = p.symbols.map some
  binding : g.RuleBinds r ⟨p.level, p.assoc⟩

/-- Where everything stands in the numbering of a grammar with the start symbol `start`, when the
augmented start symbol is the start symbol with `k` marks. -/
structure LaidOut (g : Grammar) (m : Numbering) (start : String) (k : Nat) : Prop where
  texts : m.naming.symbols.texts.toList =
    endName :: (g.terminals ++ Naming.marked start k :: g.nonterminalNames)
  distinct : m.naming.symbols.texts.toList.Nodup
  number_iff : ∀ name s, m.naming.symbols.id? name = some s ↔
    m.naming.symbols.text? s = some name
  marked_once : 1 ≤ k
  fewest_marks : ∀ j, 1 ≤ j → j < k → Naming.marked start j ∈ g.terminals ++ g.nonterminalNames
  first_nonterminal : m.naming.symbols.terminalCount = g.terminals.length + 1
  start_rule : ∃ p u, m.rules[0]? = some p ∧
    m.naming.symbols.text? p.lhs = some (Naming.marked start k) ∧
    m.naming.symbols.text? u = some start ∧ p.tokens = [some u, some SymbolTable.endSymbol]
  rules : List.Forall₂ (fun x p => m.Numbers g x.1 x.2 p) g.ownedRules m.rules.toList.tail
  levels : ∀ i : Nat, m.precedences[i]? =
    (g.declared[i]?).map fun d => ⟨d.name, i + 1, d.assoc, d.pos⟩

theorem find_binds (h : (ofGrammar g).issues = []) {p : Precedence}
    (hp : Precedence.find? (ofGrammar g).precedences name = some p) :
    g.Binds name ⟨p.level, p.assoc⟩ := by
  have hname : p.name = name := by simpa using List.find?_some hp
  have hmem := List.mem_of_find?_eq_some hp
  rw [(precedences_of_no_issues h).1] at hmem
  obtain ⟨⟨d, i⟩, hd, rfl⟩ := List.mem_map.mp hmem
  exact ⟨i, d, List.mem_zipIdx_iff_getElem?.mp hd, hname, rfl⟩

theorem not_binds (h : (ofGrammar g).issues = [])
    (hp : Precedence.find? (ofGrammar g).precedences name = none) (b : Binding) :
    ¬g.Binds name b := by
  rintro ⟨i, d, hd, rfl, -⟩
  obtain ⟨p, hfind, -⟩ := find_declared h (List.mem_of_getElem? hd)
  cases hfind.symm.trans hp

theorem naming_ofGrammar (g : Grammar) : (ofGrammar g).naming = (Naming.ofGrammar g).1 := by
  unfold ofGrammar
  dsimp only
  split <;> rfl

theorem held_of_no_issues (h : (ofGrammar g).issues = []) :
    Naming.OwnersHeld g (Naming.terminalNames g) (Naming.augmentedOf g) (ofGrammar g).naming
      (Naming.terminalNames g ++ Naming.augmentedOf g :: g.nonterminalNames) := by
  obtain ⟨-, hclean, -⟩ := issues_iff.mp h
  obtain ⟨names, hheld, howners⟩ := Naming.ofGrammar_held hclean
  have hnames := hheld.names_eq
  rw [howners] at hnames
  rw [naming_ofGrammar]
  rw [hnames] at hheld
  exact hheld

theorem terminalNames_eq (g : Grammar) :
    Naming.terminalNames g = g.tokenNames ++ g.undeclaredLiterals :=
  Naming.foldl_withLiteral _ _

theorem augmented_of_no_issues (h : (ofGrammar g).issues = []) : ∃ k, 1 ≤ k ∧
    Naming.augmentedOf g = Naming.marked (Naming.startName g) k ∧ ∀ j, 1 ≤ j → j < k →
      Naming.marked (Naming.startName g) j ∈ Naming.terminalNames g ++ g.nonterminalNames := by
  obtain ⟨-, hclean, -⟩ := issues_iff.mp h
  obtain ⟨hfit, -, -, -, hroom⟩ := Naming.clean_nameAll.mp (Naming.clean_ofGrammar.mp hclean).1
  have hterminals := Naming.clean_nameTerminals.mpr ⟨hfit, by omega⟩
  exact (Naming.held_nameTerminals hterminals).augmented_least g

theorem length_terminals (g : Grammar) :
    g.terminals.length = (Naming.terminalNames g).length + 1 := by
  rw [terminalNames_eq]
  rfl

theorem texts_of_no_issues (h : (ofGrammar g).issues = []) :
    (ofGrammar g).naming.symbols.texts.toList = endName :: (g.terminals ++
      Naming.augmentedOf g :: g.nonterminalNames) := by
  rw [(held_of_no_issues h).texts, terminalNames_eq]
  rfl

theorem terminal_iff (h : (ofGrammar g).issues = []) {s : Nat}
    (hs : (ofGrammar g).naming.symbols.text? s = some name) (hne : s ≠ SymbolTable.endSymbol) :
    (ofGrammar g).naming.symbols.isTerminal s = true ↔ name ∈ g.terminals := by
  have hheld := held_of_no_issues h
  obtain ⟨hfirst, -⟩ := hheld.table.start_first _ hheld.start_symbol
  obtain ⟨s, rfl⟩ := Nat.exists_eq_succ_of_ne_zero hne
  have hlength := length_terminals g
  have htext : ∀ i, i < g.terminals.length →
      (ofGrammar g).naming.symbols.text? (i + 1) = g.terminals[i]? := by
    intro i hi
    rw [SymbolTable.text?, ← Array.getElem?_toList, texts_of_no_issues h,
      List.getElem?_cons_succ, List.getElem?_append_left hi]
  simp only [SymbolTable.isTerminal, decide_eq_true_eq]
  constructor
  · intro hlt
    have hi : s < g.terminals.length := by omega
    rw [htext s hi] at hs
    exact List.mem_of_getElem? hs
  · intro hmem
    obtain ⟨i, hi⟩ := List.getElem?_of_mem hmem
    have hlt := (List.getElem?_eq_some_iff.mp hi).1
    have heq := hheld.table.id_unique hs ((htext i hlt).trans hi)
    omega

theorem map_ownedRules (howners : n.owners.toList = g.nonterminals) (start : Nat) :
    (ownedRules n start).map (·.2) = g.ownedRules := by
  have hfirst : g.nonterminals = g.nonterminals.zipIdx.map Prod.fst := by simp
  unfold ownedRules Grammar.ownedRules
  rw [howners, List.map_flatMap]
  conv_rhs => rw [hfirst, List.flatMap_map]
  simp [Function.comp_def]

theorem passed_precedence (h : (ofGrammar g).issues = []) {t : RuleToken}
    (ht : ∃ s, resolve (ofGrammar g).naming t.name = .ok s) :
    (((number? (ofGrammar g).naming t.name).filter (ofGrammar g).naming.symbols.isTerminal).bind
      fun _ => Precedence.find? (ofGrammar g).precedences t.name) =
      if t.name ∈ g.terminals then Precedence.find? (ofGrammar g).precedences t.name
      else none := by
  obtain ⟨s, hs⟩ := ht
  obtain ⟨hid, -, hend⟩ := resolve_ok hs
  have htext := ((held_of_no_issues h).table.id_iff_text _ _).mp hid
  have hiff := terminal_iff h htext hend
  have hnumber : number? (ofGrammar g).naming t.name = some s := by simp [number?, hs]
  rw [hnumber]
  by_cases hmem : t.name ∈ g.terminals
  · simp [hmem, hiff.mpr hmem, Option.filter]
  · have hnot : (ofGrammar g).naming.symbols.isTerminal s = false :=
      Bool.eq_false_iff.mpr fun hterminal => hmem (hiff.mp hterminal)
    simp [hmem, hnot, Option.filter]

theorem inherited_eq (h : (ofGrammar g).issues = [])
    (hresolved : ∀ t ∈ r.tokens, ∃ s, resolve (ofGrammar g).naming t.name = .ok s) :
    inherited? (ofGrammar g).naming (ofGrammar g).precedences r =
      r.tokens.reverse.findSome? fun t => if t.name ∈ g.terminals then
        Precedence.find? (ofGrammar g).precedences t.name else none := by
  unfold inherited?
  rw [List.filterMap_congr fun t ht => passed_precedence h (hresolved t ht),
    List.getLast?_filterMap]

theorem binds_of_production (h : (ofGrammar g).issues = []) {lhs : Nat} {owner : String}
    (hresolved : ∀ t ∈ r.tokens, ∃ s, resolve (ofGrammar g).naming t.name = .ok s)
    (hprecedence : r.precedence = "" ∨ r.precedence ∈ g.declared.map (·.name)) :
    let p := production (ofGrammar g).naming (ofGrammar g).precedences lhs owner r
    g.RuleBinds r ⟨p.level, p.assoc⟩ := by
  dsimp only [production]
  by_cases hown : r.precedence = ""
  · have hexplicit : explicit? (ofGrammar g).precedences r = none := by simp [explicit?, hown]
    rw [hexplicit, Option.none_or, inherited_eq h hresolved]
    cases hfind : r.tokens.reverse.findSome? fun t => if t.name ∈ g.terminals then
        Precedence.find? (ofGrammar g).precedences t.name else none with
    | none =>
      refine .none hown fun t ht hterminal => ?_
      have hnot := List.findSome?_eq_none_iff.mp hfind t (List.mem_reverse.mpr ht)
      rw [if_pos hterminal] at hnot
      exact not_binds h hnot
    | some p =>
      obtain ⟨after, t, before, hsplit, ht, hafter⟩ := List.findSome?_eq_some_iff.mp hfind
      obtain ⟨hterminal, hp⟩ : t.name ∈ g.terminals ∧
          Precedence.find? (ofGrammar g).precedences t.name = some p := by
        split at ht
        · next hterminal => exact ⟨hterminal, ht⟩
        · cases ht
      have htokens : r.tokens = before.reverse ++ t :: after.reverse := by
        rw [← List.reverse_reverse r.tokens, hsplit]
        simp
      refine .inherited hown htokens hterminal (find_binds h hp) fun t' ht' hterminal' => ?_
      have hnot := hafter t' (List.mem_reverse.mp ht')
      rw [if_pos hterminal'] at hnot
      exact not_binds h hnot
  · obtain ⟨d, hd, hname⟩ := List.mem_map.mp (hprecedence.resolve_left hown)
    obtain ⟨p, hp, -⟩ := find_declared h hd
    rw [hname] at hp
    have hexplicit : explicit? (ofGrammar g).precedences r = some p := by
      simp [explicit?, hown, hp]
    rw [hexplicit]
    exact .explicit hown (find_binds h hp)

theorem Built.rules_numbered {start : Nat} (hb : Built g (ofGrammar g) start)
    (h : (ofGrammar g).issues = []) :
    List.Forall₂ (fun x p => (ofGrammar g).Numbers g x.1 x.2 p) g.ownedRules
      (ofGrammar g).rules.toList.tail := by
  have hvalid := Grammar.numbering_issues_iff.mp h
  rw [hb.rules_eq, List.tail_cons, ← map_ownedRules hb.complete.all_owners start,
    List.forall₂_map_left_iff, List.forall₂_map_right_iff, List.forall₂_same]
  intro x hx
  obtain ⟨k, nt, hk, hlhs, howner, hr⟩ := mem_ownedRules.mp hx
  obtain ⟨htokens, hnumbers⟩ := production_symbols (ofGrammar g).precedences x.1 x.2.1
    (hb.resolved x hx)
  have hprecedence := (hvalid.rules_valid nt (hb.nonterminal_of_owner hk) _ hr).precedence
  constructor
  case lhs =>
    have htext := hb.complete.owner_text k nt hk
    rw [← hlhs, ← howner] at htext
    exact htext
  case tokens => exact hnumbers.imp fun _ _ hs => (hb.token_bounds hs).1
  case resolved => exact htokens
  case binding => exact binds_of_production h (hb.resolved x hx) hprecedence

theorem laid_out (h : (ofGrammar g).issues = []) :
    ∃ d k, g.start = some d ∧ LaidOut g (ofGrammar g) d.name k := by
  obtain ⟨start, hb⟩ := built_of_no_issues h
  obtain ⟨d, hd, hne, -⟩ := (Grammar.numbering_issues_iff.mp h).start_declared
  obtain ⟨k, hk, haugmented, hleast⟩ := augmented_of_no_issues h
  rw [Naming.startName_eq hd hne] at haugmented hleast
  have hheld := held_of_no_issues h
  have htexts := texts_of_no_issues h
  rw [haugmented] at htexts
  refine ⟨d, k, hd, ?_⟩
  constructor
  case texts => exact htexts
  case distinct =>
    rw [hheld.texts]
    exact hheld.texts.nodup hheld.table
  case number_iff => exact hheld.table.id_iff_text
  case marked_once => exact hk
  case fewest_marks =>
    intro j hj hlt
    have hmem := hleast j hj hlt
    rw [terminalNames_eq] at hmem
    exact List.mem_cons_of_mem _ hmem
  case first_nonterminal =>
    obtain ⟨hfirst, -⟩ := hheld.table.start_first _ hheld.start_symbol
    rw [length_terminals, ← hfirst]
  case start_rule =>
    obtain ⟨d', u, hd', htokens, -, htext, -⟩ := hb.start_symbols
    cases hd.symm.trans hd'
    refine ⟨_, u, hb.rule_zero, ?_, htext, htokens⟩
    have hstart := hb.named.start_symbol.symm.trans hheld.start_symbol
    rw [← haugmented, Option.some.inj hstart]
    exact hheld.augmented_text
  case rules => exact hb.rules_numbered h
  case levels =>
    intro i
    rw [(precedences_of_no_issues h).1, List.getElem?_map, List.getElem?_zipIdx, Option.map_map,
      Nat.zero_add]
    rfl

end Numbering

namespace Automaton

variable {g : Grammar}

/-- A grammar without issues has its symbols, its rules and its precedences where their
declarations put them. -/
theorem numbering_laid_out (h : (generate g).hasIssues = false) :
    ∃ d k, g.start = some d ∧ (generate g).numbering.LaidOut g d.name k := by
  have hall : (generate g).issues = [] := by simpa [hasIssues] using h
  exact Numbering.laid_out (List.append_eq_nil_iff.mp hall).1

/-- Sums whose plus is not declared as a token. The start symbol with one mark is a nonterminal. -/
def shadowed : Grammar where
  name := "shadowed"
  start := some ⟨"s", .unknown⟩
  tokens := [some ⟨"n", "", "", false, .unknown⟩]
  precedences := [some ⟨"n", .right, .unknown⟩, some ⟨"'+'", .left, .unknown⟩]
  nonterminals := [("s", [["s", "'+'", "s'"], ["s'"]]), ("s'", [["n"]])].map fun (owner, rules) =>
    ⟨owner, rules.map fun names =>
      ⟨names.map fun name => ⟨name, "", .unknown⟩, "", .left, "", .unknown⟩, .unknown⟩

theorem shadowed_laid_out : (generate shadowed).hasIssues = false ∧
    (generate shadowed).numbering.naming.symbols.texts =
      #["END_", "%error", "n", "'+'", "s''", "s", "s'"] ∧
    (generate shadowed).numbering.LaidOut shadowed "s" 2 := by
  have hissues : (generate shadowed).hasIssues = false := by decide +kernel
  have htexts : (generate shadowed).numbering.naming.symbols.texts =
      #["END_", "%error", "n", "'+'", "s''", "s", "s'"] := by decide +kernel
  have hterminals : shadowed.terminals = ["%error", "n", "'+'"] := by decide +kernel
  obtain ⟨d, k, hd, hlaid⟩ := numbering_laid_out hissues
  cases hd
  have hfifth := congrArg (·[4]?) hlaid.texts
  rw [htexts, hterminals] at hfifth
  have hk : k = 2 := Naming.marked_injective "s" (Option.some.inj hfifth).symm
  exact ⟨hissues, htexts, hk ▸ hlaid⟩

end Automaton

end ParserTables

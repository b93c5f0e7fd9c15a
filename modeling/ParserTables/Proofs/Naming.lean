import Mathlib.Data.List.Basic
import ParserTables.Numbering.Naming
import ParserTables.Proofs.Symbols

/-!
The numbers that a grammar without naming issues gets. The terminals come first, the sentinels
before all others, then the augmented start symbol, whose name no symbol of the grammar has, and
then the nonterminals in the order of their declaration.
-/

namespace ParserTables.Naming

open SymbolTable (Extends)

variable {g : Grammar} {n n' : Naming} {start : Nat}

structure TerminalsNamed (n : Naming) : Prop where
  table : n.symbols.TerminalsOnly
  end_text : n.symbols.text? SymbolTable.endSymbol = some endName
  error_text : n.symbols.text? SymbolTable.errorSymbol = some errorName
  no_owner : n.owners = #[]

/-- What holds from the naming of the start symbol on. -/
structure Named (g : Grammar) (n : Naming) (start : Nat) : Prop where
  table : n.symbols.Valid
  end_text : n.symbols.text? SymbolTable.endSymbol = some endName
  error_text : n.symbols.text? SymbolTable.errorSymbol = some errorName
  two_terminals : 2 ≤ n.symbols.terminalCount
  start_symbol : n.symbols.start = some start
  start_text : ∃ marks, n.symbols.text? start = some (startName g ++ "'" ++ marks)
  size_eq : n.symbols.size = start + 1 + n.owners.size
  owner_text : ∀ i nt, n.owners[i]? = some nt → n.symbols.text? (start + 1 + i) = some nt.name

@[simp] theorem owners_report (issue : Issue) : (n.report issue).owners = n.owners := rfl

@[simp] theorem issues_report (issue : Issue) :
    (n.report issue).issues = n.issues.push issue := rfl

theorem issues_report_ne (issue : Issue) : (n.report issue).issues ≠ #[] := by
  simp

theorem TerminalsNamed.report (h : TerminalsNamed n) (issue : Issue) :
    TerminalsNamed (n.report issue) :=
  ⟨h.table, h.end_text, h.error_text, h.no_owner⟩

theorem Named.report (h : Named g n start) (issue : Issue) : Named g (n.report issue) start :=
  ⟨h.table, h.end_text, h.error_text, h.two_terminals, h.start_symbol, h.start_text, h.size_eq,
    h.owner_text⟩

theorem terminals_named_start : TerminalsNamed Naming.start where
  table := SymbolTable.terminals_only_new (by decide)
  end_text := rfl
  error_text := rfl
  no_owner := rfl

theorem each_keeps {α : Type} {step : Naming → α → Naming × Option SymbolError}
    {P : Naming → Prop} (keep : ∀ n a n', step n a = (n', none) → P n → P n') {as : List α}
    (he : each step n as = (n', none)) (h : P n) : P n' := by
  induction as generalizing n with
  | nil =>
    cases he
    exact h
  | cons a as ih =>
    unfold each at he
    split at he
    · next n₁ hs => exact ih he (keep n a n₁ hs h)
    · cases he

theorem andThen_ok {r : Naming × Option SymbolError} {step : Naming → Naming × Option SymbolError}
    (h : andThen r step = (n, none)) : ∃ n₀, r = (n₀, none) ∧ step n₀ = (n, none) := by
  obtain ⟨n₀, e⟩ := r
  cases e with
  | none => exact ⟨n₀, rfl, h⟩
  | some e => cases h

theorem register_terminal_named {symbols : SymbolTable} {id : Nat} {text : String}
    (h : TerminalsNamed n) (hr : n.symbols.registerTerminal text = (.ok id, symbols))
    (positions : Std.TreeMap String Position) (declared : Array TokenDecl)
    (issues : Array Issue) :
    TerminalsNamed ⟨symbols, positions, declared, n.owners, issues⟩ := by
  obtain ⟨ht, hx⟩ := SymbolTable.terminals_only_register h.table hr
  exact ⟨ht, hx _ _ h.end_text, hx _ _ h.error_text, h.no_owner⟩

theorem declare_token_named (d : TokenDecl) (hs : declareToken n d = (n', none))
    (h : TerminalsNamed n) : TerminalsNamed n' := by
  unfold declareToken at hs
  split at hs
  · cases hs
    exact h.report _
  · split at hs
    · cases hs
      exact h.report _
    · split at hs
      · cases hs
        exact h.report _
      · obtain ⟨symbols, positions, declared, owners, issues⟩ := n
        dsimp only at hs
        split at hs
        · next hr =>
          cases hs
          exact register_terminal_named h hr _ _ _
        · cases hs

theorem declare_literal_named (name : String) (hs : declareLiteral n name = (n', none))
    (h : TerminalsNamed n) : TerminalsNamed n' := by
  unfold declareLiteral at hs
  split at hs
  · cases hs
    exact h
  · obtain ⟨symbols, positions, declared, owners, issues⟩ := n
    dsimp only at hs
    split at hs
    · next hr =>
      cases hs
      exact register_terminal_named h hr _ _ _
    · cases hs

theorem freshName_eq (taken : String → Bool) (k : Nat) (name : String) :
    ∃ marks, freshName taken k name = name ++ marks := by
  induction k generalizing name with
  | zero => exact ⟨"", by simp [freshName]⟩
  | succ k ih =>
    unfold freshName
    split
    · obtain ⟨marks, hm⟩ := ih (name ++ "'")
      exact ⟨"'" ++ marks, by rw [hm, String.append_assoc]⟩
    · exact ⟨"", by simp⟩

theorem declare_start_named (hs : declareStart n g = (n', none)) (h : TerminalsNamed n) :
    ∃ start, Named g n' start ∧ n'.owners = #[] ∧ (n'.issues = #[] → namesStart g = true) := by
  obtain ⟨marks, hm⟩ := freshName_eq (n.isTaken g) (n.positions.size + g.nonterminals.length)
    (startName g ++ "'")
  have hname : n.augmentedName g = startName g ++ "'" ++ marks := hm
  have hreported : TerminalsNamed
      (if namesStart g then n else n.report (.new .noStartSymbol "" .unknown)) := by
    split
    · exact h
    · exact h.report _
  have hissues : (if namesStart g then n
      else n.report (.new .noStartSymbol "" .unknown)).issues = #[] → namesStart g = true := by
    split
    · intro _
      assumption
    · intro hi
      exact absurd hi (issues_report_ne _)
  simp only [declareStart] at hs
  generalize (if namesStart g then n
    else n.report (.new .noStartSymbol "" .unknown)) = base at hs hreported hissues
  obtain ⟨symbols, positions, declared, owners, issues⟩ := base
  dsimp only at hs
  split at hs
  · next id symbols' hr =>
    cases hs
    have hall : symbols.size = symbols.terminalCount := hreported.table.all_terminal
    have hlt : 1 < symbols.size := hreported.table.text_lt hreported.error_text
    obtain ⟨hv, hx, hstart, hcount, hsize, htext⟩ :=
      SymbolTable.register_start_ok hreported.table hr
    have howners : owners = #[] := hreported.no_owner
    refine ⟨symbols.size, ⟨hv, hx _ _ hreported.end_text, hx _ _ hreported.error_text, ?_, hstart,
      ⟨marks, hname ▸ htext⟩, ?_, ?_⟩, howners, hissues⟩
    · change symbols'.terminalCount = symbols.terminalCount at hcount
      change 2 ≤ symbols'.terminalCount
      omega
    · simp only [howners, hsize, List.size_toArray, List.length_nil, Nat.add_zero]
    · intro i nt hi
      simp [howners] at hi
  · cases hs

theorem register_nonterminal_named {symbols symbols' : SymbolTable}
    {positions : Std.TreeMap String Position} {declared : Array TokenDecl}
    {owners : Array Nonterminal} {issues : Array Issue} {nt : Nonterminal} {id : Nat}
    (h : Named g ⟨symbols, positions, declared, owners, issues⟩ start)
    (fresh : symbols.id? nt.name = none)
    (hr : symbols.registerNonterminal nt.name = (.ok id, symbols')) :
    Named g ⟨symbols', positions, declared, owners.push nt, issues⟩ start := by
  obtain ⟨hv, hx, hstart, hcount, hsize, htext⟩ :=
    SymbolTable.register_nonterminal_ok h.table fresh hr
  have hsz : symbols.size = start + 1 + owners.size := h.size_eq
  refine ⟨hv, hx _ _ h.end_text, hx _ _ h.error_text, hcount ▸ h.two_terminals,
    hstart ▸ h.start_symbol, ?_, ?_, ?_⟩
  · obtain ⟨marks, hm⟩ := h.start_text
    exact ⟨marks, hx _ _ hm⟩
  · simp only [hsize, Array.size_push]
    omega
  · intro i owner hi
    rw [Array.getElem?_push] at hi
    split at hi
    · next heq =>
      cases hi
      rw [heq, ← hsz]
      exact htext
    · exact hx _ _ (h.owner_text i owner hi)

/-- A declaration is refused with a report, or it takes the next number; the lack of rules is
reported only then. -/
theorem declare_nonterminal_cases {nt : Nonterminal}
    (hs : declareNonterminal n nt = (n', none)) :
    (∃ issue, n' = n.report issue) ∨
    (n.symbols.id? nt.name = none ∧ ∃ id symbols named,
      n.symbols.registerNonterminal nt.name = (.ok id, symbols) ∧
      named = (⟨symbols, n.positions, n.declared, n.owners.push nt, n.issues⟩ : Naming) ∧
      ((nt.rules = [] ∧ ∃ issue, n' = named.report issue) ∨ (nt.rules ≠ [] ∧ n' = named))) := by
  unfold declareNonterminal at hs
  split at hs
  · cases hs
    exact Or.inl ⟨_, rfl⟩
  · split at hs
    · cases hs
      exact Or.inl ⟨_, rfl⟩
    · split at hs
      · cases hs
        exact Or.inl ⟨_, rfl⟩
      · split at hs
        · cases hs
          exact Or.inl ⟨_, rfl⟩
        · next hfresh =>
          refine Or.inr ⟨by simpa using hfresh, ?_⟩
          obtain ⟨symbols, positions, declared, owners, issues⟩ := n
          dsimp only at hs
          split at hs
          · next id symbols' hr =>
            refine ⟨id, symbols', _, hr, rfl, ?_⟩
            split at hs
            · next hrules =>
              cases hs
              exact Or.inl ⟨hrules, _, rfl⟩
            · next hrules =>
              cases hs
              exact Or.inr ⟨hrules, rfl⟩
          · cases hs

theorem declare_nonterminal_named (nt : Nonterminal)
    (hs : declareNonterminal n nt = (n', none)) (h : Named g n start) :
    Named g n' start ∧
      (n'.issues = #[] → n.issues = #[] ∧ n'.owners = n.owners.push nt ∧ nt.rules ≠ []) := by
  rcases declare_nonterminal_cases hs with
    ⟨issue, rfl⟩ | ⟨hfresh, id, symbols, named, hr, rfl, hend⟩
  · exact ⟨h.report issue, fun hi => absurd hi (issues_report_ne issue)⟩
  · have hnamed := register_nonterminal_named h hfresh hr
    rcases hend with ⟨-, issue, rfl⟩ | ⟨hrules, rfl⟩
    · exact ⟨hnamed.report issue, fun hi => absurd hi (issues_report_ne issue)⟩
    · exact ⟨hnamed, fun hi => ⟨hi, rfl, hrules⟩⟩

theorem each_nonterminal_named {nts : List Nonterminal}
    (he : each declareNonterminal n nts = (n', none)) (h : Named g n start) :
    Named g n' start ∧ (n'.issues = #[] → n.issues = #[] ∧
      n'.owners.toList = n.owners.toList ++ nts ∧ ∀ nt ∈ nts, nt.rules ≠ []) := by
  induction nts generalizing n with
  | nil =>
    cases he
    exact ⟨h, fun hi => ⟨hi, by simp, by simp⟩⟩
  | cons nt nts ih =>
    unfold each at he
    split at he
    · next n₁ hs =>
      obtain ⟨h₁, hone⟩ := declare_nonterminal_named nt hs h
      obtain ⟨h', hall⟩ := ih he h₁
      refine ⟨h', ?_⟩
      intro hi
      obtain ⟨hi₁, howners, hrules⟩ := hall hi
      obtain ⟨hi₀, hpush, hnt⟩ := hone hi₁
      refine ⟨hi₀, ?_, ?_⟩
      · simp [howners, hpush]
      · intro nt' hmem
        rcases List.mem_cons.mp hmem with rfl | hmem
        · exact hnt
        · exact hrules nt' hmem
    · cases he

theorem startName_eq {d : StartDecl} (hd : g.start = some d) (hne : d.name ≠ "") :
    startName g = d.name := by
  simp [startName, hd, hne]

theorem Named.start_ne {d : StartDecl} {u : Nat} (h : Named g n start) (hd : g.start = some d)
    (hne : d.name ≠ "") (htext : n.symbols.text? u = some d.name) : u ≠ start := by
  rintro rfl
  obtain ⟨marks, hmarks⟩ := h.start_text
  rw [htext, startName_eq hd hne] at hmarks
  have hlength := congrArg String.length (Option.some.inj hmarks)
  have hmark : "'".length = 1 := rfl
  simp only [String.length_append] at hlength
  omega

/-- A grammar whose names raise no issue: every nonterminal is an owner, and the start symbol that
the grammar names is one of them. -/
structure Complete (g : Grammar) (n : Naming) (start : Nat) : Prop extends Named g n start where
  all_owners : n.owners.toList = g.nonterminals
  all_ruled : ∀ nt ∈ g.nonterminals, nt.rules ≠ []
  user_start : ∃ s u, g.start = some s ∧ n.userStart? g = some u ∧
    n.symbols.text? u = some s.name ∧ start < u

theorem check_start_complete (h : Named g n start) (howners : n.owners.toList = g.nonterminals)
    (hrules : ∀ nt ∈ g.nonterminals, nt.rules ≠ []) (hnames : namesStart g = true)
    (hissues : (n.checkStart g).issues = #[]) : Complete g (n.checkStart g) start := by
  unfold checkStart at hissues ⊢
  split at hissues
  · next s hs =>
    split at hissues
    · exact absurd hissues (issues_report_ne _)
    · next hok =>
      rw [if_neg hok]
      have hne : s.name ≠ "" := by simpa [namesStart, hs] using hnames
      obtain ⟨u, hu⟩ : ∃ u, n.userStart? g = some u := by
        apply Option.ne_none_iff_exists'.mp
        simpa [hne] using hok
      refine ⟨h, howners, hrules, s, u, hs, hu, ?_⟩
      simp only [userStart?, hs, hne, if_false] at hu
      obtain ⟨hid, hnt⟩ := Option.filter_eq_some_iff.mp hu
      have htext := (h.table.id_iff_text s.name u).mp hid
      refine ⟨htext, ?_⟩
      obtain ⟨hfirst, -⟩ := h.table.start_first start h.start_symbol
      have hdiff := h.start_ne hs hne htext
      simp only [SymbolTable.isNonterminal, Bool.and_eq_true, decide_eq_true_eq] at hnt
      omega
  · next hnone => simp [namesStart, hnone] at hnames

theorem of_grammar_complete (h : Naming.ofGrammar g = (n, none)) (hissues : n.issues = #[]) :
    ∃ start, Complete g n start := by
  obtain ⟨n₄, h₄, hcheck⟩ := andThen_ok h
  obtain ⟨n₃, h₃, hnts⟩ := andThen_ok h₄
  obtain ⟨n₂, h₂, hstart⟩ := andThen_ok h₃
  obtain ⟨n₁, h₁, hlits⟩ := andThen_ok h₂
  cases hcheck
  have htokens := each_keeps (fun n d n' hs h => declare_token_named d hs h) h₁
    terminals_named_start
  have hliterals := each_keeps (fun n name n' hs h => declare_literal_named name hs h) hlits
    htokens
  obtain ⟨start, hnamed, howners₀, hnames⟩ := declare_start_named hstart hliterals
  obtain ⟨hall, hclean⟩ := each_nonterminal_named hnts hnamed
  have hbefore : n₄.issues = #[] := by
    by_contra hne
    unfold checkStart at hissues
    split at hissues
    · split at hissues
      · exact issues_report_ne _ hissues
      · exact hne hissues
    · exact hne hissues
  obtain ⟨hissues₃, howners, hrules⟩ := hclean hbefore
  refine ⟨start, check_start_complete hall ?_ hrules (hnames hissues₃) hissues⟩
  simpa [howners₀] using howners

end ParserTables.Naming

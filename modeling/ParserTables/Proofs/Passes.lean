import ParserTables.Proofs.Declaring
import ParserTables.Proofs.Numbering

/-!
When the naming of a whole grammar raises no issue. Tokens, literals, the start symbol and the
nonterminals are named in one pass each; a pass takes back no issue of the passes before it, so its
own condition counts once those have raised none. What the names of a naming without issues are is
then known exactly, and with it which names the rules can refer to.
-/

namespace ParserTables

namespace Grammar

def tokenNames (g : Grammar) : List String := (g.tokens.filterMap id).map (·.name)

def nonterminalNames (g : Grammar) : List String := g.nonterminals.map (·.name)

end Grammar

namespace Naming

open SymbolTable (maxSymbol)

variable {g : Grammar} {n n' : Naming} {names terminals : List String} {augmented : String}

/-- The terminals besides the sentinels: the declared tokens, and the literals behind them. -/
def terminalNames (g : Grammar) : List String := (literalsOf g).foldl withLiteral g.tokenNames

theorem mem_terminalNames {name : String} :
    name ∈ terminalNames g ↔ name ∈ g.tokenNames ∨ name ∈ literalsOf g := mem_withLiterals

/-- A pass behind others takes none of their issues back. -/
def KeepsIssues (r : Naming × Option SymbolError) (step : Naming → Naming × Option SymbolError) :
    Prop := ∀ n, r = (n, none) → Clean (step n) → n.issues = #[]

section Passes

variable {r : Naming × Option SymbolError} {step : Naming → Naming × Option SymbolError}

theorem KeepsIssues.clean_first (hk : KeepsIssues r step) (h : Clean (andThen r step)) :
    Clean r ∧ Clean (step r.1) ∧ andThen r step = step r.1 := by
  obtain ⟨n, rfl, hclean⟩ := clean_andThen.mp h
  exact ⟨⟨rfl, hk n rfl hclean⟩, hclean, rfl⟩

/-- The condition of a pass counts once the passes before it have raised no issue. -/
theorem KeepsIssues.clean_iff (hk : KeepsIssues r step) {C D : Prop} (hr : Clean r ↔ C)
    (hstep : Clean r → (Clean (step r.1) ↔ D)) : Clean (andThen r step) ↔ C ∧ D := by
  constructor
  · intro h
    obtain ⟨hfirst, hclean, -⟩ := hk.clean_first h
    exact ⟨hr.mp hfirst, (hstep hfirst).mp hclean⟩
  · rintro ⟨hc, hd⟩
    have hfirst := hr.mpr hc
    refine clean_andThen.mpr ⟨r.1, Prod.ext rfl hfirst.1, (hstep hfirst).mpr hd⟩

end Passes

theorem TerminalsHeld.clean_literals (h : n.TerminalsHeld names) :
    Clean (each declareLiteral n (literalsOf g)) ↔
      n.issues = #[] ∧ ((literalsOf g).foldl withLiteral names).length + 2 ≤ maxSymbol + 1 := by
  rcases h.each_literal literals_of with
    ⟨hroom, n', hrun, -, hsame⟩ | ⟨hfull, n', e, hrun⟩
  · rw [hrun]
    simp [Clean, hsame, hroom]
  · rw [hrun]
    simp only [Clean, reduceCtorEq, false_and, false_iff, not_and]
    omega

theorem TerminalsHeld.clean_start (h : n.TerminalsHeld names) : Clean (declareStart n g) ↔
    n.issues = #[] ∧ namesStart g = true ∧ names.length + 3 ≤ maxSymbol + 1 := by
  rcases h.declare_start g with ⟨hroom, n', hrun, -, -, hsame⟩ | ⟨hfull, n', e, hrun⟩
  · rw [hrun]
    simp only [Clean, hsame, true_and]
    constructor
    · rintro ⟨hissues, hnames⟩
      exact ⟨hissues, hnames, by omega⟩
    · rintro ⟨hissues, hnames, -⟩
      exact ⟨hissues, hnames⟩
  · rw [hrun]
    simp only [Clean, reduceCtorEq, false_and, false_iff, not_and]
    omega

theorem clean_tokens : Clean (each declareToken start (g.tokens.filterMap id)) ↔
    AllFit [] g.tokenNames ∧ g.tokenNames.length + 2 ≤ maxSymbol + 1 := by
  refine (declares_tokens.clean_each _ terminals_held_start).1.trans ?_
  simp [Naming.start, Grammar.tokenNames]

theorem held_tokens (h : Clean (each declareToken start (g.tokens.filterMap id))) :
    (each declareToken start (g.tokens.filterMap id)).1.TerminalsHeld g.tokenNames :=
  (declares_tokens.clean_each _ terminals_held_start).2 h

theorem keeps_literals : KeepsIssues (each declareToken start (g.tokens.filterMap id))
    fun n => each declareLiteral n (literalsOf g) := by
  intro n hn hclean
  obtain ⟨names, hheld⟩ := declares_tokens.exists_held hn ⟨[], terminals_held_start⟩
  exact (hheld.clean_literals.mp hclean).1

theorem keeps_start : KeepsIssues (nameTerminals g) fun n => n.declareStart g := by
  intro n hn hclean
  obtain ⟨names, hheld⟩ := terminals_held hn
  exact (hheld.clean_start.mp hclean).1

theorem keeps_nonterminals :
    KeepsIssues (begin g) fun n => each declareNonterminal n g.nonterminals := by
  intro n hn hclean
  obtain ⟨terminals, augmented, hheld, -⟩ := owners_held_begin hn
  exact ((declares_nonterminals.clean_each _ hheld).1.mp hclean).1

theorem clean_nameTerminals : Clean (nameTerminals g) ↔
    AllFit [] g.tokenNames ∧ (terminalNames g).length + 2 ≤ maxSymbol + 1 := by
  have hlonger : g.tokenNames.length ≤ (terminalNames g).length :=
    length_le_withLiterals (literalsOf g) g.tokenNames
  have hiff : Clean (nameTerminals g) ↔
      (AllFit [] g.tokenNames ∧ g.tokenNames.length + 2 ≤ maxSymbol + 1) ∧
        (terminalNames g).length + 2 ≤ maxSymbol + 1 :=
    keeps_literals.clean_iff clean_tokens fun hclean => by
      rw [(held_tokens hclean).clean_literals, and_iff_right hclean.2]
      rfl
  rw [hiff]
  constructor
  · rintro ⟨⟨hfit, -⟩, hroom⟩
    exact ⟨hfit, hroom⟩
  · rintro ⟨hfit, hroom⟩
    exact ⟨⟨hfit, by omega⟩, hroom⟩

theorem held_nameTerminals (h : Clean (nameTerminals g)) :
    (nameTerminals g).1.TerminalsHeld (terminalNames g) := by
  obtain ⟨hfirst, -, hrun⟩ := keeps_literals.clean_first h
  change nameTerminals g = _ at hrun
  rw [hrun] at h ⊢
  rcases (held_tokens hfirst).each_literal literals_of with
    ⟨-, n', hliterals, hheld, -⟩ | ⟨-, n', e, hliterals⟩
  · rw [hliterals]
    exact hheld
  · rw [hliterals] at h
    cases h.1

theorem clean_begin : Clean (begin g) ↔ AllFit [] g.tokenNames ∧ namesStart g = true ∧
    (terminalNames g).length + 3 ≤ maxSymbol + 1 := by
  have hiff : Clean (begin g) ↔
      (AllFit [] g.tokenNames ∧ (terminalNames g).length + 2 ≤ maxSymbol + 1) ∧
        namesStart g = true ∧ (terminalNames g).length + 3 ≤ maxSymbol + 1 :=
    keeps_start.clean_iff clean_nameTerminals fun hclean => by
      rw [(held_nameTerminals hclean).clean_start, and_iff_right hclean.2]
  rw [hiff]
  constructor
  · rintro ⟨⟨hfit, -⟩, hnames, hroom⟩
    exact ⟨hfit, hnames, hroom⟩
  · rintro ⟨hfit, hnames, hroom⟩
    exact ⟨⟨hfit, by omega⟩, hnames, hroom⟩

def augmentedOf (g : Grammar) : String := (nameTerminals g).1.augmentedName g

theorem begin_held (h : Clean (begin g)) : OwnersHeld g (terminalNames g) (augmentedOf g)
    (begin g).1 (terminalNames g ++ [augmentedOf g]) ∧ (begin g).1.owners = #[] := by
  obtain ⟨hfirst, -, hrun⟩ := keeps_start.clean_first h
  change begin g = _ at hrun
  rw [hrun] at h ⊢
  rcases (held_nameTerminals hfirst).declare_start g with
    ⟨-, n', hdeclare, hheld, howners, -⟩ | ⟨-, n', e, hdeclare⟩
  · rw [hdeclare]
    exact ⟨hheld, howners⟩
  · rw [hdeclare] at h
    cases h.1

theorem held_begin (h : Clean (begin g)) : ∃ augmented,
    OwnersHeld g (terminalNames g) augmented (begin g).1 (terminalNames g ++ [augmented]) ∧
      (begin g).1.owners = #[] :=
  ⟨_, begin_held h⟩

theorem OwnersHeld.augmented_new (h : OwnersHeld g terminals augmented n names) :
    augmented ∉ terminals ∧ augmented ∉ g.nonterminalNames ∧
      ∀ owner ∈ n.owners.toList, owner.name ≠ augmented := by
  have hnodup := h.texts.nodup_names h.table
  rw [h.names_eq, List.nodup_append, List.nodup_cons] at hnodup
  obtain ⟨-, ⟨howners, -⟩, hterminals⟩ := hnodup
  refine ⟨?_, ?_, ?_⟩
  · intro hmem
    exact hterminals augmented hmem augmented (by simp) rfl
  · intro hmem
    obtain ⟨nt, hnt, hname⟩ := List.mem_map.mp hmem
    exact h.fresh nt hnt hname
  · intro owner howner hname
    exact howners (hname ▸ List.mem_map_of_mem howner)

theorem OwnersHeld.allFit_iff (h : OwnersHeld g terminals augmented n names) :
    AllFit (terminals ++ [augmented]) g.nonterminalNames ↔ AllFit terminals g.nonterminalNames := by
  obtain ⟨hterminals, hnames, -⟩ := h.augmented_new
  have hperm : (terminals ++ [augmented] ++ g.nonterminalNames).Perm
      (augmented :: (terminals ++ g.nonterminalNames)) := by
    rw [List.append_assoc, List.singleton_append]
    exact List.perm_middle
  have hnodup : (terminals ++ [augmented] ++ g.nonterminalNames).Nodup ↔
      (terminals ++ g.nonterminalNames).Nodup := by
    rw [hperm.nodup_iff, List.nodup_cons, List.mem_append]
    simp [hterminals, hnames]
  constructor
  · intro hfit
    exact ⟨hfit.nonempty, hfit.unreserved, hnodup.mp hfit.distinct⟩
  · intro hfit
    exact ⟨hfit.nonempty, hfit.unreserved, hnodup.mpr hfit.distinct⟩

def nameAll (g : Grammar) : Naming × Option SymbolError :=
  andThen (begin g) fun n => each declareNonterminal n g.nonterminals

theorem clean_nameAll : Clean (nameAll g) ↔ AllFit [] g.tokenNames ∧ namesStart g = true ∧
    AllFit (terminalNames g) g.nonterminalNames ∧ (∀ nt ∈ g.nonterminals, nt.rules ≠ []) ∧
    (terminalNames g).length + g.nonterminals.length + 3 ≤ maxSymbol + 1 := by
  have hiff : Clean (nameAll g) ↔ (AllFit [] g.tokenNames ∧ namesStart g = true ∧
      (terminalNames g).length + 3 ≤ maxSymbol + 1) ∧
        AllFit (terminalNames g) g.nonterminalNames ∧ (∀ nt ∈ g.nonterminals, nt.rules ≠ []) ∧
        (terminalNames g).length + g.nonterminals.length + 3 ≤ maxSymbol + 1 :=
    keeps_nonterminals.clean_iff clean_begin fun hclean => by
      obtain ⟨augmented, hheld, -⟩ := held_begin hclean
      have hall := (declares_nonterminals.clean_each g.nonterminals hheld).1
      rw [List.length_append, List.length_singleton] at hall
      rw [hall, and_iff_right hclean.2, ← hheld.allFit_iff]
      refine and_congr_right fun _ => and_congr_right fun _ => ?_
      omega
  rw [hiff]
  constructor
  · rintro ⟨⟨hfit, hstart, -⟩, hfits, hrules, hroom⟩
    exact ⟨hfit, hstart, hfits, hrules, hroom⟩
  · rintro ⟨hfit, hstart, hfits, hrules, hroom⟩
    exact ⟨⟨hfit, hstart, by omega⟩, hfits, hrules, hroom⟩

theorem nameAll_held (h : Clean (nameAll g)) : ∃ names,
    OwnersHeld g (terminalNames g) (augmentedOf g) (nameAll g).1 names ∧
      (nameAll g).1.owners.toList = g.nonterminals := by
  obtain ⟨hfirst, hclean, hrun⟩ := keeps_nonterminals.clean_first h
  change nameAll g = _ at hrun
  obtain ⟨hheld, howners⟩ := begin_held hfirst
  rw [hrun]
  refine ⟨_, (declares_nonterminals.clean_each _ hheld).2 hclean, ?_⟩
  obtain ⟨-, hall⟩ := each_nonterminal_named (Prod.ext rfl hclean.1) hheld.toNamed
  rw [(hall hclean.2).2.1, howners]
  rfl

theorem held_nameAll (h : Clean (nameAll g)) : ∃ augmented names,
    OwnersHeld g (terminalNames g) augmented (nameAll g).1 names ∧
      (nameAll g).1.owners.toList = g.nonterminals :=
  ⟨_, nameAll_held h⟩

theorem OwnersHeld.userStart_iff (h : OwnersHeld g terminals augmented n names)
    (hstart : namesStart g = true) : (n.userStart? g).isSome = true ↔
      ∃ owner ∈ n.owners.toList, owner.name = startName g := by
  obtain ⟨d, hd, hne⟩ := (Option.any_eq_true _ _).mp hstart
  simp only [ne_eq, decide_not, Bool.not_eq_eq_eq_not, Bool.not_true,
    decide_eq_false_iff_not] at hne
  rw [startName_eq hd hne]
  have huser : n.userStart? g = (n.symbols.id? d.name).filter n.symbols.isNonterminal := by
    simp [userStart?, hd, hne]
  obtain ⟨hfirst, -⟩ := h.table.start_first _ h.start_symbol
  rw [huser, Option.isSome_iff_exists]
  constructor
  · rintro ⟨u, hu⟩
    obtain ⟨hid, hnonterminal⟩ := Option.filter_eq_some_iff.mp hu
    have htext := (h.table.id_iff_text _ _).mp hid
    have hlt := h.table.text_lt htext
    rw [h.size_eq] at hlt
    simp only [SymbolTable.isNonterminal, Bool.and_eq_true, decide_eq_true_eq] at hnonterminal
    have hdiff := h.start_ne hd hne htext
    obtain ⟨k, rfl⟩ : ∃ k, u = terminals.length + 2 + 1 + k :=
      ⟨u - (terminals.length + 3), by omega⟩
    have hk : n.owners[k]? = some n.owners[k] := by simp
    have hname := h.owner_text k _ hk
    exact ⟨_, Array.mem_toList_iff.mpr (Array.mem_of_getElem? hk),
      Option.some.inj (hname.symm.trans htext)⟩
  · rintro ⟨owner, howner, hname⟩
    obtain ⟨k, hk⟩ := List.getElem?_of_mem howner
    rw [Array.getElem?_toList] at hk
    have htext := h.owner_text k owner hk
    have hlt := h.table.text_lt htext
    rw [hname] at htext
    refine ⟨_, Option.filter_eq_some_iff.mpr ⟨(h.table.id_iff_text _ _).mpr htext, ?_⟩⟩
    simp only [SymbolTable.isNonterminal, Bool.and_eq_true, decide_eq_true_eq]
    omega

theorem issues_checkStart : (n.checkStart g).issues = #[] ↔
    n.issues = #[] ∧ (namesStart g = true → (n.userStart? g).isSome = true) := by
  unfold checkStart namesStart
  cases g.start with
  | none => simp
  | some d =>
    by_cases hne : d.name = ""
    · simp [hne]
    · cases n.userStart? g <;> simp [hne]

theorem checkStart_of_clean (h : (n.checkStart g).issues = #[]) : n.checkStart g = n := by
  unfold checkStart at h ⊢
  split at h
  · split at h
    · exact absurd h (issues_report_ne _)
    · next hdeclared => rw [if_neg hdeclared]
  · rfl

theorem keeps_check : KeepsIssues (nameAll g) fun n => (n.checkStart g, none) :=
  fun _ _ hclean => (issues_checkStart.mp hclean.2).1

theorem clean_ofGrammar : Clean (Naming.ofGrammar g) ↔ Clean (nameAll g) ∧
    startName g ∈ g.nonterminalNames := by
  refine keeps_check.clean_iff Iff.rfl fun hclean => ?_
  obtain ⟨augmented, names, hheld, howners⟩ := held_nameAll hclean
  have hstart := (clean_nameAll.mp hclean).2.1
  have huser := hheld.userStart_iff hstart
  rw [howners] at huser
  rw [Clean, issues_checkStart, huser]
  simp [hclean.2, hstart, Grammar.nonterminalNames]

theorem ofGrammar_held (h : Clean (Naming.ofGrammar g)) : ∃ names,
    OwnersHeld g (terminalNames g) (augmentedOf g) (Naming.ofGrammar g).1 names ∧
      (Naming.ofGrammar g).1.owners.toList = g.nonterminals := by
  obtain ⟨hfirst, hclean, hrun⟩ := keeps_check.clean_first h
  change Naming.ofGrammar g = _ at hrun
  rw [hrun, checkStart_of_clean hclean.2]
  exact nameAll_held hfirst

theorem held_ofGrammar (h : Clean (Naming.ofGrammar g)) : ∃ augmented names,
    OwnersHeld g (terminalNames g) augmented (Naming.ofGrammar g).1 names ∧
      (Naming.ofGrammar g).1.owners.toList = g.nonterminals :=
  ⟨_, ofGrammar_held h⟩

/-! ### Names in rules -/

theorem OwnersHeld.augmented_text (h : OwnersHeld g terminals augmented n names) :
    n.symbols.text? (terminals.length + 2) = some augmented := by
  have htexts := h.texts
  rw [h.names_eq] at htexts
  rw [SymbolTable.text?, ← Array.getElem?_toList, htexts]
  simp

theorem OwnersHeld.resolve_iff (h : OwnersHeld g terminals augmented n names) {name : String}
    {s : Nat} : Numbering.resolve n name = .ok s ↔
      n.symbols.id? name = some s ∧ name ≠ augmented ∧ name ≠ endName := by
  constructor
  · intro hr
    obtain ⟨hid, hstart, hend⟩ := Numbering.resolve_ok hr
    have htext := (h.table.id_iff_text _ _).mp hid
    refine ⟨hid, ?_, ?_⟩
    · rintro rfl
      rw [h.table.id_unique htext h.augmented_text, h.start_symbol] at hstart
      exact hstart rfl
    · rintro rfl
      exact hend (h.table.id_unique htext h.end_text)
  · rintro ⟨hid, haugmented, hend⟩
    have htext := (h.table.id_iff_text _ _).mp hid
    have hstart : n.symbols.start ≠ some s := by
      rw [h.start_symbol]
      rintro heq
      rw [← Option.some.inj heq, h.augmented_text] at htext
      exact haugmented (Option.some.inj htext).symm
    have hzero : s ≠ SymbolTable.endSymbol := by
      rintro rfl
      rw [h.end_text] at htext
      exact hend (Option.some.inj htext).symm
    simp [Numbering.resolve, hid, hstart, hzero]

/-- A rule can refer to the error symbol, to the terminals and to the nonterminals. -/
theorem OwnersHeld.resolvable_iff (h : OwnersHeld g terminals augmented n names) {name : String} :
    (∃ s, Numbering.resolve n name = .ok s) ↔ name = errorName ∨ name ∈ terminals ∨
      ∃ owner ∈ n.owners.toList, owner.name = name := by
  have hid : (n.symbols.id? name).isSome = true ↔ _ := h.texts.id_isSome_iff h.table
  rw [Option.isSome_iff_exists] at hid
  have hreserved : isReserved name = true ↔ name = endName ∨ name = errorName := by
    simp [isReserved]
  have hmem : name ∈ names ↔ name ∈ terminals ∨ name = augmented ∨
      ∃ owner ∈ n.owners.toList, owner.name = name := by
    rw [h.names_eq]
    simp
  have hnodup := h.texts.nodup h.table
  rw [List.nodup_cons, List.nodup_cons, List.mem_cons, not_or] at hnodup
  obtain ⟨⟨hsentinels, hend⟩, herror, -⟩ := hnodup
  have haugmented : augmented ∈ names := by
    rw [h.names_eq]
    simp
  obtain ⟨hterminals, -, howners⟩ := h.augmented_new
  simp only [h.resolve_iff, exists_and_right, hid, hreserved]
  constructor
  · rintro ⟨(rfl | rfl) | hold, hne, hzero⟩
    · exact absurd rfl hzero
    · exact Or.inl rfl
    · rcases hmem.mp hold with ht | rfl | ho
      · exact Or.inr (Or.inl ht)
      · exact absurd rfl hne
      · exact Or.inr (Or.inr ho)
  · rintro (rfl | ht | ho)
    · refine ⟨Or.inl (Or.inr rfl), ?_, Ne.symm hsentinels⟩
      rintro rfl
      exact herror haugmented
    · have hold := hmem.mpr (Or.inl ht)
      refine ⟨Or.inr hold, ?_, ?_⟩
      · rintro rfl
        exact hterminals ht
      · rintro rfl
        exact hend hold
    · have hold := hmem.mpr (Or.inr (Or.inr ho))
      refine ⟨Or.inr hold, ?_, ?_⟩
      · rintro rfl
        obtain ⟨owner, howner, hname⟩ := ho
        exact howners owner howner hname
      · rintro rfl
        exact hend hold

theorem OwnersHeld.error_iff (h : OwnersHeld g terminals augmented n names) {name : String}
    {s : Nat} (hs : Numbering.resolve n name = .ok s) :
    s = SymbolTable.errorSymbol ↔ name = errorName := by
  have htext := (h.table.id_iff_text _ _).mp (h.resolve_iff.mp hs).1
  constructor
  · rintro rfl
    exact Option.some.inj (htext.symm.trans h.error_text)
  · rintro rfl
    exact h.table.id_unique htext h.error_text

end Naming

end ParserTables

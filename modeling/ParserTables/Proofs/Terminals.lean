import ParserTables.Proofs.Layout

/-!
The declarations behind the terminals. A naming keeps the declarations of the tokens in the order in
which they took their numbers, and no other name adds to them. In a grammar without issues the
declaration of a terminal is therefore the one with its name.
-/

namespace ParserTables

namespace Naming

variable {g : Grammar} {n n' : Naming}

theorem declare_token_declared {d : TokenDecl} (hs : declareToken n d = (n', none))
    (hissues : n'.issues = #[]) : n.issues = #[] ∧ n'.declared = n.declared.push d := by
  unfold declareToken at hs
  split at hs
  · cases hs
    exact absurd hissues (issues_report_ne _)
  · split at hs
    · cases hs
      exact absurd hissues (issues_report_ne _)
    · split at hs
      · cases hs
        exact absurd hissues (issues_report_ne _)
      · obtain ⟨symbols, positions, declared, owners, issues⟩ := n
        dsimp only at hs
        split at hs
        · cases hs
          exact ⟨hissues, rfl⟩
        · cases hs

theorem each_token_declared {ds : List TokenDecl} (he : each declareToken n ds = (n', none))
    (hissues : n'.issues = #[]) :
    n.issues = #[] ∧ n'.declared.toList = n.declared.toList ++ ds := by
  induction ds generalizing n with
  | nil =>
    cases he
    exact ⟨hissues, by simp⟩
  | cons d ds ih =>
    unfold each at he
    split at he
    · next n₁ hs =>
      obtain ⟨hissues₁, hrest⟩ := ih he
      obtain ⟨hissues₀, hpush⟩ := declare_token_declared hs hissues₁
      refine ⟨hissues₀, ?_⟩
      rw [hrest, hpush]
      simp
    · cases he

theorem declare_literal_declared {name : String} (hs : declareLiteral n name = (n', none)) :
    n'.declared = n.declared := by
  unfold declareLiteral at hs
  split at hs
  · cases hs
    rfl
  · obtain ⟨symbols, positions, declared, owners, issues⟩ := n
    dsimp only at hs
    split at hs
    · cases hs
      rfl
    · cases hs

theorem declare_start_declared (hs : declareStart n g = (n', none)) :
    n'.declared = n.declared := by
  have hbase : (if namesStart g then n
      else n.report (.new .noStartSymbol "" .unknown)).declared = n.declared := by
    split <;> rfl
  unfold declareStart at hs
  dsimp only at hs
  generalize (if namesStart g then n
    else n.report (.new .noStartSymbol "" .unknown)) = base at hs hbase
  obtain ⟨symbols, positions, declared, owners, issues⟩ := base
  dsimp only at hs
  split at hs
  · cases hs
    exact hbase
  · cases hs

theorem declare_nonterminal_declared {nt : Nonterminal}
    (hs : declareNonterminal n nt = (n', none)) : n'.declared = n.declared := by
  obtain ⟨issue, rfl⟩ | ⟨-, -, -, named, -, rfl, ⟨-, issue, rfl⟩ | ⟨-, rfl⟩⟩ :=
    declare_nonterminal_cases hs
  all_goals rfl

theorem check_start_declared (n : Naming) (g : Grammar) :
    (n.checkStart g).declared = n.declared := by
  unfold checkStart
  split
  · split <;> rfl
  · rfl

theorem KeepsIssues.declared_eq {r : Naming × Option SymbolError}
    {step : Naming → Naming × Option SymbolError} (hk : KeepsIssues r step)
    (hstep : ∀ n n', step n = (n', none) → n'.declared = n.declared) (h : Clean (andThen r step)) :
    Clean r ∧ (andThen r step).1.declared = r.1.declared := by
  obtain ⟨hfirst, hclean, hrun⟩ := hk.clean_first h
  refine ⟨hfirst, ?_⟩
  rw [hrun]
  exact hstep r.1 _ (Prod.ext rfl hclean.1)

/-- The declarations that are kept in the end are those of the tokens of the grammar. -/
theorem declared_ofGrammar (h : Clean (Naming.ofGrammar g)) :
    (Naming.ofGrammar g).1.declared.toList = g.tokens.filterMap id := by
  have hliterals : ∀ n n', each declareLiteral n (literalsOf g) = (n', none) →
      n'.declared = n.declared := fun n n' he =>
    each_keeps (P := fun m => m.declared = n.declared)
      (fun _ _ _ hs hm => (declare_literal_declared hs).trans hm) he rfl
  have hnonterminals : ∀ n n', each declareNonterminal n g.nonterminals = (n', none) →
      n'.declared = n.declared := fun n n' he =>
    each_keeps (P := fun m => m.declared = n.declared)
      (fun _ _ _ hs hm => (declare_nonterminal_declared hs).trans hm) he rfl
  have hcheck : ∀ n n' : Naming, (n.checkStart g, none) = (n', (none : Option SymbolError)) →
      n'.declared = n.declared := by
    rintro n n' ⟨⟩
    exact check_start_declared n g
  obtain ⟨hall, hlast⟩ := keeps_check.declared_eq hcheck h
  obtain ⟨hbegun, hnamed⟩ := keeps_nonterminals.declared_eq hnonterminals hall
  obtain ⟨hterminals, hstart⟩ := keeps_start.declared_eq (fun _ _ => declare_start_declared) hbegun
  obtain ⟨htokens, hfirst⟩ := keeps_literals.declared_eq hliterals hterminals
  obtain ⟨-, hdeclared⟩ := each_token_declared (Prod.ext rfl htokens.1) htokens.2
  calc (Naming.ofGrammar g).1.declared.toList
      = (each declareToken start (g.tokens.filterMap id)).1.declared.toList :=
        congrArg Array.toList (((hlast.trans hnamed).trans hstart).trans hfirst)
    _ = start.declared.toList ++ g.tokens.filterMap id := hdeclared
    _ = g.tokens.filterMap id := rfl

end Naming

namespace Automaton

variable {g : Grammar} {x : Nat} {name : String} {d : TokenDecl}

theorem clean_naming (h : (generate g).hasIssues = false) : Naming.Clean (Naming.ofGrammar g) := by
  have hall : (generate g).issues = [] := by simpa [hasIssues] using h
  exact (Numbering.issues_iff.mp (List.append_eq_nil_iff.mp hall).1).2.1

theorem tokenDecl_iff (h : (generate g).hasIssues = false)
    (hx : (generate g).symbols.text? x = some name) :
    (generate g).tokenDecl? x = some d ↔ some d ∈ g.tokens ∧ d.name = name := by
  obtain ⟨start, k, -, hlaid⟩ := numbering_laid_out h
  have hdeclared : (generate g).numbering.naming.declared.toList = g.tokens.filterMap id := by
    change (Numbering.ofGrammar g).naming.declared.toList = _
    rw [Numbering.naming_ofGrammar]
    exact Naming.declared_ofGrammar (clean_naming h)
  have htexts : ∀ i d, (g.tokens.filterMap id)[i]? = some d →
      (generate g).symbols.text? (i + 2) = some d.name := by
    intro i d hi
    have htoken : g.tokenNames[i]? = some d.name := by
      rw [Grammar.tokenNames, List.getElem?_map, hi]
      rfl
    have hlt := (List.getElem?_eq_some_iff.mp htoken).1
    rw [SymbolTable.text?, ← Array.getElem?_toList, symbols, hlaid.texts, Grammar.terminals]
    simpa [List.getElem?_append, hlt] using htoken
  have hfind : (generate g).tokenDecl? x = some d ↔
      ∃ i, x = i + 2 ∧ (g.tokens.filterMap id)[i]? = some d := by
    unfold tokenDecl? Naming.tokenDecl?
    rw [← Array.getElem?_toList, hdeclared]
    constructor
    · intro hd
      split at hd
      · cases hd
      · exact ⟨x - 2, by omega, hd⟩
    · rintro ⟨i, rfl, hi⟩
      simpa using hi
  rw [hfind]
  constructor
  · rintro ⟨i, rfl, hi⟩
    have hmem := List.mem_of_getElem? hi
    have htext := htexts i d hi
    exact ⟨by simpa using hmem, Option.some.inj (htext.symm.trans hx)⟩
  · rintro ⟨hd, rfl⟩
    have hmem : d ∈ g.tokens.filterMap id := by simpa using hd
    obtain ⟨i, hi⟩ := List.getElem?_of_mem hmem
    have htable := (represents_of_no_issues h).table
    exact ⟨i, htable.id_unique hx (htexts i d hi), hi⟩

end Automaton

end ParserTables

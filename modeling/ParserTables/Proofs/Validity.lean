import Mathlib.Data.List.Dedup
import ParserTables.Proofs.Generation
import ParserTables.Proofs.Passes

/-!
Which grammars have no fault besides those that precedence and associativity can lead to. The
conditions are stated on the grammar alone; each pass of the numbering raises no issue exactly when
its share of them holds, given that the passes before it raised none. What the states raise comes
on top and is of three kinds only.
-/

namespace ParserTables

namespace Grammar

def precedenceNames (g : Grammar) : List String := (g.precedences.filterMap id).map (·.name)

/-- The names that get a number, besides that of the augmented start symbol. -/
def symbolNames (g : Grammar) : List String :=
  (endName :: errorName :: (g.tokenNames ++ Naming.literalsOf g ++ g.nonterminalNames)).dedup

structure RuleValid (g : Grammar) (r : Rule) : Prop where
  declared : ∀ t ∈ r.tokens, t.name = errorName ∨ t.name ∈ g.tokenNames ∨
    isLiteral t.name = true ∨ t.name ∈ g.nonterminalNames
  errors_apart : r.tokens.IsChain fun t t' => ¬ (t.name = errorName ∧ t'.name = errorName)
  precedence : r.precedence = "" ∨ r.precedence ∈ g.precedenceNames

structure Valid (g : Grammar) : Prop where
  start_declared : ∃ d, g.start = some d ∧ d.name ≠ "" ∧ d.name ∈ g.nonterminalNames
  precedences_named : ∀ name ∈ g.precedenceNames, name ≠ ""
  precedences_distinct : g.precedenceNames.Nodup
  tokens_named : ∀ name ∈ g.tokenNames, name ≠ "" ∧ name ≠ endName ∧ name ≠ errorName
  tokens_distinct : g.tokenNames.Nodup
  nonterminals_named : ∀ name ∈ g.nonterminalNames,
    name ≠ "" ∧ name ≠ endName ∧ name ≠ errorName
  nonterminals_distinct : g.nonterminalNames.Nodup
  nonterminals_apart : ∀ name ∈ g.nonterminalNames,
    name ∉ g.tokenNames ∧ name ∉ Naming.literalsOf g
  ruled : ∀ nt ∈ g.nonterminals, nt.rules ≠ []
  rules_valid : ∀ nt ∈ g.nonterminals, ∀ r ∈ nt.rules, g.RuleValid r
  bounded : g.symbolNames.length + 1 ≤ 65536

end Grammar

namespace Precedence

variable {known : List Precedence}

theorem find_eq_none {name : String} : find? known name = none ↔ name ∉ known.map (·.name) := by
  simp [find?, List.find?_eq_none]

theorem names_add (d : PrecedenceDecl) :
    (known ++ [ofDecl known d]).map (·.name) = known.map (·.name) ++ [d.name] := by
  simp [ofDecl]

theorem clean_declareAll (ds : List (Option PrecedenceDecl)) (h : (known.map (·.name)).Nodup) :
    (declareAll known ds).2 = [] ↔ (∀ name ∈ (ds.filterMap id).map (·.name), name ≠ "") ∧
      (known.map (·.name) ++ (ds.filterMap id).map (·.name)).Nodup := by
  induction ds generalizing known with
  | nil => simpa [declareAll] using h
  | cons d ds ih =>
    cases d with
    | none => exact ih h
    | some d =>
      have happend : known.map (·.name) ++ ((some d :: ds).filterMap id).map (·.name) =
          known.map (·.name) ++ [d.name] ++ (ds.filterMap id).map (·.name) := by simp
      unfold declareAll
      by_cases hempty : d.name = ""
      · simp [hempty]
      rw [if_neg hempty]
      cases hfind : find? known d.name with
      | some earlier =>
        have hold : d.name ∈ known.map (·.name) := by
          by_contra hnew
          rw [find_eq_none.mpr hnew] at hfind
          cases hfind
        refine iff_of_false (by simp) ?_
        rintro ⟨-, hnodup⟩
        exact (List.nodup_append.mp hnodup).2.2 d.name hold d.name (by simp) rfl
      | none =>
        have hnew := find_eq_none.mp hfind
        have hmore : ((known ++ [ofDecl known d]).map (·.name)).Nodup := by
          rw [names_add]
          refine List.nodup_append.mpr ⟨h, by simp, ?_⟩
          rintro x hx y hy rfl
          exact hnew (List.mem_singleton.mp hy ▸ hx)
        rw [happend, ← names_add]
        dsimp only
        rw [ih hmore]
        simp [hempty]

theorem names_declareAll {ds : List (Option PrecedenceDecl)} (h : (declareAll known ds).2 = []) :
    (declareAll known ds).1.map (·.name) =
      known.map (·.name) ++ (ds.filterMap id).map (·.name) := by
  induction ds generalizing known with
  | nil => simp [declareAll]
  | cons d ds ih =>
    cases d with
    | none => exact ih h
    | some d =>
      unfold declareAll at h ⊢
      by_cases hempty : d.name = ""
      · simp [hempty] at h
      rw [if_neg hempty] at h ⊢
      cases hfind : find? known d.name with
      | some earlier => simp [hfind] at h
      | none =>
        rw [hfind] at h
        rw [ih h, names_add]
        simp

end Precedence

namespace Numbering

open Naming (OwnersHeld)

variable {g : Grammar} {n : Naming} {names terminals : List String} {augmented owner : String}

def Apart (ts : List RuleToken) : Prop :=
  ts.IsChain fun t t' => ¬ (t.name = errorName ∧ t'.name = errorName)

theorem tokenIssues_behind (h : OwnersHeld g terminals augmented n names) {t : RuleToken} {s : Nat}
    (hs : resolve n t.name = .ok s) {seen : List String} {ts : List RuleToken} :
    tokenIssues n owner seen (some s) ts = [] ↔
      (∀ t' ∈ ts, ∃ s', resolve n t'.name = .ok s') ∧ Apart (t :: ts) := by
  induction ts generalizing t s seen with
  | nil => simp [tokenIssues, Apart]
  | cons t' ts ih =>
    unfold tokenIssues
    rw [Apart, List.isChain_cons_cons, List.forall_mem_cons]
    cases hr : resolve n t'.name with
    | error fault => simp
    | ok s' =>
      have hadjacent : s' = SymbolTable.errorSymbol ∧ some s = some SymbolTable.errorSymbol ↔
          t.name = errorName ∧ t'.name = errorName := by
        rw [Option.some.injEq, h.error_iff hs, h.error_iff hr, and_comm]
      dsimp only
      by_cases herror : t.name = errorName ∧ t'.name = errorName
      · rw [if_pos (hadjacent.mpr herror)]
        simp [herror]
      · rw [if_neg (hadjacent.not.mpr herror), ih hr]
        simp [herror, Apart]

theorem tokenIssues_iff (h : OwnersHeld g terminals augmented n names) {ts : List RuleToken} :
    tokenIssues n owner [] none ts = [] ↔
      (∀ t ∈ ts, ∃ s, resolve n t.name = .ok s) ∧ Apart ts := by
  cases ts with
  | nil => simp [tokenIssues, Apart]
  | cons t ts =>
    unfold tokenIssues
    rw [List.forall_mem_cons]
    cases hr : resolve n t.name with
    | error fault => simp
    | ok s => simpa using tokenIssues_behind h hr

theorem precedenceIssues_iff {precs : List Precedence} {r : Rule} :
    precedenceIssues precs r = [] ↔ r.precedence = "" ∨ r.precedence ∈ precs.map (·.name) := by
  unfold precedenceIssues explicit?
  by_cases hempty : r.precedence = ""
  · simp [hempty]
  · by_cases hnew : r.precedence ∈ precs.map (·.name)
    · have hfind : Precedence.find? precs r.precedence ≠ none :=
        Precedence.find_eq_none.not.mpr (not_not.mpr hnew)
      simpa [hempty, hfind] using hnew
    · simpa [hempty, Precedence.find_eq_none.mpr hnew] using hnew

theorem issues_iff : (ofGrammar g).issues = [] ↔
    (Precedence.declareAll [] g.precedences).2 = [] ∧ Naming.Clean (Naming.ofGrammar g) ∧
      ∀ nt ∈ (Naming.ofGrammar g).1.owners.toList, ∀ r ∈ nt.rules,
        ruleIssues (Naming.ofGrammar g).1 (Precedence.declareAll [] g.precedences).1 nt.name r =
          [] := by
  unfold ofGrammar
  generalize Precedence.declareAll [] g.precedences = declared
  obtain ⟨precs, precIssues⟩ := declared
  have hheld := @Naming.held_ofGrammar g
  generalize Naming.ofGrammar g = r at hheld ⊢
  obtain ⟨n, overflow⟩ := r
  dsimp only at hheld ⊢
  cases overflow with
  | some e => simp [Naming.Clean]
  | none =>
    by_cases hissues : n.issues = #[]
    · obtain ⟨augmented, names, h, -⟩ := hheld ⟨rfl, hissues⟩
      simp only [h.start_symbol, Naming.Clean, hissues, List.append_eq_nil_iff,
        List.flatMap_eq_nil_iff, and_assoc, true_and]
      refine and_congr_right fun _ => ?_
      constructor
      · intro hall nt hnt r hr
        obtain ⟨k, hk⟩ := List.getElem?_of_mem hnt
        exact hall (_, nt.name, r) (mem_ownedRules.mpr ⟨k, nt, by simpa using hk, rfl, rfl, hr⟩)
      · rintro hall ⟨lhs, owner, r⟩ hx
        obtain ⟨k, nt, hk, -, rfl, hr⟩ := mem_ownedRules.mp hx
        exact hall nt (Array.mem_toList_iff.mpr (Array.mem_of_getElem? hk)) r hr
    · refine iff_of_false ?_ ?_
      · cases n.symbols.start <;> simp [hissues]
      · rintro ⟨-, hclean, -⟩
        exact hissues hclean.2

end Numbering

namespace Grammar

open Naming (AllFit terminalNames mem_terminalNames isReserved)

variable {g : Grammar} {name : String}

theorem unreserved_iff : isReserved name = false ↔ name ≠ endName ∧ name ≠ errorName := by
  simp [isReserved]

theorem mem_literalsOf : name ∈ Naming.literalsOf g ↔ isLiteral name = true ∧
    ∃ nt ∈ g.nonterminals, ∃ r ∈ nt.rules, ∃ t ∈ r.tokens, t.name = name := by
  simp only [Naming.literalsOf, List.mem_filter, List.mem_flatMap, List.mem_map]
  exact and_comm

theorem fit_terminals (hfit : AllFit [] g.tokenNames) (h : name ∈ terminalNames g) :
    name ≠ endName ∧ name ≠ errorName := by
  rcases mem_terminalNames.mp h with hmem | hmem
  · exact unreserved_iff.mp (hfit.unreserved name hmem)
  · have hfit : Naming.Fit [] name := Naming.fit_literal (Naming.literals_of name hmem) (by simp)
    exact unreserved_iff.mp hfit.unreserved

theorem length_symbolNames (hfit : AllFit [] g.tokenNames)
    (hfits : AllFit (terminalNames g) g.nonterminalNames) :
    g.symbolNames.length = (terminalNames g).length + g.nonterminals.length + 2 := by
  have hreserved : ∀ x ∈ terminalNames g ++ g.nonterminalNames, x ≠ endName ∧ x ≠ errorName := by
    intro x hx
    rcases List.mem_append.mp hx with hx | hx
    · exact fit_terminals hfit hx
    · exact unreserved_iff.mp (hfits.unreserved x hx)
  have hnodup : (endName :: errorName :: (terminalNames g ++ g.nonterminalNames)).Nodup := by
    refine List.nodup_cons.mpr ⟨?_, List.nodup_cons.mpr ⟨?_, hfits.distinct⟩⟩
    · intro hmem
      rcases List.mem_cons.mp hmem with heq | hmem
      · exact absurd heq (by decide)
      · exact (hreserved endName hmem).1 rfl
    · intro hmem
      exact (hreserved errorName hmem).2 rfl
  have hperm : g.symbolNames.Perm
      (endName :: errorName :: (terminalNames g ++ g.nonterminalNames)) := by
    refine (List.perm_ext_iff_of_nodup (List.nodup_dedup _) hnodup).mpr ?_
    intro x
    simp only [List.mem_dedup, List.mem_cons, List.mem_append, mem_terminalNames]
  rw [hperm.length_eq]
  simp [nonterminalNames]

theorem allFit_tokens : AllFit [] g.tokenNames ↔
    (∀ name ∈ g.tokenNames, name ≠ "" ∧ name ≠ endName ∧ name ≠ errorName) ∧
      g.tokenNames.Nodup := by
  constructor
  · intro h
    exact ⟨fun x hx => ⟨h.nonempty x hx, unreserved_iff.mp (h.unreserved x hx)⟩,
      by simpa using h.distinct⟩
  · rintro ⟨hnamed, hnodup⟩
    exact ⟨fun x hx => (hnamed x hx).1, fun x hx => unreserved_iff.mpr (hnamed x hx).2,
      by simpa using hnodup⟩

theorem allFit_nonterminals (htokens : g.tokenNames.Nodup) :
    AllFit (terminalNames g) g.nonterminalNames ↔
      (∀ name ∈ g.nonterminalNames, name ≠ "" ∧ name ≠ endName ∧ name ≠ errorName) ∧
      g.nonterminalNames.Nodup ∧
      ∀ name ∈ g.nonterminalNames, name ∉ g.tokenNames ∧ name ∉ Naming.literalsOf g := by
  have hterminals : (terminalNames g).Nodup := Naming.nodup_withLiterals htokens
  constructor
  · intro h
    obtain ⟨-, hnodup, hapart⟩ := List.nodup_append.mp h.distinct
    refine ⟨fun x hx => ⟨h.nonempty x hx, unreserved_iff.mp (h.unreserved x hx)⟩, hnodup, ?_⟩
    intro x hx
    rw [← not_or, ← mem_terminalNames]
    intro hmem
    exact hapart x hmem x hx rfl
  · rintro ⟨hnamed, hnodup, hapart⟩
    refine ⟨fun x hx => (hnamed x hx).1, fun x hx => unreserved_iff.mpr (hnamed x hx).2,
      List.nodup_append.mpr ⟨hterminals, hnodup, ?_⟩⟩
    rintro x hx y hy rfl
    have hnot := hapart x hy
    rw [← not_or, ← mem_terminalNames] at hnot
    exact hnot hx

theorem start_iff : Naming.namesStart g = true ∧ Naming.startName g ∈ g.nonterminalNames ↔
    ∃ d, g.start = some d ∧ d.name ≠ "" ∧ d.name ∈ g.nonterminalNames := by
  unfold Naming.namesStart Naming.startName
  cases g.start with
  | none => simp
  | some d => by_cases hne : d.name = "" <;> simp [hne]

theorem clean_iff : Naming.Clean (Naming.ofGrammar g) ↔
    (∃ d, g.start = some d ∧ d.name ≠ "" ∧ d.name ∈ g.nonterminalNames) ∧
    (∀ name ∈ g.tokenNames, name ≠ "" ∧ name ≠ endName ∧ name ≠ errorName) ∧
    g.tokenNames.Nodup ∧
    (∀ name ∈ g.nonterminalNames, name ≠ "" ∧ name ≠ endName ∧ name ≠ errorName) ∧
    g.nonterminalNames.Nodup ∧
    (∀ name ∈ g.nonterminalNames, name ∉ g.tokenNames ∧ name ∉ Naming.literalsOf g) ∧
    (∀ nt ∈ g.nonterminals, nt.rules ≠ []) ∧ g.symbolNames.length + 1 ≤ 65536 := by
  rw [Naming.clean_ofGrammar, Naming.clean_nameAll, ← start_iff]
  have hlimit : SymbolTable.maxSymbol + 1 = 65536 := rfl
  constructor
  · rintro ⟨⟨hfit, hstart, hfits, hruled, hroom⟩, hdeclared⟩
    obtain ⟨htokens, hdistinct⟩ := allFit_tokens.mp hfit
    obtain ⟨hnamed, hnodup, hapart⟩ := (allFit_nonterminals hdistinct).mp hfits
    have hlength := length_symbolNames hfit hfits
    exact ⟨⟨hstart, hdeclared⟩, htokens, hdistinct, hnamed, hnodup, hapart, hruled, by omega⟩
  · rintro ⟨⟨hstart, hdeclared⟩, htokens, hdistinct, hnamed, hnodup, hapart, hruled, hbound⟩
    have hfit := allFit_tokens.mpr ⟨htokens, hdistinct⟩
    have hfits := (allFit_nonterminals hdistinct).mpr ⟨hnamed, hnodup, hapart⟩
    have hlength := length_symbolNames hfit hfits
    exact ⟨⟨hfit, hstart, hfits, hruled, by omega⟩, hdeclared⟩

theorem ruleIssues_iff (hclean : Naming.Clean (Naming.ofGrammar g))
    (hprecs : (Precedence.declareAll [] g.precedences).2 = []) {nt : Nonterminal} {r : Rule}
    (hnt : nt ∈ g.nonterminals) (hr : r ∈ nt.rules) :
    Numbering.ruleIssues (Naming.ofGrammar g).1 (Precedence.declareAll [] g.precedences).1
      nt.name r = [] ↔ g.RuleValid r := by
  obtain ⟨augmented, names, hheld, howners⟩ := Naming.held_ofGrammar hclean
  have hnames := Precedence.names_declareAll hprecs
  rw [List.map_nil, List.nil_append] at hnames
  have hresolvable : ∀ t ∈ r.tokens,
      (∃ s, Numbering.resolve (Naming.ofGrammar g).1 t.name = .ok s) ↔
      t.name = errorName ∨ t.name ∈ g.tokenNames ∨ isLiteral t.name = true ∨
        t.name ∈ g.nonterminalNames := by
    intro t ht
    have hliteral : t.name ∈ Naming.literalsOf g ↔ isLiteral t.name = true := by
      rw [mem_literalsOf, and_iff_left_iff_imp]
      exact fun _ => ⟨nt, hnt, r, hr, t, ht, rfl⟩
    rw [hheld.resolvable_iff, howners, mem_terminalNames, hliteral, or_assoc]
    simp [nonterminalNames]
  rw [Numbering.ruleIssues, List.append_eq_nil_iff, Numbering.tokenIssues_iff hheld,
    Numbering.precedenceIssues_iff, hnames]
  constructor
  · rintro ⟨⟨hall, hapart⟩, hprec⟩
    exact ⟨fun t ht => (hresolvable t ht).mp (hall t ht), hapart, hprec⟩
  · rintro ⟨hall, hapart, hprec⟩
    exact ⟨⟨fun t ht => (hresolvable t ht).mpr (hall t ht), hapart⟩, hprec⟩

theorem numbering_issues_iff : (Numbering.ofGrammar g).issues = [] ↔ g.Valid := by
  have hprecs : (Precedence.declareAll [] g.precedences).2 = [] ↔
      (∀ name ∈ g.precedenceNames, name ≠ "") ∧ g.precedenceNames.Nodup := by
    have hnone : (([] : List Precedence).map (·.name)).Nodup := List.nodup_nil
    simpa [precedenceNames] using Precedence.clean_declareAll g.precedences hnone
  rw [Numbering.issues_iff]
  constructor
  · rintro ⟨hp, hclean, hrules⟩
    obtain ⟨hnamed, hdistinct⟩ := hprecs.mp hp
    obtain ⟨hstart, htokens, hts, hnts, hnodup, hapart, hruled, hbound⟩ := clean_iff.mp hclean
    obtain ⟨-, -, -, howners⟩ := Naming.held_ofGrammar hclean
    rw [howners] at hrules
    exact ⟨hstart, hnamed, hdistinct, htokens, hts, hnts, hnodup, hapart, hruled,
      fun nt hnt r hr => (ruleIssues_iff hclean hp hnt hr).mp (hrules nt hnt r hr), hbound⟩
  · intro h
    have hp := hprecs.mpr ⟨h.precedences_named, h.precedences_distinct⟩
    have hclean := clean_iff.mpr ⟨h.start_declared, h.tokens_named, h.tokens_distinct,
      h.nonterminals_named, h.nonterminals_distinct, h.nonterminals_apart, h.ruled, h.bounded⟩
    obtain ⟨-, -, -, howners⟩ := Naming.held_ofGrammar hclean
    refine ⟨hp, hclean, ?_⟩
    rw [howners]
    intro nt hnt r hr
    exact (ruleIssues_iff hclean hp hnt hr).mpr (h.rules_valid nt hnt r hr)

end Grammar

/-- The faults that a shift competing with a reduction can lead to. -/
def Fault.Undecided (f : Fault) : Prop :=
  f = .levelMismatch ∨ f = .assocMismatch ∨ f = .nonassocNesting

instance (f : Fault) : Decidable f.Undecided := inferInstanceAs (Decidable (_ ∨ _ ∨ _))

theorem Issue.plain_new {f : Fault} {detail : String} {pos : Position} (hf : ¬ f.Undecided) :
    ¬ (Issue.new f detail pos).cause.Undecided := hf

namespace Naming

variable {g : Grammar} {n : Naming}

/-- No issue of a naming is of a kind that the states raise. -/
def Plain (n : Naming) : Prop := ∀ i ∈ n.issues, ¬ i.cause.Undecided

theorem Plain.report (h : n.Plain) {f : Fault} (hf : ¬ f.Undecided) (detail : String)
    (pos : Position) : (n.report (.new f detail pos)).Plain := by
  intro i hi
  rw [issues_report, Array.mem_push] at hi
  rcases hi with hi | rfl
  · exact h i hi
  · exact hf

theorem plain_each {α : Type} {step : Naming → α → Naming × Option SymbolError}
    (hstep : ∀ n a, n.Plain → (step n a).1.Plain) {as : List α} (h : n.Plain) :
    (each step n as).1.Plain := by
  induction as generalizing n with
  | nil => exact h
  | cons a as ih =>
    have hone := hstep n a h
    unfold each
    split
    · next hs => exact ih (by simpa [hs] using hone)
    · next hs => simpa [hs] using hone

theorem plain_andThen {r : Naming × Option SymbolError}
    {step : Naming → Naming × Option SymbolError} (hr : r.1.Plain)
    (hstep : ∀ n, n.Plain → (step n).1.Plain) : (andThen r step).1.Plain := by
  obtain ⟨n, e⟩ := r
  cases e with
  | none => exact hstep n hr
  | some e => exact hr

theorem plain_declareToken (d : TokenDecl) (h : n.Plain) : (declareToken n d).1.Plain := by
  unfold declareToken
  split
  · exact h.report (by decide) _ _
  · split
    · exact h.report (by decide) _ _
    · split
      · exact h.report (by decide) _ _
      · dsimp only
        split <;> exact h

theorem plain_declareLiteral (l : String) (h : n.Plain) : (declareLiteral n l).1.Plain := by
  unfold declareLiteral
  split
  · exact h
  · dsimp only
    split <;> exact h

theorem plain_declareStart (h : n.Plain) : (declareStart n g).1.Plain := by
  have hbase : (if namesStart g then n else n.report (.new .noStartSymbol "" .unknown)).Plain := by
    split
    · exact h
    · exact h.report (by decide) _ _
  unfold declareStart
  dsimp only
  split <;> exact hbase

theorem plain_declareNonterminal (nt : Nonterminal) (h : n.Plain) :
    (declareNonterminal n nt).1.Plain := by
  unfold declareNonterminal
  split
  · exact h.report (by decide) _ _
  · split
    · exact h.report (by decide) _ _
    · split
      · exact h.report (by decide) _ _
      · split
        · exact h.report (by decide) _ _
        · dsimp only
          split
          · dsimp only
            split
            · exact Plain.report (n := ⟨_, _, _, _, n.issues⟩) h (by decide) _ _
            · exact h
          · exact h

theorem plain_checkStart (h : n.Plain) : (n.checkStart g).Plain := by
  unfold checkStart
  split
  · split
    · exact h.report (by decide) _ _
    · exact h
  · exact h

theorem plain_ofGrammar (g : Grammar) : (Naming.ofGrammar g).1.Plain := by
  have hstart : Naming.start.Plain := by
    intro i hi
    simp [Naming.start] at hi
  refine plain_andThen (plain_andThen (plain_andThen (plain_andThen ?_ ?_) ?_) ?_) ?_
  · exact plain_each (fun n d h => plain_declareToken d h) hstart
  · exact fun n h => plain_each (fun n l h => plain_declareLiteral l h) h
  · exact fun n h => plain_declareStart h
  · exact fun n h => plain_each (fun n nt h => plain_declareNonterminal nt h) h
  · exact fun n h => plain_checkStart h

end Naming

theorem Precedence.plain_declareAll (known : List Precedence) (ds : List (Option PrecedenceDecl)) :
    ∀ i ∈ (declareAll known ds).2, ¬ i.cause.Undecided := by
  induction ds generalizing known with
  | nil => simp [declareAll]
  | cons d ds ih =>
    cases d with
    | none => exact ih known
    | some d =>
      unfold declareAll
      split
      · exact List.forall_mem_cons.mpr ⟨Issue.plain_new (by decide), ih known⟩
      · split
        · exact List.forall_mem_cons.mpr ⟨Issue.plain_new (by decide), ih known⟩
        · exact ih _

namespace Numbering

theorem plain_resolve {n : Naming} {name : String} {f : Fault} (h : resolve n name = .error f) :
    ¬ f.Undecided := by
  unfold resolve at h
  split at h
  · cases h
    decide
  · split at h
    · cases h
      decide
    · split at h
      · cases h
        decide
      · cases h

theorem plain_tokenIssues {n : Naming} {owner : String} {seen : List String} {before : Option Nat}
    {ts : List RuleToken} : ∀ i ∈ tokenIssues n owner seen before ts, ¬ i.cause.Undecided := by
  induction ts generalizing seen before with
  | nil => simp [tokenIssues]
  | cons t ts ih =>
    unfold tokenIssues
    dsimp only
    split
    · next f hf => exact List.forall_mem_cons.mpr ⟨plain_resolve hf, ih⟩
    · split
      · exact List.forall_mem_cons.mpr ⟨Issue.plain_new (by decide), ih⟩
      · exact ih

theorem plain_ruleIssues {n : Naming} {precs : List Precedence} {owner : String} {r : Rule} :
    ∀ i ∈ ruleIssues n precs owner r, ¬ i.cause.Undecided := by
  intro i hi
  rcases List.mem_append.mp hi with hi | hi
  · exact plain_tokenIssues i hi
  · unfold precedenceIssues at hi
    split at hi
    · rw [List.mem_singleton.mp hi]
      exact Issue.plain_new (by decide)
    · simp at hi

theorem plain_issues (g : Grammar) : ∀ i ∈ (ofGrammar g).issues, ¬ i.cause.Undecided := by
  have hprecs := Precedence.plain_declareAll [] g.precedences
  have hnaming := Naming.plain_ofGrammar g
  unfold ofGrammar
  generalize Precedence.declareAll [] g.precedences = declared at hprecs ⊢
  obtain ⟨precs, precIssues⟩ := declared
  generalize Naming.ofGrammar g = r at hnaming ⊢
  obtain ⟨n, overflow⟩ := r
  have hfirst : ∀ i ∈ precIssues ++ n.issues.toList, ¬ i.cause.Undecided := by
    intro i hi
    rcases List.mem_append.mp hi with hi | hi
    · exact hprecs i hi
    · exact hnaming i (Array.mem_toList_iff.mp hi)
  dsimp only
  split
  · intro i hi
    rcases List.mem_append.mp hi with hi | hi
    · exact hfirst i hi
    · obtain ⟨x, -, hx⟩ := List.mem_flatMap.mp hi
      exact plain_ruleIssues i hx
  · intro i hi
    rcases List.mem_append.mp hi with hi | hi
    · exact hfirst i hi
    · rw [List.mem_singleton.mp hi]
      exact Issue.plain_new (by decide)
  · exact hfirst

end Numbering

namespace NumberedGrammar

variable {g : NumberedGrammar}

theorem undecided_of_verdict {d : Item} {cs : List Item} {f : Fault}
    (h : g.verdict d cs = .fault f) : f.Undecided := by
  unfold verdict at h
  split at h
  · cases h
  · dsimp only at h
    split at h
    · cases h
      decide
    · split at h
      · cases h
      · cases h
      · split at h
        · cases h
        · split at h
          · cases h
            decide
          · split at h
            · cases h
            · split at h
              · cases h
                decide
              · cases h
            · cases h

theorem undecided_of_settle {o : Offer} {kept : Option Transition} {f : Fault}
    (h : (g.settle o kept).2 = some f) : f.Undecided := by
  unfold settle at h
  split at h
  · split at h
    · cases h
    · cases h
    · next hv =>
      cases h
      exact undecided_of_verdict hv
  · cases h

theorem undecided_of_state {k : ItemSet} {p : Nat × Fault} (h : p ∈ (g.state k).undecided) :
    p.2.Undecided := by
  simp only [state, List.mem_filterMap, List.mem_map] at h
  obtain ⟨d, ⟨t, -, rfl⟩, hp⟩ := h
  obtain ⟨f, hf, rfl⟩ := Option.map_eq_some_iff.mp hp
  unfold decision at hf
  dsimp only at hf
  split at hf <;> exact undecided_of_settle hf

end NumberedGrammar

namespace Automaton

/-- Generating the automaton of a grammar finds nothing but shifts that cannot be decided against a
reduction, exactly when the grammar is valid. -/
theorem validation_exact (g : Grammar) :
    (∀ i ∈ (generate g).issues, i.cause.Undecided) ↔ g.Valid := by
  have hstates : ∀ i ∈ (generate g).issues, i ∉ (Numbering.ofGrammar g).issues →
      i.cause.Undecided := by
    intro i hi hnew
    rcases List.mem_append.mp hi with hi | hi
    · exact absurd hi hnew
    · obtain ⟨⟨s, index⟩, hs, hi⟩ := List.mem_flatMap.mp hi
      obtain ⟨p, hp, rfl⟩ := List.mem_map.mp hi
      have hmem : s ∈ (generate g).states.toList :=
        List.mem_of_getElem? (List.mem_zipIdx_iff_getElem?.mp hs)
      obtain ⟨k, rfl⟩ := state_of_mem hmem
      exact NumberedGrammar.undecided_of_state hp
  rw [← Grammar.numbering_issues_iff]
  constructor
  · intro hall
    by_contra hne
    obtain ⟨i, hi⟩ := List.exists_mem_of_ne_nil _ hne
    exact Numbering.plain_issues g i hi (hall i (List.mem_append_left _ hi))
  · intro hnone i hi
    exact hstates i hi (by simp [hnone])

end Automaton

end ParserTables

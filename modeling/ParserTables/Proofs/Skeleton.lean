import ParserTables.Proofs.Generation

/-!
What the table of a grammar depends on. Positions, the names that values are bound to, actions,
value types, patterns, skip flags and the name of the grammar are carried along, and some of them
show in reports, but no decision is made on them: erasing them leaves the symbols, the states and
the kinds of the issues as they were. Two grammars that are the same once they are erased are
therefore given the same table.
-/

namespace ParserTables

/-! ### Productions -/

def Production.skeleton (r : Production) : Production := { r with action := "", pos := .unknown }

namespace NumberedGrammar

variable {g : NumberedGrammar}

def skeleton (g : NumberedGrammar) : NumberedGrammar :=
  { g with rules := g.rules.map Production.skeleton }

theorem rule_skeleton (i : Nat) : g.skeleton.rules[i]? = (g.rules[i]?).map Production.skeleton :=
  Array.getElem?_map

@[simp] theorem size_skeleton : g.skeleton.rules.size = g.rules.size := Array.size_map

@[simp] theorem terminalCount_skeleton : g.skeleton.terminalCount = g.terminalCount := rfl

@[simp] theorem symbolCount_skeleton : g.skeleton.symbolCount = g.symbolCount := rfl

@[simp] theorem startSymbol_skeleton : g.skeleton.startSymbol = g.startSymbol := rfl

@[simp] theorem isTerminal_skeleton : g.skeleton.isTerminal = g.isTerminal := rfl

theorem map_skeleton {α : Type} {f : Production → α} (hf : ∀ r, f r.skeleton = f r) (i : Nat) :
    (g.skeleton.rules[i]?).map f = (g.rules[i]?).map f := by
  rw [rule_skeleton, Option.map_map]
  congr 1
  funext r
  exact hf r

@[simp] theorem lhs?_skeleton : g.skeleton.lhs? = g.lhs? := by
  funext i
  exact map_skeleton (fun _ => rfl) i

@[simp] theorem tokenAt?_skeleton : g.skeleton.tokenAt? = g.tokenAt? := by
  funext a
  unfold tokenAt?
  cases hr : g.rules[a.rule]? with
  | none => simp [rule_skeleton, hr]
  | some r => simp [rule_skeleton, hr, Production.skeleton]

@[simp] theorem isFinal_skeleton : g.skeleton.isFinal = g.isFinal := by
  funext a
  unfold isFinal
  rw [rule_skeleton, Option.any_map]
  rfl

@[simp] theorem level_skeleton : g.skeleton.level = g.level := by
  funext a
  exact congrArg (Option.getD · 0) (map_skeleton (f := (·.level)) (fun _ => rfl) a.rule)

@[simp] theorem assoc_skeleton : g.skeleton.assoc = g.assoc := by
  funext a
  exact congrArg (Option.getD · .left) (map_skeleton (f := (·.assoc)) (fun _ => rfl) a.rule)

@[simp] theorem isBinary_skeleton : g.skeleton.isBinary = g.isBinary := by
  funext a
  unfold isBinary
  rw [rule_skeleton, Option.any_map]
  rfl

@[simp] theorem tokenBefore?_skeleton : g.skeleton.tokenBefore? = g.tokenBefore? := by
  funext a
  simp [tokenBefore?]

@[simp] theorem occurrences_skeleton : g.skeleton.occurrences = g.occurrences := by
  funext s
  have hlength : ∀ i : Nat, (g.skeleton.rules[i]?).map (fun r => r.tokens.length) =
      (g.rules[i]?).map (fun r => r.tokens.length) := map_skeleton fun _ => rfl
  simp [occurrences, hlength]

@[simp] theorem itemCount_skeleton : g.skeleton.itemCount = g.itemCount := by
  simp [itemCount, skeleton, List.foldr_map, Production.skeleton]

/-! The states are made from these lookups alone. -/

@[simp] theorem spawned_skeleton : g.skeleton.spawned = g.spawned := by
  funext s
  simp [spawned, rulesOf]

@[simp] theorem nonterminalAt?_skeleton : g.skeleton.nonterminalAt? = g.nonterminalAt? := by
  funext a
  simp [nonterminalAt?]

@[simp] theorem leads_skeleton : g.skeleton.leads = g.leads := by
  funext s
  simp [leads]

@[simp] theorem closure_skeleton : g.skeleton.closure = g.closure := by
  funext as
  simp [closure]

@[simp] theorem goto_skeleton : g.skeleton.goto = g.goto := by
  funext as s
  simp [goto]

@[simp] theorem endedBy_skeleton : g.skeleton.endedBy = g.endedBy := by
  funext s
  simp [endedBy]

@[simp] theorem after_skeleton : g.skeleton.after = g.after := by
  funext s
  simp [after]

@[simp] theorem followOf_skeleton : g.skeleton.followOf = g.followOf := by
  funext a
  simp [followOf, follow, contexts, shiftable]

@[simp] theorem reduction_skeleton : g.skeleton.reduction = g.reduction := by
  funext a
  simp [reduction]

@[simp] theorem offer_skeleton : g.skeleton.offer = g.offer := by
  funext k
  simp [offer, finals, afterError]

@[simp] theorem decision_skeleton : g.skeleton.decision = g.decision := by
  funext o t
  simp [decision, offered, settle, verdict]

@[simp] theorem state_skeleton : g.skeleton.state = g.state := by
  funext k
  simp [state, pushes, nonterminals]

theorem explore_skeleton (n : Nat) (built : List State) (queue : List ItemSet) :
    g.skeleton.explore n built queue = g.explore n built queue := by
  induction n generalizing built queue with
  | zero => rfl
  | succ n ih =>
    cases queue with
    | nil => rfl
    | cons k queue => simp [explore, ih]

theorem states_skeleton : g.skeleton.states = g.states := by
  simp [states, kernelBound, explore_skeleton]

end NumberedGrammar

/-! ### Grammars -/

def RuleToken.skeleton (t : RuleToken) : RuleToken := ⟨t.name, "", .unknown⟩

def Rule.skeleton (r : Rule) : Rule :=
  ⟨r.tokens.map RuleToken.skeleton, r.precedence, r.assoc, "", .unknown⟩

def Nonterminal.skeleton (n : Nonterminal) : Nonterminal :=
  ⟨n.name, n.rules.map Rule.skeleton, .unknown⟩

def TokenDecl.skeleton (d : TokenDecl) : TokenDecl := ⟨d.name, "", "", false, .unknown⟩

def TokenDecl.lexicalSkeleton (d : TokenDecl) : TokenDecl :=
  ⟨d.name, "", d.pattern, d.skip, .unknown⟩

def TokenDecl.KeepsName (f : TokenDecl → TokenDecl) : Prop := ∀ d, (f d).name = d.name

theorem TokenDecl.keepsName_skeleton : KeepsName TokenDecl.skeleton := fun _ => rfl

theorem TokenDecl.keepsName_lexicalSkeleton : KeepsName TokenDecl.lexicalSkeleton := fun _ => rfl

def PrecedenceDecl.skeleton (d : PrecedenceDecl) : PrecedenceDecl := ⟨d.name, d.assoc, .unknown⟩

def StartDecl.skeleton (d : StartDecl) : StartDecl := ⟨d.name, .unknown⟩

namespace Grammar

/-- A grammar without its name, positions, bound names and actions; `f` tells what is left of the
declaration of a token. -/
def strip (f : TokenDecl → TokenDecl) (g : Grammar) : Grammar where
  name := ""
  start := g.start.map StartDecl.skeleton
  tokens := g.tokens.map (Option.map f)
  precedences := g.precedences.map (Option.map PrecedenceDecl.skeleton)
  nonterminals := g.nonterminals.map Nonterminal.skeleton

/-- Without value types, patterns and skip flags, too. -/
def skeleton (g : Grammar) : Grammar := g.strip TokenDecl.skeleton

/-- Without value types, but with patterns and skip flags. -/
def lexicalSkeleton (g : Grammar) : Grammar := g.strip TokenDecl.lexicalSkeleton

end Grammar

theorem Rule.isBinary_skeleton (owner : String) (r : Rule) :
    r.skeleton.isBinary owner = r.isBinary owner := by
  obtain ⟨tokens, precedence, assoc, action, pos⟩ := r
  match tokens with
  | [] => rfl
  | [_] => rfl
  | [_, _] => rfl
  | [_, _, _] => rfl
  | _ :: _ :: _ :: _ :: _ => rfl

theorem Rule.names_skeleton (r : Rule) :
    r.skeleton.tokens.map (·.name) = r.tokens.map (·.name) := by
  simp [Rule.skeleton, RuleToken.skeleton]

namespace Naming

variable {g : Grammar} {n n' : Naming} {f : TokenDecl → TokenDecl}

/-- The namings of a grammar and of its skeleton: the same symbols and the same kinds of issues. -/
structure Erases (f : TokenDecl → TokenDecl) (n n' : Naming) : Prop where
  symbols : n'.symbols = n.symbols
  position_iff : ∀ name, name ∈ n'.positions ↔ name ∈ n.positions
  count : n'.positions.size = n.positions.size
  declared : n'.declared = n.declared.map f
  owners : n'.owners = n.owners.map Nonterminal.skeleton
  causes : n'.issues.map (·.cause) = n.issues.map (·.cause)

def ErasesTo (f : TokenDecl → TokenDecl) (r r' : Naming × Option SymbolError) : Prop :=
  r'.2 = r.2 ∧ r.1.Erases f r'.1

theorem ErasesTo.guard {p : Prop} [Decidable p] {r r' s s' : Naming × Option SymbolError}
    (hr : ErasesTo f r r') (hs : ErasesTo f s s') :
    ErasesTo f (if p then r else s) (if p then r' else s') := by
  by_cases hp : p
  · rwa [if_pos hp, if_pos hp]
  · rwa [if_neg hp, if_neg hp]

theorem Erases.report (h : n.Erases f n') {issue issue' : Issue}
    (hcause : issue'.cause = issue.cause) : (n.report issue).Erases f (n'.report issue') :=
  ⟨h.symbols, h.position_iff, h.count, h.declared, h.owners, by simp [h.causes, hcause]⟩

theorem Erases.positioned (h : n.Erases f n') (name : String) :
    n'.positions.contains name = n.positions.contains name := by
  rw [Bool.eq_iff_iff, Std.TreeMap.contains_iff_mem, Std.TreeMap.contains_iff_mem, h.position_iff]

theorem Erases.position_cases (h : n.Erases f n') (name : String) :
    (n.positions[name]? = none ∧ n'.positions[name]? = none) ∨
      ∃ pos pos', n.positions[name]? = some pos ∧ n'.positions[name]? = some pos' := by
  have hsame := h.positioned name
  rw [Std.TreeMap.contains_eq_isSome_getElem?, Std.TreeMap.contains_eq_isSome_getElem?] at hsame
  cases hpos : n.positions[name]? with
  | none =>
    rw [hpos] at hsame
    exact Or.inl ⟨rfl, Option.not_isSome_iff_eq_none.mp (by simp [hsame])⟩
  | some pos =>
    rw [hpos] at hsame
    obtain ⟨pos', hpos'⟩ := Option.isSome_iff_exists.mp hsame
    exact Or.inr ⟨pos, pos', rfl, hpos'⟩

theorem Erases.renumber (h : n.Erases f n') (symbols : SymbolTable) :
    Erases f ⟨symbols, n.positions, n.declared, n.owners, n.issues⟩
      ⟨symbols, n'.positions, n'.declared, n'.owners, n'.issues⟩ :=
  ⟨rfl, h.position_iff, h.count, h.declared, h.owners, h.causes⟩

theorem Erases.insert (h : n.Erases f n') (symbols : SymbolTable) (name : String)
    (pos pos' : Position) {declared declared' : Array TokenDecl}
    (hdeclared : declared' = declared.map f) :
    Erases f ⟨symbols, n.positions.insert name pos, declared, n.owners, n.issues⟩
      ⟨symbols, n'.positions.insert name pos', declared', n'.owners, n'.issues⟩ := by
  refine ⟨rfl, ?_, ?_, hdeclared, h.owners, h.causes⟩
  · intro x
    simp only [Std.TreeMap.mem_insert, h.position_iff]
  · simp only [Std.TreeMap.size_insert, h.positioned, h.count]

theorem erases_each {α : Type} {step : Naming → α → Naming × Option SymbolError} {erase : α → α}
    (hstep : ∀ n n' a, n.Erases f n' → ErasesTo f (step n a) (step n' (erase a))) {as : List α}
    (h : n.Erases f n') : ErasesTo f (each step n as) (each step n' (as.map erase)) := by
  induction as generalizing n n' with
  | nil => exact ⟨rfl, h⟩
  | cons a as ih =>
    obtain ⟨hend, hnext⟩ := hstep n n' a h
    rw [List.map_cons]
    unfold each
    generalize step n a = r at hend hnext ⊢
    generalize step n' (erase a) = r' at hend hnext ⊢
    obtain ⟨n₁, e⟩ := r
    obtain ⟨n₁', e'⟩ := r'
    obtain rfl : e' = e := hend
    cases e' with
    | none => exact ih hnext
    | some e => exact ⟨rfl, hnext⟩

theorem erases_andThen {r r' : Naming × Option SymbolError}
    {step step' : Naming → Naming × Option SymbolError} (hr : ErasesTo f r r')
    (hstep : ∀ n n', n.Erases f n' → ErasesTo f (step n) (step' n')) :
    ErasesTo f (andThen r step) (andThen r' step') := by
  obtain ⟨n, e⟩ := r
  obtain ⟨n', e'⟩ := r'
  obtain ⟨hend, hnext⟩ := hr
  obtain rfl : e' = e := hend
  cases e' with
  | none => exact hstep n n' hnext
  | some e => exact ⟨rfl, hnext⟩

theorem erases_declareToken (hf : TokenDecl.KeepsName f) (h : n.Erases f n') (d : TokenDecl) :
    ErasesTo f (declareToken n d) (declareToken n' (f d)) := by
  unfold declareToken
  rw [hf d]
  refine .guard ⟨rfl, h.report rfl⟩ (.guard ⟨rfl, h.report rfl⟩ ?_)
  rcases h.position_cases d.name with ⟨hnone, hnone'⟩ | ⟨pos, pos', hsome, hsome'⟩
  · rw [hnone, hnone']
    dsimp only
    rw [h.symbols]
    generalize n.symbols.registerTerminal d.name = registered
    obtain ⟨outcome, symbols⟩ := registered
    cases outcome with
    | ok id => exact ⟨rfl, h.insert symbols d.name _ _ (by simp [h.declared])⟩
    | error e => exact ⟨rfl, h.renumber symbols⟩
  · rw [hsome, hsome']
    exact ⟨rfl, h.report rfl⟩

theorem erases_declareLiteral (h : n.Erases f n') (l : String) :
    ErasesTo f (declareLiteral n l) (declareLiteral n' l) := by
  unfold declareLiteral
  rw [h.positioned]
  refine .guard ⟨rfl, h⟩ ?_
  dsimp only
  rw [h.symbols]
  generalize n.symbols.registerTerminal l = registered
  obtain ⟨outcome, symbols⟩ := registered
  cases outcome with
  | ok id => exact ⟨rfl, h.insert symbols l _ _ h.declared⟩
  | error e => exact ⟨rfl, h.renumber symbols⟩

theorem startName_strip : startName (g.strip f) = startName g := by
  unfold startName Grammar.strip
  cases g.start <;> rfl

theorem namesStart_strip : namesStart (g.strip f) = namesStart g := by
  unfold namesStart Grammar.strip
  cases g.start <;> rfl

theorem Erases.augmentedName (h : n.Erases f n') :
    n'.augmentedName (g.strip f) = n.augmentedName g := by
  have htaken : n'.isTaken (g.strip f) = n.isTaken g := by
    funext name
    unfold isTaken
    rw [h.positioned, Grammar.strip, List.any_map]
    rfl
  unfold Naming.augmentedName
  rw [htaken, h.count, startName_strip]
  simp [Grammar.strip]

theorem erases_declareStart (h : n.Erases f n') :
    ErasesTo f (declareStart n g) (declareStart n' (g.strip f)) := by
  have hbase : (if namesStart g then n else n.report (.new .noStartSymbol "" .unknown)).Erases f
      (if namesStart g then n' else n'.report (.new .noStartSymbol "" .unknown)) := by
    by_cases hnames : namesStart g = true
    · rwa [if_pos hnames, if_pos hnames]
    · rw [if_neg hnames, if_neg hnames]
      exact h.report rfl
  unfold declareStart
  rw [h.augmentedName, namesStart_strip]
  dsimp only
  rw [hbase.symbols]
  generalize SymbolTable.registerStart _ _ = registered
  obtain ⟨outcome, symbols⟩ := registered
  cases outcome with
  | ok id => exact ⟨rfl, hbase.renumber symbols⟩
  | error e => exact ⟨rfl, hbase.renumber symbols⟩

theorem erases_declareNonterminal (h : n.Erases f n') (nt : Nonterminal) :
    ErasesTo f (declareNonterminal n nt) (declareNonterminal n' nt.skeleton) := by
  have hname : nt.skeleton.name = nt.name := rfl
  have hrules : nt.skeleton.rules = [] ↔ nt.rules = [] := List.map_eq_nil_iff
  unfold declareNonterminal
  rw [hname]
  refine .guard ⟨rfl, h.report rfl⟩ (.guard ⟨rfl, h.report rfl⟩ ?_)
  rcases h.position_cases nt.name with ⟨hnone, hnone'⟩ | ⟨pos, pos', hsome, hsome'⟩
  · rw [hnone, hnone']
    dsimp only
    rw [h.symbols]
    refine .guard ⟨rfl, h.report rfl⟩ ?_
    generalize n.symbols.registerNonterminal nt.name = registered
    obtain ⟨outcome, symbols⟩ := registered
    cases outcome with
    | error e => exact ⟨rfl, h.renumber symbols⟩
    | ok id =>
      have hnext : Erases f ⟨symbols, n.positions, n.declared, n.owners.push nt, n.issues⟩
          ⟨symbols, n'.positions, n'.declared, n'.owners.push nt.skeleton, n'.issues⟩ :=
        ⟨rfl, h.position_iff, h.count, h.declared, by simp [h.owners], h.causes⟩
      dsimp only
      by_cases hruled : nt.rules = []
      · rw [if_pos hruled, if_pos (hrules.mpr hruled)]
        exact ⟨rfl, hnext.report rfl⟩
      · rw [if_neg hruled, if_neg (hrules.not.mpr hruled)]
        exact ⟨rfl, hnext⟩
  · rw [hsome, hsome']
    exact ⟨rfl, h.report rfl⟩

theorem Erases.userStart (h : n.Erases f n') : n'.userStart? (g.strip f) = n.userStart? g := by
  unfold userStart? Grammar.strip
  rw [h.symbols]
  cases g.start <;> rfl

theorem Erases.checkStart (h : n.Erases f n') :
    (n.checkStart g).Erases f (n'.checkStart (g.strip f)) := by
  have huser := h.userStart (g := g)
  unfold Naming.checkStart
  cases hstart : g.start with
  | none => simpa [Grammar.strip, hstart] using h
  | some d =>
    have hstart' : (g.strip f).start = some d.skeleton := by simp [Grammar.strip, hstart]
    have hname : d.skeleton.name = d.name := rfl
    rw [hstart']
    dsimp only
    rw [huser, hname]
    by_cases hundefined : d.name ≠ "" ∧ (n.userStart? g).isNone = true
    · rw [if_pos hundefined, if_pos hundefined]
      exact h.report rfl
    · rwa [if_neg hundefined, if_neg hundefined]

theorem tokens_strip : (g.strip f).tokens.filterMap id = (g.tokens.filterMap id).map f := by
  simp [Grammar.strip, List.filterMap_map, List.map_filterMap]

theorem literals_strip : literalsOf (g.strip f) = literalsOf g := by
  simp [literalsOf, Grammar.strip, Nonterminal.skeleton, List.flatMap_map, Rule.names_skeleton]

theorem erases_ofGrammar (hf : TokenDecl.KeepsName f) (g : Grammar) :
    ErasesTo f (Naming.ofGrammar g) (Naming.ofGrammar (g.strip f)) := by
  unfold Naming.ofGrammar
  rw [tokens_strip, literals_strip]
  refine erases_andThen (erases_andThen (erases_andThen (erases_andThen ?_ ?_) ?_) ?_) ?_
  · exact erases_each (fun _ _ d h => erases_declareToken hf h d)
      ⟨rfl, fun _ => Iff.rfl, rfl, by simp [Naming.start], by simp [Naming.start], rfl⟩
  · intro n n' h
    have hall : ErasesTo f (each declareLiteral n (literalsOf g))
        (each declareLiteral n' ((literalsOf g).map fun l => l)) :=
      erases_each (fun _ _ l h => erases_declareLiteral h l) h
    rwa [List.map_id'] at hall
  · exact fun n n' h => erases_declareStart h
  · exact fun n n' h => erases_each (fun _ _ nt h => erases_declareNonterminal h nt) h
  · exact fun n n' h => ⟨rfl, h.checkStart⟩

end Naming

namespace Precedence

def skeleton (p : Precedence) : Precedence := ⟨p.name, p.level, p.assoc, .unknown⟩

theorem find_skeleton (known : List Precedence) (name : String) :
    find? (known.map skeleton) name = (find? known name).map skeleton := by
  unfold find?
  rw [List.find?_map]
  rfl

theorem declareAll_skeleton (known : List Precedence) (ds : List (Option PrecedenceDecl)) :
    (declareAll (known.map skeleton) (ds.map (Option.map PrecedenceDecl.skeleton))).1 =
      (declareAll known ds).1.map skeleton ∧
    (declareAll (known.map skeleton) (ds.map (Option.map PrecedenceDecl.skeleton))).2.map
      (·.cause) = (declareAll known ds).2.map (·.cause) := by
  induction ds generalizing known with
  | nil => exact ⟨rfl, rfl⟩
  | cons d ds ih =>
    cases d with
    | none => exact ih known
    | some d =>
      have hname : d.skeleton.name = d.name := rfl
      simp only [List.map_cons, Option.map_some, declareAll, hname, find_skeleton]
      by_cases hempty : d.name = ""
      · simpa [hempty] using ⟨(ih known).1, rfl, (ih known).2⟩
      rw [if_neg hempty, if_neg hempty]
      cases find? known d.name with
      | some earlier => simpa using ⟨(ih known).1, rfl, (ih known).2⟩
      | none =>
        have hnext : (known ++ [ofDecl known d]).map skeleton =
            known.map skeleton ++ [ofDecl (known.map skeleton) d.skeleton] := by
          simp [ofDecl, skeleton, PrecedenceDecl.skeleton]
        have hall := ih (known ++ [ofDecl known d])
        rw [hnext] at hall
        exact hall

end Precedence

namespace Numbering

open Naming (Erases)

variable {g : Grammar} {n n' : Naming} {precs : List Precedence} {f : TokenDecl → TokenDecl}

theorem resolve_erased (h : n.Erases f n') : resolve n' = resolve n := by
  funext name
  simp [resolve, h.symbols]

theorem number_erased (h : n.Erases f n') : number? n' = number? n := by
  funext name
  simp [number?, resolve_erased h]

theorem tokenIssues_erased (h : n.Erases f n') (owner : String) (seen : List String)
    (before : Option Nat) (ts : List RuleToken) :
    (tokenIssues n' owner seen before (ts.map RuleToken.skeleton)).map (·.cause) =
      (tokenIssues n owner seen before ts).map (·.cause) := by
  induction ts generalizing seen before with
  | nil => rfl
  | cons t ts ih =>
    have hname : t.skeleton.name = t.name := rfl
    simp only [List.map_cons, tokenIssues, hname, resolve_erased h]
    cases resolve n t.name with
    | error f => simp [Issue.new, ih]
    | ok s =>
      dsimp only
      by_cases hadjacent : s = SymbolTable.errorSymbol ∧ before = some SymbolTable.errorSymbol
      · simp [hadjacent, Issue.new, ih]
      · rw [if_neg hadjacent, if_neg hadjacent, ih]

theorem explicit_skeleton (r : Rule) : explicit? (precs.map Precedence.skeleton) r.skeleton =
    (explicit? precs r).map Precedence.skeleton := by
  have hname : r.skeleton.precedence = r.precedence := rfl
  unfold explicit?
  rw [hname, Precedence.find_skeleton]
  split <;> rfl

theorem inherited_erased (h : n.Erases f n') (r : Rule) :
    inherited? n' (precs.map Precedence.skeleton) r.skeleton =
      (inherited? n precs r).map Precedence.skeleton := by
  unfold inherited?
  rw [number_erased h, h.symbols, ← List.getLast?_map, List.map_filterMap]
  simp only [Rule.skeleton, List.filterMap_map]
  congr 2
  funext t
  simp only [Function.comp_apply, RuleToken.skeleton, Precedence.find_skeleton]
  cases (number? n t.name).filter n.symbols.isTerminal <;> rfl

theorem production_erased (h : n.Erases f n') (lhs : Nat) (owner : String) (r : Rule) :
    production n' (precs.map Precedence.skeleton) lhs owner r.skeleton =
      (production n precs lhs owner r).skeleton := by
  have hprec : (explicit? (precs.map Precedence.skeleton) r.skeleton).or
      (inherited? n' (precs.map Precedence.skeleton) r.skeleton) =
      ((explicit? precs r).or (inherited? n precs r)).map Precedence.skeleton := by
    rw [explicit_skeleton, inherited_erased h]
    cases explicit? precs r <;> rfl
  have htokens : r.skeleton.tokens.map (fun t => number? n' t.name) =
      r.tokens.map (fun t => number? n t.name) := by
    rw [number_erased h]
    simp [Rule.skeleton, RuleToken.skeleton]
  unfold production Production.skeleton
  simp only [hprec, htokens, Rule.isBinary_skeleton, Rule.names_skeleton, Option.map_map]
  rfl

theorem ruleIssues_erased (h : n.Erases f n') (owner : String) (r : Rule) :
    (ruleIssues n' (precs.map Precedence.skeleton) owner r.skeleton).map (·.cause) =
      (ruleIssues n precs owner r).map (·.cause) := by
  have hname : r.skeleton.precedence = r.precedence := rfl
  have hprecs : (precedenceIssues (precs.map Precedence.skeleton) r.skeleton).map (·.cause) =
      (precedenceIssues precs r).map (·.cause) := by
    unfold precedenceIssues
    rw [explicit_skeleton, hname, Option.isNone_map]
    split <;> rfl
  unfold ruleIssues
  rw [List.map_append, List.map_append, hprecs]
  congr 1
  exact tokenIssues_erased h owner [] none r.tokens

theorem startProduction_erased (h : n.Erases f n') (start : Nat) :
    startProduction n' (g.strip f) start = (startProduction n g start).skeleton := by
  unfold startProduction Production.skeleton
  rw [h.userStart, Naming.startName_strip, h.symbols]

theorem ownedRules_erased (h : n.Erases f n') (start : Nat) : ownedRules n' start =
    (ownedRules n start).map fun x => (x.1, x.2.1, x.2.2.skeleton) := by
  unfold ownedRules
  rw [h.owners, Array.toList_map, List.zipIdx_map, List.flatMap_map, List.map_flatMap]
  simp [Nonterminal.skeleton, Function.comp_def]

structure Erases (f : TokenDecl → TokenDecl) (m m' : Numbering) : Prop where
  naming : m.naming.Erases f m'.naming
  rules : m'.rules = m.rules.map Production.skeleton
  user_start : m'.userStart = m.userStart
  causes : m'.issues.map (·.cause) = m.issues.map (·.cause)

theorem erases_ofGrammar (hf : TokenDecl.KeepsName f) (g : Grammar) :
    (ofGrammar g).Erases f (ofGrammar (g.strip f)) := by
  obtain ⟨hprecs, hissues⟩ := Precedence.declareAll_skeleton [] g.precedences
  rw [List.map_nil] at hprecs hissues
  change (Precedence.declareAll [] (g.strip f).precedences).1 = _ at hprecs
  change (Precedence.declareAll [] (g.strip f).precedences).2.map _ = _ at hissues
  obtain ⟨hend, hnaming⟩ := Naming.erases_ofGrammar hf g
  unfold ofGrammar
  generalize Precedence.declareAll [] g.precedences = declared at hprecs hissues ⊢
  generalize Precedence.declareAll [] (g.strip f).precedences = declared' at hprecs hissues ⊢
  generalize Naming.ofGrammar g = r at hend hnaming ⊢
  generalize Naming.ofGrammar (g.strip f) = r' at hend hnaming ⊢
  obtain ⟨precs, precIssues⟩ := declared
  obtain ⟨precs', precIssues'⟩ := declared'
  obtain ⟨n, overflow⟩ := r
  obtain ⟨n', overflow'⟩ := r'
  dsimp only at hprecs hissues hend hnaming ⊢
  subst hprecs hend
  have hfirst : (precIssues' ++ n'.issues.toList).map (·.cause) =
      (precIssues ++ n.issues.toList).map (·.cause) := by
    have hcauses := congrArg Array.toList hnaming.causes
    simp only [Array.toList_map] at hcauses
    rw [List.map_append, List.map_append, hissues, hcauses]
  have hmore : ∀ {more more' : List Issue}, more'.map (·.cause) = more.map (·.cause) →
      (precIssues' ++ n'.issues.toList ++ more').map (·.cause) =
        (precIssues ++ n.issues.toList ++ more).map (·.cause) := by
    intro more more' hsame
    simp only [List.map_append] at hfirst ⊢
    rw [hfirst, hsame]
  rw [hnaming.symbols]
  cases overflow' with
  | some e => exact ⟨hnaming, by simp, rfl, hmore rfl⟩
  | none =>
    cases n.symbols.start with
    | none => exact ⟨hnaming, by simp, rfl, hfirst⟩
    | some start =>
      refine ⟨hnaming, ?_, hnaming.userStart, ?_⟩
      · simp only [startProduction_erased hnaming, ownedRules_erased hnaming, List.map_map,
          Function.comp_def, production_erased hnaming, List.map_toArray, List.map_cons]
      · refine hmore ?_
        rw [ownedRules_erased hnaming, List.flatMap_map, List.map_flatMap, List.map_flatMap]
        simp only [ruleIssues_erased hnaming]

end Numbering

end ParserTables

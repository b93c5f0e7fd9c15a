import ParserTables.Proofs.Closure
import ParserTables.Proofs.Declaring

/-!
What the productions of every grammar have in common, whatever its faults. A name that is refused
gets no number, and a token without a number is passed over; so all numbers in the rules are those
of symbols, and the start production is still the only one that has the augmented start symbol on
its left or the end of input on its right.
-/

namespace ParserTables

namespace Naming

variable {g : Grammar} {n : Naming}

theorem Named.check_start {start : Nat} (h : Named g n start) :
    Named g (n.checkStart g) start := by
  unfold checkStart
  split
  · next s _ =>
    by_cases hmissing : s.name ≠ "" ∧ (n.userStart? g).isNone = true
    · rw [if_pos hmissing]
      exact h.report _
    · rw [if_neg hmissing]
      exact h
  · exact h

theorem named_of_grammar (h : ofGrammar g = (n, none)) : ∃ start, Named g n start := by
  obtain ⟨n₂, hall, hcheck⟩ := andThen_ok h
  obtain ⟨n₁, hbegin, hrun⟩ := andThen_ok hall
  obtain ⟨terminals, augmented, hheld, -⟩ := owners_held_begin hbegin
  obtain ⟨names, hn⟩ := declares_nonterminals.exists_held hrun ⟨_, hheld⟩
  cases hcheck
  exact ⟨_, hn.toNamed.check_start⟩

end Naming

namespace NumberedGrammar

variable {g : NumberedGrammar} {a : Item} {i : Nat}

structure Rooted (g : NumberedGrammar) : Prop where
  error_lt : SymbolTable.errorSymbol < g.terminalCount
  start_rule : ∃ (r : Production) (token : Option Nat), g.rules[0]? = some r ∧
    r.lhs = g.startSymbol ∧ r.tokens = [token, some SymbolTable.endSymbol]
  start_only : ∀ i, g.lhs? i = some g.startSymbol → i = 0
  end_only : ∀ a, g.tokenAt? a = some SymbolTable.endSymbol → a = ⟨0, 1⟩

theorem Rooted.lhs_start_iff (h : g.Rooted) : g.lhs? i = some g.startSymbol ↔ i = 0 := by
  constructor
  · exact h.start_only i
  · rintro rfl
    obtain ⟨r, -, hr, hl, -⟩ := h.start_rule
    exact lhs_eq_some.mpr ⟨r, hr, hl⟩

theorem Rooted.token_end (h : g.Rooted) : g.tokenAt? ⟨0, 1⟩ = some SymbolTable.endSymbol := by
  obtain ⟨r, token, hr, -, htokens⟩ := h.start_rule
  refine tokenAt_eq_some.mpr ⟨r, hr, ?_⟩
  rw [htokens]
  rfl

theorem Rooted.final_start (h : g.Rooted) (hf : g.isFinal a = true) (hi : a.rule = 0) :
    a = ⟨0, 2⟩ := by
  obtain ⟨i, p⟩ := a
  obtain rfl : i = 0 := hi
  obtain ⟨r, token, hr, -, htokens⟩ := h.start_rule
  obtain ⟨r', hr', hp⟩ := (Option.any_eq_true _ _).mp hf
  cases hr.symm.trans hr'
  rw [htokens] at hp
  simpa using hp

end NumberedGrammar

namespace Numbering

variable {g : Grammar} {m : Numbering} {start : Nat}

theorem token_of_production {n : Naming} {precs : List Precedence} {lhs p s : Nat} {owner : String}
    {r : Rule} (h : (production n precs lhs owner r).tokens[p]? = some (some s)) :
    ∃ t, Resolves n s t := by
  obtain ⟨t, -, ht⟩ := List.mem_map.mp (List.mem_of_getElem? h)
  refine ⟨t, ?_⟩
  unfold number? at ht
  split at ht
  · next s' hs =>
    cases ht
    exact hs
  · cases ht

theorem Laid.user_start_bounds (h : Laid g m start) {u : Nat}
    (hu : m.naming.userStart? g = some u) :
    m.grammar.terminalCount ≤ u ∧ u < m.grammar.symbolCount := by
  unfold Naming.userStart? at hu
  split at hu
  · split at hu
    · cases hu
    · obtain ⟨hid, hnonterminal⟩ := Option.filter_eq_some_iff.mp hu
      have htext := (h.named.table.id_iff_text _ _).mp hid
      simp only [SymbolTable.isNonterminal, Bool.and_eq_true, decide_eq_true_eq] at hnonterminal
      exact ⟨hnonterminal.1, h.named.table.text_lt htext⟩
  · cases hu

/-- A token that has a number is the end of input of the start production, the start symbol before
it, or a name that was resolved. -/
theorem Laid.token_cases (h : Laid g m start) {a : Item} {s : Nat}
    (ht : m.grammar.tokenAt? a = some s) :
    (a = ⟨0, 1⟩ ∧ s = SymbolTable.endSymbol) ∨ m.naming.userStart? g = some s ∨
      ∃ t, Resolves m.naming s t := by
  obtain ⟨i, p⟩ := a
  obtain ⟨r, hr, hs⟩ := NumberedGrammar.tokenAt_eq_some.mp ht
  dsimp only at hr hs
  cases i with
  | zero =>
    cases h.rule_zero.symm.trans hr
    change [m.naming.userStart? g, some SymbolTable.endSymbol][p]? = some (some s) at hs
    rcases p with _ | _ | p
    · exact Or.inr (Or.inl (by simpa using hs))
    · exact Or.inl ⟨rfl, by simpa using hs.symm⟩
    · simp at hs
  | succ i =>
    obtain ⟨x, -, rfl⟩ := h.rule_succ.mp hr
    exact Or.inr (Or.inr (token_of_production hs))

theorem Laid.end_lt (h : Laid g m start) : SymbolTable.endSymbol < m.grammar.terminalCount :=
  Nat.lt_of_lt_of_le (by decide) h.named.two_terminals

theorem Laid.bounded (h : Laid g m start) : m.grammar.Bounded := by
  intro a s ht
  rcases h.token_cases ht with ⟨-, rfl⟩ | hu | ⟨t, hs⟩
  · exact Nat.lt_of_lt_of_le h.end_lt h.named.table.terminals_le
  · exact (h.user_start_bounds hu).2
  · exact (h.token_bounds hs).2.1

theorem Laid.lhs_lt (h : Laid g m start) {i : Nat} {r : Production}
    (hr : m.grammar.rules[i]? = some r) : r.lhs < m.grammar.symbolCount := by
  have hstart := h.start_first.2
  cases i with
  | zero =>
    cases h.rule_zero.symm.trans hr
    exact hstart
  | succ i =>
    obtain ⟨x, hx, rfl⟩ := h.rule_succ.mp hr
    obtain ⟨k, nt, hk, hlhs, -⟩ := mem_ownedRules.mp (List.mem_of_getElem? hx)
    have hklt := (Array.getElem?_eq_some_iff.mp hk).1
    have hsize : m.grammar.symbolCount = start + 1 + m.naming.owners.size := h.named.size_eq
    change x.1 < m.grammar.symbolCount
    omega

theorem Laid.rooted (h : Laid g m start) : m.grammar.Rooted := by
  constructor
  case error_lt => exact Nat.lt_of_lt_of_le (by decide) h.named.two_terminals
  case start_rule => exact ⟨_, _, h.rule_zero, h.start_eq.symm, rfl⟩
  case start_only =>
    intro i hl
    obtain ⟨r, hr, hlhs⟩ := NumberedGrammar.lhs_eq_some.mp hl
    cases i with
    | zero => rfl
    | succ i =>
      obtain ⟨x, hx, rfl⟩ := h.rule_succ.mp hr
      obtain ⟨k, nt, -, hk, -⟩ := mem_ownedRules.mp (List.mem_of_getElem? hx)
      have hlhs' : x.1 = start := hlhs.trans h.start_eq
      omega
  case end_only =>
    intro a ht
    rcases h.token_cases ht with ⟨ha, -⟩ | hu | ⟨t, hs⟩
    · exact ha
    · exact absurd (h.user_start_bounds hu).1 (Nat.not_le_of_lt h.end_lt)
    · exact absurd rfl (h.token_bounds hs).2.2.2

/-- A grammar has its productions unless its names have run out of numbers. -/
theorem rules_cases (g : Grammar) :
    (ofGrammar g).rules = #[] ∨ ∃ start, Laid g (ofGrammar g) start := by
  unfold ofGrammar
  generalize Precedence.declareAll [] g.precedences = declared
  obtain ⟨precs, precIssues⟩ := declared
  generalize hn : Naming.ofGrammar g = naming
  obtain ⟨n, overflow⟩ := naming
  dsimp only
  cases overflow with
  | some e => exact Or.inl rfl
  | none =>
    obtain ⟨start, hnamed⟩ := Naming.named_of_grammar hn
    have hstart := hnamed.start_symbol
    simp only [hstart]
    exact Or.inr ⟨start, hnamed, rfl⟩

/-- The numbers in the rules of a grammar are those of its symbols, whatever its faults. -/
theorem bounded (g : Grammar) : (ofGrammar g).grammar.Bounded := by
  rcases rules_cases g with hnone | ⟨start, h⟩
  · intro a s ht
    obtain ⟨r, hr, -⟩ := NumberedGrammar.tokenAt_eq_some.mp ht
    change (ofGrammar g).rules[a.rule]? = some r at hr
    simp [hnone] at hr
  · exact h.bounded

theorem lhs_lt (g : Grammar) (i : Nat) (r : Production)
    (hr : (ofGrammar g).grammar.rules[i]? = some r) :
    r.lhs < (ofGrammar g).grammar.symbolCount := by
  rcases rules_cases g with hnone | ⟨start, h⟩
  · change (ofGrammar g).rules[i]? = some r at hr
    simp [hnone] at hr
  · exact h.lhs_lt hr

theorem rooted_of_rule {r : Production} (hr : (ofGrammar g).grammar.rules[0]? = some r) :
    (ofGrammar g).grammar.Rooted := by
  rcases rules_cases g with hnone | ⟨start, h⟩
  · change (ofGrammar g).rules[0]? = some r at hr
    simp [hnone] at hr
  · exact h.rooted

end Numbering

end ParserTables

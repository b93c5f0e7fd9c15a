import ParserTables.Compiled
import ParserTables.Parser.Token
import ParserTables.Proofs.Path
import ParserTables.Proofs.Table

/-!
What a grammar that compiles comes to: an automaton whose states are those of its kernels, the
first of them that of the initial kernel, and a table that shows it. Every transition of a state
leads to a state of the automaton or to one rule.
-/

namespace ParserTables

namespace NumberedGrammar

variable {g : NumberedGrammar} {s : State} {n : Nat} {built : List State} {queue : List ItemSet}

theorem mem_explore (h : s ∈ g.explore n built queue) : s ∈ built ∨ ∃ k, s = g.state k := by
  induction n generalizing built queue with
  | zero => exact Or.inl h
  | succ n ih =>
    cases queue with
    | nil => exact Or.inl h
    | cons k queue =>
      rcases ih h with hs | hs
      · rcases List.mem_append.mp hs with hs | hs
        · exact Or.inl hs
        · exact Or.inr ⟨k, List.mem_singleton.mp hs⟩
      · exact Or.inr hs

theorem prefix_explore : built <+: g.explore n built queue := by
  induction n generalizing built queue with
  | zero => exact List.prefix_rfl
  | succ n ih =>
    cases queue with
    | nil => exact List.prefix_rfl
    | cons k queue => exact (List.prefix_append built [g.state k]).trans ih

theorem mem_states (h : s ∈ g.states) : ∃ k, s = g.state k := by
  rcases mem_explore h with h | h
  · cases h
  · exact h

theorem first_state : g.states[0]? = some (g.state initialKernel) := by
  obtain ⟨n, hn⟩ : ∃ n, g.kernelBound = n + 1 :=
    Nat.exists_eq_succ_of_ne_zero (Nat.ne_of_gt (Nat.two_pow_pos g.itemCount))
  unfold states
  rw [hn]
  have hfirst : [g.state initialKernel] <+: g.explore (n + 1) [] [initialKernel] :=
    prefix_explore
  obtain ⟨rest, hrest⟩ := hfirst
  rw [← hrest]
  rfl

end NumberedGrammar

namespace Automaton

variable {g : Grammar} {m : Automaton} {t : Table} {k : ItemSet} {tr : Transition} {i : Nat}
  {s : State}

/-- The state with number `i` is that of the kernel `k`. -/
def At (m : Automaton) (k : ItemSet) (i : Nat) : Prop := m.states[i]? = some (m.grammar.state k)

structure Generated (g : Grammar) (m : Automaton) (t : Table) : Prop where
  represents : Numbering.Represents g m.numbering
  table : m.table = .ok t
  built : ∀ s ∈ m.states, ∃ k, s = m.grammar.state k
  first : m.At NumberedGrammar.initialKernel 0

theorem state_of_mem (h : s ∈ (generate g).states.toList) :
    ∃ k, s = (generate g).grammar.state k := by
  unfold generate at h
  dsimp only at h
  split at h
  · rw [List.toList_toArray] at h
    exact NumberedGrammar.mem_states h
  · simp at h

theorem represents_of_no_issues (h : (generate g).hasIssues = false) :
    Numbering.Represents g (generate g).numbering := by
  have hall : (generate g).issues = [] := by simpa [hasIssues] using h
  exact Numbering.represents_of_no_issues (List.append_eq_nil_iff.mp hall).1

theorem generated_of_no_issues (h : (generate g).hasIssues = false)
    (ht : (generate g).table = .ok t) : Generated g (generate g) t := by
  have hrep := represents_of_no_issues h
  have hstates : (generate g).states = (Numbering.ofGrammar g).grammar.states.toArray :=
    if_pos hrep.user_start
  refine ⟨hrep, ht, fun s hs => state_of_mem (Array.mem_toList_iff.mpr hs), ?_⟩
  unfold At
  rw [hstates, List.getElem?_toArray]
  exact NumberedGrammar.first_state

theorem finish_eq_ok {name : String} {strict : Bool} {cg : CompiledGrammar}
    (h : Compilation.finish name strict m = .ok cg) : ∃ t, m.table = .ok t ∧ cg.table = some t := by
  unfold Compilation.finish at h
  split at h
  · cases h
  · split at h
    · cases h
    · split at h
      · cases h
      · next t ht =>
        cases h
        exact ⟨t, ht, rfl⟩

theorem finish_of_compile {options : CompileOptions} {cg : CompiledGrammar}
    (h : (g.compile options).result = .ok cg) : (generate g).hasIssues = false ∧
      Compilation.finish g.name options.strict (generate g) = .ok cg := by
  unfold Grammar.compile at h
  dsimp only at h
  split at h
  · cases h
  · next hissues =>
    refine ⟨by simpa using hissues, ?_⟩
    split at h
    · exact h
    · split at h
      · cases h
      · split at h
        · cases h
        · exact h

theorem compile_eq_ok {options : CompileOptions} {cg : CompiledGrammar}
    (h : (g.compile options).result = .ok cg) : (generate g).hasIssues = false ∧
      ∃ t, (generate g).table = .ok t ∧ cg.table = some t := by
  obtain ⟨hissues, hfinish⟩ := finish_of_compile h
  exact ⟨hissues, finish_eq_ok hfinish⟩

theorem generated_of_compile {options : CompileOptions} {cg : CompiledGrammar}
    (h : (g.compile options).result = .ok cg) (ht : cg.table = some t) :
    Generated g (generate g) t := by
  obtain ⟨hissues, t', htable, ht'⟩ := compile_eq_ok h
  cases ht'.symm.trans ht
  exact generated_of_no_issues hissues htable

namespace Generated

theorem shows (h : Generated g m t) : m.Shows t := shows_of_table h.table

theorem well_formed (h : Generated g m t) : m.grammar.WellFormed := h.represents.well_formed

theorem searchable (h : Generated g m t) (k : ItemSet) : Searchable (m.grammar.state k) :=
  searchable_state h.well_formed k

theorem at_index (h : Generated g m t) (hi : m.stateIndex? k = some i) : m.At k i := by
  obtain ⟨hlt, hkernel, -⟩ := Array.findIdx?_eq_some_iff_getElem.mp hi
  obtain ⟨k', hk'⟩ := h.built _ (Array.getElem_mem hlt)
  have hk : k' = k := by
    rw [hk'] at hkernel
    exact of_decide_eq_true hkernel
  unfold At
  rw [Array.getElem?_eq_getElem hlt, hk', hk]

theorem at_target (h : Generated g m t) (ht : m.Targets tr)
    (ha : tr.action = .shift ∨ tr.action = .push) : m.At tr.target (m.dataOf tr) := by
  unfold Targets at ht
  have hindex : m.stateIndex? tr.target = some (m.dataOf tr) := by
    unfold entryData at ht
    rcases ha with ha | ha
    all_goals
      rw [ha] at ht
      dsimp only at ht
      split at ht
      · next j hj =>
        rw [hj]
        exact congrArg some (Except.ok.inj ht)
      · cases ht
  exact h.at_index hindex

theorem targets_of_move (h : Generated g m t) (hi : m.At k i) {x : Int}
    (hm : (m.grammar.state k).moveOn? x = some tr) : m.Targets tr := by
  have hc := h.shows.complete _ (Array.mem_of_getElem? hi)
  rcases Option.or_eq_some_iff.mp hm with hown | ⟨-, hdefault⟩
  · split at hown
    · cases hown
    · obtain ⟨l₁, l₂, heq, -⟩ := List.lookup_eq_some_iff.mp hown
      exact hc.terminals (x.toNat, tr) (by simp [heq])
  · exact hc.fallback tr hdefault

theorem targets_of_push (h : Generated g m t) (hi : m.At k i) {x : Nat}
    (hp : (m.grammar.state k).onNonterminal? x = some tr) : m.Targets tr := by
  have hc := h.shows.complete _ (Array.mem_of_getElem? hi)
  obtain ⟨l₁, l₂, heq, -⟩ := List.lookup_eq_some_iff.mp hp
  exact hc.nonterminals (x, tr) (by simp [heq])

theorem token_name_of_lt (h : Generated g m t) {x : Nat} (hx : x < m.grammar.symbolCount) :
    ∃ name, m.symbols.text? x = some name ∧ t.tokenName x = .ok name := by
  obtain ⟨name, hname⟩ := h.represents.table.text_of_lt hx
  exact ⟨name, hname, h.shows.token_name hname⟩

theorem terminals_le (h : Generated g m t) : m.grammar.terminalCount ≤ m.grammar.symbolCount :=
  h.represents.table.terminals_le

end Generated

theorem entryData_reduction (a : Item) : m.entryData (m.grammar.reduction a) = .ok a.rule := by
  have hitems : (ItemSet.ofList [a]).items = [a] := rfl
  unfold entryData NumberedGrammar.reduction
  by_cases hstart : m.grammar.lhs? a.rule = some m.grammar.startSymbol
  · simp [hstart, hitems]
  · simp [hstart, hitems]

theorem dataOf_reduction (a : Item) : m.dataOf (m.grammar.reduction a) = a.rule := by
  simp [dataOf, entryData_reduction]

end Automaton

/-- A table that is computed and found to have a property is the table of a compiled grammar. -/
theorem Grammar.exists_table {g : Grammar} {options : CompileOptions} {p : Table → Bool}
    (h : (match (g.compile options).result with
      | .ok cg => cg.table.any p
      | .error _ => false) = true) :
    ∃ cg t, (g.compile options).result = .ok cg ∧ cg.table = some t ∧ p t = true := by
  split at h
  · next cg hresult =>
    obtain ⟨t, ht, hp⟩ := (Option.any_eq_true _ _).mp h
    exact ⟨cg, t, hresult, ht, hp⟩
  · cases h

/-- A grammar to try things on: one letter or more, and recovery at a stop. -/
def Grammar.letters : Grammar where
  name := "letters"
  start := some ⟨"s", .unknown⟩
  tokens := [some ⟨"a", "", "", false, .unknown⟩, some ⟨"stop", "", "", false, .unknown⟩]
  precedences := []
  nonterminals := [⟨"s", [["a"], ["s", "a"], [errorName, "stop"]].map fun names =>
    ⟨names.map fun name => ⟨name, "", .unknown⟩, "", .left, "", .unknown⟩, .unknown⟩]

def Stream.ofTerminals (terminals : List Int) : Stream :=
  ⟨terminals.map fun x => .ok ⟨.ordinary, x, [], 1, 1⟩, endToken SymbolTable.endSymbol⟩

end ParserTables

import ParserTables.Proofs.Exploration

/-!
The table of a grammar without faults always exists, and nothing in it is lost or said twice. All
its slots but the reserved one are shared out among the states: each belongs to one part of one
state, that is to its entries on terminals, its default or its entries on nonterminals. What is
looked up in a state of the table is what the state of the automaton has.
-/

namespace ParserTables

inductive RowPart where
  | terminals
  | fallback
  | nonterminals
  deriving DecidableEq, Repr

namespace TableState

def offset (s : TableState) : RowPart → Int
  | .terminals => s.terminalOffset
  | .fallback => s.fallbackOffset
  | .nonterminals => s.nonterminalOffset

def count (s : TableState) : RowPart → Int
  | .terminals => s.terminalCount
  | .fallback => 1
  | .nonterminals => s.nonterminalCount

/-- The slot lies in the range of a part; offset 0 stands for an empty range. -/
def Covers (s : TableState) (part : RowPart) (slot : Int) : Prop :=
  s.offset part ≠ 0 ∧ s.offset part ≤ slot ∧ slot < s.offset part + s.count part

end TableState

namespace Row

variable {r : Row} {rows : List Row} {start i : Nat} {slot : Int} {ts : TableState}
  {part : RowPart}

theorem length_entries (r : Row) : r.entries.length =
    r.terminals.length + r.fallback.toList.length + r.nonterminals.length := by
  simp only [entries, List.length_append]

theorem covers_terminals (hstart : 1 ≤ start) : (r.place start).Covers .terminals slot ↔
    start ≤ slot ∧ slot < start + r.terminals.length := by
  simp only [TableState.Covers, TableState.offset, TableState.count, place, offsetOf]
  split <;> omega

theorem covers_fallback (hstart : 1 ≤ start) : (r.place start).Covers .fallback slot ↔
    start + r.terminals.length ≤ slot ∧
      slot < start + r.terminals.length + r.fallback.toList.length := by
  simp only [TableState.Covers, TableState.offset, TableState.count, place, offsetOf]
  have hle : r.fallback.toList.length ≤ 1 := by cases r.fallback <;> simp
  split <;> omega

theorem covers_nonterminals (hstart : 1 ≤ start) : (r.place start).Covers .nonterminals slot ↔
    start + r.terminals.length + r.fallback.toList.length ≤ slot ∧
      slot < start + r.entries.length := by
  simp only [TableState.Covers, TableState.offset, TableState.count, place, offsetOf,
    length_entries]
  split <;> omega

theorem bounds_of_covers (hstart : 1 ≤ start) (h : (r.place start).Covers part slot) :
    start ≤ slot ∧ slot < start + r.entries.length := by
  have hlength := r.length_entries
  cases part with
  | terminals =>
    rw [covers_terminals hstart] at h
    omega
  | fallback =>
    rw [covers_fallback hstart] at h
    omega
  | nonterminals =>
    rw [covers_nonterminals hstart] at h
    omega

theorem exists_part (hstart : 1 ≤ start) (hlow : start ≤ slot)
    (hhigh : slot < start + r.entries.length) : ∃ part, (r.place start).Covers part slot := by
  by_cases hterminals : slot < start + r.terminals.length
  · exact ⟨.terminals, (covers_terminals hstart).mpr ⟨hlow, hterminals⟩⟩
  · by_cases hfallback : slot < start + r.terminals.length + r.fallback.toList.length
    · exact ⟨.fallback, (covers_fallback hstart).mpr ⟨by omega, hfallback⟩⟩
    · exact ⟨.nonterminals, (covers_nonterminals hstart).mpr ⟨by omega, hhigh⟩⟩

theorem part_unique {part' : RowPart} (hstart : 1 ≤ start)
    (h : (r.place start).Covers part slot) (h' : (r.place start).Covers part' slot) :
    part = part' := by
  cases part <;> cases part' <;>
    simp only [covers_terminals hstart, covers_fallback hstart, covers_nonterminals hstart]
      at h h' <;> first | rfl | omega

theorem bounds_of_placed (hstart : 1 ≤ start) (h : (placeAll start rows)[i]? = some ts)
    (hcovers : ts.Covers part slot) :
    start ≤ slot ∧ slot < start + (rows.flatMap entries).length := by
  induction rows generalizing start i with
  | nil => simp [placeAll] at h
  | cons r rows ih =>
    rw [List.flatMap_cons, List.length_append]
    cases i with
    | zero =>
      cases h
      have := bounds_of_covers hstart hcovers
      omega
    | succ i =>
      have := ih (Nat.le_add_right_of_le hstart) h
      omega

/-- Every slot of rows that are placed one after another is covered by one part of one row. -/
theorem exists_owner (hstart : 1 ≤ start) (hlow : start ≤ slot)
    (hhigh : slot < start + (rows.flatMap entries).length) :
    ∃! owner : Nat × RowPart, ∃ ts, (placeAll start rows)[owner.1]? = some ts ∧
      ts.Covers owner.2 slot := by
  induction rows generalizing start with
  | nil =>
    rw [List.flatMap_nil, List.length_nil] at hhigh
    omega
  | cons r rows ih =>
    rw [List.flatMap_cons, List.length_append] at hhigh
    have hnext : 1 ≤ start + r.entries.length := Nat.le_add_right_of_le hstart
    by_cases hfirst : slot < start + r.entries.length
    · obtain ⟨part, hpart⟩ := exists_part hstart hlow hfirst
      refine ⟨(0, part), ⟨_, rfl, hpart⟩, ?_⟩
      rintro ⟨i, part'⟩ ⟨ts, hts, hcovers⟩
      cases i with
      | zero =>
        cases hts
        exact congrArg (Prod.mk 0) (part_unique hstart hcovers hpart)
      | succ i =>
        have := bounds_of_placed hnext hts hcovers
        omega
    · obtain ⟨⟨i, part⟩, ⟨ts, hts, hcovers⟩, hunique⟩ := ih hnext (by omega) (by omega)
      refine ⟨(i + 1, part), ⟨ts, hts, hcovers⟩, ?_⟩
      rintro ⟨j, part'⟩ ⟨ts', hts', hcovers'⟩
      cases j with
      | zero =>
        cases hts'
        have := bounds_of_covers hstart hcovers'
        omega
      | succ j =>
        cases hunique (j, part') ⟨ts', hts', hcovers'⟩
        rfl

theorem length_placeAll (rows : List Row) (start : Nat) :
    (placeAll start rows).length = rows.length := by
  induction rows generalizing start with
  | nil => rfl
  | cons r rows ih => simp [placeAll, ih]

end Row

def Table.Owns (t : Table) (state : Nat) (part : RowPart) (slot : Int) : Prop :=
  ∃ ts, t.state state = .ok ts ∧ ts.Covers part slot

inductive State.Emits (s : State) (tr : Transition) : Prop where
  | terminal (x : Nat) (h : (x, tr) ∈ s.terminals) : s.Emits tr
  | fallback (h : s.fallback = some tr) : s.Emits tr
  | nonterminal (x : Nat) (h : (x, tr) ∈ s.nonterminals) : s.Emits tr

namespace Automaton

variable {g : Grammar} {m : Automaton} {t : Table} {i : Nat} {s : State} {slot : Int}
  {part : RowPart} {tr : Transition}

section Slots

theorem Shows.state_count (h : m.Shows t) : t.states.count = m.states.size := by
  rw [h.states, Slots.ofParts, Slots.count_ofArray]
  simp [Row.length_placeAll]

theorem Shows.entry_count (h : m.Shows t) : t.entries.count =
    1 + ((m.states.toList.map m.rowOf).flatMap Row.entries).length := by
  rw [h.entries, Slots.ofParts, Slots.count_ofArray, List.flatMap_map]
  simp [Nat.add_comm]

theorem Shows.entry_at (h : m.Shows t) (hlow : 0 ≤ slot) (hhigh : slot < t.entries.count) :
    ∃ e, t.entries.get slot = .ok (some e) := by
  obtain ⟨n, rfl⟩ : ∃ n : Nat, slot = n := ⟨slot.toNat, by omega⟩
  rw [h.entries, Slots.ofParts, Slots.count_ofArray, Array.size_map] at hhigh
  rw [h.entries, Slots.ofParts, Slots.get_ofArray]
  unfold elementAt
  rw [if_neg (by omega), Int.toNat_natCast, Array.getElem?_map,
    Array.getElem?_eq_getElem (by omega)]
  exact ⟨_, rfl⟩

theorem Shows.owns_iff (h : m.Shows t) : t.Owns i part slot ↔
    ∃ ts, (Row.placeAll 1 (m.states.toList.map m.rowOf))[i]? = some ts ∧ ts.Covers part slot := by
  have hstate : ∀ ts, t.state i = .ok ts ↔
      (Row.placeAll 1 (m.states.toList.map m.rowOf))[i]? = some ts := by
    intro ts
    unfold Table.state
    rw [h.states, Slots.ofParts, Slots.get_ofArray]
    unfold elementAt
    rw [if_neg (by omega), Int.toNat_natCast, Array.getElem?_map, List.getElem?_toArray]
    cases (Row.placeAll 1 (m.states.toList.map m.rowOf))[i]? with
    | none => simp [bind, Except.bind]
    | some ts' => simp [bind, Except.bind, present]
  simp only [Table.Owns, hstate]

/-- The slots behind the reserved one are shared out among the parts of the states. -/
theorem Shows.slot_owner (h : m.Shows t) (hlow : 1 ≤ slot) (hhigh : slot < t.entries.count) :
    ∃! owner : Nat × RowPart, t.Owns owner.1 owner.2 slot := by
  simp only [h.owns_iff]
  have hcount := h.entry_count
  exact Row.exists_owner (Nat.le_refl 1) (by omega) (by omega)

theorem Shows.bounds_of_owns (h : m.Shows t) (ho : t.Owns i part slot) :
    1 ≤ slot ∧ slot < t.entries.count := by
  obtain ⟨ts, hts, hcovers⟩ := h.owns_iff.mp ho
  have hcount := h.entry_count
  have := Row.bounds_of_placed (Nat.le_refl 1) hts hcovers
  omega

theorem Shows.reserved (h : m.Shows t) : t.entries.get 0 = .ok (some reservedEntry) :=
  Table.get_entry h.entries [] _ _ rfl

end Slots

/-- A shift or a push leads to a state, and a reduction has exactly one rule. -/
def Lands (m : Automaton) (tr : Transition) : Prop :=
  match tr.action with
  | .shift | .push => ∃ j, m.stateIndex? tr.target = some j
  | .reduce | .accept => ∃ a, tr.target.items = [a]
  | .throwAway => True

theorem lands_reduction (c : Item) : m.Lands (m.grammar.reduction c) := by
  unfold Lands
  rcases NumberedGrammar.reduction_action (g := m.grammar) c with haction | haction
  · rw [haction]
    exact ⟨c, rfl⟩
  · rw [haction]
    exact ⟨c, rfl⟩

theorem Lands.exists_data (h : m.Lands tr) : ∃ n, m.entryData tr = .ok n := by
  unfold Lands at h
  unfold entryData
  cases haction : tr.action with
  | shift =>
    rw [haction] at h
    obtain ⟨j, hj⟩ := h
    exact ⟨j, by simp [hj]⟩
  | push =>
    rw [haction] at h
    obtain ⟨j, hj⟩ := h
    exact ⟨j, by simp [hj]⟩
  | reduce =>
    rw [haction] at h
    obtain ⟨a, ha⟩ := h
    exact ⟨a.rule, by simp [ha]⟩
  | accept =>
    rw [haction] at h
    obtain ⟨a, ha⟩ := h
    exact ⟨a.rule, by simp [ha]⟩
  | throwAway => exact ⟨0, rfl⟩

namespace Explored

theorem stateIndex_target (h : m.Explored) (hs : m.states[i]? = some s) (htr : s.Moves tr) :
    ∃ (j : Nat) (s' : State), m.states[j]? = some s' ∧ s'.kernel = tr.target ∧
      m.stateIndex? tr.target = some j := by
  obtain ⟨j, s', hs', htarget⟩ := h.exists_target hs htr
  exact ⟨j, s', hs', htarget, htarget ▸ h.stateIndex_eq hs'⟩

theorem push_of_onNonterminal (h : m.Explored) (hs : m.states[i]? = some s) {x : Nat}
    (hx : s.onNonterminal? x = some tr) : tr.action = .push := by
  rw [h.state_eq hs, NumberedGrammar.onNonterminal_state] at hx
  split at hx
  · unfold NumberedGrammar.pushOn? at hx
    dsimp only at hx
    split at hx
    · cases hx
    · cases hx
      rfl
  · cases hx

theorem lands (h : m.Explored) (hs : m.states[i]? = some s)
    (htr : s.Emits tr) : m.Lands tr := by
  have hstate := h.state_eq hs
  cases htr with
  | terminal x hmem =>
    rw [hstate, NumberedGrammar.mem_terminals_state, ← hstate] at hmem
    have hdecided := hmem
    rw [hstate] at hdecided
    obtain ⟨-, ⟨rfl, -⟩ | ⟨rfl, -⟩ | ⟨c, -, -, rfl⟩⟩ := NumberedGrammar.onTerminal_cases hdecided
    · obtain ⟨j, -, -, -, hindex⟩ := h.stateIndex_target hs (Or.inl ⟨rfl, x, hmem⟩)
      exact ⟨j, hindex⟩
    · trivial
    · exact lands_reduction c
  | fallback hmem =>
    rw [hstate, NumberedGrammar.fallback_state] at hmem
    obtain ⟨c, -, rfl⟩ := Option.map_eq_some_iff.mp hmem
    exact lands_reduction c
  | nonterminal x hmem =>
    rw [hstate, NumberedGrammar.mem_nonterminals_state, ← hstate] at hmem
    obtain ⟨j, -, -, -, hindex⟩ := h.stateIndex_target hs (Or.inr ⟨x, hmem⟩)
    unfold Lands
    rw [h.push_of_onNonterminal hs hmem]
    exact ⟨j, hindex⟩

theorem emits_terminal (h : m.Explored) (hs : m.states[i]? = some s) {x : Nat}
    (hx : s.onTerminal? x = some tr) : s.Emits tr := by
  refine .terminal x ?_
  rw [h.state_eq hs] at hx ⊢
  exact NumberedGrammar.mem_terminals_state.mpr hx

theorem exists_row (h : m.Explored) (hs : m.states[i]? = some s) : ∃ r, m.row s = .ok r := by
  have hentry : ∀ (x : Int) tr, s.Emits tr → ∃ e, m.entry x tr = .ok e := by
    intro x tr htr
    obtain ⟨n, hn⟩ := (h.lands hs htr).exists_data
    exact ⟨_, bind_eq_ok.mpr ⟨n, hn, rfl⟩⟩
  obtain ⟨terminals, hterminals⟩ :
      ∃ es, s.terminals.mapM (fun p => m.entry p.1 p.2) = .ok es :=
    exists_mapM fun p hp => hentry p.1 p.2 (.terminal p.1 hp)
  obtain ⟨nonterminals, hnonterminals⟩ :
      ∃ es, s.nonterminals.mapM (fun p => m.entry p.1 p.2) = .ok es :=
    exists_mapM fun p hp => hentry p.1 p.2 (.nonterminal p.1 hp)
  unfold row
  cases hf : s.fallback with
  | none =>
    exact ⟨_, bind_eq_ok.mpr ⟨_, hterminals, bind_eq_ok.mpr ⟨none, rfl,
      bind_eq_ok.mpr ⟨_, hnonterminals, rfl⟩⟩⟩⟩
  | some tr =>
    obtain ⟨e, he⟩ := hentry (-1) tr (.fallback hf)
    exact ⟨_, bind_eq_ok.mpr ⟨_, hterminals, bind_eq_ok.mpr ⟨_, map_eq_ok.mpr ⟨e, he, rfl⟩,
      bind_eq_ok.mpr ⟨_, hnonterminals, rfl⟩⟩⟩⟩

theorem exists_table (h : m.Explored) : ∃ t, m.table = .ok t := by
  obtain ⟨rows, hrows⟩ : ∃ rows, m.states.toList.mapM m.row = .ok rows := by
    refine exists_mapM ?_
    intro s hs
    obtain ⟨i, hi⟩ := List.getElem?_of_mem hs
    exact h.exists_row (i := i) (by simpa using hi)
  exact ⟨_, bind_eq_ok.mpr ⟨rows, hrows, rfl⟩⟩

end Explored

/-- What is looked up in a state of the table is what the state of the automaton has. -/
structure Agrees (m : Automaton) (t : Table) (i : Nat) (s : State) : Prop where
  terminal_entries : ∃ es, t.terminalEntries i = .ok (Table.parts es) ∧
    List.Forall₂ (fun p e => m.entry p.1 p.2 = .ok e) s.terminals es ∧
    es.Pairwise fun d e => d.token < e.token
  nonterminal_entries : ∃ es, t.nonterminalEntries i = .ok (Table.parts es) ∧
    List.Forall₂ (fun p e => m.entry p.1 p.2 = .ok e) s.nonterminals es ∧
    es.Pairwise fun d e => d.token < e.token
  own : ∀ (x : Nat) (tr : Transition), s.onTerminal? x = some tr →
    ∃ e, m.entry x tr = .ok e ∧ t.action i x = .ok (e.kind, e.data)
  by_default : ∀ (x : Int) (tr : Transition), x < 0 ∨ s.onTerminal? x.toNat = none →
    s.fallback = some tr → ∃ e, m.entry (-1) tr = .ok e ∧ t.action i x = .ok (e.kind, e.data)
  nothing : ∀ x : Int, x < 0 ∨ s.onTerminal? x.toNat = none → s.fallback = none →
    t.action i x = .ok (.nothing, 0)
  goto : ∀ (a : Nat) (tr : Transition), s.onNonterminal? a = some tr →
    ∃ (j : Nat) (s' : State), m.states[j]? = some s' ∧ s'.kernel = tr.target ∧
      t.goto? i a = .ok (some (j : Int))
  no_goto : ∀ a : Int, a < 0 ∨ s.onNonterminal? a.toNat = none → t.goto? i a = .ok none
  traps_error : ∃ b, t.trapsError i = .ok b ∧
    (b = true ↔ ∃ target, s.onTerminal? SymbolTable.errorSymbol = some ⟨.shift, target⟩)
  throws_away : ∃ b, t.throwsAway i = .ok b ∧
    (b = true ↔ ∃ target, s.onTerminal? SymbolTable.errorSymbol = some ⟨.throwAway, target⟩)

section Agreement

theorem Targets.entry_eq (h : m.Targets tr) (x : Int) : m.entry x tr = .ok (m.entryOf x tr) :=
  bind_eq_ok.mpr ⟨_, h, rfl⟩

theorem forall_entriesOf {ts : List (Nat × Transition)} (h : ∀ p ∈ ts, m.Targets p.2) :
    List.Forall₂ (fun p e => m.entry p.1 p.2 = .ok e) ts (m.entriesOf ts) := by
  rw [entriesOf, List.forall₂_map_right_iff, List.forall₂_same]
  intro p hp
  exact (h p hp).entry_eq _

theorem Shows.goto_none (h : m.Shows t) (hs : m.states[i]? = some s) (ho : Searchable s) {a : Int}
    (ha : a < 0 ∨ s.onNonterminal? a.toNat = none) : t.goto? i a = .ok none := by
  by_cases hneg : a < 0
  · unfold Table.goto?
    rw [h.nonterminal_entries hs]
    simp only [bind, Except.bind]
    rw [ho.nonterminals.ordered.find_eq, ho.nonterminals.ordered.find_eq_none (Or.inl hneg)]
    rfl
  · obtain ⟨n, rfl⟩ : ∃ n : Nat, a = n := ⟨a.toNat, by omega⟩
    rcases ha with ha | ha
    · exact absurd ha hneg
    · rw [Int.toNat_natCast] at ha
      rw [h.goto_eq hs ho, ha]
      rfl

theorem any_action {o : Option Transition} {a : Action} :
    o.any (·.action = a) = true ↔ ∃ target, o = some ⟨a, target⟩ := by
  cases o with
  | none => simp
  | some tr =>
    obtain ⟨action, target⟩ := tr
    simp [eq_comm]

theorem Explored.agrees (hm : m.Explored) (h : m.Shows t) (hs : m.states[i]? = some s)
    (ho : Searchable s) : m.Agrees t i s := by
  have hcomplete := h.complete s (Array.mem_of_getElem? hs)
  have hdefault : ∀ x : Int, x < 0 ∨ s.onTerminal? x.toNat = none →
      s.moveOn? x = s.fallback := by
    intro x hx
    unfold State.moveOn?
    by_cases hneg : x < 0
    · simp [hneg]
    · simp [hneg, hx.resolve_left hneg]
  constructor
  case terminal_entries =>
    exact ⟨_, h.terminal_entries hs, forall_entriesOf hcomplete.terminals,
      ho.terminals.ordered.ascending⟩
  case nonterminal_entries =>
    exact ⟨_, h.nonterminal_entries hs, forall_entriesOf hcomplete.nonterminals,
      ho.nonterminals.ordered.ascending⟩
  case own =>
    intro x tr hx
    obtain ⟨n, hn⟩ := (hm.lands hs (hm.emits_terminal hs hx)).exists_data
    have hmove : s.moveOn? x = some tr := by simp [State.moveOn?, hx]
    have haction := h.action_eq hs ho x
    rw [hmove] at haction
    exact ⟨_, bind_eq_ok.mpr ⟨n, hn, rfl⟩, by simpa [dataOf, hn] using haction⟩
  case by_default =>
    intro x tr hx hf
    have haction := h.action_eq hs ho x
    rw [hdefault x hx, hf] at haction
    exact ⟨_, (hcomplete.fallback tr hf).entry_eq _, haction⟩
  case nothing =>
    intro x hx hf
    have haction := h.action_eq hs ho x
    rw [hdefault x hx, hf] at haction
    exact haction
  case goto =>
    intro a tr ha
    obtain ⟨j, s', hs', htarget, hindex⟩ := hm.stateIndex_target hs (Or.inr ⟨a, ha⟩)
    have hpush := hm.push_of_onNonterminal hs ha
    have hdata : m.dataOf tr = j := by
      unfold dataOf entryData
      rw [hpush]
      simp [hindex]
    refine ⟨j, s', hs', htarget, ?_⟩
    rw [h.goto_eq hs ho, ha]
    simp [hpush, hdata]
  case no_goto =>
    intro a ha
    exact h.goto_none hs ho ha
  case traps_error =>
    exact ⟨_, h.traps_error hs ho, any_action⟩
  case throws_away =>
    exact ⟨_, h.throws_away hs ho, any_action⟩

end Agreement

/-- The table of a grammar without faults, slot by slot and lookup by lookup. -/
theorem table_refines (h : (generate g).hasIssues = false) :
    let m := generate g
    ∃ t, m.table = .ok t ∧ t.states.count = m.states.size ∧
      t.entries.get 0 = .ok (some reservedEntry) ∧
      (∀ slot : Int, 1 ≤ slot → slot < t.entries.count →
        (∃ e, t.entries.get slot = .ok (some e)) ∧
        ∃! owner : Nat × RowPart, t.Owns owner.1 owner.2 slot) ∧
      (∀ (i : Nat) (part : RowPart) (slot : Int), t.Owns i part slot →
        1 ≤ slot ∧ slot < t.entries.count) ∧
      ∀ (i : Nat) (s : State), m.states[i]? = some s → m.Agrees t i s := by
  intro m
  have hrep : Numbering.Represents g m.numbering := represents_of_no_issues h
  have hm : m.Explored := explored_of_start hrep.user_start
  obtain ⟨t, ht⟩ := hm.exists_table
  have hshows : m.Shows t := shows_of_table ht
  refine ⟨t, ht, hshows.state_count, hshows.reserved, ?_, ?_, ?_⟩
  · intro slot hlow hhigh
    exact ⟨hshows.entry_at (by omega) hhigh, hshows.slot_owner hlow hhigh⟩
  · intro i part slot howns
    exact hshows.bounds_of_owns howns
  · intro i s hs
    refine hm.agrees hshows hs ?_
    rw [hm.state_eq hs]
    exact searchable_state hrep.well_formed _

set_option maxRecDepth 100000 in
theorem letters_refined : ∃ t, (generate Grammar.letters).table = .ok t ∧
    (∃! owner : Nat × RowPart, t.Owns owner.1 owner.2 1) ∧
    ∀ (i : Nat) (s : State), (generate Grammar.letters).states[i]? = some s →
      (generate Grammar.letters).Agrees t i s := by
  have hslots : (match (generate Grammar.letters).table with
      | .ok t => decide (1 < t.entries.count)
      | .error _ => false) = true := by decide +kernel
  obtain ⟨t, ht, -, -, howner, -, hagrees⟩ :=
    @table_refines Grammar.letters (by decide +kernel)
  rw [ht] at hslots
  have hcount := of_decide_eq_true hslots
  exact ⟨t, ht, (howner 1 (by decide) (by omega)).2, hagrees⟩

end Automaton

end ParserTables

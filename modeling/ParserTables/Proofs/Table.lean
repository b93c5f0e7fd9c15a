import Mathlib.Data.List.Forall2
import ParserTables.Table.Flatten
import ParserTables.Proofs.Lookup
import ParserTables.Proofs.State

/-!
The table of an automaton shows the automaton as it is. Every state finds its own transitions at
the places that it was given, so what the table does in a state is what the state does, with the
numbers of states and rules in the place of their kernels and items.
-/

namespace ParserTables

theorem bind_eq_ok {α β ε : Type} {x : Except ε α} {f : α → Except ε β} {b : β} :
    x >>= f = .ok b ↔ ∃ a, x = .ok a ∧ f a = .ok b := by
  cases x with
  | error e => simp [bind, Except.bind]
  | ok a => simp [bind, Except.bind]

theorem map_eq_ok {α β ε : Type} {x : Except ε α} {f : α → β} {b : β} :
    f <$> x = .ok b ↔ ∃ a, x = .ok a ∧ f a = b := by
  cases x with
  | error e => simp [Functor.map, Except.map]
  | ok a => simp [Functor.map, Except.map]

theorem mapM_eq_ok {α β ε : Type} {f : α → Except ε β} {as : List α} {bs : List β} :
    as.mapM f = .ok bs ↔ List.Forall₂ (fun a b => f a = .ok b) as bs := by
  induction as generalizing bs with
  | nil =>
    simp only [List.mapM_nil, pure, Except.pure, Except.ok.injEq, List.forall₂_nil_left_iff]
    exact eq_comm
  | cons a as ih =>
    simp only [List.mapM_cons, bind_eq_ok, List.forall₂_cons_left_iff, ih, pure, Except.pure,
      Except.ok.injEq]
    constructor
    · rintro ⟨b, hb, bs', hbs, rfl⟩
      exact ⟨b, bs', hb, hbs, rfl⟩
    · rintro ⟨b, bs', hb, hbs, rfl⟩
      exact ⟨b, hb, bs', hbs, rfl⟩

theorem exists_mapM {α β ε : Type} {f : α → Except ε β} {as : List α}
    (h : ∀ a ∈ as, ∃ b, f a = .ok b) : ∃ bs, as.mapM f = .ok bs := by
  induction as with
  | nil => exact ⟨[], rfl⟩
  | cons a as ih =>
    obtain ⟨b, hb⟩ := h a (by simp)
    obtain ⟨bs, hbs⟩ := ih fun a' ha' => h a' (by simp [ha'])
    exact ⟨b :: bs, mapM_eq_ok.mpr (.cons hb (mapM_eq_ok.mp hbs))⟩

namespace Row

theorem getElem_placeAll {rows : List Row} {i : Nat} {r : Row} (h : rows[i]? = some r)
    (start : Nat) :
    ∃ before after, rows.flatMap Row.entries = before ++ (r.entries ++ after) ∧
      (placeAll start rows)[i]? = some (r.place (start + before.length)) := by
  induction rows generalizing start i with
  | nil => simp at h
  | cons r₀ rs ih =>
    cases i with
    | zero =>
      cases h
      exact ⟨[], rs.flatMap Row.entries, by simp, by simp [placeAll]⟩
    | succ i =>
      obtain ⟨before, after, hsplit, hplace⟩ := ih h (start + r₀.entries.length)
      refine ⟨r₀.entries ++ before, after, by simp [hsplit], ?_⟩
      simp only [placeAll, List.getElem?_cons_succ, hplace, List.length_append, Nat.add_assoc]

end Row

namespace Table

variable {t : Table} {all : List Entry}

theorem slice_eq (hall : t.entries = .ofParts all.toArray) (before es after : List Entry)
    (hsplit : all = before ++ (es ++ after)) (hpos : before ≠ []) :
    t.slice (Row.offsetOf before.length es.length) es.length = .ok (parts es) := by
  cases es with
  | nil => simp [slice, Row.offsetOf, parts]
  | cons e es =>
    have hlen : 0 < before.length := List.length_pos_of_ne_nil hpos
    have hoffset : Row.offsetOf before.length (e :: es).length = before.length := by
      simp [Row.offsetOf]
    unfold slice
    rw [hoffset, if_neg (by omega)]
    unfold Slots.window
    rw [hall, if_neg (by simp [Slots.ofParts, Slots.ofArray, hsplit]; omega)]
    congr 1
    have hcut : ((before.length : Int) + (e :: es).length).toNat =
        before.length + (e :: es).length := by omega
    have hstart : (before.length : Int).toNat = before.length := by omega
    simp only [hcut, hstart, Slots.ofParts, Slots.ofArray, parts, hsplit]
    simp

theorem get_entry (hall : t.entries = .ofParts all.toArray) (before : List Entry) (e : Entry)
    (after : List Entry) (hsplit : all = before ++ (e :: after)) :
    t.entries.get before.length = .ok (some e) := by
  rw [hall, Slots.ofParts, Slots.get_ofArray]
  unfold elementAt
  rw [if_neg (by omega)]
  simp [hsplit]

end Table

namespace Automaton

variable {m : Automaton} {t : Table} {s : State} {i : Nat}

/-- The number that stands for the target of a transition. -/
def dataOf (m : Automaton) (tr : Transition) : Nat :=
  match m.entryData tr with
  | .ok n => n
  | .error _ => 0

def entryOf (m : Automaton) (x : Int) (tr : Transition) : Entry :=
  ⟨x, tr.action.kind, m.dataOf tr⟩

def entriesOf (m : Automaton) (ts : List (Nat × Transition)) : List Entry :=
  ts.map fun p => m.entryOf p.1 p.2

def rowOf (m : Automaton) (s : State) : Row :=
  ⟨m.entriesOf s.terminals, s.fallback.map (m.entryOf (-1)), m.entriesOf s.nonterminals⟩

/-- The target of a transition is a state, or one complete item, as its action needs it. -/
def Targets (m : Automaton) (tr : Transition) : Prop := m.entryData tr = .ok (m.dataOf tr)

theorem entry_eq_ok {x : Int} {tr : Transition} {e : Entry} (h : m.entry x tr = .ok e) :
    e = m.entryOf x tr ∧ m.Targets tr := by
  obtain ⟨n, hd, he⟩ := bind_eq_ok.mp h
  have hn : m.dataOf tr = n := by simp [dataOf, hd]
  cases he
  exact ⟨by rw [entryOf, hn], by rw [Targets, hd, hn]⟩

theorem entries_eq_ok {ts : List (Nat × Transition)} {es : List Entry}
    (h : ts.mapM (fun (x, tr) => m.entry x tr) = .ok es) :
    es = m.entriesOf ts ∧ ∀ p ∈ ts, m.Targets p.2 := by
  have hall := mapM_eq_ok.mp h
  clear h
  induction hall with
  | nil => exact ⟨rfl, by simp⟩
  | cons he _ ih =>
    obtain ⟨rfl, ht⟩ := entry_eq_ok he
    obtain ⟨rfl, hts⟩ := ih
    refine ⟨rfl, ?_⟩
    intro p hp
    rcases List.mem_cons.mp hp with rfl | hp
    · exact ht
    · exact hts p hp

structure Complete (m : Automaton) (s : State) : Prop where
  terminals : ∀ p ∈ s.terminals, m.Targets p.2
  fallback : ∀ tr, s.fallback = some tr → m.Targets tr
  nonterminals : ∀ p ∈ s.nonterminals, m.Targets p.2

theorem row_eq_ok {r : Row} (h : m.row s = .ok r) : r = m.rowOf s ∧ m.Complete s := by
  obtain ⟨terminals, ht, h⟩ := bind_eq_ok.mp h
  obtain ⟨rfl, hterminals⟩ := entries_eq_ok ht
  dsimp only at h
  split at h
  · next tr hs =>
    obtain ⟨fallback, hf, h⟩ := bind_eq_ok.mp h
    obtain ⟨nonterminals, hn, h⟩ := bind_eq_ok.mp h
    cases h
    obtain ⟨e, he, rfl⟩ := map_eq_ok.mp hf
    obtain ⟨rfl, htarget⟩ := entry_eq_ok he
    obtain ⟨rfl, hnonterminals⟩ := entries_eq_ok hn
    refine ⟨by rw [rowOf, hs]; rfl, hterminals, ?_, hnonterminals⟩
    intro tr' htr'
    cases hs.symm.trans htr'
    exact htarget
  · next hs =>
    obtain ⟨fallback, hf, h⟩ := bind_eq_ok.mp h
    obtain ⟨nonterminals, hn, h⟩ := bind_eq_ok.mp h
    cases hf
    cases h
    obtain ⟨rfl, hnonterminals⟩ := entries_eq_ok hn
    exact ⟨by rw [rowOf, hs]; rfl, hterminals, by simp [hs], hnonterminals⟩

theorem rows_eq_ok {ss : List State} {rows : List Row} (h : ss.mapM m.row = .ok rows) :
    rows = ss.map m.rowOf ∧ ∀ s ∈ ss, m.Complete s := by
  have hall := mapM_eq_ok.mp h
  clear h
  induction hall with
  | nil => exact ⟨rfl, by simp⟩
  | cons hr _ ih =>
    obtain ⟨rfl, hc⟩ := row_eq_ok hr
    obtain ⟨rfl, hcs⟩ := ih
    refine ⟨rfl, ?_⟩
    intro s hs
    rcases List.mem_cons.mp hs with rfl | hs
    · exact hc
    · exact hcs s hs

/-- The table shows the rules, the names and the rows of the automaton. -/
structure Shows (m : Automaton) (t : Table) : Prop where
  complete : ∀ s ∈ m.states, m.Complete s
  entries : t.entries = .ofParts (reservedEntry :: m.states.toList.flatMap
    fun s => (m.rowOf s).entries).toArray
  states : t.states = .ofParts (Row.placeAll 1 (m.states.toList.map m.rowOf)).toArray
  rules : t.rules = .ofParts (m.rules.map fun r => ⟨r.lhs, r.tokens.length, r.text⟩)
  tokens : t.tokens = .ofArray m.symbols.texts
  initial : t.initialState = 0
  start_rule : t.startRule = 0
  end_symbol : t.endSymbol = SymbolTable.endSymbol
  error_symbol : t.errorSymbol = SymbolTable.errorSymbol

theorem shows_of_table (h : m.table = .ok t) : m.Shows t := by
  obtain ⟨rows, hrows, h⟩ := bind_eq_ok.mp h
  obtain ⟨rfl, hcomplete⟩ := rows_eq_ok hrows
  cases h
  exact ⟨fun s hs => hcomplete s (by simpa using hs), by simp [List.flatMap_map], rfl, rfl, rfl,
    rfl, rfl, rfl, rfl⟩

theorem Shows.placed (h : m.Shows t) (hs : m.states[i]? = some s) :
    ∃ before after, before ≠ [] ∧
      (reservedEntry :: m.states.toList.flatMap fun s => (m.rowOf s).entries) =
        before ++ ((m.rowOf s).entries ++ after) ∧
      t.state i = .ok ((m.rowOf s).place before.length) := by
  have hrow : (m.states.toList.map m.rowOf)[i]? = some (m.rowOf s) := by simp [hs]
  obtain ⟨before, after, hsplit, hplace⟩ := Row.getElem_placeAll hrow 1
  refine ⟨reservedEntry :: before, after, by simp, ?_, ?_⟩
  · rw [List.flatMap_map] at hsplit
    rw [hsplit]
    rfl
  · unfold Table.state
    rw [h.states, Slots.ofParts, Slots.get_ofArray]
    unfold elementAt
    rw [if_neg (by omega), Int.toNat_natCast, Array.getElem?_map, List.getElem?_toArray, hplace,
      List.length_cons, Nat.add_comm]
    rfl

theorem Shows.terminal_entries (h : m.Shows t) (hs : m.states[i]? = some s) :
    t.terminalEntries i = .ok (Table.parts (m.entriesOf s.terminals)) := by
  obtain ⟨before, after, hpos, hsplit, hstate⟩ := h.placed hs
  unfold Table.terminalEntries
  rw [hstate]
  refine Table.slice_eq h.entries before (m.rowOf s).terminals
    ((m.rowOf s).fallback.toList ++ (m.rowOf s).nonterminals ++ after) ?_ hpos
  rw [hsplit]
  simp [Row.entries]

theorem Shows.nonterminal_entries (h : m.Shows t) (hs : m.states[i]? = some s) :
    t.nonterminalEntries i = .ok (Table.parts (m.entriesOf s.nonterminals)) := by
  obtain ⟨before, after, hpos, hsplit, hstate⟩ := h.placed hs
  have hcut := Table.slice_eq h.entries
    (before ++ (m.rowOf s).terminals ++ (m.rowOf s).fallback.toList) (m.rowOf s).nonterminals after
    (by rw [hsplit]; simp [Row.entries]) (by simp [hpos])
  rw [List.length_append, List.length_append] at hcut
  unfold Table.nonterminalEntries
  rw [hstate]
  exact hcut

theorem Shows.fallback_entry (h : m.Shows t) (hs : m.states[i]? = some s) :
    t.fallbackOf? i = .ok (s.fallback.map (m.entryOf (-1))) := by
  obtain ⟨before, after, hpos, hsplit, hstate⟩ := h.placed hs
  unfold Table.fallbackOf?
  rw [hstate]
  simp only [bind, Except.bind]
  cases hf : s.fallback with
  | none =>
    have hoffset : ((m.rowOf s).place before.length).fallbackOffset = 0 := by
      simp [Row.place, Row.offsetOf, rowOf, hf]
    simp [hoffset, pure, Except.pure]
  | some tr =>
    have hget := Table.get_entry h.entries (before ++ m.entriesOf s.terminals) (m.entryOf (-1) tr)
      (m.entriesOf s.nonterminals ++ after) (by rw [hsplit]; simp [Row.entries, rowOf, hf])
    have hoffset : ((m.rowOf s).place before.length).fallbackOffset =
        ((before ++ m.entriesOf s.terminals).length : Nat) := by
      simp [Row.place, Row.offsetOf, rowOf, hf]
    have hne : (((before ++ m.entriesOf s.terminals).length : Nat) : Int) ≠ 0 := by
      have := List.length_pos_of_ne_nil hpos
      simp only [List.length_append]
      omega
    simp only [hoffset, hne, if_false, hget, Option.map_some]

theorem Shows.rule_eq (h : m.Shows t) {r : Production} (hr : m.rules[i]? = some r) :
    t.rule i = .ok ⟨r.lhs, r.tokens.length, r.text⟩ := by
  unfold Table.rule
  rw [h.rules, Slots.ofParts, Slots.get_ofArray]
  unfold elementAt
  rw [if_neg (by omega), Int.toNat_natCast, Array.getElem?_map, Array.getElem?_map, hr]
  rfl

theorem Shows.lhs_eq (h : m.Shows t) {r : Production} (hr : m.rules[i]? = some r) :
    t.lhs i = .ok (r.lhs : Int) := by
  unfold Table.lhs
  rw [h.rule_eq hr]
  rfl

theorem Shows.token_count (h : m.Shows t) {r : Production} (hr : m.rules[i]? = some r) :
    t.tokenCount i = .ok (r.tokens.length : Int) := by
  unfold Table.tokenCount
  rw [h.rule_eq hr]
  rfl

theorem Shows.token_name (h : m.Shows t) {x : Nat} {text : String}
    (hx : m.symbols.text? x = some text) : t.tokenName x = .ok text := by
  unfold Table.tokenName
  rw [h.tokens, Slots.get_ofArray]
  unfold elementAt
  have hget : m.symbols.texts[x]? = some text := hx
  rw [if_neg (by omega), Int.toNat_natCast, hget]

theorem Shows.text_of_name (h : m.Shows t) {x : Int} {text : String}
    (hx : t.tokenName x = .ok text) : ∃ n : Nat, x = n ∧ m.symbols.text? n = some text := by
  unfold Table.tokenName at hx
  rw [h.tokens, Slots.get_ofArray] at hx
  unfold elementAt at hx
  split at hx
  · cases hx
  · next hneg =>
    split at hx
    · next text' htext =>
      cases hx
      exact ⟨x.toNat, by omega, htext⟩
    · cases hx

theorem find_entriesOf (ts : List (Nat × Transition)) (x : Nat) :
    (m.entriesOf ts).find? (fun e => e.token = (x : Int)) = (ts.lookup x).map (m.entryOf x) := by
  induction ts with
  | nil => rfl
  | cons p ts ih =>
    obtain ⟨y, tr⟩ := p
    simp only [entriesOf, List.map_cons, List.find?_cons, List.lookup_cons, entryOf] at ih ⊢
    by_cases hxy : x = y
    · simp [hxy, entryOf]
    · have hyx : ¬ (y : Int) = (x : Int) := by omega
      have hne : (x == y) = false := by simpa using hxy
      simp only [hyx, decide_false, hne]
      exact ih

/-- Transitions in ascending order of symbols that fit a word. -/
structure InOrder (ts : List (Nat × Transition)) : Prop where
  ascending : ts.Pairwise fun p q => p.1 < q.1
  symbol_lt : ∀ p ∈ ts, p.1 < Word.limit

theorem InOrder.ordered {ts : List (Nat × Transition)} (h : InOrder ts) :
    Table.Ordered (m.entriesOf ts) where
  ascending := by
    rw [entriesOf, List.pairwise_map]
    exact h.ascending.imp fun hlt => by simpa [entryOf] using hlt
  token_nonneg e he := by
    obtain ⟨p, -, rfl⟩ := List.mem_map.mp he
    simp [entryOf]
  token_lt e he := by
    obtain ⟨p, hp, rfl⟩ := List.mem_map.mp he
    have := h.symbol_lt p hp
    simp only [entryOf]
    omega

theorem InOrder.tabulate {f : Nat → Option Transition} {xs : List Nat}
    (hasc : xs.Pairwise (· < ·)) (hlt : ∀ x ∈ xs, x < Word.limit) :
    InOrder (ParserTables.tabulate f xs) where
  ascending := pairwise_tabulate hasc
  symbol_lt p hp := by
    obtain ⟨x, tr⟩ := p
    exact hlt x (mem_tabulate.mp hp).1

structure Searchable (s : State) : Prop where
  terminals : InOrder s.terminals
  nonterminals : InOrder s.nonterminals

theorem searchable_state {g : NumberedGrammar} (wf : g.WellFormed) (k : ItemSet) :
    Searchable (g.state k) := by
  have hlimit : g.symbolCount < Word.limit :=
    Nat.lt_of_le_of_lt wf.limit (by decide)
  have hterminals := wf.start_nonterminal
  have hstart := wf.start_lt
  constructor
  · rw [NumberedGrammar.terminals_state]
    refine .tabulate List.pairwise_lt_range ?_
    intro x hx
    have := List.mem_range.mp hx
    omega
  · rw [NumberedGrammar.nonterminals_state]
    refine .tabulate ?_ ?_
    · unfold NumberedGrammar.nonterminals
      rw [List.pairwise_map]
      exact List.pairwise_lt_range.imp fun hlt => by omega
    · intro x hx
      have := (NumberedGrammar.mem_nonterminals.mp hx).2
      omega

theorem Shows.find_terminal (h : m.Shows t) (hs : m.states[i]? = some s) (ho : Searchable s)
    (x : Nat) : (do Table.find? (← t.terminalEntries i) x) =
      .ok ((s.onTerminal? x).map (m.entryOf x)) := by
  rw [h.terminal_entries hs]
  simp only [bind, Except.bind]
  rw [ho.terminals.ordered.find_eq, find_entriesOf]
  rfl

theorem Shows.own_entry (h : m.Shows t) (hs : m.states[i]? = some s) (ho : Searchable s)
    (x : Int) : t.ownEntryOn? i x =
      .ok ((if x < 0 then none else s.onTerminal? x.toNat).map (m.entryOf x)) := by
  unfold Table.ownEntryOn?
  by_cases hx : x < 0
  · simp [hx, pure, Except.pure]
  · obtain ⟨n, rfl⟩ : ∃ n : Nat, x = n := ⟨x.toNat, by omega⟩
    rw [if_neg hx, if_neg hx, Int.toNat_natCast]
    exact h.find_terminal hs ho n

theorem Shows.action_eq (h : m.Shows t) (hs : m.states[i]? = some s) (ho : Searchable s)
    (x : Int) : t.action i x = .ok (match s.moveOn? x with
      | some tr => (tr.action.kind, (m.dataOf tr : Int))
      | none => (.nothing, 0)) := by
  unfold Table.action State.moveOn?
  rw [h.own_entry hs ho x, h.fallback_entry hs]
  simp only [bind, Except.bind]
  generalize (if x < 0 then none else s.onTerminal? x.toNat) = own
  cases own with
  | some tr => rfl
  | none =>
    cases s.fallback with
    | some tr => rfl
    | none => rfl

theorem Shows.goto_eq (h : m.Shows t) (hs : m.states[i]? = some s) (ho : Searchable s) (a : Nat) :
    t.goto? i a = .ok (((s.onNonterminal? a).filter (·.action = .push)).map
      fun tr => (m.dataOf tr : Int)) := by
  unfold Table.goto?
  rw [h.nonterminal_entries hs]
  simp only [bind, Except.bind]
  rw [ho.nonterminals.ordered.find_eq, find_entriesOf]
  change Except.ok _ = _
  congr 1
  change ((Option.map (m.entryOf a) (s.onNonterminal? a)).filter _).map _ = _
  cases s.onNonterminal? a with
  | none => rfl
  | some tr =>
    obtain ⟨action, target⟩ := tr
    cases action <;> rfl

theorem Shows.entry_on_error (h : m.Shows t) (hs : m.states[i]? = some s) (ho : Searchable s) :
    t.entryOnError? i = .ok ((s.onTerminal? SymbolTable.errorSymbol).map
      (m.entryOf SymbolTable.errorSymbol)) := by
  unfold Table.entryOnError?
  rw [h.error_symbol]
  exact h.find_terminal hs ho _

theorem Shows.traps_error (h : m.Shows t) (hs : m.states[i]? = some s) (ho : Searchable s) :
    t.trapsError i = .ok ((s.onTerminal? SymbolTable.errorSymbol).any (·.action = .shift)) := by
  unfold Table.trapsError
  rw [h.entry_on_error hs ho]
  cases s.onTerminal? SymbolTable.errorSymbol with
  | none => rfl
  | some tr =>
    obtain ⟨action, target⟩ := tr
    cases action <;> rfl

theorem Shows.throws_away (h : m.Shows t) (hs : m.states[i]? = some s) (ho : Searchable s) :
    t.throwsAway i =
      .ok ((s.onTerminal? SymbolTable.errorSymbol).any (·.action = .throwAway)) := by
  unfold Table.throwsAway
  rw [h.entry_on_error hs ho]
  cases s.onTerminal? SymbolTable.errorSymbol with
  | none => rfl
  | some tr =>
    obtain ⟨action, target⟩ := tr
    cases action <;> rfl

theorem Shows.expected_eq (h : m.Shows t) (hs : m.states[i]? = some s) :
    t.expected i = .ok (s.terminals.map fun p => (p.1 : Int)) := by
  unfold Table.expected
  rw [h.terminal_entries hs]
  simp only [bind, Except.bind]
  rw [mapM_eq_ok]
  simp only [Table.parts, List.toList_toArray, entriesOf, List.map_map,
    List.forall₂_map_left_iff, List.forall₂_map_right_iff, List.forall₂_same]
  intro p _
  rfl

end Automaton

end ParserTables

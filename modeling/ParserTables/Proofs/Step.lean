import ParserTables.Parser.Step
import ParserTables.Proofs.Generation

/-!
One step of the parser on the table of a generated automaton. The stack is a path through the
kernels; a step moves it over a symbol, replaces the symbols of a complete rule by its left-hand
side, or goes back to a kernel that shifts the error symbol. The table is never asked for
something that it does not have, and only the stream can fail.
-/

namespace ParserTables

theorem Stream.next_cases (s : Stream) :
    (∃ token rest, s.next = .ok (token, rest)) ∨
    (∃ message, s.next = .error (.failed message) ∧ .error (.failed message) ∈ s.upcoming) ∨
    ∃ b, s.next = .error (.breach b) ∧ .error (.breach b) ∈ s.upcoming := by
  obtain ⟨upcoming, last⟩ := s
  cases upcoming with
  | nil => exact Or.inl ⟨_, _, rfl⟩
  | cons read rest =>
    cases read with
    | ok token => exact Or.inl ⟨_, _, rfl⟩
    | error fault =>
      cases fault with
      | failed message => exact Or.inr (Or.inl ⟨message, rfl, List.mem_cons_self⟩)
      | breach b => exact Or.inr (Or.inr ⟨b, rfl, List.mem_cons_self⟩)

namespace Automaton

variable {g : Grammar} {m : Automaton} {t : Table} {c c' : Config} {k : ItemSet}
  {ks : List ItemSet} {xs : List Nat} {states : List Int}

def Stands (m : Automaton) (ks : List ItemSet) (states : List Int) : Prop :=
  List.Forall₂ (fun k (i : Int) => ∃ n : Nat, i = n ∧ m.At k n) ks states

theorem Stands.top (h : m.Stands (k :: ks) c.stack.states) :
    ∃ n : Nat, c.top = .ok (n : Int) ∧ m.At k n := by
  obtain ⟨i, rest, ⟨n, rfl, hn⟩, -, hstates⟩ := List.forall₂_cons_left_iff.mp h
  refine ⟨n, ?_, hn⟩
  unfold Config.top StateStack.top
  rw [hstates]

theorem Stands.push (h : m.Stands ks c.stack.states) {n : Nat} (hn : m.At k n) :
    m.Stands (k :: ks) (c.push n).stack.states := by
  unfold Config.push
  dsimp only
  rw [StateStack.states_push]
  exact .cons ⟨n, rfl, hn⟩ h

theorem Stands.drop (h : m.Stands ks c.stack.states) (p : Nat) :
    m.Stands (ks.drop p) (c.stack.drop p).states :=
  List.forall₂_drop p h

theorem Stands.pop (h : m.Stands ks c.stack.states) {p : Nat} (hp : p ≤ ks.length) :
    c.pop p = .ok { c with stack := c.stack.drop p } := by
  have hlen : p ≤ c.stack.states.length := h.length_eq ▸ hp
  unfold Config.pop
  rw [StateStack.pop_ofNat _ _ hlen]
  rfl

/-- The symbols that the stack of a configuration has been reached over, the last first. Once
there is no token ahead, the end of input was the last. -/
structure Follows (m : Automaton) (c : Config) (xs : List Nat) : Prop where
  stack : ∃ ks, m.grammar.Path ks xs ∧ m.Stands ks c.stack.states
  ended : c.ahead = none → xs.head? = some SymbolTable.endSymbol

/-- The token ahead of `c` is done with, and the next one is ahead of `c'`. -/
def Passes (c : Config) (token : Token) (c' : Config) : Prop :=
  c.ahead = some token ∧ token.isEnd = false ∧
    ∃ token', c'.ahead = some token' ∧ c.stream.next = .ok (token', c'.stream)

/-- What a step that the run goes on after does: the event, the tokens that are done with, the new
configuration and its symbols. -/
inductive Effect (m : Automaton) (t : Table) (c : Config) (xs : List Nat) :
    Option Event → List Token → Config → List Nat → Prop
  | shift {token : Token} {x : Nat} {flag : Bool} {c' : Config} : Passes c token c' →
      t.terminalOf (some token) = x → x < m.grammar.terminalCount →
      c'.errors = c.errors → (c'.recovering = true → c.recovering = true) →
      Effect m t c xs (some (.shift token flag)) [token] c' (x :: xs)
  | shift_end {token : Token} {flag : Bool} {c' : Config} : c.ahead = some token →
      token.isEnd = true → c'.ahead = none → c'.stream = c.stream → c'.errors = c.errors →
      (c'.recovering = true → c.recovering = true) →
      Effect m t c xs (some (.shift token flag)) [token] c' (SymbolTable.endSymbol :: xs)
  | reduce {i : Nat} {r : Production} {ys : List Nat} {flag : Bool} {c' : Config} : i ≠ 0 →
      m.grammar.rules[i]? = some r → xs = r.symbols.reverse ++ ys → c'.ahead = c.ahead →
      c'.stream = c.stream → c'.errors = c.errors → c'.recovering = c.recovering →
      Effect m t c xs (some (.reduce i flag)) [] c' (r.lhs :: ys)
  | discard {token : Token} {c' : Config} : Passes c token c' →
      (c.recovering = true ∨ xs.head? = some SymbolTable.errorSymbol) →
      c'.errors = c.errors → c'.recovering = c.recovering →
      Effect m t c xs none [token] c' xs
  | trap {token : Token} {popped : Nat} {e : SyntaxError} {c' : Config} :
      c.ahead = some token → popped ≤ xs.length → c'.ahead = c.ahead → c'.stream = c.stream →
      c'.errors = c.errors ++ [e] → c.recovering = false → c'.recovering = true →
      Effect m t c xs (some (.trap token popped)) [] c'
        (SymbolTable.errorSymbol :: xs.drop popped)

def Unfinished (m : Automaton) (t : Table) (xs : List Nat) (event : Event) : Prop :=
  ∃ (token : Token) (x : Nat) (flag : Bool) (ks : List ItemSet),
    t.terminalOf (some token) = x ∧ x < m.grammar.terminalCount ∧
    m.grammar.Path ks (x :: xs) ∧ event = .shift token flag

/-- How a run can end: the last event, the last configuration and the ending. -/
inductive Halt (m : Automaton) (t : Table) (c : Config) (xs : List Nat) :
    Option Event → Config → Ending → Prop
  | accept {r : Production} {u : Nat} {c' : Config} : m.grammar.rules[0]? = some r →
      r.symbols = [u, SymbolTable.endSymbol] → xs = [SymbolTable.endSymbol, u] →
      c'.errors = c.errors → Halt m t c xs (some .accept) c' .accepted
  | finish {token : Token} {c' : Config} : c.ahead = some token → token.isEnd = true →
      (c.recovering = true ∨ xs.head? = some SymbolTable.errorSymbol) → c'.errors = c.errors →
      Halt m t c xs none c' .abandoned
  | miss {token : Token} {e : SyntaxError} {c' : Config} : c'.errors = c.errors ++ [e] →
      Halt m t c xs (some (.miss token)) c' .abandoned
  | unread {message : String} {c' : Config} {event : Option Event} :
      .error (.failed message) ∈ c.stream.upcoming → c'.errors = c.errors →
      (∀ e, event = some e → Unfinished m t xs e) →
      Halt m t c xs event c' (.failed (.stream message))

/-- The outcome of a step that keeps to the automaton. -/
inductive Kept (m : Automaton) (t : Table) (c : Config) (xs : List Nat) :
    Except Breach Outcome → Prop
  | next {event : Option Event} {used : List Token} {c' : Config} {ys : List Nat} :
      Effect m t c xs event used c' ys → m.Follows c' ys → Kept m t c xs (.ok (.next c' event))
  | stop {event : Option Event} {c' : Config} {ending : Ending} :
      Halt m t c xs event c' ending → Kept m t c xs (.ok (.stop c' event ending))
  | unread {b : Breach} : .error (.breach b) ∈ c.stream.upcoming → Kept m t c xs (.error b)

theorem advance_kept {event : Option Event} {c₁ : Config} (used : List Token)
    (ys : List Nat) (hstream : c₁.stream = c.stream) (herrors : c₁.errors = c.errors)
    (hevent : ∀ e, event = some e → Unfinished m t xs e)
    (hnext : ∀ token' rest, c.stream.next = .ok (token', rest) →
      Effect m t c xs event used { c₁ with ahead := some token', stream := rest } ys ∧
        m.Follows { c₁ with ahead := some token', stream := rest } ys) :
    Kept m t c xs (c₁.advance event) := by
  unfold Config.advance
  rw [hstream]
  rcases c.stream.next_cases with ⟨token', rest, h⟩ | ⟨message, h, hmem⟩ | ⟨b, h, hmem⟩
  · rw [h]
    exact .next (hnext token' rest h).1 (hnext token' rest h).2
  · rw [h]
    exact .stop (.unread hmem herrors hevent)
  · rw [h]
    exact .unread hmem

theorem countShift_keeps (c : Config) : (Table.countShift c).stack = c.stack ∧
    (Table.countShift c).ahead = c.ahead ∧ (Table.countShift c).stream = c.stream ∧
    (Table.countShift c).errors = c.errors ∧
    ((Table.countShift c).recovering = true → c.recovering = true) := by
  unfold Table.countShift
  by_cases hr : c.recovering = true
  · by_cases hs : c.shifts < Table.recoveryShifts
    · simp [hr, hs]
    · simp [hr, hs]
  · simp [hr]

theorem Generated.step_move (h : Generated g m t) {n : Nat} (hn : m.At k n)
    (htop : c.top = .ok (n : Int)) {tr : Transition}
    (hm : (m.grammar.state k).moveOn? (t.terminalOf c.ahead) = some tr) :
    t.step c = match tr.action with
      | .shift => Table.shiftStep c (m.dataOf tr)
      | .reduce => t.reduceStep c (m.dataOf tr)
      | .accept => t.acceptStep c (m.dataOf tr)
      | .push => t.errorStep c n
      | .throwAway => t.errorStep c n := by
  unfold Table.step
  rw [htop]
  simp only [bind, Except.bind]
  rw [h.shows.action_eq hn (h.searchable k), hm]
  obtain ⟨action, target⟩ := tr
  cases action <;> rfl

theorem Generated.step_none (h : Generated g m t) {n : Nat} (hn : m.At k n)
    (htop : c.top = .ok (n : Int))
    (hm : (m.grammar.state k).moveOn? (t.terminalOf c.ahead) = none) :
    t.step c = t.errorStep c n := by
  unfold Table.step
  rw [htop]
  simp only [bind, Except.bind]
  rw [h.shows.action_eq hn (h.searchable k), hm]

theorem Generated.step_shift (h : Generated g m t) (hs : m.Stands (k :: ks) c.stack.states)
    {x : Nat} (hx : t.terminalOf c.ahead = x)
    (hm : (m.grammar.state k).moveOn? x =
      some ⟨.shift, m.grammar.goto (m.grammar.closure k.items) x⟩) :
    ∃ j : Nat, t.step c = Table.shiftStep c j ∧
      m.Stands (m.grammar.goto (m.grammar.closure k.items) x :: k :: ks)
        ((Table.countShift c).push j).stack.states := by
  obtain ⟨n, htop, hn⟩ := hs.top
  have hat := h.at_target (h.targets_of_move hn hm) (Or.inl rfl)
  have hstep := h.step_move hn htop (hx ▸ hm)
  dsimp only at hstep hat
  refine ⟨_, hstep, Stands.push ?_ hat⟩
  rw [(countShift_keeps c).1]
  exact hs

theorem Generated.shift_kept (h : Generated g m t) (hp : m.grammar.Path (k :: ks) xs)
    (hs : m.Stands (k :: ks) c.stack.states) {x : Nat} (hlt : x < m.grammar.terminalCount)
    (hx : t.terminalOf c.ahead = x)
    (hne : (m.grammar.goto (m.grammar.closure k.items) x).isEmpty = false)
    (hm : (m.grammar.state k).moveOn? x =
      some ⟨.shift, m.grammar.goto (m.grammar.closure k.items) x⟩) :
    Kept m t c xs (t.step c) := by
  obtain ⟨j, hstep, hstands⟩ := h.step_shift hs hx hm
  rw [hstep]
  unfold Table.shiftStep
  cases ha : c.ahead with
  | none =>
    rw [ha] at hx
    simp only [Table.terminalOf] at hx
    omega
  | some token =>
    obtain ⟨-, -, hstream, herrors, hrec⟩ := countShift_keeps c
    have hpath := hp.step hne
    by_cases hend : token.isEnd = true
    · simp only [hend, if_true]
      have hxe : x = SymbolTable.endSymbol := by
        rw [ha] at hx
        simp only [Table.terminalOf, hend, if_true, h.shows.end_symbol] at hx
        omega
      subst hxe
      have heffect : Effect m t c xs (some (.shift token (Table.countShift c).recovering)) [token]
          { (Table.countShift c).push j with ahead := none } (SymbolTable.endSymbol :: xs) := by
        apply Effect.shift_end ha hend
        · rfl
        · exact hstream
        · exact herrors
        · exact hrec
      exact .next heffect ⟨⟨_, hpath, hstands⟩, fun _ => rfl⟩
    · have hend' : token.isEnd = false := by simpa using hend
      simp only [hend', Bool.false_eq_true, if_false]
      rw [ha] at hx
      refine advance_kept [token] (x :: xs) hstream herrors ?_ ?_
      · intro e he
        cases he
        exact ⟨token, x, _, _, hx, hlt, hpath, rfl⟩
      · intro token' rest hnext
        have heffect : Effect m t c xs (some (.shift token (Table.countShift c).recovering))
            [token] { (Table.countShift c).push j with ahead := some token', stream := rest }
            (x :: xs) := by
          apply Effect.shift
          · exact ⟨ha, hend', token', rfl, hnext⟩
          · exact hx
          · exact hlt
          · exact herrors
          · exact hrec
        exact ⟨heffect, ⟨_, hpath, hstands⟩, fun hnone => by cases hnone⟩

theorem Generated.pop_rule (h : Generated g m t) (hp : m.grammar.Path (k :: ks) xs)
    (hs : m.Stands (k :: ks) c.stack.states) {i : Nat} {r : Production} {ys : List Nat}
    (hr : m.grammar.rules[i]? = some r) (hxs : xs = r.symbols.reverse ++ ys) :
    (do c.pop (← t.tokenCount i)) = .ok { c with stack := c.stack.drop r.symbols.length } := by
  have hcount : r.symbols.length ≤ (k :: ks).length := by
    have := hp.length_eq
    rw [hxs, List.length_append, List.length_reverse] at this
    omega
  rw [h.shows.token_count hr, h.well_formed.length_tokens hr]
  exact hs.pop hcount

theorem Generated.step_accept (h : Generated g m t) (hp : m.grammar.Path (k :: ks) xs)
    (hs : m.Stands (k :: ks) c.stack.states) {p : Nat} (ha : ⟨0, p⟩ ∈ m.grammar.closure k.items)
    (hf : m.grammar.isFinal ⟨0, p⟩ = true)
    (hm : (m.grammar.state k).moveOn? (t.terminalOf c.ahead) = some (m.grammar.reduction ⟨0, p⟩)) :
    ∃ c', t.step c = .ok (.stop c' (some .accept) .accepted) ∧
      Halt m t c xs (some .accept) c' .accepted := by
  have wf := h.well_formed
  obtain ⟨n, htop, hn⟩ := hs.top
  obtain ⟨r, ys, k', ks', hr, -, hxs, hdrop, hpath, hbegin⟩ := hp.complete wf ha hf
  obtain ⟨r₀, u, hr₀, hl, hsym, -⟩ := wf.start_rule
  cases hr₀.symm.trans hr
  obtain ⟨-, -, rfl⟩ := hpath.initial wf hbegin
  have haction : (m.grammar.reduction ⟨0, p⟩).action = .accept := by
    simp [NumberedGrammar.reduction, NumberedGrammar.lhs?, hr₀, hl]
  obtain ⟨count, hcount, hpop⟩ := bind_eq_ok.mp (h.pop_rule hp hs hr hxs)
  refine ⟨{ c with stack := c.stack.drop r.symbols.length }, ?_,
    .accept hr₀ hsym (by simpa [hsym] using hxs) rfl⟩
  rw [h.step_move hn htop hm, haction, dataOf_reduction]
  dsimp only at hcount ⊢
  unfold Table.acceptStep
  rw [hcount]
  simp only [bind, Except.bind]
  rw [hpop]
  rfl

theorem Generated.step_reduce (h : Generated g m t) (hp : m.grammar.Path (k :: ks) xs)
    (hs : m.Stands (k :: ks) c.stack.states) {a : Item} (ha : a ∈ m.grammar.closure k.items)
    (hf : m.grammar.isFinal a = true) (hi : a.rule ≠ 0)
    (hm : (m.grammar.state k).moveOn? (t.terminalOf c.ahead) = some (m.grammar.reduction a)) :
    ∃ (r : Production) (ys : List Nat) (ks' : List ItemSet) (c' : Config),
      m.grammar.rules[a.rule]? = some r ∧ xs = r.symbols.reverse ++ ys ∧
      m.grammar.Path ks' (r.lhs :: ys) ∧ m.Stands ks' c'.stack.states ∧
      c' = { c with stack := c'.stack } ∧
      t.step c = .ok (.next c' (some (.reduce a.rule c.recovering))) := by
  have wf := h.well_formed
  obtain ⟨n, htop, hn⟩ := hs.top
  obtain ⟨r, ys, k', ks', hr, -, hxs, hdrop, hpath, hbegin⟩ := hp.complete wf ha hf
  have hne := hpath.push wf hbegin hi hr
  have haction : (m.grammar.reduction a).action = .reduce := by
    have hstart : r.lhs ≠ m.grammar.startSymbol := fun heq => hi (wf.start_only _ r hr heq)
    simp [NumberedGrammar.reduction, NumberedGrammar.lhs?, hr, hstart]
  have hs' : m.Stands (k' :: ks') (c.stack.drop r.symbols.length).states :=
    hdrop ▸ hs.drop r.symbols.length
  obtain ⟨n', htop', hn'⟩ := Stands.top (c := { c with stack := c.stack.drop r.symbols.length }) hs'
  have hpush : (m.grammar.state k').onNonterminal? r.lhs =
      some ⟨.push, m.grammar.goto (m.grammar.closure k'.items) r.lhs⟩ := by
    have hmem : r.lhs ∈ m.grammar.nonterminals :=
      NumberedGrammar.mem_nonterminals.mpr ⟨wf.lhs_nonterminal _ r hr, wf.lhs_lt _ r hr⟩
    rw [NumberedGrammar.onNonterminal_state, if_pos hmem]
    simp [NumberedGrammar.pushOn?, hne]
  have hat := h.at_target (h.targets_of_push hn' hpush) (Or.inr rfl)
  have hgoto := h.shows.goto_eq hn' (h.searchable k') r.lhs
  rw [hpush] at hgoto
  obtain ⟨count, hcount, hpop⟩ := bind_eq_ok.mp (h.pop_rule hp hs hr hxs)
  refine ⟨r, ys, _, { c with stack := c.stack.drop r.symbols.length }.push _, hr, hxs,
    hpath.step hne, Stands.push hs' hat, rfl, ?_⟩
  rw [h.step_move hn htop hm, haction, dataOf_reduction]
  dsimp only
  unfold Table.reduceStep
  rw [hcount, h.shows.lhs_eq hr]
  simp only [bind, Except.bind]
  rw [hpop]
  dsimp only
  rw [htop']
  dsimp only
  rw [hgoto]
  rfl

theorem Generated.reduce_kept (h : Generated g m t) (hp : m.grammar.Path (k :: ks) xs)
    (hs : m.Stands (k :: ks) c.stack.states) {a : Item} (ha : a ∈ m.grammar.closure k.items)
    (hf : m.grammar.isFinal a = true) (hi : a.rule ≠ 0)
    (hended : c.ahead = none → xs.head? = some SymbolTable.endSymbol)
    (hm : (m.grammar.state k).moveOn? (t.terminalOf c.ahead) = some (m.grammar.reduction a)) :
    Kept m t c xs (t.step c) := by
  obtain ⟨r, ys, ks', c', hr, hxs, hpath, hstands, hc', hstep⟩ := h.step_reduce hp hs ha hf hi hm
  have hahead : c'.ahead = c.ahead := by rw [hc']
  have hstream : c'.stream = c.stream := by rw [hc']
  have herrors : c'.errors = c.errors := by rw [hc']
  have hrec : c'.recovering = c.recovering := by rw [hc']
  rw [hstep]
  refine .next (.reduce hi hr hxs hahead hstream herrors hrec) ⟨⟨ks', hpath, hstands⟩, ?_⟩
  intro hnone
  have hitem := hp.ended_item h.well_formed (hended (hahead ▸ hnone)) ha
  exact absurd (congrArg Item.rule hitem) hi

theorem Generated.trap_depth (h : Generated g m t) (hs : m.Stands ks states) (hne : ks ≠ []) :
    t.trapDepth? states = .ok none ∨ ∃ popped k' ks', t.trapDepth? states = .ok (some popped) ∧
      ks.drop popped = k' :: ks' ∧ ((m.grammar.state k').onTerminal? SymbolTable.errorSymbol).any
        (·.action = .shift) = true := by
  induction hs with
  | nil => exact absurd rfl hne
  | @cons k i ks states hi hrest ih =>
    obtain ⟨n, rfl, hn⟩ := hi
    have htraps := h.shows.traps_error hn (h.searchable k)
    cases hany : ((m.grammar.state k).onTerminal? SymbolTable.errorSymbol).any
        (·.action = .shift) with
    | true =>
      refine Or.inr ⟨0, k, ks, ?_, rfl, hany⟩
      rw [hany] at htraps
      cases hrest with
      | nil =>
        simp only [Table.trapDepth?, htraps]
        rfl
      | cons _ _ =>
        simp only [Table.trapDepth?, htraps]
        rfl
    | false =>
      rw [hany] at htraps
      cases hrest with
      | nil =>
        left
        simp only [Table.trapDepth?, htraps]
        rfl
      | @cons k₁ i₁ ks₁ states₁ hi₁ hrest₁ =>
        rcases ih (by simp) with hnone | ⟨popped, k', ks', hsome, hdrop, hshift⟩
        · left
          simp only [Table.trapDepth?, htraps, bind, Except.bind, hnone]
          rfl
        · refine Or.inr ⟨popped + 1, k', ks', ?_, hdrop, hshift⟩
          simp only [Table.trapDepth?, htraps, bind, Except.bind, hsome]
          rfl

theorem Generated.expected_names (h : Generated g m t) {n : Nat} (hn : m.At k n) :
    ∃ names, t.expectedNames n = .ok names := by
  unfold Table.expectedNames
  rw [h.shows.expected_eq hn]
  simp only [bind, Except.bind]
  apply exists_mapM
  intro x hx
  obtain ⟨p, hp, rfl⟩ := List.mem_map.mp (List.mem_of_mem_filter hx)
  by_cases hend : (p.1 : Int) = t.endSymbol
  · exact ⟨"<eof>", by rw [if_pos hend]; rfl⟩
  · rw [NumberedGrammar.terminals_state] at hp
    have hlt := List.mem_range.mp (mem_tabulate.mp hp).1
    obtain ⟨name, -, hname⟩ := h.token_name_of_lt (Nat.lt_of_lt_of_le hlt h.terminals_le)
    exact ⟨name, by rw [if_neg hend]; exact hname⟩

theorem Generated.trap_kept (h : Generated g m t) (hp : m.grammar.Path ks xs)
    (hs : m.Stands ks c.stack.states) {token : Token} (ha : c.ahead = some token)
    (hr : c.recovering = false) : Kept m t c xs (t.trapStep c token) := by
  obtain ⟨k, ks₀, rfl⟩ := hp.exists_cons
  obtain ⟨n, htop, hn⟩ := hs.top
  obtain ⟨names, hnames⟩ := h.expected_names hn
  unfold Table.trapStep
  rw [htop]
  simp only [bind, Except.bind]
  rw [hnames]
  dsimp only
  rcases h.trap_depth hs (by simp) with hnone | ⟨popped, k', ks', hsome, hdrop, hshift⟩
  · rw [hnone]
    exact .stop (.miss rfl)
  · rw [hsome]
    have hlen : popped ≤ xs.length := by
      have hcons := congrArg List.length hdrop
      have := hp.length_eq
      simp only [List.length_drop, List.length_cons] at hcons this
      omega
    have hpath := hp.drop hlen
    rw [hdrop] at hpath
    have hs' : m.Stands (k' :: ks') (c.stack.drop popped).states := hdrop ▸ hs.drop popped
    obtain ⟨hmove, hne⟩ := NumberedGrammar.move_of_shifts hshift
    obtain ⟨n', htop', hn'⟩ := Stands.top (c := ⟨c.stack.drop popped, c.ahead, c.stream, true, 0,
      c.errors ++ [⟨token, names⟩]⟩) hs'
    have hat := h.at_target (h.targets_of_move hn' hmove) (Or.inl rfl)
    dsimp only
    rw [htop']
    dsimp only
    rw [h.shows.error_symbol, h.shows.action_eq hn' (h.searchable k'), hmove]
    refine .next (.trap ha hlen rfl rfl rfl hr rfl) ⟨⟨_, hpath.step hne, hs'.push hat⟩, ?_⟩
    intro hnone
    cases ha.symm.trans hnone

theorem error_step_eq {n : Int} {token : Token} {throws : Bool} (ha : c.ahead = some token)
    (ht : t.throwsAway n = .ok throws) : t.errorStep c n =
      if (c.recovering || throws) = true then
        if token.isEnd = true then .ok (.stop c none .abandoned) else c.advance none
      else t.trapStep c token := by
  unfold Table.errorStep
  rw [ha, ht]
  cases c.recovering
  · cases throws <;> rfl
  · rfl

theorem Generated.error_kept (h : Generated g m t) (hc : m.Follows c xs)
    (hp : m.grammar.Path (k :: ks) xs) (hs : m.Stands (k :: ks) c.stack.states) {n : Nat}
    (hn : m.At k n) (hahead : c.ahead ≠ none) : Kept m t c xs (t.errorStep c n) := by
  cases ha : c.ahead with
  | none => exact absurd ha hahead
  | some token =>
    have hthrows := h.shows.throws_away hn (h.searchable k)
    have hhead : ((m.grammar.state k).onTerminal? SymbolTable.errorSymbol).any
        (·.action = .throwAway) = true → xs.head? = some SymbolTable.errorSymbol := by
      intro hany
      obtain ⟨tr, hown, haction⟩ := (Option.any_eq_true _ _).mp hany
      exact hp.after_error
        (NumberedGrammar.throws_of_throwAway hown (of_decide_eq_true haction)).2
    generalize ((m.grammar.state k).onTerminal? SymbolTable.errorSymbol).any
      (·.action = .throwAway) = throws at hthrows hhead
    rw [error_step_eq ha hthrows]
    by_cases hd : (c.recovering || throws) = true
    · have hwhy : c.recovering = true ∨ xs.head? = some SymbolTable.errorSymbol := by
        rcases Bool.or_eq_true_iff.mp hd with hr | ht
        · exact Or.inl hr
        · exact Or.inr (hhead ht)
      rw [if_pos hd]
      by_cases hend : token.isEnd = true
      · rw [if_pos hend]
        exact .stop (.finish ha hend hwhy rfl)
      · have hend' : token.isEnd = false := by simpa using hend
        rw [if_neg hend]
        refine advance_kept [token] xs rfl rfl (by simp) ?_
        intro token' rest hnext
        refine ⟨.discard ⟨ha, hend', token', rfl, hnext⟩ hwhy rfl rfl, hc.stack, ?_⟩
        intro hnone
        cases hnone
    · rw [if_neg hd]
      refine h.trap_kept hp hs ha ?_
      simpa using fun hr => hd (Bool.or_eq_true_iff.mpr (Or.inl hr))

/-- Every step keeps to the automaton. -/
theorem Generated.step_kept (h : Generated g m t) (hc : m.Follows c xs) :
    Kept m t c xs (t.step c) := by
  have wf := h.well_formed
  obtain ⟨ks₀, hp, hs⟩ := hc.stack
  obtain ⟨k, ks, rfl⟩ := hp.exists_cons
  obtain ⟨n, htop, hn⟩ := hs.top
  have hended : c.ahead = none → (m.grammar.state k).moveOn? (t.terminalOf c.ahead) =
      some (m.grammar.reduction ⟨0, 2⟩) :=
    fun hnone => hp.move_ended wf (hc.ended hnone) _
  cases hm : (m.grammar.state k).moveOn? (t.terminalOf c.ahead) with
  | none =>
    rw [h.step_none hn htop hm]
    refine h.error_kept hc hp hs hn ?_
    intro hnone
    cases hm.symm.trans (hended hnone)
  | some tr =>
    rcases NumberedGrammar.move_cases hm with ⟨x, hx, hlt, rfl, hne⟩ | rfl | ⟨a, ha, hf, rfl⟩
    · exact h.shift_kept hp hs hlt hx hne (hx ▸ hm)
    · rw [h.step_move hn htop hm]
      refine h.error_kept hc hp hs hn ?_
      intro hnone
      have haction := congrArg Transition.action (Option.some.inj (hm.symm.trans (hended hnone)))
      rcases NumberedGrammar.reduction_action ⟨0, 2⟩ with hreduce | hreduce
      · cases haction.trans hreduce
      · cases haction.trans hreduce
    · by_cases hi : a.rule = 0
      · obtain ⟨i, p⟩ := a
        dsimp only at hi
        subst hi
        obtain ⟨c', hstep, hhalt⟩ := h.step_accept hp hs ha hf hm
        rw [hstep]
        exact .stop hhalt
      · exact h.reduce_kept hp hs ha hf hi hc.ended hm

end Automaton

end ParserTables

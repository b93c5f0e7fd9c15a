import Mathlib.Logic.Relation
import ParserTables.Parser.Run
import ParserTables.Proofs.Step

/-!
Runs of the parser as executions: the configurations that a run comes to, the tokens that it has
done with on the way, and how it ends. A property that every effect keeps holds in all of them. As
long as there are no errors, a run does what the states of the kernels on its stack say.
-/

namespace ParserTables

namespace Stream

variable {s s' rest : Stream} {token : Token} {ts : List Token}

/-- The next tokens of a stream, none of them the end of input, and the stream behind them. -/
inductive Reads : Stream → List Token → Stream → Prop
  | nil (s : Stream) : Reads s [] s
  | cons {s s' rest : Stream} {token : Token} {ts : List Token} : s.next = .ok (token, s') →
      token.isEnd = false → Reads s' ts rest → Reads s (token :: ts) rest

def Yields (s : Stream) (token : Token) : Prop := .ok token ∈ s.upcoming ∨ token = s.last

theorem Reads.snoc (h : Reads s ts rest) (hn : rest.next = .ok (token, s'))
    (he : token.isEnd = false) : Reads s (ts ++ [token]) s' := by
  induction h with
  | nil => exact .cons hn he (.nil s')
  | cons hfirst hne _ ih => exact .cons hfirst hne (ih hn)

theorem Reads.split {us vs : List Token} (h : Reads s (us ++ token :: vs) rest) :
    ∃ s₁ s₂, Reads s us s₁ ∧ s₁.next = .ok (token, s₂) ∧ token.isEnd = false ∧
      Reads s₂ vs rest := by
  induction us generalizing s with
  | nil =>
    cases h with
    | cons hn hne hrest => exact ⟨s, _, .nil s, hn, hne, hrest⟩
  | cons u us ih =>
    cases h with
    | cons hn hne hrest =>
      obtain ⟨s₁, s₂, hus, hnext⟩ := ih hrest
      exact ⟨s₁, s₂, .cons hn hne hus, hnext⟩

theorem Reads.exists_next (h : Reads s ts rest) (hn : rest.next = .ok (token, s')) :
    ∃ token' s'', s.next = .ok (token', s'') := by
  cases h with
  | nil => exact ⟨token, s', hn⟩
  | cons hfirst _ _ => exact ⟨_, _, hfirst⟩

theorem reads_ofTerminals (xs : List Int) : (ofTerminals xs).Reads
    (xs.map fun x => ⟨.ordinary, x, [], 1, 1⟩) (ofTerminals []) := by
  induction xs with
  | nil => exact .nil _
  | cons x xs ih => exact .cons rfl rfl ih

theorem named_ofTerminals {t : Table} {xs : List Int} {names : List String}
    (h : xs.map t.tokenName = names.map .ok) :
    List.Forall₂ (fun token x => t.tokenName (t.terminalOf (some token)) = .ok x)
      (xs.map fun x => ⟨.ordinary, x, [], 1, 1⟩) names := by
  rw [List.forall₂_map_left_iff]
  rw [← List.forall₂_eq_eq_eq, List.forall₂_map_left_iff, List.forall₂_map_right_iff] at h
  exact h

theorem Reads.not_end (h : Reads s ts rest) : ∀ token ∈ ts, token.isEnd = false := by
  induction h with
  | nil => simp
  | cons _ hne _ ih =>
    intro token ht
    rcases List.mem_cons.mp ht with rfl | ht
    · exact hne
    · exact ih token ht

theorem next_keeps (h : s.next = .ok (token, s')) :
    s'.upcoming <:+ s.upcoming ∧ s'.last = s.last ∧ s.Yields token := by
  obtain ⟨upcoming, last⟩ := s
  cases upcoming with
  | nil =>
    cases h
    exact ⟨List.suffix_rfl, rfl, Or.inr rfl⟩
  | cons read rest =>
    cases read with
    | error fault => cases h
    | ok token =>
      cases h
      exact ⟨List.suffix_cons _ _, rfl, Or.inl List.mem_cons_self⟩

theorem Yields.of_suffix (h : s'.Yields token) (hs : s'.upcoming <:+ s.upcoming)
    (hl : s'.last = s.last) : s.Yields token := by
  rcases h with h | h
  · exact Or.inl (hs.subset h)
  · exact Or.inr (h.trans hl)

theorem Reads.keeps (h : Reads s ts rest) :
    rest.upcoming <:+ s.upcoming ∧ rest.last = s.last ∧ ∀ token ∈ ts, s.Yields token := by
  induction h with
  | nil => exact ⟨List.suffix_rfl, rfl, by simp⟩
  | @cons s s' rest token ts hn _ _ ih =>
    obtain ⟨hs, hl, hy⟩ := next_keeps hn
    obtain ⟨ihs, ihl, ihy⟩ := ih
    refine ⟨ihs.trans hs, ihl.trans hl, ?_⟩
    intro token' ht
    rcases List.mem_cons.mp ht with rfl | ht
    · exact hy
    · exact (ihy token' ht).of_suffix hs hl

end Stream

/-- The tokens that a run on `s` has done with when it comes to `c`. They end with the end of
input once that is shifted, and the token ahead comes right after them. -/
def Config.Progress (c : Config) (s : Stream) (done : List Token) : Prop :=
  ∃ read rest token, s.Reads read rest ∧ rest.next = .ok (token, c.stream) ∧
    (c.ahead = some token ∧ done = read ∨
      c.ahead = none ∧ token.isEnd = true ∧ done = read ++ [token])

namespace Table

variable {σ : Type} {t : Table} {o : Observer σ} {start seen seen' : σ} {s : Stream} {c c' : Config}

/-- What a run comes to before it ends: the state of the observer and the configuration. -/
inductive Reaches (t : Table) (o : Observer σ) (start : σ) (s : Stream) : σ → Config → Prop
  | start {token : Token} {stream : Stream} : s.next = .ok (token, stream) →
      Reaches t o start s start
        ⟨StateStack.empty.push t.initialState, some token, stream, false, 0, []⟩
  | step {seen seen' : σ} {c c' : Config} {event : Option Event} :
      Reaches t o start s seen c → t.step c = .ok (.next c' event) →
      o.after seen event = .ok seen' → Reaches t o start s seen' c'

inductive Ends (t : Table) (o : Observer σ) (seen : σ) (c : Config) : Observed σ → Prop
  | out_of_steps : Ends t o seen c ⟨seen, c.errors, .outOfSteps⟩
  | breached {b : Breach} : t.step c = .error b → Ends t o seen c ⟨seen, c.errors, .breached b⟩
  | unseen_next {c' : Config} {event : Option Event} {b : Breach} :
      t.step c = .ok (.next c' event) → o.after seen event = .error b →
      Ends t o seen c ⟨seen, c'.errors, .breached b⟩
  | unseen_stop {c' : Config} {event : Option Event} {ending : Ending} {b : Breach} :
      t.step c = .ok (.stop c' event ending) → o.after seen event = .error b →
      Ends t o seen c ⟨seen, c'.errors, .breached b⟩
  | ended {c' : Config} {event : Option Event} {ending : Ending} {seen' : σ} :
      t.step c = .ok (.stop c' event ending) → o.after seen event = .ok seen' →
      Ends t o seen c ⟨seen', c'.errors, .ended ending⟩

theorem Reaches.ends (h : Reaches t o start s seen c) (n : Nat) :
    ∃ seen' c', Reaches t o start s seen' c' ∧ Ends t o seen' c' (t.watchFrom o n seen c) := by
  induction n generalizing seen c with
  | zero => exact ⟨seen, c, h, .out_of_steps⟩
  | succ n ih =>
    unfold watchFrom
    cases hstep : t.step c with
    | error b => exact ⟨seen, c, h, .breached hstep⟩
    | ok outcome =>
      cases outcome with
      | next c' event =>
        dsimp only
        cases hafter : o.after seen event with
        | error b => exact ⟨seen, c, h, .unseen_next hstep hafter⟩
        | ok seen' => exact ih (h.step hstep hafter)
      | stop c' event ending =>
        dsimp only
        cases hafter : o.after seen event with
        | error b => exact ⟨seen, c, h, .unseen_stop hstep hafter⟩
        | ok seen' => exact ⟨seen, c, h, .ended hstep hafter⟩

theorem watch_cases (t : Table) (o : Observer σ) (start : σ) (n : Nat) (s : Stream) :
    (∃ message, .error (.failed message) ∈ s.upcoming ∧
      t.watch o start n s = ⟨start, [], .ended (.failed (.stream message))⟩) ∨
    (∃ b, .error (.breach b) ∈ s.upcoming ∧ t.watch o start n s = ⟨start, [], .breached b⟩) ∨
    ∃ seen c, Reaches t o start s seen c ∧ Ends t o seen c (t.watch o start n s) := by
  unfold watch
  rcases s.next_cases with ⟨token, rest, h⟩ | ⟨message, h, hmem⟩ | ⟨b, h, hmem⟩
  · rw [h]
    exact Or.inr (Or.inr (Reaches.start h |>.ends n))
  · rw [h]
    exact Or.inl ⟨message, hmem, rfl⟩
  · rw [h]
    exact Or.inr (Or.inl ⟨b, hmem, rfl⟩)

def Traces (t : Table) (o : Observer σ) : σ × Config → σ × Config → Prop :=
  Relation.ReflTransGen fun p q => ∃ event, t.step p.2 = .ok (.next q.2 event) ∧
    o.after p.1 event = .ok q.1

theorem Traces.single {event : Option Event} (hstep : t.step c = .ok (.next c' event))
    (hafter : o.after seen event = .ok seen') : t.Traces o (seen, c) (seen', c') :=
  Relation.ReflTransGen.single ⟨event, hstep, hafter⟩

theorem watch_of_traces {token : Token} {stream : Stream} {event : Option Event} {ending : Ending}
    {last : σ} (hnext : s.next = .ok (token, stream)) (htraces : t.Traces o
      (start, ⟨StateStack.empty.push t.initialState, some token, stream, false, 0, []⟩) (seen, c))
    (hstop : t.step c = .ok (.stop c' event ending)) (hafter : o.after seen event = .ok last) :
    ∃ N, ∀ n, N ≤ n → t.watch o start n s = ⟨last, c'.errors, .ended ending⟩ := by
  have hfrom : ∀ p, t.Traces o p (seen, c) →
      ∃ N, ∀ n, N ≤ n → t.watchFrom o n p.1 p.2 = ⟨last, c'.errors, .ended ending⟩ := by
    intro p hp
    induction hp using Relation.ReflTransGen.head_induction_on with
    | refl =>
      refine ⟨1, ?_⟩
      intro n hn
      obtain ⟨n, rfl⟩ := Nat.exists_eq_add_of_le' hn
      rw [watchFrom]
      simp [hstop, hafter]
    | head hstep _ ih =>
      obtain ⟨event', hstep, hafter'⟩ := hstep
      obtain ⟨N, hN⟩ := ih
      refine ⟨N + 1, ?_⟩
      intro n hn
      obtain ⟨n, rfl⟩ := Nat.exists_eq_add_of_le' (Nat.le_of_add_left_le hn)
      rw [watchFrom]
      simpa [hstep, hafter'] using hN n (by omega)
  obtain ⟨N, hN⟩ := hfrom _ htraces
  refine ⟨N, ?_⟩
  intro n hn
  unfold watch
  rw [hnext]
  exact hN n hn

end Table

namespace Automaton

variable {g : Grammar} {m : Automaton} {t : Table} {σ : Type} {o : Observer σ} {start seen : σ}
  {s : Stream} {c c' : Config} {k : ItemSet} {ks : List ItemSet} {xs ys : List Nat}
  {event : Option Event} {used done : List Token}

theorem Effect.progress (h : Effect m t c xs event used c' ys) (hp : c.Progress s done) :
    c'.Progress s (done ++ used) := by
  obtain ⟨read, rest, token, hread, hnext, hahead⟩ := hp
  have hpass : ∀ {token'}, Passes c token' c' → c'.Progress s (done ++ [token']) := by
    rintro token' ⟨ha, hne, token'', ha', hnext'⟩
    rcases hahead with ⟨ha₀, rfl⟩ | ⟨hnone, -⟩
    · cases ha₀.symm.trans ha
      exact ⟨_, _, token'', hread.snoc hnext hne, hnext', Or.inl ⟨ha', rfl⟩⟩
    · cases hnone.symm.trans ha
  have hstay : c'.ahead = c.ahead → c'.stream = c.stream → c'.Progress s (done ++ []) := by
    intro ha hstream
    rw [List.append_nil]
    exact ⟨read, rest, token, hread, by rw [hstream]; exact hnext, by rw [ha]; exact hahead⟩
  cases h with
  | shift hpasses _ _ _ _ => exact hpass hpasses
  | discard hpasses _ _ _ => exact hpass hpasses
  | reduce _ _ _ ha hstream _ _ => exact hstay ha hstream
  | trap _ _ ha hstream _ _ _ => exact hstay ha hstream
  | shift_end ha hend hnone hstream _ _ =>
    rcases hahead with ⟨ha₀, rfl⟩ | ⟨hnone₀, -⟩
    · cases ha₀.symm.trans ha
      exact ⟨_, _, token, hread, by rw [hstream]; exact hnext, Or.inr ⟨hnone, hend, rfl⟩⟩
    · cases hnone₀.symm.trans ha

/-- What every effect keeps holds in every configuration that a run comes to. -/
theorem Generated.reaches_invariant (h : Generated g m t)
    {P : σ → Config → List Nat → List Token → Prop}
    (hstart : ∀ c : Config, c.errors = [] → c.recovering = false → P start c [] [])
    (hstep : ∀ {seen seen' c xs event used c' ys done}, P seen c xs done →
      Effect m t c xs event used c' ys → o.after seen event = .ok seen' →
      P seen' c' ys (done ++ used))
    (hr : t.Reaches o start s seen c) :
    ∃ xs done, m.Follows c xs ∧ c.Progress s done ∧ P seen c xs done := by
  induction hr with
  | @start token stream hnext =>
    refine ⟨[], [], ⟨⟨[NumberedGrammar.initialKernel], .start, ?_⟩, ?_⟩, ?_, hstart _ rfl rfl⟩
    · rw [StateStack.states_push, h.shows.initial]
      exact .cons ⟨0, rfl, h.first⟩ .nil
    · intro hnone
      cases hnone
    · exact ⟨[], s, token, .nil s, hnext, Or.inl ⟨rfl, rfl⟩⟩
  | step _ hs hafter ih =>
    obtain ⟨xs, done, hc, hp, hP⟩ := ih
    have hkept := h.step_kept hc
    rw [hs] at hkept
    cases hkept with
    | next heffect hfollows =>
      exact ⟨_, _, hfollows, heffect.progress hp, hstep hP heffect hafter⟩

/-- A run without errors whose stack is a path. -/
structure Clean (m : Automaton) (c : Config) (ks : List ItemSet) (xs : List Nat) : Prop where
  path : m.grammar.Path ks xs
  stands : m.Stands ks c.stack.states
  recovering : c.recovering = false
  errors : c.errors = []

theorem Generated.clean_start (h : Generated g m t) (token : Token) (stream : Stream) :
    Clean m ⟨StateStack.empty.push t.initialState, some token, stream, false, 0, []⟩
      [NumberedGrammar.initialKernel] [] := by
  refine ⟨.start, ?_, rfl, rfl⟩
  rw [StateStack.states_push, h.shows.initial]
  exact .cons ⟨0, rfl, h.first⟩ .nil

theorem countShift_clean (hr : c.recovering = false) : Table.countShift c = c := by
  unfold Table.countShift
  simp [hr]

theorem Clean.shift (hc : Clean m c (k :: ks) xs) (h : Generated g m t) {token token' : Token}
    {stream : Stream} {x : Nat} (ha : c.ahead = some token) (hne : token.isEnd = false)
    (hnext : c.stream.next = .ok (token', stream)) (hx : t.terminalOf (some token) = x)
    (hgoto : (m.grammar.goto (m.grammar.closure k.items) x).isEmpty = false)
    (hm : (m.grammar.state k).moveOn? x =
      some ⟨.shift, m.grammar.goto (m.grammar.closure k.items) x⟩) :
    ∃ c', t.step c = .ok (.next c' (some (.shift token false))) ∧
      Clean m c' (m.grammar.goto (m.grammar.closure k.items) x :: k :: ks) (x :: xs) ∧
      c'.ahead = some token' ∧ c'.stream = stream := by
  obtain ⟨j, hstep, hstands⟩ := h.step_shift hc.stands (ha ▸ hx) hm
  rw [countShift_clean hc.recovering] at hstands
  have hstep' : t.step c = .ok (.next { c.push j with ahead := some token', stream := stream }
      (some (.shift token c.recovering))) := by
    rw [hstep]
    unfold Table.shiftStep
    rw [ha, countShift_clean hc.recovering]
    simp only [hne, Bool.false_eq_true, if_false]
    unfold Config.advance
    rw [show (c.push j).stream = c.stream from rfl, hnext]
    rfl
  rw [hc.recovering] at hstep'
  exact ⟨_, hstep', ⟨hc.path.step hgoto, hstands, hc.recovering, hc.errors⟩, rfl, rfl⟩

theorem Clean.reduce {k' : ItemSet} {ks' : List ItemSet} {i : Nat} {r : Production}
    (hc : Clean m c (k' :: ks') (r.symbols.reverse ++ xs)) (h : Generated g m t)
    (hr : m.grammar.rules[i]? = some r) (hi : i ≠ 0)
    (ha : ⟨i, r.symbols.length⟩ ∈ m.grammar.closure k'.items)
    (hbelow : m.grammar.Path (k :: ks) xs)
    (hm : (m.grammar.state k').moveOn? (t.terminalOf c.ahead) =
      some (m.grammar.reduction ⟨i, r.symbols.length⟩)) :
    ∃ c', t.step c = .ok (.next c' (some (.reduce i false))) ∧
      Clean m c' (m.grammar.goto (m.grammar.closure k.items) r.lhs :: k :: ks) (r.lhs :: xs) ∧
      c'.ahead = c.ahead ∧ c'.stream = c.stream := by
  have hfinal : m.grammar.isFinal ⟨i, r.symbols.length⟩ = true :=
    h.well_formed.final_iff.mpr ⟨r, hr, rfl⟩
  obtain ⟨r', ys, ks'', c', hr', hxs, hpath, hstands, hc', hstep⟩ :=
    h.step_reduce hc.path hc.stands ha hfinal hi hm
  cases hr.symm.trans hr'
  obtain rfl := List.append_cancel_left hxs
  have hks : ks'' = m.grammar.goto (m.grammar.closure k.items) r.lhs :: k :: ks := by
    cases hpath with
    | step hrest _ =>
      cases hrest.unique hbelow
      rfl
  rw [hc.recovering] at hstep
  refine ⟨c', hstep, ⟨hks ▸ hpath, hks ▸ hstands, ?_, ?_⟩, ?_, ?_⟩
  · rw [hc']
    exact hc.recovering
  · rw [hc']
    exact hc.errors
  · rw [hc']
  · rw [hc']

theorem Clean.accept (hc : Clean m c (k :: ks) xs) (h : Generated g m t)
    (ha : ⟨0, 1⟩ ∈ m.grammar.closure k.items) {token : Token} (hahead : c.ahead = some token)
    (hend : token.isEnd = true) (hm : (m.grammar.state k).moveOn? SymbolTable.endSymbol =
      some ⟨.shift, m.grammar.goto (m.grammar.closure k.items) SymbolTable.endSymbol⟩) :
    ∃ c₁ c₂, t.step c = .ok (.next c₁ (some (.shift token false))) ∧
      t.step c₁ = .ok (.stop c₂ (some .accept) .accepted) ∧ c₂.errors = [] := by
  have wf := h.well_formed
  obtain ⟨r, u, hr, -, hsym, -⟩ := wf.start_rule
  have ht := wf.token_at_end
  have hpath := hc.path.step (NumberedGrammar.goto_nonempty ha ht)
  have hx : t.terminalOf c.ahead = SymbolTable.endSymbol := by
    simp [hahead, Table.terminalOf, hend, h.shows.end_symbol]
  obtain ⟨j, hstep, hstands⟩ := h.step_shift hc.stands hx hm
  rw [countShift_clean hc.recovering] at hstands
  have hnext : t.step c = .ok (.next { c.push j with ahead := none }
      (some (.shift token c.recovering))) := by
    rw [hstep]
    unfold Table.shiftStep
    rw [hahead, countShift_clean hc.recovering]
    simp only [hend, if_true]
    rfl
  rw [hc.recovering] at hnext
  have hfinal : m.grammar.isFinal ⟨0, 2⟩ = true := wf.final_iff.mpr ⟨r, hr, by simp [hsym]⟩
  obtain ⟨c₂, hstop, hhalt⟩ := h.step_accept (c := { c.push j with ahead := none }) hpath hstands
    (wf.advance_mem ha ht) hfinal (hpath.move_ended wf rfl _)
  refine ⟨_, c₂, hnext, hstop, ?_⟩
  cases hhalt with
  | accept _ _ _ herr => exact herr.trans hc.errors

/-- Where recovery and the error symbol come from: an error was recorded, or a token had the number
of that symbol. -/
structure Recorded (t : Table) (c : Config) (xs : List Nat) (done : List Token) : Prop where
  recovering : c.recovering = true → c.errors ≠ []
  error_symbol : SymbolTable.errorSymbol ∈ xs → c.errors ≠ [] ∨
    ∃ token ∈ done, t.terminalOf (some token) = SymbolTable.errorSymbol

theorem recorded_start (he : c.recovering = false) : Recorded t c [] [] where
  recovering hr := by
    rw [he] at hr
    cases hr
  error_symbol hx := by cases hx

theorem Recorded.cause (h : Recorded t c xs done)
    (hwhy : c.recovering = true ∨ xs.head? = some SymbolTable.errorSymbol) : c.errors ≠ [] ∨
      ∃ token ∈ done, t.terminalOf (some token) = SymbolTable.errorSymbol := by
  rcases hwhy with hr | hx
  · exact Or.inl (h.recovering hr)
  · exact h.error_symbol (List.mem_of_head? hx)

theorem Effect.recorded (wf : m.grammar.WellFormed) (he : Effect m t c xs event used c' ys)
    (h : Recorded t c xs done) : Recorded t c' ys (done ++ used) := by
  have hmore : c'.errors = c.errors → SymbolTable.errorSymbol ∈ xs → c'.errors ≠ [] ∨
      ∃ token ∈ done ++ used, t.terminalOf (some token) = SymbolTable.errorSymbol := by
    intro heq hx
    rw [heq]
    rcases h.error_symbol hx with herr | ⟨token, ht, hid⟩
    · exact Or.inl herr
    · exact Or.inr ⟨token, List.mem_append_left _ ht, hid⟩
  have hkeep : c'.errors = c.errors → (c'.recovering = true → c.recovering = true) →
      c'.recovering = true → c'.errors ≠ [] := by
    intro heq hrec hr
    rw [heq]
    exact h.recovering (hrec hr)
  cases he with
  | @shift token x flag _ _ hx _ herr hrec =>
    refine ⟨hkeep herr hrec, ?_⟩
    intro hmem
    rcases List.mem_cons.mp hmem with rfl | hmem
    · exact Or.inr ⟨token, by simp, hx⟩
    · exact hmore herr hmem
  | shift_end _ _ _ _ herr hrec =>
    refine ⟨hkeep herr hrec, ?_⟩
    intro hmem
    rcases List.mem_cons.mp hmem with heq | hmem
    · cases heq
    · exact hmore herr hmem
  | @reduce i r zs flag _ _ hr hxs _ _ herr hrec =>
    refine ⟨hkeep herr (fun hr => hrec ▸ hr), ?_⟩
    intro hmem
    rcases List.mem_cons.mp hmem with heq | hmem
    · have hlhs := wf.lhs_nonterminal i r hr
      have htwo := wf.two_terminals
      simp only [SymbolTable.errorSymbol] at heq
      omega
    · exact hmore herr (by rw [hxs]; exact List.mem_append_right _ hmem)
  | discard _ _ herr hrec => exact ⟨hkeep herr (fun hr => hrec ▸ hr), hmore herr⟩
  | trap _ _ _ _ herr _ _ =>
    have hne : c'.errors ≠ [] := by simp [herr]
    exact ⟨fun _ => hne, fun _ => Or.inl hne⟩

theorem progress_keeps (hp : c.Progress s done) : c.stream.upcoming <:+ s.upcoming ∧
    (∀ token ∈ done, s.Yields token) ∧ ∀ token, c.ahead = some token → s.Yields token := by
  obtain ⟨read, rest, token, hread, hnext, hahead⟩ := hp
  obtain ⟨hs, hl, hy⟩ := hread.keeps
  obtain ⟨hs', -, hy'⟩ := Stream.next_keeps hnext
  have htoken : s.Yields token := hy'.of_suffix hs hl
  refine ⟨hs'.trans hs, ?_, ?_⟩
  · intro token' ht
    rcases hahead with ⟨-, rfl⟩ | ⟨-, -, rfl⟩
    · exact hy token' ht
    · rcases List.mem_append.mp ht with ht | ht
      · exact hy token' ht
      · rw [List.mem_singleton.mp ht]
        exact htoken
  · intro token' ha
    rcases hahead with ⟨ha₀, -⟩ | ⟨hnone, -⟩
    · cases ha₀.symm.trans ha
      exact htoken
    · cases hnone.symm.trans ha

end Automaton

end ParserTables

import ParserTables.Proofs.Trees

/-!
What a run on the table of a compiled grammar can come to. It never asks the table, the stack or
the forest for something that is not there, so it fails only where its stream fails, and what it
accepts it has a tree for.
-/

namespace ParserTables

namespace Automaton

variable {g : Grammar} {m : Automaton} {t : Table} {f f' : Forest} {c c' : Config} {xs : List Nat}
  {event : Option Event} {done : List Token} {ending : Ending} {s : Stream}

theorem Generated.bears_halt (h : Generated g m t) (hb : Bears g m t f c xs done)
    (he : Halt m t c xs event c' ending) :
    ∃ f', Observer.after (Forest.apply t) f event = .ok f' := by
  cases he with
  | accept hr hsym hxs _ =>
    subst hxs
    obtain ⟨d, root, ts, e, -, happly, -⟩ := h.bears_accept hr hsym hb
    exact ⟨_, happly⟩
  | finish _ _ _ _ => exact ⟨f, rfl⟩
  | miss _ => exact ⟨f, rfl⟩
  | unread _ _ hevent =>
    cases event with
    | none => exact ⟨f, rfl⟩
    | some e =>
      obtain ⟨token, x, flag, ks, hx, hlt, -, rfl⟩ := hevent e rfl
      obtain ⟨f', happly, -⟩ := h.bears_shift hb flag hx hlt rfl
      exact ⟨f', happly⟩

theorem Generated.not_error (h : Generated g m t) {token : Token}
    (hid : token.isEnd = false → token.terminal ≠ t.errorSymbol) :
    t.terminalOf (some token) ≠ SymbolTable.errorSymbol := by
  rw [← h.shows.error_symbol]
  by_cases hend : token.isEnd = true
  · simp only [Table.terminalOf, hend, if_true, h.shows.end_symbol, h.shows.error_symbol]
    decide
  · simp only [Table.terminalOf, hend]
    exact hid (by simpa using hend)

theorem Generated.is_end (h : Generated g m t) {token : Token}
    (hid : token.isEnd = false → token.terminal ≠ t.endSymbol)
    (hx : t.terminalOf (some token) = SymbolTable.endSymbol) : token.isEnd = true := by
  by_contra hne
  rw [← h.shows.end_symbol] at hx
  simp only [Table.terminalOf, hne] at hx
  exact hid (by simpa using hne) hx

/-- A run that the stream lets end does so by one of the known endings. -/
structure Halts (g : Grammar) (m : Automaton) (t : Table) (s : Stream) (run : Observed Forest)
    (ending : Ending) : Prop where
  result : run.result = .ended ending
  last : ∃ f c xs done event c', c.Progress s done ∧ Recorded t c xs done ∧
    Bears g m t f c xs done ∧ Halt m t c xs event c' ending ∧ run.errors = c'.errors ∧
    Observer.after (Forest.apply t) f event = .ok run.state

theorem Generated.watch_ends (h : Generated g m t) (n : Nat) (s : Stream) :
    let run := t.watch (Forest.apply t) Forest.empty n s
    run.result = .outOfSteps ∨
      (∃ b, run.result = .breached b ∧ .error (.breach b) ∈ s.upcoming) ∨
      (∃ message, run.result = .ended (.failed (.stream message)) ∧
        .error (.failed message) ∈ s.upcoming) ∨
      ∃ ending, Halts g m t s run ending := by
  rcases t.watch_cases (Forest.apply t) Forest.empty n s with
    ⟨message, hmem, hrun⟩ | ⟨b, hmem, hrun⟩ | ⟨f, c, hreach, hends⟩
  · rw [hrun]
    exact Or.inr (Or.inr (Or.inl ⟨message, rfl, hmem⟩))
  · rw [hrun]
    exact Or.inr (Or.inl ⟨b, rfl, hmem⟩)
  · obtain ⟨xs, done, hfollows, hprogress, hrec, hb⟩ := h.bears_reaches hreach
    have hkept := h.step_kept hfollows
    generalize t.watch (Forest.apply t) Forest.empty n s = run at hends
    dsimp only
    cases hends with
    | out_of_steps => exact Or.inl rfl
    | breached hstep =>
      rw [hstep] at hkept
      cases hkept with
      | unread hmem => exact Or.inr (Or.inl ⟨_, rfl, (progress_keeps hprogress).1.subset hmem⟩)
    | unseen_next hstep hafter =>
      rw [hstep] at hkept
      cases hkept with
      | next heffect _ =>
        obtain ⟨f', hok, -⟩ := h.bears_effect hb hrec heffect
        cases hafter.symm.trans hok
    | unseen_stop hstep hafter =>
      rw [hstep] at hkept
      cases hkept with
      | stop hhalt =>
        obtain ⟨f', hok⟩ := h.bears_halt hb hhalt
        cases hafter.symm.trans hok
    | ended hstep hafter =>
      rw [hstep] at hkept
      cases hkept with
      | stop hhalt =>
        exact Or.inr (Or.inr (Or.inr ⟨_, rfl, f, c, xs, done, _, _, hprogress, hrec, hb, hhalt,
          rfl, hafter⟩))

end Automaton

namespace Table

variable {g : Grammar} {options : CompileOptions} {cg : CompiledGrammar} {t : Table}

/-- A run fails only where its stream does, and gives an input up only after an error unless a
token has the number of the error symbol. -/
theorem run_never_stuck (h : (g.compile options).result = .ok cg) (ht : cg.table = some t)
    (n : Nat) (s : Stream) :
    let run := t.watch (Forest.apply t) Forest.empty n s
    (∀ b, run.result = .breached b → .error (.breach b) ∈ s.upcoming) ∧
    (∀ e, run.result = .ended (.failed e) →
      ∃ message, e = .stream message ∧ .error (.failed message) ∈ s.upcoming) ∧
    ((∀ token, s.Yields token → t.terminalOf (some token) ≠ t.errorSymbol) →
      run.result = .ended .abandoned → run.errors ≠ []) := by
  have hg := Automaton.generated_of_compile h ht
  intro run
  have hends := hg.watch_ends n s
  dsimp only at hends
  change run.result = _ ∨ (∃ b, run.result = _ ∧ _) ∨ (∃ message, run.result = _ ∧ _) ∨
    ∃ ending, Automaton.Halts g _ t s run ending at hends
  rcases hends with hout | ⟨b, hb, hmem⟩ | ⟨message, hm, hmem⟩ | ⟨ending, hhalts⟩
  · simp [hout]
  · rw [hb]
    refine ⟨?_, by simp, by simp⟩
    intro b' hb'
    cases hb'
    exact hmem
  · rw [hm]
    refine ⟨by simp, ?_, by simp⟩
    intro e he
    cases he
    exact ⟨message, rfl, hmem⟩
  · obtain ⟨hresult, f, c, xs, done, event, c', hprogress, hrec, hb, hhalt, herrors, -⟩ := hhalts
    obtain ⟨hsuffix, hdone, hahead⟩ := Automaton.progress_keeps hprogress
    rw [hresult, herrors]
    refine ⟨by simp, ?_, ?_⟩
    · intro e he
      cases he
      cases hhalt with
      | unread hmem _ _ => exact ⟨_, rfl, hsuffix.subset hmem⟩
    · intro hids he
      cases he
      cases hhalt with
      | finish _ _ hwhy herr =>
        rw [herr]
        rcases hrec.cause hwhy with hne | ⟨token, hmem, hid⟩
        · exact hne
        · exact absurd (hg.shows.error_symbol ▸ hid) (hids token (hdone token hmem))
      | miss herr => simp [herr]

set_option maxRecDepth 100000 in
/-- The second token is no terminal of the grammar, and no stop comes behind it. -/
theorem letters_given_up : ∃ cg t, (Grammar.letters.compile ⟨true, none⟩).result = .ok cg ∧
    cg.table = some t ∧
    let run := t.watch (Forest.apply t) Forest.empty 20 (Stream.ofTerminals [2, 7, 2])
    run.result = .ended .abandoned ∧ run.errors ≠ [] := by
  obtain ⟨cg, t, h, ht, hrun⟩ := @Grammar.exists_table Grammar.letters ⟨true, none⟩
    (fun t => t.endSymbol = 0 ∧ t.errorSymbol = 1 ∧
      (t.watch (Forest.apply t) Forest.empty 20 (Stream.ofTerminals [2, 7, 2])).result =
        .ended .abandoned) (by decide +kernel)
  obtain ⟨hend, herror, hresult⟩ := of_decide_eq_true hrun
  refine ⟨cg, t, h, ht, hresult, ?_⟩
  refine (run_never_stuck h ht 20 (Stream.ofTerminals [2, 7, 2])).2.2 ?_ hresult
  intro token hy
  rw [herror]
  rcases hy with hy | rfl
  · simp only [Stream.ofTerminals, List.map_cons, List.map_nil, List.mem_cons, Except.ok.injEq,
      List.not_mem_nil, or_false] at hy
    rcases hy with rfl | rfl | rfl <;> simp [terminalOf, Token.isEnd]
  · simp [terminalOf, Token.isEnd, Stream.ofTerminals, Stream.endToken, hend]

/-- An accepted input has a tree of the start symbol. Its leaves are among the tokens before the
end of input; without errors they are all of them, and spell a sentence. -/
theorem accepted_tree_derives (h : (g.compile options).result = .ok cg) (ht : cg.table = some t)
    {n : Nat} {s : Stream}
    (hrun : (t.watch (Forest.apply t) Forest.empty n s).result = .ended .accepted) :
    let run := t.watch (Forest.apply t) Forest.empty n s
    ∃ d root leaves read rest, g.start = some d ∧ run.state.root = some root ∧
      (∃ nt ∈ g.nonterminals, nt.name = d.name ∧ ∃ r ∈ nt.rules, ∃ children,
        root = .node ⟨d.name, [], Forest.rowOf children, Forest.colOf children, false⟩ children ∧
        g.Parses t (run.errors ≠ []) (r.tokens.map (·.name)) children leaves) ∧
      s.Reads read rest ∧ leaves.Sublist read ∧
      (run.errors = [] → (∀ token, s.Yields token → token.isEnd = false →
          token.terminal ≠ t.endSymbol ∧ token.terminal ≠ t.errorSymbol) →
        leaves = read ∧ (∃ last rest', rest.next = .ok (last, rest') ∧ last.isEnd = true) ∧
        ∃ w, List.Forall₂ (fun token x => t.tokenName (t.terminalOf (some token)) = .ok x) read w ∧
          g.Sentence w) := by
  have hg := Automaton.generated_of_compile h ht
  have hends := hg.watch_ends n s
  dsimp only at hends ⊢
  rw [hrun] at hends
  obtain ⟨hresult, f, c, xs, done, event, c', hprogress, hrec, hb, hhalt, herrors, hafter⟩ :
      Automaton.Halts g _ t s (t.watch (Forest.apply t) Forest.empty n s) .accepted := by
    rcases hends with hout | ⟨b, hb, -⟩ | ⟨message, hm, -⟩ | ⟨ending, hhalts⟩
    · cases hout
    · cases hb
    · cases hm
    · cases hhalts.result.symm.trans hrun
      exact hhalts
  cases hhalt with
  | accept hr hsym hxs herr =>
    subst hxs
    obtain ⟨d, root, ts, e, hd, happly, hparses, hsub, hid, hall⟩ := hg.bears_accept hr hsym hb
    rw [herrors, herr]
    have hstate : Forest.apply t f .accept = .ok _ := hafter
    rw [happly] at hstate
    rw [← Except.ok.inj hstate]
    obtain ⟨nt, hnt, hname, r, hrule, children, htree, hchildren⟩ :=
      hg.root_node (hg.start_nonterminal hd) hparses
    obtain ⟨hsuffix, hdone, -⟩ := Automaton.progress_keeps hprogress
    obtain ⟨read, rest, token, hread, hnext, hahead⟩ := hprogress
    refine ⟨d, root, ts, read, rest, hd, rfl, ⟨nt, hnt, hname, r, hrule, children, ?_, hchildren⟩,
      hread, ?_, ?_⟩
    · exact List.singleton_injective htree
    · rcases hahead with ⟨-, rfl⟩ | ⟨-, -, rfl⟩
      · exact (List.sublist_append_left ts [e]).trans hsub
      · have hrev := hsub.reverse
        rw [List.reverse_append, List.reverse_append] at hrev
        exact List.reverse_sublist.mp hrev.tail
    · intro hclean hids
      have hdone' : ts ++ [e] = done := by
        refine hall hclean ?_
        intro token' hmem
        exact hg.not_error fun hne => (hids token' (hdone token' hmem) hne).2
      have hmem : e ∈ done := by simp [← hdone']
      have he : e.isEnd = true :=
        hg.is_end (fun hne => (hids e (hdone e hmem) hne).1) hid
      rcases hahead with ⟨-, rfl⟩ | ⟨-, hend, rfl⟩
      · cases he.symm.trans (hread.not_end e hmem)
      · obtain ⟨rfl, heq⟩ := List.append_inj' hdone' rfl
        refine ⟨rfl, ⟨token, c.stream, hnext, hend⟩, ?_⟩
        obtain ⟨w, hw, hgen⟩ := hparses.generates (by simp [hclean])
        exact ⟨w, hw, d, hd, hgen⟩

set_option maxRecDepth 100000 in
theorem letters_accepted : ∃ cg t, (Grammar.letters.compile ⟨true, none⟩).result = .ok cg ∧
    cg.table = some t ∧
    let run := t.watch (Forest.apply t) Forest.empty 20 (Stream.ofTerminals [2, 2])
    run.result = .ended .accepted ∧ run.errors = [] ∧ ∃ root leaves read rest,
      run.state.root = some root ∧ (Stream.ofTerminals [2, 2]).Reads read rest ∧
      leaves.Sublist read ∧ leaves = read ∧ ∃ w, Grammar.letters.Sentence w := by
  obtain ⟨cg, t, h, ht, hrun⟩ := @Grammar.exists_table Grammar.letters ⟨true, none⟩
    (fun t => t.endSymbol = 0 ∧ t.errorSymbol = 1 ∧
      (t.watch (Forest.apply t) Forest.empty 20 (Stream.ofTerminals [2, 2])).result =
        .ended .accepted ∧
      (t.watch (Forest.apply t) Forest.empty 20 (Stream.ofTerminals [2, 2])).errors = [])
    (by decide +kernel)
  obtain ⟨hend, herror, hresult, herrors⟩ := of_decide_eq_true hrun
  obtain ⟨d, root, leaves, read, rest, -, hroot, -, hreads, hsub, hclean⟩ :=
    accepted_tree_derives h ht hresult
  have hids : ∀ token, (Stream.ofTerminals [2, 2]).Yields token → token.isEnd = false →
      token.terminal ≠ t.endSymbol ∧ token.terminal ≠ t.errorSymbol := by
    intro token hy hne
    rw [hend, herror]
    rcases hy with hy | rfl
    · simp only [Stream.ofTerminals, List.map_cons, List.map_nil, List.mem_cons, Except.ok.injEq,
        List.not_mem_nil, or_false, or_self] at hy
      subst hy
      decide
    · cases hne
  obtain ⟨heq, -, w, -, hw⟩ := hclean herrors hids
  exact ⟨cg, t, h, ht, hresult, herrors, root, leaves, read, rest, hroot, hreads, hsub, heq, w, hw⟩

end Table

end ParserTables

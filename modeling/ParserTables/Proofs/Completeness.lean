import ParserTables.Proofs.Adequacy
import ParserTables.Proofs.Soundness

/-!
Every sentence is accepted where all states are adequate. The run follows the derivation: a
terminal is shifted, and behind the symbols of a rule the next terminal can come after the
left-hand side, so the rule is reduced. What is ahead is always expected, so no error is recorded.
-/

namespace ParserTables

namespace NumberedGrammar

variable {g : NumberedGrammar} {xs ys w : List Nat} {s x y : Nat} {r : Production} {i : Nat}

/-- Grammars in which one terminal ahead decides everything without precedence. -/
structure Predictive (g : NumberedGrammar) : Prop where
  plain : g.Plain
  no_empty : g.NoEmptyRule
  adequate : ∀ K, g.Kernel K → g.Adequate K

theorem Derives.eq_nil (hne : g.NoEmptyRule) (h : g.Derives xs w) (hw : w = []) : xs = [] := by
  induction h with
  | nil => rfl
  | terminal _ _ _ => cases hw
  | rule hr _ _ ih _ => exact absurd (ih (List.append_eq_nil_iff.mp hw).1) (hne _ _ hr)

theorem Derives.first (hne : g.NoEmptyRule) (h : g.Derives xs w) (hxs : xs.head? = some s)
    (hw : w.head? = some y) : g.First s y := by
  induction h generalizing s with
  | nil => cases hxs
  | terminal hx _ _ =>
    cases hxs
    cases hw
    exact .terminal hx
  | @rule i r xs u w hr hu _ ihu _ =>
    cases hxs
    obtain ⟨z, rest, hsym⟩ := List.exists_cons_of_ne_nil (hne i r hr)
    have hu' : u.head? = some y := by
      cases u with
      | nil => exact absurd (hu.eq_nil hne rfl) (hne i r hr)
      | cons _ _ => exact hw
    exact @First.rule g _ r [] _ _ _ hr hsym .nil (ihu (by rw [hsym]; rfl) hu')

/-- The terminals that can come where `rest` is left of a rule. -/
def Expects (g : NumberedGrammar) (r : Production) (rest : List Nat) (y : Nat) : Prop :=
  match rest with
  | [] => g.Follow r.lhs y
  | z :: _ => g.First z y

theorem Expects.follow (hr : g.rules[i]? = some r) {before rest : List Nat}
    (hsplit : r.symbols = before ++ s :: rest) (h : g.Expects r rest y) : g.Follow s y := by
  cases rest with
  | nil => exact .atEnd hr hsplit .nil h
  | cons z rest => exact @Follow.inside g _ r _ [] _ _ _ _ hr hsplit .nil h

theorem Expects.append (hne : g.NoEmptyRule) (hd : g.Derives xs w) {rest : List Nat}
    (h : g.Expects r rest y) {z : Nat} {v v' : List Nat} (hz : w ++ y :: v = z :: v') :
    g.Expects r (xs ++ rest) z := by
  cases w with
  | nil =>
    cases hz
    rw [hd.eq_nil hne rfl]
    exact h
  | cons z' w =>
    cases hz
    cases xs with
    | nil => cases hd
    | cons x xs => exact hd.first hne rfl rfl

end NumberedGrammar

/-- The terminals of the token ahead and of those behind it, up to the end of input. -/
inductive Table.Upcoming (t : Table) : Token → Stream → List Nat → Prop
  | last {token : Token} {stream : Stream} : token.isEnd = true →
      Upcoming t token stream [SymbolTable.endSymbol]
  | more {token token' : Token} {stream stream' : Stream} {x : Nat} {ws : List Nat} :
      token.isEnd = false → t.terminalOf (some token) = x →
      stream.next = .ok (token', stream') → Upcoming t token' stream' ws →
      Upcoming t token stream (x :: ws)

def Table.Leads (t : Table) : Config → Config → Prop :=
  Relation.ReflTransGen fun c c' => ∃ event, t.step c = .ok (.next c' event)

namespace Automaton

variable {g : Grammar} {m : Automaton} {t : Table} {c : Config} {k : ItemSet}
  {ks : List ItemSet} {xs ws : List Nat} {a : Item} {x y : Nat}

structure Facing (m : Automaton) (t : Table) (c : Config) (ks : List ItemSet) (xs ws : List Nat) :
    Prop extends Clean m c ks xs where
  input : ∃ token, c.ahead = some token ∧ t.Upcoming token c.stream ws

theorem Facing.terminal (h : Facing m t c ks xs (y :: ws)) (hm : m.Shows t) :
    t.terminalOf c.ahead = y := by
  obtain ⟨token, ha, hup⟩ := h.input
  rw [ha]
  cases hup with
  | last hend => simp [Table.terminalOf, hend, hm.end_symbol]
  | more _ hx _ _ => exact hx

theorem Facing.shift (h : Generated g m t) (hg : m.grammar.Predictive)
    (hf : Facing m t c (k :: ks) xs (x :: y :: ws)) (ha : a ∈ m.grammar.closure k.items)
    (ht : m.grammar.tokenAt? a = some x) (hx : x < m.grammar.terminalCount) :
    ∃ c', t.Leads c c' ∧ Facing m t c'
      (m.grammar.goto (m.grammar.closure k.items) x :: k :: ks) (x :: xs) (y :: ws) := by
  have hadequate := hg.adequate _ (hf.path.kernel h.well_formed k rfl)
  have hmove := hf.path.move_shift h.well_formed hg.plain hadequate ha ht hx
  have hterminal := hf.terminal h.shows
  obtain ⟨token, hahead, hup⟩ := hf.input
  cases hup with
  | @more _ token' _ stream' _ _ hne _ hnext hrest =>
    obtain ⟨c', hstep, hclean, hahead', hstream⟩ := hf.toClean.shift h hahead hne hnext
      (hahead ▸ hterminal) (NumberedGrammar.goto_nonempty ha ht) hmove
    refine ⟨c', .single ⟨_, hstep⟩, hclean, token', hahead', ?_⟩
    rw [hstream]
    exact hrest

theorem Facing.reduce (h : Generated g m t) (hg : m.grammar.Predictive) {k' : ItemSet}
    {ks' : List ItemSet} {i : Nat} {r : Production} (hr : m.grammar.rules[i]? = some r) (hi : i ≠ 0)
    (hf : Facing m t c (k' :: ks') (r.symbols.reverse ++ xs) (y :: ws))
    (ha : ⟨i, r.symbols.length⟩ ∈ m.grammar.closure k'.items)
    (hbelow : m.grammar.Path (k :: ks) xs) (hy : m.grammar.Follow r.lhs y)
    (hne : y ≠ SymbolTable.errorSymbol) :
    ∃ c', t.Leads c c' ∧ Facing m t c'
      (m.grammar.goto (m.grammar.closure k.items) r.lhs :: k :: ks) (r.lhs :: xs) (y :: ws) := by
  have wf := h.well_formed
  have hadequate := hg.adequate _ (hf.path.kernel wf k' rfl)
  have hfinal : m.grammar.isFinal ⟨i, r.symbols.length⟩ = true := wf.final_iff.mpr ⟨r, hr, rfl⟩
  have hmove := NumberedGrammar.move_reduce wf hadequate ha hfinal
    (NumberedGrammar.lhs_eq_some.mpr ⟨r, hr, rfl⟩) hy hg.no_empty hne
  rw [← hf.terminal h.shows] at hmove
  obtain ⟨c', hstep, hclean, hahead, hstream⟩ :=
    hf.toClean.reduce h hr hi ha hbelow hmove
  refine ⟨c', .single ⟨_, hstep⟩, hclean, ?_⟩
  rw [hahead, hstream]
  exact hf.input

/-- The run over what some symbols of a rule derive: it comes to stand behind them. -/
theorem Generated.leads_of_derives (h : Generated g m t) (hg : m.grammar.Predictive)
    {ss us : List Nat} (hd : m.grammar.Derives ss us) :
    ∀ {c : Config} {k : ItemSet} {ks : List ItemSet} {xs ws rest : List Nat} {i p y : Nat}
      {r : Production}, Facing m t c (k :: ks) xs (us ++ y :: ws) →
      m.grammar.rules[i]? = some r → ⟨i, p⟩ ∈ m.grammar.closure k.items →
      r.symbols.drop p = ss ++ rest → m.grammar.Expects r rest y →
      (∀ z ∈ us ++ y :: ws, z ≠ SymbolTable.errorSymbol) →
      ∃ c' k' ks', t.Leads c c' ∧ Facing m t c' (k' :: ks') (ss.reverse ++ xs) (y :: ws) ∧
        ⟨i, p + ss.length⟩ ∈ m.grammar.closure k'.items := by
  have wf := h.well_formed
  induction hd with
  | nil =>
    intro c k ks xs ws rest i p y r hf _ ha _ _ _
    exact ⟨c, k, ks, .refl, hf, ha⟩
  | @terminal x ss us hx _ ih =>
    intro c k ks xs ws rest i p y r hf hr ha hsplit hy hclean
    obtain ⟨ht, hrest⟩ := wf.token_of_drop hr hsplit
    obtain ⟨z, v, hz⟩ : ∃ z v, us ++ y :: ws = z :: v := by
      cases us <;> exact ⟨_, _, rfl⟩
    have hf' : Facing m t c (k :: ks) xs (x :: z :: v) := by
      rw [← hz]
      exact hf
    obtain ⟨c₁, hlead, hf₁⟩ := hf'.shift h hg ha ht hx
    rw [← hz] at hf₁
    obtain ⟨c', k', ks', hlead', hf', ha'⟩ := ih hf₁ hr (wf.advance_mem ha ht) hrest hy
      (fun z hz => hclean z (List.mem_cons_of_mem _ hz))
    refine ⟨c', k', ks', hlead.trans hlead', by simpa using hf', ?_⟩
    rw [List.length_cons, Nat.add_comm ss.length 1, ← Nat.add_assoc]
    exact ha'
  | @rule j q ss us vs hq hus hvs ihu ihv =>
    intro c k ks xs ws rest i p y r hf hr ha hsplit hy hclean
    rw [List.append_assoc] at hf hclean
    obtain ⟨ht, hrest⟩ : m.grammar.tokenAt? ⟨i, p⟩ = some q.lhs ∧
        r.symbols.drop (p + 1) = ss ++ rest := wf.token_of_drop hr hsplit
    obtain ⟨z, v, hz⟩ : ∃ z v, vs ++ y :: ws = z :: v := by
      cases vs <;> exact ⟨_, _, rfl⟩
    have hfollow : m.grammar.Follow q.lhs z := by
      have hexpects := NumberedGrammar.Expects.append hg.no_empty hvs hy hz
      rw [← hrest] at hexpects
      exact hexpects.follow hr (wf.split_token (a := ⟨i, p⟩) hr ht)
    have hj : j ≠ 0 := by
      rintro rfl
      obtain ⟨r', hr', hs⟩ := wf.token_iff.mp ht
      exact wf.symbol_ne_start _ r' hr' _ (List.mem_of_getElem? hs) (h.represents.lhs_zero hq)
    have hspawn : ⟨j, 0⟩ ∈ m.grammar.closure k.items :=
      wf.mem_closure.mpr (.spawn (wf.mem_closure.mp ha) ht (wf.lhs_nonterminal j q hq)
        (NumberedGrammar.lhs_eq_some.mpr ⟨q, hq, rfl⟩))
    rw [hz] at hf hclean
    obtain ⟨c₁, k₁, ks₁, hlead₁, hf₁, ha₁⟩ := ihu hf hq hspawn
      (show q.symbols.drop 0 = q.symbols ++ [] by simp) hfollow hclean
    rw [Nat.zero_add] at ha₁
    obtain ⟨c₂, hlead₂, hf₂⟩ := hf₁.reduce h hg hq hj ha₁ hf.path hfollow
      (hclean z (by simp))
    rw [← hz] at hf₂ hclean
    obtain ⟨c', k', ks', hlead', hf', ha'⟩ := ihv hf₂ hr (wf.advance_mem ha ht) hrest hy
      (fun z hz => hclean z (List.mem_append_right _ hz))
    refine ⟨c', k', ks', (hlead₁.trans hlead₂).trans hlead', by simpa using hf', ?_⟩
    rw [List.length_cons, Nat.add_comm ss.length 1, ← Nat.add_assoc]
    exact ha'

theorem Facing.accept (h : Generated g m t) (hg : m.grammar.Predictive)
    (hf : Facing m t c (k :: ks) xs [SymbolTable.endSymbol])
    (ha : ⟨0, 1⟩ ∈ m.grammar.closure k.items) :
    ∃ c₁ c₂, t.Leads c c₁ ∧ t.step c₁ = .ok (.stop c₂ (some .accept) .accepted) ∧
      c₂.errors = [] := by
  have wf := h.well_formed
  have hadequate := hg.adequate _ (hf.path.kernel wf k rfl)
  have hmove := hf.path.move_shift wf hg.plain hadequate ha wf.token_at_end wf.end_lt
  obtain ⟨token, hahead, hup⟩ := hf.input
  have hend : token.isEnd = true := by
    cases hup with
    | last hend => exact hend
    | more _ _ _ hrest => cases hrest
  obtain ⟨c₁, c₂, hnext, hstop, herrors⟩ := hf.toClean.accept h ha hahead hend hmove
  exact ⟨c₁, c₂, .single ⟨_, hnext⟩, hstop, herrors⟩

theorem Generated.accepts_of_derives (h : Generated g m t) (hg : m.grammar.Predictive)
    {r : Production} {u : Nat} (hr : m.grammar.rules[0]? = some r)
    (hsym : r.symbols = [u, SymbolTable.endSymbol]) (hd : m.grammar.Derives [u] ws)
    (hclean : ∀ z ∈ ws ++ [SymbolTable.endSymbol], z ≠ SymbolTable.errorSymbol)
    {token : Token} {stream : Stream}
    (hup : t.Upcoming token stream (ws ++ [SymbolTable.endSymbol])) :
    ∃ c₁ c₂, t.Leads ⟨StateStack.empty.push t.initialState, some token, stream, false, 0, []⟩ c₁ ∧
      t.step c₁ = .ok (.stop c₂ (some .accept) .accepted) ∧ c₂.errors = [] := by
  have wf := h.well_formed
  have hf : Facing m t ⟨StateStack.empty.push t.initialState, some token, stream, false, 0, []⟩
      [NumberedGrammar.initialKernel] [] (ws ++ [SymbolTable.endSymbol]) :=
    ⟨h.clean_start token stream, token, rfl, hup⟩
  have hitem : ⟨0, 0⟩ ∈ m.grammar.closure NumberedGrammar.initialKernel.items :=
    wf.mem_closure.mpr (.kernel (NumberedGrammar.mem_initialKernel.mpr rfl))
  have hexpects : m.grammar.Expects r [SymbolTable.endSymbol] SymbolTable.endSymbol :=
    .terminal wf.end_lt
  obtain ⟨c, k, ks, hlead, hfacing, ha⟩ :=
    h.leads_of_derives hg hd hf hr hitem hsym hexpects hclean
  obtain ⟨c₁, c₂, hlead', hstop, herrors⟩ := hfacing.accept h hg ha
  exact ⟨c₁, c₂, hlead.trans hlead', hstop, herrors⟩

theorem upcoming_of_reads {s rest rest' : Stream} {tokens : List Token} {last : Token}
    (hr : s.Reads tokens rest) (hlast : rest.next = .ok (last, rest')) (hend : last.isEnd = true)
    (hws : List.Forall₂ (fun token (x : Nat) => t.terminalOf (some token) = x) tokens ws) :
    ∃ token stream, s.next = .ok (token, stream) ∧
      t.Upcoming token stream (ws ++ [SymbolTable.endSymbol]) := by
  induction hr generalizing ws with
  | nil =>
    cases hws
    exact ⟨last, rest', hlast, .last hend⟩
  | @cons s s' rest token ts hn hne _ ih =>
    obtain ⟨x, ws, hx, hrest, rfl⟩ := List.forall₂_cons_left_iff.mp hws
    obtain ⟨token', stream', hn', hup⟩ := ih hlast hrest
    exact ⟨token, s', hn, .more hne hx hn' hup⟩

end Automaton

namespace Table

variable {t : Table} {σ : Type} {o : Observer σ} {start seen : σ} {s : Stream} {c c₁ c₂ : Config}
  {event : Option Event} {ending : Ending}

/-- The observer has no objection to what a run does. -/
def Watched (t : Table) (o : Observer σ) (start : σ) (s : Stream) : Prop :=
  ∀ seen c, Reaches t o start s seen c → ∀ c' event,
    (t.step c = .ok (.next c' event) ∨ ∃ ending, t.step c = .ok (.stop c' event ending)) →
    ∃ seen', o.after seen event = .ok seen'

/-- An observer without objections follows a run to where its configurations lead. -/
theorem traces_of_leads (hw : Watched t o start s) (hl : t.Leads c c₁)
    (hr : Reaches t o start s seen c) :
    ∃ seen₁, t.Traces o (seen, c) (seen₁, c₁) ∧ Reaches t o start s seen₁ c₁ := by
  induction hl with
  | refl => exact ⟨seen, .refl, hr⟩
  | @tail c₂ c₃ _ hstep ih =>
    obtain ⟨event, hstep⟩ := hstep
    obtain ⟨seen₂, htraces, hreaches⟩ := ih
    obtain ⟨seen₃, hafter⟩ := hw seen₂ c₂ hreaches c₃ event (Or.inl hstep)
    exact ⟨seen₃, htraces.tail ⟨event, hstep, hafter⟩, hreaches.step hstep hafter⟩

theorem watch_of_leads (hw : Watched t o start s) {token : Token} {stream : Stream}
    (hnext : s.next = .ok (token, stream))
    (hl : t.Leads ⟨StateStack.empty.push t.initialState, some token, stream, false, 0, []⟩ c₁)
    (hstop : t.step c₁ = .ok (.stop c₂ event ending)) :
    ∃ N, ∀ n, N ≤ n → (t.watch o start n s).result = .ended ending ∧
      (t.watch o start n s).errors = c₂.errors := by
  obtain ⟨seen₁, htraces, hreaches⟩ := traces_of_leads hw hl (.start hnext)
  obtain ⟨seen₂, hafter⟩ := hw seen₁ c₁ hreaches c₂ event (Or.inr ⟨ending, hstop⟩)
  obtain ⟨N, hN⟩ := watch_of_traces hnext htraces hstop hafter
  refine ⟨N, ?_⟩
  intro n hn
  rw [hN n hn]
  exact ⟨rfl, rfl⟩

theorem watched_recorder : Watched t Observer.recorder [] s := by
  intro seen c _ c' event _
  cases event with
  | none => exact ⟨seen, rfl⟩
  | some e => exact ⟨e :: seen, rfl⟩

end Table

namespace Automaton

variable {g : Grammar} {m : Automaton} {t : Table} {s : Stream} {ws : List Nat} {w : List String}

theorem Generated.watched_forest (h : Generated g m t) :
    Table.Watched t (Forest.apply t) Forest.empty s := by
  intro f c hr c' event hstep
  obtain ⟨xs, done, hfollows, -, hrec, hb⟩ := h.bears_reaches hr
  have hkept := h.step_kept hfollows
  rcases hstep with hstep | ⟨ending, hstep⟩
  · rw [hstep] at hkept
    cases hkept with
    | next heffect _ =>
      obtain ⟨f', hafter, -⟩ := h.bears_effect hb hrec heffect
      exact ⟨f', hafter⟩
  · rw [hstep] at hkept
    cases hkept with
    | stop hhalt => exact h.bears_halt hb hhalt

theorem Generated.binary_symbols (h : Generated g m t) {i : Nat} {r : Production}
    (hr : m.grammar.rules[i]? = some r) (hb : r.binary = true) :
    ∃ op, r.symbols = [r.lhs, op, r.lhs] := by
  cases i with
  | zero =>
    rw [h.represents.start_binary r hr] at hb
    cases hb
  | succ i =>
    obtain ⟨nt, -, src, -, htext, hbinary, hall⟩ :=
      h.represents.rule_source (i + 1) r hr (Nat.succ_ne_zero i)
    rw [hbinary] at hb
    unfold Rule.isBinary at hb
    split at hb
    · next a op b htokens =>
      simp only [Bool.and_eq_true, decide_eq_true_eq] at hb
      rw [htokens] at hall
      obtain ⟨x, rest, hx, hall₁, hsym⟩ := List.forall₂_cons_right_iff.mp hall
      obtain ⟨y, rest', -, hall₂, rfl⟩ := List.forall₂_cons_right_iff.mp hall₁
      obtain ⟨z, rest'', hz, hall₃, rfl⟩ := List.forall₂_cons_right_iff.mp hall₂
      cases hall₃
      rw [hb.1.1] at hx
      rw [hb.1.2] at hz
      have hx' := h.represents.table.id_unique hx htext
      have hz' := h.represents.table.id_unique hz htext
      exact ⟨y, by rw [hsym, hx', hz']⟩
    · cases hb

theorem Generated.no_empty (h : Generated g m t)
    (hg : ∀ nt ∈ g.nonterminals, ∀ r ∈ nt.rules, r.tokens ≠ []) : m.grammar.NoEmptyRule := by
  intro i r hr hnil
  by_cases hi : i = 0
  · subst hi
    obtain ⟨r', u, hr', -, hsym, -⟩ := h.well_formed.start_rule
    cases hr'.symm.trans hr
    rw [hsym] at hnil
    cases hnil
  · obtain ⟨nt, hnt, src, hsrc, -, -, hall⟩ := h.represents.rule_source i r hr hi
    rw [hnil] at hall
    exact hg nt hnt src hsrc (List.forall₂_nil_left_iff.mp hall)

theorem Generated.terminals_of_names (h : Generated g m t) {tokens : List Token}
    (hnames : List.Forall₂ (fun token x => t.tokenName (t.terminalOf (some token)) = .ok x)
      tokens w)
    (hw : m.symbols.Spells ws w) :
    List.Forall₂ (fun token (x : Nat) => t.terminalOf (some token) = x) tokens ws := by
  induction hnames generalizing ws with
  | nil =>
    cases hw
    exact .nil
  | cons hname _ ih =>
    obtain ⟨x, rest, htext, hrest, rfl⟩ := List.forall₂_cons_right_iff.mp hw
    obtain ⟨n, hn, htext'⟩ := h.shows.text_of_name hname
    refine .cons ?_ (ih hrest)
    rw [hn, h.represents.table.id_unique htext' htext]

end Automaton

namespace Table

variable {g : Grammar} {options : CompileOptions} {cg : CompiledGrammar} {t : Table}

/-- Every sentence without the error symbol is accepted, with or without its tree, if no rule is
empty or has a level and every kernel is adequate. -/
theorem sentence_accepted (h : (g.compile options).result = .ok cg) (ht : cg.table = some t)
    (hempty : ∀ nt ∈ g.nonterminals, ∀ r ∈ nt.rules, r.tokens ≠ [])
    (hlevel : ∀ (i : Nat) (r : Production),
      (Automaton.generate g).grammar.rules[i]? = some r → r.level = 0)
    (hadequate : ∀ K, (Automaton.generate g).grammar.Kernel K →
      (Automaton.generate g).grammar.Adequate K)
    {w : List String} (hw : g.Sentence w) (hordinary : errorName ∉ w) {s rest rest' : Stream}
    {tokens : List Token} {last : Token} (hreads : s.Reads tokens rest)
    (hlast : rest.next = .ok (last, rest')) (hend : last.isEnd = true)
    (hnames : List.Forall₂ (fun token x => t.tokenName (t.terminalOf (some token)) = .ok x)
      tokens w) :
    ∃ N, ∀ n, N ≤ n →
      (t.run n s).result = .ended .accepted ∧ (t.run n s).errors = [] ∧
      (t.watch (Forest.apply t) Forest.empty n s).result = .ended .accepted ∧
      (t.watch (Forest.apply t) Forest.empty n s).errors = [] := by
  have hg := Automaton.generated_of_compile h ht
  have wf := hg.well_formed
  have hpredictive : (Automaton.generate g).grammar.Predictive :=
    ⟨⟨hlevel, fun i r => hg.binary_symbols⟩, hg.no_empty hempty, hadequate⟩
  obtain ⟨r, u, ws, hr, hsym, hws, hderives⟩ := hg.represents.derives_of_sentence hw
  obtain ⟨token, stream, hnext, hup⟩ := Automaton.upcoming_of_reads hreads hlast hend
    (hg.terminals_of_names hnames hws)
  have hclean : ∀ z ∈ ws ++ [SymbolTable.endSymbol], z ≠ SymbolTable.errorSymbol := by
    rintro z hz rfl
    rcases List.mem_append.mp hz with hz | hz
    · exact hordinary (hws.text_mem hz hg.represents.error_text)
    · cases List.mem_singleton.mp hz
  obtain ⟨c₁, c₂, hlead, hstop, herrors⟩ :=
    hg.accepts_of_derives hpredictive hr hsym hderives hclean hup
  obtain ⟨N, hN⟩ := watch_of_leads watched_recorder hnext hlead hstop
  obtain ⟨M, hM⟩ := watch_of_leads hg.watched_forest hnext hlead hstop
  rw [herrors] at hN hM
  refine ⟨max N M, ?_⟩
  intro n hn
  obtain ⟨hresult, hclean⟩ := hN n (by omega)
  obtain ⟨hresult', hclean'⟩ := hM n (by omega)
  exact ⟨hresult, hclean, hresult', hclean'⟩

set_option maxRecDepth 100000 in
theorem letters_sentence : ∃ cg t, (Grammar.letters.compile ⟨true, none⟩).result = .ok cg ∧
    cg.table = some t ∧ Grammar.letters.Sentence ["a", "a"] ∧
    ∃ N, ∀ n, N ≤ n →
      (t.run n (Stream.ofTerminals [2, 2])).result = .ended .accepted ∧
      (t.run n (Stream.ofTerminals [2, 2])).errors = [] ∧
      (t.watch (Forest.apply t) Forest.empty n (Stream.ofTerminals [2, 2])).result =
        .ended .accepted ∧
      (t.watch (Forest.apply t) Forest.empty n (Stream.ofTerminals [2, 2])).errors = [] := by
  obtain ⟨cg, t, h, ht, hname⟩ := @Grammar.exists_table Grammar.letters ⟨true, none⟩
    (fun t => t.tokenName 2 = .ok "a") (by decide +kernel)
  have hg := Automaton.generated_of_compile h ht
  have hempty : ∀ nt ∈ Grammar.letters.nonterminals, ∀ r ∈ nt.rules, r.tokens ≠ [] := by
    decide
  have hlevel : ∀ r ∈ (Automaton.generate Grammar.letters).grammar.rules, r.level = 0 := by
    decide +kernel
  have hadequate := hg.well_formed.all_adequate (hg.no_empty hempty)
    (show (Automaton.generate Grammar.letters).grammar.Closed
      ((Automaton.generate Grammar.letters).states.toList.map (·.kernel)) by decide +kernel)
    (by decide +kernel)
  have hletter : Grammar.letters.Generates ["a"] ["a"] := .terminal (by decide) .nil
  have hsentence : Grammar.letters.Sentence ["a", "a"] := by
    have htwo : Grammar.letters.Generates ["s", "a"] (["a"] ++ ["a"]) :=
      .of_names (by decide) hletter hletter
    exact ⟨_, rfl, .of_names (by decide) htwo .nil⟩
  have hreads : (Stream.ofTerminals [2, 2]).Reads
      [⟨.ordinary, 2, [], 1, 1⟩, ⟨.ordinary, 2, [], 1, 1⟩] (Stream.ofTerminals []) :=
    .cons rfl rfl (.cons rfl rfl (.nil _))
  have hnames : List.Forall₂ (fun token x => t.tokenName (t.terminalOf (some token)) = .ok x)
      [⟨.ordinary, 2, [], 1, 1⟩, ⟨.ordinary, 2, [], 1, 1⟩] ["a", "a"] :=
    .cons (of_decide_eq_true hname) (.cons (of_decide_eq_true hname) .nil)
  exact ⟨cg, t, h, ht, hsentence, sentence_accepted h ht hempty
    (fun i r hr => hlevel r (Array.mem_of_getElem? hr)) hadequate hsentence (by decide) hreads rfl
    rfl hnames⟩

end Table

end ParserTables

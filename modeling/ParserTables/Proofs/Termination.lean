import Mathlib.Data.Finset.Card
import Mathlib.Tactic.Ring
import ParserTables.Proofs.Completeness

/-!
Runs of the parser end, also on erroneous input and through any number of recoveries, where no rule
is empty and no nonterminal comes back to itself by rules of one symbol. Each step lowers a
potential. Input that is done with counts most, so it pays for the symbol that it puts on the stack
and for the next recovery; going back to a state that shifts the error symbol uses a recovery up;
and a reduction makes the stack shorter or takes its top up the rules of one symbol. The potential
is linear in the length of the input, and so is the number of steps.
-/

namespace ParserTables

/-- The nonterminal `x` has a rule that is just `y`. -/
def Grammar.Renames (g : Grammar) (x y : String) : Prop :=
  ∃ nt ∈ g.nonterminals, nt.name = x ∧ ∃ r ∈ nt.rules, r.tokens.map (·.name) = [y]

namespace NumberedGrammar

variable {g : NumberedGrammar} {a b x : Nat} {xs ys : List Nat}

def Renames (g : NumberedGrammar) (a b : Nat) : Prop :=
  ∃ (i : Nat) (r : Production), g.rules[i]? = some r ∧ r.lhs = a ∧ r.symbols = [b]

open Classical in
/-- The number of symbols that become `b` by rules of one symbol. -/
noncomputable def rank (g : NumberedGrammar) (b : Nat) : Nat :=
  ((Finset.range g.symbolCount).filter fun a => Relation.TransGen g.Renames a b).card

theorem rank_le (g : NumberedGrammar) (b : Nat) : g.rank b ≤ g.symbolCount := by
  classical
  unfold rank
  calc _ ≤ (Finset.range g.symbolCount).card := Finset.card_filter_le _ _
    _ = g.symbolCount := Finset.card_range _

/-- Without cycles, ranks rise along rules of one symbol. -/
theorem WellFormed.rank_lt (wf : g.WellFormed) (hcycle : ∀ a, ¬ Relation.TransGen g.Renames a a)
    (h : g.Renames a b) : g.rank a < g.rank b := by
  classical
  unfold rank
  refine Finset.card_lt_card (Finset.ssubset_iff_subset_ne.mpr ⟨?_, ?_⟩)
  · intro c hc
    obtain ⟨hlt, hca⟩ := Finset.mem_filter.mp hc
    exact Finset.mem_filter.mpr ⟨hlt, hca.tail h⟩
  · intro heq
    have hlt : a ∈ Finset.range g.symbolCount := by
      obtain ⟨i, r, hr, rfl, -⟩ := h
      exact Finset.mem_range.mpr (wf.lhs_lt i r hr)
    have hab : a ∈ (Finset.range g.symbolCount).filter
        fun c => Relation.TransGen g.Renames c b := Finset.mem_filter.mpr ⟨hlt, .single h⟩
    rw [← heq] at hab
    exact hcycle a (Finset.mem_filter.mp hab).2

/-- What the symbols on the stack weigh: their number, and the rank of the top. -/
noncomputable def weight (g : NumberedGrammar) (xs : List Nat) : Nat :=
  (g.symbolCount + 1) * xs.length + (xs.head?.map g.rank).getD 0

theorem weight_cons_le (g : NumberedGrammar) (x : Nat) (xs : List Nat) :
    g.weight (x :: xs) < (g.symbolCount + 1) * (xs.length + 2) := by
  have hrank := g.rank_le x
  simp only [weight, List.length_cons, List.head?_cons, Option.map_some, Option.getD_some,
    Nat.mul_add]
  omega

theorem le_weight (g : NumberedGrammar) (xs : List Nat) :
    (g.symbolCount + 1) * xs.length ≤ g.weight xs :=
  Nat.le_add_right _ _

theorem WellFormed.weight_reduce (wf : g.WellFormed) (hempty : g.NoEmptyRule)
    (hcycle : ∀ a, ¬ Relation.TransGen g.Renames a a) {i : Nat} {r : Production}
    (hr : g.rules[i]? = some r) (ys : List Nat) :
    g.weight (r.lhs :: ys) < g.weight (r.symbols.reverse ++ ys) := by
  match hsym : r.symbols with
  | [] => exact absurd hsym (hempty i r hr)
  | [b] =>
    have hlt := wf.rank_lt hcycle ⟨i, r, hr, rfl, hsym⟩
    simpa [weight] using hlt
  | b :: c :: rest =>
    calc g.weight (r.lhs :: ys) < (g.symbolCount + 1) * (ys.length + 2) := g.weight_cons_le _ _
      _ ≤ (g.symbolCount + 1) * ((b :: c :: rest).reverse ++ ys).length := by
        refine Nat.mul_le_mul_left _ ?_
        simp only [List.length_append, List.length_reverse, List.length_cons]
        omega
      _ ≤ g.weight ((b :: c :: rest).reverse ++ ys) := g.le_weight _

/-- Two units pay for a symbol on the stack. -/
theorem weight_paid (g : NumberedGrammar) {k k' : Nat} (hk : k + 2 ≤ k')
    (hlen : ys.length ≤ xs.length) (x : Nat) :
    (g.symbolCount + 1) * k + g.weight (x :: ys) < (g.symbolCount + 1) * k' + g.weight xs :=
  calc (g.symbolCount + 1) * k + g.weight (x :: ys)
      < (g.symbolCount + 1) * k + (g.symbolCount + 1) * (ys.length + 2) :=
        Nat.add_lt_add_left (g.weight_cons_le x ys) _
    _ = (g.symbolCount + 1) * (k + 2) + (g.symbolCount + 1) * ys.length := by ring
    _ ≤ (g.symbolCount + 1) * k' + (g.symbolCount + 1) * xs.length :=
        Nat.add_le_add (Nat.mul_le_mul_left _ hk) (Nat.mul_le_mul_left _ hlen)
    _ ≤ (g.symbolCount + 1) * k' + g.weight xs := Nat.add_le_add_left (g.le_weight xs) _

end NumberedGrammar

namespace Numbering.Represents

variable {g : Grammar} {m : Numbering} {a b : Nat}

theorem renames_names (h : Represents g m) (hab : m.grammar.Renames a b) :
    ∃ x y, m.naming.symbols.text? a = some x ∧ m.naming.symbols.text? b = some y ∧
      g.Renames x y := by
  obtain ⟨i, r, hr, rfl, hsym⟩ := hab
  have hi : i ≠ 0 := by
    rintro rfl
    obtain ⟨r₀, u, hr₀, -, hsym₀, -⟩ := h.well_formed.start_rule
    cases hr₀.symm.trans hr
    simp [hsym] at hsym₀
  obtain ⟨nt, hnt, src, hsrc, hx, -, hall⟩ := h.rule_source i r hr hi
  rw [hsym] at hall
  obtain ⟨t, rest, ht, hrest, htokens⟩ := List.forall₂_cons_left_iff.mp hall
  cases hrest
  exact ⟨nt.name, t.name, hx, ht, nt, hnt, rfl, src, hsrc, by simp [htokens]⟩

theorem renames_acyclic (h : Represents g m) (hcycle : ∀ x, ¬ Relation.TransGen g.Renames x x)
    (a : Nat) : ¬ Relation.TransGen m.grammar.Renames a a := by
  have hnames : ∀ {b}, Relation.TransGen m.grammar.Renames a b →
      ∃ x y, m.naming.symbols.text? a = some x ∧ m.naming.symbols.text? b = some y ∧
        Relation.TransGen g.Renames x y := by
    intro b hab
    induction hab with
    | single hab =>
      obtain ⟨x, y, hx, hy, hxy⟩ := h.renames_names hab
      exact ⟨x, y, hx, hy, .single hxy⟩
    | tail _ hbc ih =>
      obtain ⟨x, y, hx, hy, hxy⟩ := ih
      obtain ⟨y', z, hy', hz, hyz⟩ := h.renames_names hbc
      obtain rfl := Option.some.inj (hy.symm.trans hy')
      exact ⟨x, z, hx, hz, hxy.tail hyz⟩
  intro haa
  obtain ⟨x, y, hx, hy, hxy⟩ := hnames haa
  obtain rfl := Option.some.inj (hx.symm.trans hy)
  exact hcycle x hxy

end Numbering.Represents

/-- What the token ahead counts as input; the end of input can still be shifted. -/
def Token.share (token : Token) : Nat := if token.isEnd then 1 else 2

theorem Stream.share_next {s s' : Stream} {token : Token} (h : s.next = .ok (token, s'))
    (hend : s.last.isEnd = true) :
    s'.upcoming.length + token.share ≤ s.upcoming.length + 1 := by
  obtain ⟨upcoming, last⟩ := s
  have hshare : token.share ≤ 2 := by
    unfold Token.share
    split <;> decide
  cases upcoming with
  | nil =>
    cases h
    simp [Token.share, hend]
  | cons read rest =>
    cases read with
    | error fault => cases h
    | ok token₁ =>
      cases h
      simp only [List.length_cons]
      omega

namespace Config

variable {c c' : Config}

def input (c : Config) : Nat := c.stream.upcoming.length + (c.ahead.map Token.share).getD 0

/-- What a configuration has for further symbols; a recovery that has begun is paid for. -/
def budget (c : Config) : Nat := 4 * c.input + if c.recovering then 0 else 2

theorem budget_lt (h : c'.input < c.input) : c'.budget + 2 ≤ c.budget := by
  unfold budget
  split <;> split <;> omega

end Config

namespace Automaton

variable {g : Grammar} {m : Automaton} {t : Table} {c c' : Config} {xs ys : List Nat}
  {event : Option Event} {used : List Token} {token : Token} {σ : Type} {s : Stream}

theorem Passes.input_lt (h : Passes c token c') (hend : c.stream.last.isEnd = true) :
    c'.input < c.input := by
  obtain ⟨hahead, hne, token', hahead', hnext⟩ := h
  have hshare := Stream.share_next hnext hend
  simp only [Config.input, hahead, hahead', Option.map_some, Option.getD_some]
  have htoken : token.share = 2 := by simp [Token.share, hne]
  omega

noncomputable def potential (m : Automaton) (c : Config) (xs : List Nat) : Nat :=
  (m.grammar.symbolCount + 1) * c.budget + m.grammar.weight xs

/-- Every step lowers the potential. -/
theorem Effect.potential_lt (wf : m.grammar.WellFormed) (hempty : m.grammar.NoEmptyRule)
    (hcycle : ∀ a, ¬ Relation.TransGen m.grammar.Renames a a)
    (hend : c.stream.last.isEnd = true) (he : Effect m t c xs event used c' ys) :
    m.potential c' ys < m.potential c xs ∧ c'.stream.last.isEnd = true := by
  have hpass : ∀ {token}, Passes c token c' →
      c'.budget + 2 ≤ c.budget ∧ c'.stream.last.isEnd = true := by
    intro token h
    obtain ⟨-, -, token', -, hnext⟩ := id h
    exact ⟨Config.budget_lt (h.input_lt hend), (Stream.next_keeps hnext).2.1 ▸ hend⟩
  cases he with
  | @shift token x flag _ hpasses _ _ _ _ =>
    obtain ⟨hbudget, hend'⟩ := hpass hpasses
    exact ⟨m.grammar.weight_paid hbudget (Nat.le_refl _) x, hend'⟩
  | shift_end hahead htoken hnone hstream _ _ =>
    have hinput : c'.input < c.input := by
      simp [Config.input, Token.share, hahead, htoken, hnone, hstream]
    exact ⟨m.grammar.weight_paid (Config.budget_lt hinput) (Nat.le_refl _) _,
      hstream ▸ hend⟩
  | @reduce i r zs flag _ _ hr hxs hahead hstream _ hrec =>
    have hbudget : c'.budget = c.budget := by
      simp [Config.budget, Config.input, hahead, hstream, hrec]
    subst hxs
    refine ⟨?_, hstream ▸ hend⟩
    unfold potential
    rw [hbudget]
    exact Nat.add_lt_add_left (wf.weight_reduce hempty hcycle hr zs) _
  | discard hpasses _ _ _ =>
    obtain ⟨hbudget, hend'⟩ := hpass hpasses
    refine ⟨?_, hend'⟩
    unfold potential
    have hlt := Nat.mul_lt_mul_of_pos_left (show c'.budget < c.budget by omega)
      (Nat.succ_pos m.grammar.symbolCount)
    exact Nat.add_lt_add_right hlt _
  | @trap token popped _ _ _ _ hahead hstream _ hnot hrec =>
    have hbudget : c'.budget + 2 ≤ c.budget := by
      simp [Config.budget, Config.input, hahead, hstream, hnot, hrec]
    refine ⟨m.grammar.weight_paid hbudget ?_ _, hstream ▸ hend⟩
    rw [List.length_drop]
    exact Nat.sub_le _ _

variable {o : Observer σ} {seen : σ}

theorem Generated.watchFrom_ends (h : Generated g m t) (hempty : m.grammar.NoEmptyRule)
    (hcycle : ∀ a, ¬ Relation.TransGen m.grammar.Renames a a) (hc : m.Follows c xs)
    (hend : c.stream.last.isEnd = true) {n : Nat} (hn : m.potential c xs < n) :
    (t.watchFrom o n seen c).result ≠ .outOfSteps := by
  induction n generalizing seen c xs with
  | zero => omega
  | succ n ih =>
    have hkept := h.step_kept hc
    unfold Table.watchFrom
    cases hstep : t.step c with
    | error b => simp
    | ok outcome =>
      rw [hstep] at hkept
      cases hkept with
      | @next event used c' ys heffect hfollows =>
        obtain ⟨hlt, hend'⟩ := heffect.potential_lt h.well_formed hempty hcycle hend
        dsimp only
        cases hafter : o.after seen event with
        | error b => simp
        | ok seen' => exact ih hfollows hend' (by omega)
      | @stop event c' ending _ =>
        dsimp only
        cases hafter : o.after seen event with
        | error b => simp
        | ok seen' => simp

/-- The number of steps in which a run on a grammar without empty rules and renaming cycles ends. -/
def stepBound (m : Automaton) (s : Stream) : Nat :=
  4 * (m.grammar.symbolCount + 1) * (s.upcoming.length + 2)

theorem Generated.watch_halts (h : Generated g m t) (hempty : m.grammar.NoEmptyRule)
    (hcycle : ∀ a, ¬ Relation.TransGen m.grammar.Renames a a) (hend : s.last.isEnd = true)
    (start : σ) {n : Nat} (hn : m.stepBound s ≤ n) :
    (t.watch o start n s).result ≠ .outOfSteps := by
  unfold Table.watch
  rcases s.next_cases with ⟨token, rest, hnext⟩ | ⟨message, hnext, -⟩ | ⟨b, hnext, -⟩
  · rw [hnext]
    have hstart := h.clean_start token rest
    refine h.watchFrom_ends hempty hcycle ⟨⟨_, hstart.path, hstart.stands⟩, by simp⟩
      ((Stream.next_keeps hnext).2.1 ▸ hend) (Nat.lt_of_lt_of_le ?_ hn)
    have hshare := Stream.share_next hnext hend
    calc m.potential _ [] = (m.grammar.symbolCount + 1) *
          (4 * (rest.upcoming.length + token.share) + 2) := rfl
      _ < (m.grammar.symbolCount + 1) * (4 * (s.upcoming.length + 2)) :=
        Nat.mul_lt_mul_of_pos_left (by omega) (Nat.succ_pos _)
      _ = m.stepBound s := by
        unfold stepBound
        ring
  · rw [hnext]
    simp
  · rw [hnext]
    simp

theorem Generated.watched_ends (h : Generated g m t) {start : σ} (hw : Table.Watched t o start s)
    (n : Nat) : (t.watch o start n s).result = .outOfSteps ∨
      (∃ b, (t.watch o start n s).result = .breached b ∧ .error (.breach b) ∈ s.upcoming) ∨
      ∃ ending, (t.watch o start n s).result = .ended ending := by
  rcases t.watch_cases o start n s with
    ⟨message, -, hrun⟩ | ⟨b, hmem, hrun⟩ | ⟨seen, c, hreach, hends⟩
  · rw [hrun]
    exact Or.inr (Or.inr ⟨_, rfl⟩)
  · rw [hrun]
    exact Or.inr (Or.inl ⟨b, rfl, hmem⟩)
  · obtain ⟨xs, done, hfollows, hprogress, -⟩ := h.reaches_invariant
      (P := fun _ _ _ _ => True) (fun _ _ _ => trivial) (fun _ _ _ => trivial) hreach
    have hkept := h.step_kept hfollows
    have hobserved := hw seen c hreach
    generalize t.watch o start n s = run at hends
    cases hends with
    | out_of_steps => exact Or.inl rfl
    | breached hstep =>
      rw [hstep] at hkept
      cases hkept with
      | unread hmem => exact Or.inr (Or.inl ⟨_, rfl, (progress_keeps hprogress).1.subset hmem⟩)
    | unseen_next hstep hafter =>
      obtain ⟨seen', hok⟩ := hobserved _ _ (Or.inl hstep)
      cases hafter.symm.trans hok
    | unseen_stop hstep hafter =>
      obtain ⟨seen', hok⟩ := hobserved _ _ (Or.inr ⟨_, hstep⟩)
      cases hafter.symm.trans hok
    | ended _ _ => exact Or.inr (Or.inr ⟨_, rfl⟩)

theorem Generated.exists_ending (h : Generated g m t) (hempty : m.grammar.NoEmptyRule)
    (hcycle : ∀ a, ¬ Relation.TransGen m.grammar.Renames a a) (hend : s.last.isEnd = true)
    (hread : ∀ fault, .error fault ∉ s.upcoming) {start : σ} (hw : Table.Watched t o start s)
    {n : Nat} (hn : m.stepBound s ≤ n) :
    ∃ ending, (t.watch o start n s).result = .ended ending := by
  rcases h.watched_ends hw n with hout | ⟨b, -, hmem⟩ | hended
  · exact absurd hout (h.watch_halts hempty hcycle hend start hn)
  · exact absurd hmem (hread _)
  · exact hended

end Automaton

namespace Table

variable {g : Grammar} {options : CompileOptions} {cg : CompiledGrammar} {t : Table}

/-- Every run on tokens that the end of input follows halts, whoever observes it, and it has an
ending, with or without its tree, when the tokens can be read. -/
theorem run_halts (h : (g.compile options).result = .ok cg) (ht : cg.table = some t)
    (hempty : ∀ nt ∈ g.nonterminals, ∀ r ∈ nt.rules, r.tokens ≠ [])
    (hcycle : ∀ x, ¬ Relation.TransGen g.Renames x x) {s : Stream} (hend : s.last.isEnd = true)
    {n : Nat} (hn : (Automaton.generate g).stepBound s ≤ n) :
    (∀ (σ : Type) (o : Observer σ) (start : σ), (t.watch o start n s).result ≠ .outOfSteps) ∧
    ((∀ fault, .error fault ∉ s.upcoming) →
      (∃ ending, (t.run n s).result = .ended ending) ∧
      ∃ ending, (t.watch (Forest.apply t) Forest.empty n s).result = .ended ending) := by
  have hg := Automaton.generated_of_compile h ht
  have hrules := hg.no_empty hempty
  have hrenames := hg.represents.renames_acyclic hcycle
  refine ⟨fun σ o start => hg.watch_halts hrules hrenames hend start hn, ?_⟩
  intro hread
  exact ⟨hg.exists_ending hrules hrenames hend hread watched_recorder hn,
    hg.exists_ending hrules hrenames hend hread hg.watched_forest hn⟩

end Table

/-- Names that are ranked along the renaming rules do not come back to themselves. -/
theorem Grammar.acyclic_of_rank {g : Grammar} (rank : String → Nat)
    (hrank : ∀ nt ∈ g.nonterminals, ∀ r ∈ nt.rules, r.tokens.length = 1 →
      ∀ token ∈ r.tokens, rank nt.name < rank token.name) (x : String) :
    ¬ Relation.TransGen g.Renames x x := by
  have hstep : ∀ {x y}, g.Renames x y → rank x < rank y := by
    rintro x y ⟨nt, hnt, rfl, r, hr, htokens⟩
    obtain ⟨token, hsingle, rfl⟩ := List.map_eq_singleton_iff.mp htokens
    exact hrank nt hnt r hr (by simp [hsingle]) token (by simp [hsingle])
  have hlt : ∀ {y}, Relation.TransGen g.Renames x y → rank x < rank y := by
    intro y h
    induction h with
    | single h => exact hstep h
    | tail _ h ih => exact ih.trans (hstep h)
  intro h
  exact Nat.lt_irrefl _ (hlt h)

/-- Lines of sums; a line that is none is thrown away up to its stop. -/
def Grammar.lines : Grammar where
  name := "lines"
  start := some ⟨"text", .unknown⟩
  tokens := ["n", "+", "stop"].map fun name => some ⟨name, "", "", false, .unknown⟩
  precedences := []
  nonterminals := [("text", [["line"], ["text", "line"]]),
      ("line", [["sum", "stop"], [errorName, "stop"]]),
      ("sum", [["n"], ["sum", "+", "n"]])].map fun (owner, rules) =>
    ⟨owner, rules.map fun names =>
      ⟨names.map fun name => ⟨name, "", .unknown⟩, "", .left, "", .unknown⟩, .unknown⟩

namespace Table

set_option maxRecDepth 100000 in
/-- A good line, one with a sum without operands, and one that the input ends in. -/
theorem lines_halt : ∃ cg t, (Grammar.lines.compile ⟨true, none⟩).result = .ok cg ∧
    cg.table = some t ∧ (∀ x, ¬ Relation.TransGen Grammar.lines.Renames x x) ∧
    ∀ n, 440 ≤ n →
      ∃ ending, (t.watch (Forest.apply t) Forest.empty n
        (Stream.ofTerminals [2, 3, 2, 4, 3, 3, 4, 2, 7])).result = .ended ending := by
  obtain ⟨cg, t, h, ht, -⟩ := @Grammar.exists_table Grammar.lines ⟨true, none⟩ (fun _ => true)
    (by decide +kernel)
  have hcycle := Grammar.acyclic_of_rank (g := Grammar.lines)
    (fun x => if x = "text" then 0 else if x = "line" ∨ x = "sum" then 1 else 2) (by decide)
  have hsymbols : (Automaton.generate Grammar.lines).grammar.symbolCount = 9 := by decide +kernel
  refine ⟨cg, t, h, ht, hcycle, ?_⟩
  intro n hn
  have hbound : (Automaton.generate Grammar.lines).stepBound
      (Stream.ofTerminals [2, 3, 2, 4, 3, 3, 4, 2, 7]) ≤ n := by
    unfold Automaton.stepBound
    rw [hsymbols]
    exact hn
  exact ((run_halts h ht (by decide) hcycle rfl hbound).2 (by simp [Stream.ofTerminals])).2

end Table

end ParserTables

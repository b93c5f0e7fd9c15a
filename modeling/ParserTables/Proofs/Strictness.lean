import ParserTables.Proofs.Completeness
import ParserTables.Proofs.Exploration

/-!
What strict compilation lets pass. A choice between a shift and a reduction is declared if their
rules have different levels, or if both are binary, so that their associativity decides. Conflicts
are counted only in the states that reduce on the terminals that follow, and only on the
followers that are found by looking one token past the rule. So there are two kinds of choice
that are neither declared nor counted: a tie in a state with one complete rule, where the shift is
kept, and a follower that is hidden behind symbols that can be empty.
-/

namespace ParserTables

namespace NumberedGrammar

variable {g : NumberedGrammar} {k : ItemSet} {a d d' : Item} {x : Nat}

/-- The declarations tell a shift of one rule from a reduction by another. -/
def Declared (g : NumberedGrammar) (a d : Item) : Prop :=
  g.level a ≠ g.level d ∨ (g.isBinary a = true ∧ g.isBinary d = true)

def Follows (g : NumberedGrammar) (d : Item) (x : Nat) : Prop :=
  ∃ s, g.lhs? d.rule = some s ∧ g.Follow s x

structure Decided (g : NumberedGrammar) (K : Set Item) : Prop where
  shift_reduce : ∀ a d x, g.Closure K a → g.tokenAt? a = some x → g.Closure K d →
    g.isFinal d = true → g.Follows d x → g.Declared a d
  reduce_reduce : ∀ d d' x, g.Closure K d → g.isFinal d = true → g.Closure K d' →
    g.isFinal d' = true → g.Follows d x → g.Follows d' x → d = d'

/-- A state with one complete rule shifts what can come after it, and nothing is declared. -/
def KeepsTie (g : NumberedGrammar) (k : ItemSet) : Prop :=
  ∃ a d x, (g.offer k).finals = [d] ∧ (g.offer k).actsOnError = false ∧
    a ∈ g.closure k.items ∧ g.tokenAt? a = some x ∧ g.Follows d x ∧ ¬ g.Declared a d

/-- A state that reduces on the terminals that follow overlooks one of them, and there is a choice
on it. -/
def OverlooksFollower (g : NumberedGrammar) (k : ItemSet) : Prop :=
  splits (g.offer k).finals (g.offer k).actsOnError = true ∧
  ∃ d ∈ (g.offer k).finals, ∃ x, g.Follows d x ∧ x ∉ g.followOf d ∧
    ((∃ a ∈ g.closure k.items, g.tokenAt? a = some x ∧ ¬ g.Declared a d) ∨
      ∃ d' ∈ (g.offer k).finals, d' ≠ d ∧ g.Follows d' x)

theorem Follows.lt (h : g.Follows d x) : x < g.terminalCount := by
  obtain ⟨s, -, hfollow⟩ := h
  exact hfollow.lt

section Uncounted

variable (hsr : (g.state k).shiftReduce = 0) (hrr : (g.state k).reduceReduce = 0)

include hsr in
/-- Where nothing is counted, no shift competes on a follower that was found. -/
theorem not_shifted_of_uncounted
    (hsplits : splits (g.offer k).finals (g.offer k).actsOnError = true)
    (hd : d ∈ (g.offer k).finals) (hx : x ∈ g.followOf d) (hlt : x < g.terminalCount)
    (ha : a ∈ g.closure k.items) : g.tokenAt? a ≠ some x := by
  intro ht
  have hmem : g.decision (g.offer k) x ∈
      (List.range g.terminalCount).map (g.decision (g.offer k)) :=
    List.mem_map_of_mem (List.mem_range.mpr hlt)
  have hcount : (g.decision (g.offer k) x).shiftReduce ≠ true :=
    List.countP_eq_zero.mp hsr _ hmem
  have hcandidate := (mem_candidates_iff hsplits).mpr ⟨hd, hx⟩
  have hoffered : (g.offered (g.offer k) x).isSome = true := by
    rw [offered_shift ha ht]
    rfl
  apply hcount
  unfold decision
  cases hc : candidates (g.offer k) x with
  | nil =>
    rw [hc] at hcandidate
    cases hcandidate
  | cons c others => exact hoffered

include hrr in
theorem final_unique_of_uncounted
    (hsplits : splits (g.offer k).finals (g.offer k).actsOnError = true)
    (hd : d ∈ (g.offer k).finals) (hx : x ∈ g.followOf d) (hd' : d' ∈ (g.offer k).finals)
    (hx' : x ∈ g.followOf d') (hlt : x < g.terminalCount) : d = d' := by
  have hmem : g.decision (g.offer k) x ∈
      (List.range g.terminalCount).map (g.decision (g.offer k)) :=
    List.mem_map_of_mem (List.mem_range.mpr hlt)
  have hcount : (g.decision (g.offer k) x).reduceReduce ≠ true :=
    List.countP_eq_zero.mp hrr _ hmem
  have hone := (mem_candidates_iff hsplits).mpr ⟨hd, hx⟩
  have htwo := (mem_candidates_iff hsplits).mpr ⟨hd', hx'⟩
  cases hc : candidates (g.offer k) x with
  | nil =>
    rw [hc] at hone
    cases hone
  | cons c others =>
    have hothers : others = [] := by
      by_contra hne
      apply hcount
      unfold decision
      rw [hc]
      cases others with
      | nil => exact absurd rfl hne
      | cons c' others => rfl
    rw [hc, hothers] at hone htwo
    rw [List.mem_singleton.mp hone, List.mem_singleton.mp htwo]

include hsr hrr in
/-- In a state without counted conflicts, all choices are declared but for the two gaps. -/
theorem WellFormed.decided_iff (wf : g.WellFormed) :
    g.Decided {a | a ∈ k} ↔ ¬ g.KeepsTie k ∧ ¬ g.OverlooksFollower k := by
  constructor
  · intro h
    constructor
    · rintro ⟨a, d, x, hfinals, -, ha, ht, hfollows, hundeclared⟩
      obtain ⟨hd, hf⟩ := mem_offer_finals.mp (hfinals ▸ List.mem_singleton_self d)
      exact hundeclared (h.shift_reduce a d x (wf.mem_closure.mp ha) ht (wf.mem_closure.mp hd) hf
        hfollows)
    · rintro ⟨-, d, hd, x, hfollows, -, ⟨a, ha, ht, hundeclared⟩ | ⟨d', hd', hne, hfollows'⟩⟩
      · obtain ⟨hd, hf⟩ := mem_offer_finals.mp hd
        exact hundeclared (h.shift_reduce a d x (wf.mem_closure.mp ha) ht (wf.mem_closure.mp hd)
          hf hfollows)
      · obtain ⟨hd, hf⟩ := mem_offer_finals.mp hd
        obtain ⟨hd', hf'⟩ := mem_offer_finals.mp hd'
        exact hne (h.reduce_reduce d' d x (wf.mem_closure.mp hd') hf' (wf.mem_closure.mp hd) hf
          hfollows' hfollows)
  · rintro ⟨htie, hoverlooked⟩
    constructor
    · intro a d x ha ht hd hf hfollows
      have ha := wf.mem_closure.mpr ha
      have hd : d ∈ (g.offer k).finals := mem_offer_finals.mpr ⟨wf.mem_closure.mpr hd, hf⟩
      by_contra hundeclared
      cases hsplits : splits (g.offer k).finals (g.offer k).actsOnError with
      | true =>
        by_cases hx : x ∈ g.followOf d
        · exact not_shifted_of_uncounted hsr hsplits hd hx hfollows.lt ha ht
        · exact hoverlooked ⟨hsplits, d, hd, x, hfollows, hx, Or.inl ⟨a, ha, ht, hundeclared⟩⟩
      | false =>
        obtain ⟨hone, hacts⟩ := finals_of_not_splits hsplits hd
        exact htie ⟨a, d, x, hone, hacts, ha, ht, hfollows, hundeclared⟩
    · intro d d' x hd hf hd' hf' hfollows hfollows'
      have hd : d ∈ (g.offer k).finals := mem_offer_finals.mpr ⟨wf.mem_closure.mpr hd, hf⟩
      have hd' : d' ∈ (g.offer k).finals := mem_offer_finals.mpr ⟨wf.mem_closure.mpr hd', hf'⟩
      by_contra hne
      have hsplits : splits (g.offer k).finals (g.offer k).actsOnError = true := by
        by_contra hsplits
        obtain ⟨hone, -⟩ := finals_of_not_splits (by simpa using hsplits) hd
        rw [hone] at hd'
        exact hne (List.mem_singleton.mp hd').symm
      by_cases hx : x ∈ g.followOf d
      · by_cases hx' : x ∈ g.followOf d'
        · exact hne (final_unique_of_uncounted hrr hsplits hd hx hd' hx' hfollows.lt)
        · exact hoverlooked ⟨hsplits, d', hd', x, hfollows', hx', Or.inr ⟨d, hd, hne, hfollows⟩⟩
      · exact hoverlooked ⟨hsplits, d, hd, x, hfollows, hx,
          Or.inr ⟨d', hd', Ne.symm hne, hfollows'⟩⟩

end Uncounted

theorem WellFormed.not_overlooks (wf : g.WellFormed) (hempty : g.NoEmptyRule) :
    ¬ g.OverlooksFollower k := by
  rintro ⟨-, d, -, x, ⟨s, hl, hfollow⟩, hx, -⟩
  exact hx (wf.mem_of_follow hempty hl hfollow)

end NumberedGrammar

namespace Automaton

variable {g : Grammar} {m : Automaton} {s : State}

theorem le_count {f : State → Nat} {ss : List State} (hs : s ∈ ss) :
    f s ≤ ss.foldr (fun s count => f s + count) 0 := by
  induction ss with
  | nil => cases hs
  | cons s₀ ss ih =>
    rw [List.foldr_cons]
    rcases List.mem_cons.mp hs with rfl | hs
    · omega
    · have := ih hs
      omega

theorem uncounted_of_no_conflicts (h : m.hasConflicts = false) (hs : s ∈ m.states) :
    s.shiftReduce = 0 ∧ s.reduceReduce = 0 := by
  simp only [hasConflicts, Bool.or_eq_false_iff, decide_eq_false_iff_not] at h
  have hshift : s.shiftReduce ≤ m.shiftReduce := le_count (Array.mem_toList_iff.mpr hs)
  have hreduce : s.reduceReduce ≤ m.reduceReduce := le_count (Array.mem_toList_iff.mpr hs)
  omega

theorem no_conflicts_of_finish {name : String} {cg : CompiledGrammar}
    (h : Compilation.finish name true m = .ok cg) : m.hasConflicts = false := by
  unfold Compilation.finish at h
  split at h
  · cases h
  · next hne => simpa using hne

theorem no_conflicts_of_compile {options : CompileOptions} {cg : CompiledGrammar}
    (hstrict : options.strict = true) (h : (g.compile options).result = .ok cg) :
    (generate g).hasConflicts = false := by
  unfold Grammar.compile at h
  dsimp only at h
  rw [hstrict] at h
  split at h
  · cases h
  · split at h
    · exact no_conflicts_of_finish h
    · split at h
      · cases h
      · split at h
        · cases h
        · exact no_conflicts_of_finish h

/-- What strict compilation vouches for: in every state all choices are declared, unless the state
keeps a tie or overlooks a follower; and without empty rules no follower is overlooked. -/
theorem strict_decided_iff {options : CompileOptions} {cg : CompiledGrammar}
    (hstrict : options.strict = true) (h : (g.compile options).result = .ok cg) :
    let G := (generate g).grammar
    (∀ s ∈ (generate g).states, (G.Decided {a | a ∈ s.kernel} ↔
      ¬ G.KeepsTie s.kernel ∧ ¬ G.OverlooksFollower s.kernel)) ∧
    ((∀ nt ∈ g.nonterminals, ∀ r ∈ nt.rules, r.tokens ≠ []) →
      ∀ s ∈ (generate g).states, ¬ G.OverlooksFollower s.kernel) := by
  intro G
  obtain ⟨hissues, t, ht, -⟩ := compile_eq_ok h
  have hg := generated_of_no_issues hissues ht
  have hconflicts := no_conflicts_of_compile hstrict h
  constructor
  · intro s hs
    obtain ⟨hsr, hrr⟩ := uncounted_of_no_conflicts hconflicts hs
    obtain ⟨k, rfl⟩ := hg.built s hs
    exact hg.well_formed.decided_iff hsr hrr
  · intro hempty s _
    exact hg.well_formed.not_overlooks (hg.no_empty hempty)

set_option maxRecDepth 100000 in
theorem letters_decided_iff : ∃ cg, (Grammar.letters.compile ⟨true, none⟩).result = .ok cg ∧
    ∀ s ∈ (generate Grammar.letters).states,
      (generate Grammar.letters).grammar.Decided {a | a ∈ s.kernel} ↔
        ¬ (generate Grammar.letters).grammar.KeepsTie s.kernel := by
  obtain ⟨cg, t, h, -, -⟩ := @Grammar.exists_table Grammar.letters ⟨true, none⟩
    (fun _ => true) (by decide +kernel)
  obtain ⟨hdecided, hoverlooked⟩ := strict_decided_iff rfl h
  refine ⟨cg, h, ?_⟩
  intro s hs
  rw [hdecided s hs]
  exact and_iff_left (hoverlooked (by decide) s hs)

/-- Whether an alternative belongs to the inner or to the outer condition is not declared. -/
def conditionals : Grammar where
  name := "conditionals"
  start := some ⟨"s", .unknown⟩
  tokens := ["if", "else", "x"].map fun name => some ⟨name, "", "", false, .unknown⟩
  precedences := []
  nonterminals := [⟨"s", [["if", "s"], ["if", "s", "else", "s"], ["x"]].map fun names =>
    ⟨names.map fun name => ⟨name, "", .unknown⟩, "", .left, "", .unknown⟩, .unknown⟩]

set_option maxRecDepth 100000 in
theorem conditionals_undecided : ∃ cg, (conditionals.compile ⟨true, none⟩).result = .ok cg ∧
    ∃ s ∈ (generate conditionals).states,
      ¬ (generate conditionals).grammar.Decided {a | a ∈ s.kernel} := by
  obtain ⟨cg, t, h, -, -⟩ := @Grammar.exists_table conditionals ⟨true, none⟩
    (fun _ => true) (by decide +kernel)
  have hstate : ((generate conditionals).states[4]?).map (·.kernel.items) =
      some [⟨1, 2⟩, ⟨2, 2⟩] := by decide +kernel
  have hrule : ((generate conditionals).grammar.rules[2]?).map (·.symbols) =
      some [2, 6, 3, 6] := by decide +kernel
  obtain ⟨s, hs, hkernel⟩ := Option.map_eq_some_iff.mp hstate
  obtain ⟨r, hr, hsymbols⟩ := Option.map_eq_some_iff.mp hrule
  refine ⟨cg, h, s, Array.mem_of_getElem? hs, ?_⟩
  intro hdecided
  have hmem : ∀ a, a ∈ s.kernel ↔ a = ⟨1, 2⟩ ∨ a = ⟨2, 2⟩ := by
    intro a
    rw [ItemSet.mem_def, hkernel]
    simp
  have hfollow : (generate conditionals).grammar.Follow 6 3 :=
    @NumberedGrammar.Follow.inside _ 2 r [2] [] [6] 6 3 3 hr hsymbols .nil
      (.terminal (by decide +kernel))
  have hdeclared := hdecided.shift_reduce ⟨2, 2⟩ ⟨1, 2⟩ 3 (.kernel ((hmem _).mpr (Or.inr rfl)))
    (by decide +kernel) (.kernel ((hmem _).mpr (Or.inl rfl))) (by decide +kernel)
    ⟨6, by decide +kernel, hfollow⟩
  rcases hdeclared with hlevel | ⟨hbinary, -⟩
  · exact hlevel (by decide +kernel)
  · revert hbinary
    decide +kernel

end Automaton

end ParserTables

import ParserTables.Proofs.Adequacy
import ParserTables.Proofs.Bounds
import ParserTables.Proofs.Exploration

/-!
What the three passes leave of a closure. They choose among its shifts and the reductions by its
complete rules and put nothing else in their place; where a shift is lost, a reduction is there
instead. In a state that acts on the error symbol nothing is done by default, so that what has no
transition of its own is an error and recovered from.
-/

namespace ParserTables

def State.Reduces (s : State) (tr : Transition) : Prop :=
  s.fallback = some tr ∨
    ∃ t, s.onTerminal? t = some tr ∧ (tr.action = .reduce ∨ tr.action = .accept)

namespace NumberedGrammar

variable {g : NumberedGrammar} {k : ItemSet} {o : Offer} {a c d : Item} {t : Nat}
  {tr : Transition}

section Rooted

variable (hg : g.Rooted)

include hg

theorem Rooted.reduction_accepts : (g.reduction c).action = .accept ↔ c.rule = 0 := by
  unfold reduction
  rw [← hg.lhs_start_iff]
  by_cases hstart : g.lhs? c.rule = some g.startSymbol <;> simp [hstart]

theorem Rooted.after_end (h : g.tokenBefore? a = some SymbolTable.endSymbol) : a = ⟨0, 2⟩ := by
  obtain ⟨i, p⟩ := a
  cases p with
  | zero => cases h
  | succ p =>
    cases hg.end_only ⟨i, p⟩ h
    rfl

theorem Rooted.kernel_of_final_start (hk : g.IsKernel k) (hc : g.Closure {a | a ∈ k} c)
    (hf : g.isFinal c = true) (hstart : c.rule = 0) : {a | a ∈ k} = {⟨0, 2⟩} := by
  obtain rfl : c = ⟨0, 2⟩ := hg.final_start hf hstart
  have hmem : ⟨0, 2⟩ ∈ k := hc.mem_of_phase (Nat.succ_ne_zero 1)
  have hne : k ≠ initialKernel := by
    rintro rfl
    cases mem_initialKernel.mp hmem
  obtain ⟨x, hx⟩ := hk.same_symbol hne
  have hend : x = SymbolTable.endSymbol :=
    Option.some.inj ((hx _ hmem).2.symm.trans hg.token_end)
  subst hend
  ext a
  constructor
  · intro ha
    exact hg.after_end (hx a ha).2
  · rintro rfl
    exact hmem

end Rooted

theorem reduction_target : {b | b ∈ (g.reduction c).target} = {c} := by
  ext b
  simp [reduction]

theorem shift_or_reduction (h : (g.state k).onTerminal? t = some tr) (hb : g.Bounded) :
    (tr.action = .shift ∧ g.IsGoto {a | a ∈ k} t tr.target) ∨
    (tr = ⟨.throwAway, ItemSet.empty⟩ ∧ t = SymbolTable.errorSymbol) ∨
    ∃ c, g.Closure {a | a ∈ k} c ∧ g.isFinal c = true ∧ tr = g.reduction c := by
  obtain ⟨-, ⟨rfl, hne⟩ | ⟨rfl, ht, -⟩ | ⟨c, hc, -, rfl⟩⟩ := onTerminal_cases h
  · exact Or.inl ⟨rfl, hb.isGoto_iff.mpr ⟨rfl, hne⟩⟩
  · exact Or.inr (Or.inl ⟨rfl, ht⟩)
  · obtain ⟨hcl, hf⟩ := mem_offer_finals.mp hc
    exact Or.inr (Or.inr ⟨c, hb.mem_closure.mp hcl, hf, rfl⟩)

theorem reduces_by (h : (g.state k).Reduces tr) (hb : g.Bounded) :
    ∃ c, g.Closure {a | a ∈ k} c ∧ g.isFinal c = true ∧ tr = g.reduction c := by
  rcases h with hdefault | ⟨t, ht, haction⟩
  · rw [fallback_state] at hdefault
    obtain ⟨c, hc, rfl⟩ := Option.map_eq_some_iff.mp hdefault
    obtain ⟨hcl, hf⟩ := mem_offer_finals.mp (fallbackItem_mem hc)
    exact ⟨c, hb.mem_closure.mp hcl, hf, rfl⟩
  · rcases shift_or_reduction ht hb with ⟨hshift, -⟩ | ⟨rfl, -⟩ | hreduction
    · simp [hshift] at haction
    · simp at haction
    · exact hreduction

theorem reduces_of_eq (h : (g.state k).onTerminal? t = some (g.reduction c)) :
    (g.state k).Reduces (g.reduction c) :=
  Or.inr ⟨t, h, (reduction_action c).symm⟩

/-- Weighing against the default leaves what was kept, or drops a shift for the default. -/
theorem settle_cases (g : NumberedGrammar) (o : Offer) (kept : Option Transition) :
    (g.settle o kept).1 = kept ∨
    (g.settle o kept).1 = none ∧ ∃ d, fallbackItem? o = some d := by
  unfold settle
  split
  · next d hd =>
    split
    · exact Or.inl rfl
    · exact Or.inr ⟨rfl, d, hd⟩
    · exact Or.inl rfl
  · exact Or.inl rfl

/-- On what is offered to a shift, something is kept: the shift, or a reduction in its place. -/
theorem kept_of_offered (h : g.offered o t = some tr) :
    g.kept? o t = some tr ∨ ∃ c, g.kept? o t = some (g.reduction c) := by
  unfold kept?
  by_cases hacts : o.actsOnError = true
  · rw [if_pos hacts, h]
    exact Or.inl rfl
  · rw [if_neg hacts, h]
    cases (candidates o t).head? with
    | none => exact Or.inl rfl
    | some c => exact Or.inr ⟨c, rfl⟩

theorem Bounded.move_of_goto (hb : g.Bounded) (ht : t < g.terminalCount)
    (hgoto : (g.Goto {a | a ∈ k} t).Nonempty) : ∃ tr, (g.state k).moveOn? t = some tr ∧
      (tr.action = .shift ∧ g.IsGoto {a | a ∈ k} t tr.target ∨ (g.state k).Reduces tr) := by
  have hown := onTerminal_eq (k := k) ht
  have hmove : ∀ tr, (g.state k).onTerminal? t = some tr → (g.state k).moveOn? t = some tr := by
    intro tr htr
    simp [State.moveOn?, htr]
  obtain ⟨T, hT⟩ : ∃ T, g.IsGoto {a | a ∈ k} t T :=
    ⟨_, hb.goto_items k t, hgoto⟩
  have hoffered : g.offered (g.offer k) t = some ⟨.shift, T⟩ :=
    (hb.offered_shift_iff.mpr ⟨rfl, hT⟩).1
  rcases settle_cases g (g.offer k) (g.kept? (g.offer k) t) with
    hkeep | ⟨hdrop, d, hd⟩
  · rw [hkeep] at hown
    rcases kept_of_offered hoffered with hshift | ⟨c, hreduce⟩
    · rw [hshift] at hown
      exact ⟨_, hmove _ hown, Or.inl ⟨rfl, hT⟩⟩
    · rw [hreduce] at hown
      exact ⟨_, hmove _ hown, Or.inr (reduces_of_eq hown)⟩
  · rw [hdrop] at hown
    have hdefault : (g.state k).fallback = some (g.reduction d) := by
      rw [fallback_state, hd]
      rfl
    exact ⟨g.reduction d, by simp [State.moveOn?, hown, hdefault], Or.inr (Or.inl hdefault)⟩

theorem afterError_iff :
    g.afterError k = true ↔ ∃ a ∈ k, g.tokenBefore? a = some SymbolTable.errorSymbol := by
  simp only [afterError, List.any_eq_true, decide_eq_true_eq]
  exact Iff.rfl

theorem Bounded.goto_nonempty_iff (hb : g.Bounded) :
    (g.Goto {a | a ∈ k} t).Nonempty ↔ (g.goto (g.closure k.items) t).isEmpty = false := by
  rw [← hb.goto_items, ItemSet.isEmpty_eq_false]
  exact Iff.rfl

theorem Bounded.actsOnError (hb : g.Bounded)
    (h : (g.Goto {a | a ∈ k} SymbolTable.errorSymbol).Nonempty ∨
      ∃ a ∈ k, g.tokenBefore? a = some SymbolTable.errorSymbol) :
    (g.offer k).actsOnError = true := by
  rw [hb.goto_nonempty_iff, ← afterError_iff] at h
  simp only [offer]
  by_cases hne : (g.goto (g.closure k.items) SymbolTable.errorSymbol).isEmpty = false
  · simp [hne]
  · have hafter : g.afterError k = true := h.resolve_left hne
    simp [hafter]

theorem Bounded.offered_throw (hb : g.Bounded)
    (hnot : ¬ (g.Goto {a | a ∈ k} SymbolTable.errorSymbol).Nonempty)
    (hpassed : ∃ a ∈ k, g.tokenBefore? a = some SymbolTable.errorSymbol) :
    g.offered (g.offer k) SymbolTable.errorSymbol = some ⟨.throwAway, ItemSet.empty⟩ := by
  have hempty : (g.goto (g.closure k.items) SymbolTable.errorSymbol).isEmpty = true := by
    rw [hb.goto_nonempty_iff] at hnot
    simpa using hnot
  have hafter : g.afterError k = true := afterError_iff.mpr hpassed
  simp [offered, offer, hempty, hafter]

theorem fallbackItem_none (h : o.actsOnError = true) : fallbackItem? o = none := by
  unfold fallbackItem?
  by_cases hsplits : splits o.finals o.actsOnError = true
  · exact if_pos (by rw [hsplits, h]; rfl)
  · have hnone : o.finals = [] := by
      by_contra hsome
      obtain ⟨c, hc⟩ := List.exists_mem_of_ne_nil _ hsome
      have hacts := (finals_of_not_splits (by simpa using hsplits) hc).2
      cases h.symm.trans hacts
    rw [if_neg (by simp [hsplits]), hnone]
    rfl

theorem onTerminal_of_acts (h : (g.offer k).actsOnError = true) (ht : t < g.terminalCount) :
    (g.state k).onTerminal? t = (g.offered (g.offer k) t).or
      ((candidates (g.offer k) t).head?.map g.reduction) := by
  have hkept : g.kept? (g.offer k) t = (g.offered (g.offer k) t).or
      ((candidates (g.offer k) t).head?.map g.reduction) := if_pos h
  rw [onTerminal_eq ht, ← hkept]
  rcases settle_cases g (g.offer k) (g.kept? (g.offer k) t) with
    hkeep | ⟨-, d, hd⟩
  · exact hkeep
  · cases (fallbackItem_none h).symm.trans hd

theorem Bounded.shifts_error (hb : g.Bounded) (hlt : SymbolTable.errorSymbol < g.terminalCount)
    (h : (g.Goto {a | a ∈ k} SymbolTable.errorSymbol).Nonempty) :
    ∃ tr, (g.state k).onTerminal? SymbolTable.errorSymbol = some tr ∧ tr.action = .shift ∧
      g.IsGoto {a | a ∈ k} SymbolTable.errorSymbol tr.target := by
  obtain ⟨tr, hshift, hgoto⟩ : ∃ tr : Transition, tr.action = .shift ∧
      g.IsGoto {a | a ∈ k} SymbolTable.errorSymbol tr.target :=
    ⟨⟨.shift, _⟩, rfl, hb.goto_items k _, h⟩
  have hoffered := (hb.offered_shift_iff.mpr ⟨hshift, hgoto⟩).1
  refine ⟨tr, ?_, hshift, hgoto⟩
  rw [onTerminal_of_acts (hb.actsOnError (Or.inl h)) hlt, hoffered]
  rfl

theorem Bounded.throws_error (hb : g.Bounded) (hlt : SymbolTable.errorSymbol < g.terminalCount)
    (hnot : ¬ (g.Goto {a | a ∈ k} SymbolTable.errorSymbol).Nonempty)
    (hpassed : ∃ a ∈ k, g.tokenBefore? a = some SymbolTable.errorSymbol) :
    ∃ tr, (g.state k).onTerminal? SymbolTable.errorSymbol = some tr ∧ tr.action = .throwAway := by
  refine ⟨⟨.throwAway, ItemSet.empty⟩, ?_, rfl⟩
  rw [onTerminal_of_acts (hb.actsOnError (Or.inr hpassed)) hlt, hb.offered_throw hnot hpassed]
  rfl

theorem fallback_none (h : (g.offer k).actsOnError = true) : (g.state k).fallback = none := by
  rw [fallback_state, fallbackItem_none h]
  rfl

theorem followOf_lt (h : t ∈ g.followOf c) : t < g.terminalCount := by
  unfold followOf at h
  split at h
  · exact (mem_shiftable.mp h).1
  · cases h

/-- In a state that acts on the error symbol every complete item has its reductions spelled out,
unless something else is done there. -/
theorem own_of_follow (h : (g.offer k).actsOnError = true) (hc : c ∈ (g.offer k).finals)
    (ht : t ∈ g.followOf c) : ∃ tr, (g.state k).onTerminal? t = some tr := by
  have hsplits : splits (g.offer k).finals (g.offer k).actsOnError = true := by
    by_contra hnot
    have hacts := (finals_of_not_splits (by simpa using hnot) hc).2
    cases h.symm.trans hacts
  have hmem := (mem_candidates_iff hsplits).mpr ⟨hc, ht⟩
  rw [onTerminal_of_acts h (followOf_lt ht)]
  cases hold : g.offered (g.offer k) t with
  | some old => exact ⟨old, rfl⟩
  | none =>
    cases hcs : candidates (g.offer k) t with
    | nil =>
      rw [hcs] at hmem
      cases hmem
    | cons c' cs => exact ⟨g.reduction c', rfl⟩

theorem nontrivial_own (h : (g.state k).onTerminal? t = some tr) : tr.isNontrivial = true := by
  obtain ⟨-, ⟨rfl, hne⟩ | ⟨rfl, -⟩ | ⟨c, -, -, rfl⟩⟩ := onTerminal_cases h
  · simp [Transition.isNontrivial, hne]
  · rfl
  · have hne : (g.reduction c).target.isEmpty = false :=
      ItemSet.isEmpty_eq_false.mpr ⟨c, by simp [reduction]⟩
    simp [Transition.isNontrivial, hne]

end NumberedGrammar

namespace Automaton

variable {g : Grammar} {s : State}

theorem rooted_of_mem (hs : s ∈ (generate g).states) : (generate g).grammar.Rooted := by
  have hm := explored_of_mem hs
  have hinitial := hm.kernel_of_mem (Array.mem_of_getElem? hm.first)
  obtain ⟨r, hr, -⟩ := (Option.any_eq_true _ _).mp
    (hinitial.items ⟨0, 0⟩ (NumberedGrammar.mem_initialKernel.mpr rfl))
  exact Numbering.rooted_of_rule hr

/-- Differences that group to the left and recover from any error. -/
def differences : Grammar where
  name := "differences"
  start := some ⟨"d", .unknown⟩
  tokens := ["n", "-"].map fun name => some ⟨name, "", "", false, .unknown⟩
  precedences := [some ⟨"-", .left, .unknown⟩]
  nonterminals := [⟨"d", [["d", "-", "d"], ["n"], [errorName]].map fun names =>
    ⟨names.map fun name => ⟨name, "", .unknown⟩, "", .left, "", .unknown⟩, .unknown⟩]

/-- Resolving conflicts selects among what the closure of a kernel offers and leaves no hole: the
pushes are those of the closure; a shift has the target that the closure has; a reduction is by
one complete item of the closure, and accepts exactly if it is the start production, which is
complete in the state behind the end of input only; and a terminal that the closure shifts is
still shifted, or some reduction is made on it. -/
theorem resolution_selects (hs : s ∈ (generate g).states) :
    let G := (generate g).grammar
    let K : Set Item := {a | a ∈ s.kernel}
    (∀ x tr, s.onNonterminal? x = some tr ↔
      G.terminalCount ≤ x ∧ tr.action = .push ∧ G.IsGoto K x tr.target) ∧
    (∀ t tr, s.onTerminal? t = some tr → tr.action = .shift → G.IsGoto K t tr.target) ∧
    (∀ tr, s.Reduces tr → ∃ c, G.Closure K c ∧ G.isFinal c = true ∧
      {b | b ∈ tr.target} = {c} ∧ tr.action = (if c.rule = 0 then .accept else .reduce) ∧
      (c.rule = 0 → K = {⟨0, 2⟩})) ∧
    ∀ t, t < G.terminalCount → (G.Goto K t).Nonempty → ∃ tr, s.moveOn? t = some tr ∧
      (tr.action = .shift ∧ G.IsGoto K t tr.target ∨ s.Reduces tr) := by
  obtain ⟨k, rfl⟩ := state_of_mem (Array.mem_toList_iff.mpr hs)
  intro G K
  have hb : G.Bounded := Numbering.bounded g
  have hrooted : G.Rooted := rooted_of_mem hs
  have hkernel : G.IsKernel k := (explored_of_mem hs).kernel_of_mem hs
  refine ⟨fun x tr => hb.onNonterminal_iff, ?_, ?_, fun t ht hgoto => hb.move_of_goto ht hgoto⟩
  · intro t tr htr hshift
    rcases NumberedGrammar.shift_or_reduction htr hb with ⟨-, hgoto⟩ | ⟨rfl, -⟩ | ⟨c, -, -, rfl⟩
    · exact hgoto
    · cases hshift
    · rcases NumberedGrammar.reduction_action (g := G) c with haction | haction
      · cases hshift.symm.trans haction
      · cases hshift.symm.trans haction
  · intro tr htr
    obtain ⟨c, hc, hf, rfl⟩ := NumberedGrammar.reduces_by htr hb
    have honly := hrooted.kernel_of_final_start hkernel hc hf
    refine ⟨c, hc, hf, NumberedGrammar.reduction_target, ?_, honly⟩
    by_cases hstart : c.rule = 0
    · rw [if_pos hstart]
      exact hrooted.reduction_accepts.mpr hstart
    · rw [if_neg hstart]
      exact (NumberedGrammar.reduction_action c).resolve_left fun haccept =>
        hstart (hrooted.reduction_accepts.mp haccept)

set_option maxRecDepth 100000 in
/-- Behind a difference the closure shifts another minus sign; the state reduces instead. -/
theorem differences_resolved : ∃ s ∈ (generate differences).states, ∃ tr,
    s.moveOn? 3 = some tr ∧ tr.action = .reduce ∧ {b | b ∈ tr.target} = {⟨1, 3⟩} := by
  have hstate : ((generate differences).states[6]?).map (fun s =>
      (s.kernel.items, s.onTerminal? 3, s.fallback.map (·.target.items))) =
      some ([⟨1, 1⟩, ⟨1, 3⟩], none, some [⟨1, 3⟩]) := by decide +kernel
  obtain ⟨s, hs, hshape⟩ := Option.map_eq_some_iff.mp hstate
  simp only [Prod.mk.injEq] at hshape
  obtain ⟨hkernel, hown, hdefault⟩ := hshape
  have hmem := Array.mem_of_getElem? hs
  obtain ⟨-, -, hreduces, hhole⟩ := resolution_selects hmem
  have hdot : (⟨1, 1⟩ : Item) ∈ s.kernel := by
    rw [ItemSet.mem_def, hkernel]
    decide
  obtain ⟨tr, hmove, -⟩ := hhole 3 (by decide +kernel)
    ⟨_, ⟨1, 1⟩, .kernel hdot, by decide +kernel, rfl⟩
  have hfallback : s.fallback = some tr := by simpa [State.moveOn?, hown] using hmove
  obtain ⟨c, -, -, htarget, haction, -⟩ := hreduces tr (Or.inl hfallback)
  have hitems : tr.target.items = [⟨1, 3⟩] := by simpa [hfallback] using hdefault
  have hc : c ∈ tr.target := htarget.ge (Set.mem_singleton c)
  obtain rfl : c = ⟨1, 3⟩ := by simpa [ItemSet.mem_def, hitems] using hc
  exact ⟨s, hmem, tr, hmove, haction, htarget⟩

/-- The error symbol is what a state that acts on it falls back on. If the closure shifts it, so
does the state; otherwise, right after it, the state throws tokens away. In both cases the state
does nothing by default, and has a transition of its own on every terminal that can come after a
complete rule. -/
theorem error_caught (hs : s ∈ (generate g).states) :
    let G := (generate g).grammar
    let K : Set Item := {a | a ∈ s.kernel}
    let Shifted := (G.Goto K SymbolTable.errorSymbol).Nonempty
    let Passed := ∃ a ∈ s.kernel, G.tokenBefore? a = some SymbolTable.errorSymbol
    (Shifted → ∃ tr, s.onTerminal? SymbolTable.errorSymbol = some tr ∧ tr.action = .shift ∧
      G.IsGoto K SymbolTable.errorSymbol tr.target) ∧
    (¬ Shifted → Passed →
      ∃ tr, s.onTerminal? SymbolTable.errorSymbol = some tr ∧ tr.action = .throwAway) ∧
    (Shifted ∨ Passed → s.fallback = none ∧
      ∀ c, G.Closure K c → G.isFinal c = true → ∀ t ∈ G.followOf c,
        ∃ tr, s.onTerminal? t = some tr ∧ tr.isNontrivial = true) := by
  obtain ⟨k, rfl⟩ := state_of_mem (Array.mem_toList_iff.mpr hs)
  intro G K Shifted Passed
  have hb : G.Bounded := Numbering.bounded g
  have herror := (rooted_of_mem hs).error_lt
  refine ⟨hb.shifts_error herror, hb.throws_error herror, ?_⟩
  intro hacts
  have hacting : (G.offer k).actsOnError = true := hb.actsOnError hacts
  refine ⟨NumberedGrammar.fallback_none hacting, ?_⟩
  intro c hc hf t ht
  have hfinal := NumberedGrammar.mem_offer_finals.mpr ⟨hb.mem_closure.mpr hc, hf⟩
  obtain ⟨tr, htr⟩ := NumberedGrammar.own_of_follow hacting hfinal ht
  exact ⟨tr, htr, NumberedGrammar.nontrivial_own htr⟩

set_option maxRecDepth 100000 in
/-- At the beginning the error symbol is shifted; right after it tokens are thrown away, but not
those that can come after the difference that was given up. -/
theorem differences_recovered : ∃ s ∈ (generate differences).states,
    ∃ s' ∈ (generate differences).states,
      (∃ tr, s.onTerminal? SymbolTable.errorSymbol = some tr ∧ tr.action = .shift) ∧
      (∃ tr, s'.onTerminal? SymbolTable.errorSymbol = some tr ∧ tr.action = .throwAway) ∧
      s'.fallback = none ∧ ∃ tr, s'.onTerminal? 3 = some tr ∧ tr.isNontrivial = true := by
  have hb : (generate differences).grammar.Bounded := Numbering.bounded differences
  have hstate : ((generate differences).states[0]?).map (·.kernel) =
      some (ItemSet.ofList [⟨0, 0⟩]) := by decide +kernel
  have hstate' : ((generate differences).states[1]?).map (·.kernel) =
      some (ItemSet.ofList [⟨3, 1⟩]) := by decide +kernel
  obtain ⟨s, hs, hkernel⟩ := Option.map_eq_some_iff.mp hstate
  obtain ⟨s', hs', hkernel'⟩ := Option.map_eq_some_iff.mp hstate'
  have hmem := Array.mem_of_getElem? hs
  have hmem' := Array.mem_of_getElem? hs'
  obtain ⟨hshift, -, -⟩ := error_caught hmem
  obtain ⟨-, hthrow, hacts⟩ := error_caught hmem'
  rw [hkernel, hb.goto_nonempty_iff] at hshift
  rw [hkernel', hb.goto_nonempty_iff] at hthrow hacts
  have hdot : (⟨3, 1⟩ : Item) ∈ ItemSet.ofList [⟨3, 1⟩] := by decide
  have hpassed : ∃ a ∈ ItemSet.ofList [⟨3, 1⟩], (generate differences).grammar.tokenBefore? a =
      some SymbolTable.errorSymbol := ⟨⟨3, 1⟩, hdot, by decide +kernel⟩
  obtain ⟨tr, htr, haction, -⟩ := hshift (by decide +kernel)
  obtain ⟨hnone, hown⟩ := hacts (Or.inr hpassed)
  exact ⟨s, hmem, s', hmem', ⟨tr, htr, haction⟩, hthrow (by decide +kernel) hpassed, hnone,
    hown ⟨3, 1⟩ (.kernel hdot) (by decide +kernel) 3 (by decide +kernel)⟩

end Automaton

end ParserTables

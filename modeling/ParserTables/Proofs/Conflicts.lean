import Mathlib.Algebra.BigOperators.Fin
import Mathlib.Data.Nat.Count
import Mathlib.Data.Set.Card
import ParserTables.Proofs.Resolution
import ParserTables.Proofs.Safety
import ParserTables.Proofs.Strictness

/-!
The conflicts that are counted and those that are kept. Complete rules are rivals on a terminal
that can follow several of them, and a rule competes with what the state does on the terminal
anyway. The counters of an automaton are the numbers of the places where this happens; the lists of
its states have one entry for each that loses, and what the state does in the end is none of these.

Adequate kernels leave one way to a conflict. A state that throws tokens away behind the error
symbol does something on that symbol, and a complete rule that the symbol can follow competes with
it, although nothing is shifted there.
-/

namespace ParserTables

namespace NumberedGrammar

variable {g : NumberedGrammar} {k : ItemSet} {o : Offer} {c : Item} {t : Nat}
  {tr loser : Transition}

def Complete (g : NumberedGrammar) (k : ItemSet) : Set Item :=
  {c | g.Closure {a | a ∈ k} c ∧ g.isFinal c = true}

def PassedError (g : NumberedGrammar) (k : ItemSet) : Prop :=
  ∃ a ∈ k, g.tokenBefore? a = some SymbolTable.errorSymbol

/-- The closure shifts the error symbol, or tokens are thrown away behind it. -/
def ActsOnError (g : NumberedGrammar) (k : ItemSet) : Prop :=
  (g.Goto {a | a ∈ k} SymbolTable.errorSymbol).Nonempty ∨ g.PassedError k

/-- Something is done on a terminal before any reduction is considered: it is shifted, or tokens
are thrown away. -/
def Occupied (g : NumberedGrammar) (k : ItemSet) (t : Nat) : Prop :=
  (g.Goto {a | a ∈ k} t).Nonempty ∨ t = SymbolTable.errorSymbol ∧ g.PassedError k

/-- The complete items that are to be reduced on a terminal, which are considered if there are
several in the closure, or one and the state acts on the error symbol. -/
def Rivals (g : NumberedGrammar) (k : ItemSet) (t : Nat) : Set Item :=
  {c | c ∈ g.Complete k ∧ t ∈ g.followOf c ∧
    (2 ≤ (g.Complete k).ncard ∨ (g.Complete k).ncard = 1 ∧ g.ActsOnError k)}

theorem ncard_mem_list {α : Type} {l : List α} (h : l.Nodup) : {a | a ∈ l}.ncard = l.length := by
  classical
  rw [← List.coe_toFinset, Set.ncard_coe_finset, List.toFinset_card_of_nodup h]

theorem nodup_offer_finals : (g.offer k).finals.Nodup := ItemSet.nodup _

theorem Bounded.complete_eq (hb : g.Bounded) : g.Complete k = {c | c ∈ (g.offer k).finals} :=
  Set.ext fun _ => (and_congr_left fun _ => hb.mem_closure.symm).trans mem_offer_finals.symm

theorem Bounded.actsOnError_iff (hb : g.Bounded) :
    (g.offer k).actsOnError = true ↔ g.ActsOnError k := by
  refine ⟨?_, hb.actsOnError⟩
  intro h
  unfold ActsOnError PassedError
  rw [hb.goto_nonempty_iff, ← afterError_iff]
  simp only [offer, Bool.or_eq_true, Bool.and_eq_true, Bool.not_eq_true'] at h
  exact h.imp id And.right

theorem Bounded.occupied_iff (hb : g.Bounded) :
    (g.offered (g.offer k) t).isSome = true ↔ g.Occupied k t := by
  unfold Occupied PassedError
  rw [hb.goto_nonempty_iff, ← afterError_iff]
  constructor
  · intro h
    obtain ⟨tr, htr⟩ := Option.isSome_iff_exists.mp h
    rcases offered_cases htr with ⟨-, hne⟩ | ⟨-, ht, hthrows⟩
    · exact Or.inl hne
    · simp only [offer, Bool.and_eq_true] at hthrows
      exact Or.inr ⟨ht, hthrows.2⟩
  · rintro h
    by_cases hne : (g.goto (g.closure k.items) t).isEmpty = false
    · simp [offered, offer, hne]
    · obtain ⟨rfl, hafter⟩ := h.resolve_left hne
      simp [offered, offer, hne, hafter]

theorem Bounded.rivals_eq (hb : g.Bounded) :
    g.Rivals k t = {c | c ∈ candidates (g.offer k) t} := by
  have hsplits : splits (g.offer k).finals (g.offer k).actsOnError = true ↔
      2 ≤ (g.Complete k).ncard ∨ (g.Complete k).ncard = 1 ∧ g.ActsOnError k := by
    rw [hb.complete_eq, ncard_mem_list nodup_offer_finals, ← hb.actsOnError_iff]
    simp [splits]
  ext c
  unfold Rivals
  rw [Set.mem_ofPred_eq, ← hsplits, hb.complete_eq, Set.mem_ofPred_eq, Set.mem_ofPred_eq]
  constructor
  · rintro ⟨hc, ht, hs⟩
    exact (mem_candidates_iff hs).mpr ⟨hc, ht⟩
  · intro hc
    obtain ⟨hfinal, ht⟩ := mem_candidates hc
    refine ⟨hfinal, ht, ?_⟩
    by_contra hs
    rw [candidates_nil (by simpa using hs)] at hc
    cases hc

theorem nodup_candidates : (candidates (g.offer k) t).Nodup := by
  by_cases hs : splits (g.offer k).finals (g.offer k).actsOnError = true
  · have hfollowed : (g.offer k).followed =
        (g.offer k).finals.map fun c => (c, g.followOf c) := if_pos hs
    unfold candidates
    rw [hfollowed, List.filter_map, List.map_map]
    simpa [Function.comp_def] using nodup_offer_finals.filter _
  · rw [candidates_nil (by simpa using hs)]
    exact List.nodup_nil

theorem Bounded.ncard_rivals (hb : g.Bounded) :
    (g.Rivals k t).ncard = (candidates (g.offer k) t).length := by
  rw [hb.rivals_eq, ncard_mem_list nodup_candidates]

theorem Bounded.rivals_nonempty (hb : g.Bounded) :
    (g.Rivals k t).Nonempty ↔ candidates (g.offer k) t ≠ [] := by
  rw [hb.rivals_eq]
  exact ⟨fun ⟨c, hc⟩ => List.ne_nil_of_mem hc, List.exists_mem_of_ne_nil _⟩

theorem decision_losers : (g.decision o t).losers = match candidates o t with
    | [] => []
    | c :: others => others.map g.reduction ++ match g.offered o t with
      | none => []
      | some old => [if o.actsOnError then g.reduction c else old] := by
  unfold decision
  cases candidates o t with
  | nil => rfl
  | cons c others =>
    cases g.offered o t with
    | none => rfl
    | some old => by_cases hacts : o.actsOnError = true <;> simp [hacts]

theorem decision_shiftReduce : (g.decision o t).shiftReduce = true ↔
    candidates o t ≠ [] ∧ (g.offered o t).isSome = true := by
  unfold decision
  cases candidates o t with
  | nil => simp
  | cons c others => simp

theorem decision_reduceReduce :
    (g.decision o t).reduceReduce = true ↔ 2 ≤ (candidates o t).length := by
  unfold decision
  cases candidates o t with
  | nil => simp
  | cons c others => cases others <;> simp

open Classical in
theorem length_losers : (g.decision o t).losers.length = ((candidates o t).length - 1) +
    if candidates o t ≠ [] ∧ (g.offered o t).isSome = true then 1 else 0 := by
  rw [decision_losers]
  cases candidates o t with
  | nil => simp
  | cons c others => cases g.offered o t <;> simp

theorem offered_ne_reduction (h : g.offered o t = some tr) : tr ≠ g.reduction c := by
  have haction : tr.action = .shift ∨ tr.action = .throwAway := by
    rcases offered_cases h with ⟨rfl, -⟩ | ⟨rfl, -⟩
    · exact Or.inl rfl
    · exact Or.inr rfl
  rintro rfl
  rcases reduction_action (g := g) c with hr | hr
  · simp [hr] at haction
  · simp [hr] at haction

theorem reduction_injective : Function.Injective g.reduction := by
  intro c d h
  have htarget : {b | b ∈ (g.reduction c).target} = {b | b ∈ (g.reduction d).target} := by rw [h]
  rw [reduction_target, reduction_target] at htarget
  exact Set.singleton_eq_singleton_iff.mp htarget

/-- What wins on a terminal with candidates: what was offered if the state acts on the error
symbol, and else the first candidate. No default can take it away again. -/
theorem onTerminal_of_candidates {others : List Item} (ht : t < g.terminalCount)
    (hc : candidates (g.offer k) t = c :: others) : (g.state k).onTerminal? t =
      some (if (g.offer k).actsOnError then (g.offered (g.offer k) t).getD (g.reduction c)
        else g.reduction c) := by
  by_cases hacts : (g.offer k).actsOnError = true
  · rw [onTerminal_of_acts hacts ht, hc, if_pos hacts]
    cases g.offered (g.offer k) t <;> rfl
  · have hkept : g.kept? (g.offer k) t = some (g.reduction c) := by
      unfold kept?
      rw [if_neg hacts, hc]
      rfl
    rw [onTerminal_eq ht, hkept, if_neg hacts]
    exact settle_reduction

theorem winner_ne_loser (ht : t < g.terminalCount)
    (h : loser ∈ (g.decision (g.offer k) t).losers) :
    ∃ tr, (g.state k).onTerminal? t = some tr ∧ tr ≠ loser := by
  rw [decision_losers] at h
  cases hc : candidates (g.offer k) t with
  | nil =>
    rw [hc] at h
    cases h
  | cons c others =>
    rw [hc] at h
    refine ⟨_, onTerminal_of_candidates ht hc, ?_⟩
    have hnodup : (c :: others).Nodup := hc ▸ nodup_candidates
    have hfirst : g.reduction c ∉ others.map g.reduction := by
      intro hmem
      obtain ⟨c', hc', heq⟩ := List.mem_map.mp hmem
      exact (List.nodup_cons.mp hnodup).1 (reduction_injective heq ▸ hc')
    have hother : ∀ old, g.offered (g.offer k) t = some old →
        old ≠ g.reduction c ∧ old ∉ others.map g.reduction := by
      intro old hold
      refine ⟨offered_ne_reduction hold, ?_⟩
      intro hmem
      obtain ⟨c', -, heq⟩ := List.mem_map.mp hmem
      exact offered_ne_reduction hold heq.symm
    rintro rfl
    cases hold : g.offered (g.offer k) t with
    | none =>
      rw [hold] at h
      exact hfirst (by simpa using h)
    | some old =>
      obtain ⟨hne, hnot⟩ := hother old hold
      rw [hold] at h
      by_cases hacts : (g.offer k).actsOnError = true
      · simp only [hacts, if_true, Option.getD_some, List.mem_append, List.mem_singleton] at h
        exact h.elim hnot hne
      · simp only [hacts, if_false, Bool.false_eq_true, List.mem_append, List.mem_singleton] at h
        exact h.elim hfirst hne.symm

section Sums

open Classical

theorem countP_range {p : Nat → Bool} {P : Nat → Prop} (h : ∀ i, p i = true ↔ P i) (n : Nat) :
    (List.range n).countP p = ∑ i ∈ Finset.range n, if P i then 1 else 0 := by
  rw [← Finset.card_filter, ← Nat.count_eq_card_filter_range]
  exact List.countP_congr fun i _ => (h i).trans decide_eq_true_iff.symm

theorem sum_map_range (f : Nat → Nat) (n : Nat) :
    ((List.range n).map f).sum = ∑ i ∈ Finset.range n, f i := rfl

/-- Several rules are to be reduced on a terminal. -/
def Disputed (g : NumberedGrammar) (k : ItemSet) (t : Nat) : Prop := 2 ≤ (g.Rivals k t).ncard

/-- A rule competes with what the state does on a terminal anyway. -/
def Contested (g : NumberedGrammar) (k : ItemSet) (t : Nat) : Prop :=
  (g.Rivals k t).Nonempty ∧ g.Occupied k t

theorem Bounded.contested_iff (hb : g.Bounded) : g.Contested k t ↔
    candidates (g.offer k) t ≠ [] ∧ (g.offered (g.offer k) t).isSome = true :=
  and_congr hb.rivals_nonempty hb.occupied_iff.symm

theorem Bounded.shiftReduce_state (hb : g.Bounded) : (g.state k).shiftReduce =
    ∑ t ∈ Finset.range g.terminalCount, if g.Contested k t then 1 else 0 := by
  unfold state
  dsimp only
  rw [List.countP_map]
  exact countP_range (fun t => decision_shiftReduce.trans hb.contested_iff.symm) _

theorem Bounded.reduceReduce_state (hb : g.Bounded) : (g.state k).reduceReduce =
    ∑ t ∈ Finset.range g.terminalCount, if g.Disputed k t then 1 else 0 := by
  unfold state
  dsimp only
  rw [List.countP_map]
  refine countP_range (fun t => ?_) _
  unfold Disputed
  rw [hb.ncard_rivals]
  exact decision_reduceReduce

theorem Bounded.length_conflicts (hb : g.Bounded) : (g.state k).conflicts.length =
    ∑ t ∈ Finset.range g.terminalCount,
      (((g.Rivals k t).ncard - 1) + if g.Contested k t then 1 else 0) := by
  unfold state
  rw [List.length_flatMap, List.map_map, sum_map_range]
  refine Finset.sum_congr rfl fun t _ => ?_
  simp only [Function.comp_apply, List.length_map, hb.ncard_rivals, hb.contested_iff]
  exact length_losers

theorem Bounded.conflicts_eq_nil (hb : g.Bounded) : (g.state k).conflicts = [] ↔
    (g.state k).shiftReduce = 0 ∧ (g.state k).reduceReduce = 0 := by
  rw [← List.length_eq_zero_iff, hb.length_conflicts, Finset.sum_add_distrib,
    ← hb.shiftReduce_state, Nat.add_eq_zero_iff, and_comm, hb.reduceReduce_state,
    Finset.sum_eq_zero_iff, Finset.sum_eq_zero_iff]
  refine and_congr_right fun _ => forall₂_congr fun t _ => ?_
  by_cases h : g.Disputed k t
  · have hne : (g.Rivals k t).ncard - 1 ≠ 0 := Nat.sub_ne_zero_of_lt h
    simp [h, hne]
  · have hle : (g.Rivals k t).ncard ≤ 1 := Nat.le_of_lt_succ (Nat.lt_of_not_le h)
    simp [h, Nat.sub_eq_zero_of_le hle]

end Sums

theorem mem_conflicts (h : (t, loser) ∈ (g.state k).conflicts) :
    t < g.terminalCount ∧ loser ∈ (g.decision (g.offer k) t).losers := by
  simp only [state, List.mem_flatMap, List.mem_map] at h
  obtain ⟨d, ⟨t', ht, rfl⟩, loser', hloser, heq⟩ := h
  obtain ⟨rfl, rfl⟩ := Prod.mk.inj heq
  rw [decision_terminal]
  exact ⟨List.mem_range.mp ht, hloser⟩

/-- Right behind the error symbol a rule is complete that the error symbol can follow. -/
def CompleteAtError (g : NumberedGrammar) (k : ItemSet) : Prop :=
  g.PassedError k ∧ ∃ c ∈ g.Complete k, SymbolTable.errorSymbol ∈ g.followOf c

section Adequate

variable (wf : g.WellFormed) (had : g.Adequate {a | a ∈ k})

include wf had

theorem Adequate.not_disputed : ¬g.Disputed k t := by
  have hfinite : (g.Rivals k t).Finite := by
    rw [wf.bounded.rivals_eq]
    exact List.finite_toSet _
  refine Nat.not_le_of_lt (Nat.lt_succ_of_le ((Set.ncard_le_one hfinite).mpr ?_))
  rintro c ⟨⟨hc, hf⟩, ht, -⟩ d ⟨⟨hd, hf'⟩, ht', -⟩
  obtain ⟨s, hl⟩ := lhs_of_final hf
  obtain ⟨s', hl'⟩ := lhs_of_final hf'
  by_contra hne
  exact had.reduce_reduce c d s s' t hc hf hl hd hf' hl' hne
    ⟨wf.follow_of_mem hl ht, wf.follow_of_mem hl' ht'⟩

theorem Adequate.contested_iff :
    g.Contested k t ↔ t = SymbolTable.errorSymbol ∧ g.CompleteAtError k := by
  constructor
  · rintro ⟨⟨c, hc, ht, -⟩, ⟨b, a, ha, hb, -⟩ | ⟨rfl, hpassed⟩⟩
    · obtain ⟨s, hl⟩ := lhs_of_final hc.2
      have hfollow := wf.follow_of_mem hl ht
      exact absurd hfollow (had.shift_reduce a c t s ha hb hfollow.lt hc.1 hc.2 hl)
    · exact ⟨rfl, hpassed, c, hc, ht⟩
  · rintro ⟨rfl, hpassed, c, hc, ht⟩
    have hfinite : (g.Complete k).Finite := by
      rw [wf.bounded.complete_eq]
      exact List.finite_toSet _
    have hpos := (Set.ncard_pos hfinite).mpr ⟨c, hc⟩
    refine ⟨⟨c, hc, ht, ?_⟩, Or.inr ⟨rfl, hpassed⟩⟩
    rcases Nat.lt_or_ge 1 (g.Complete k).ncard with htwo | hone
    · exact Or.inl htwo
    · exact Or.inr ⟨Nat.le_antisymm hone hpos, Or.inr hpassed⟩

theorem Adequate.reduceReduce_eq_zero : (g.state k).reduceReduce = 0 := by
  rw [wf.bounded.reduceReduce_state]
  exact Finset.sum_eq_zero fun t _ => if_neg (Adequate.not_disputed wf had)

/-- Such a state has conflicts if a rule is complete at the error symbol, and no others. -/
theorem Adequate.conflicts_eq_nil : (g.state k).conflicts = [] ↔ ¬g.CompleteAtError k := by
  have hb := wf.bounded
  have hreduce := Adequate.reduceReduce_eq_zero wf had
  rw [hb.conflicts_eq_nil, and_iff_left hreduce, hb.shiftReduce_state, Finset.sum_eq_zero_iff]
  constructor
  · intro h hcomplete
    obtain ⟨c, -, ht⟩ := hcomplete.2
    have hzero := h _ (Finset.mem_range.mpr (followOf_lt ht))
    rw [if_pos ((Adequate.contested_iff wf had).mpr ⟨rfl, hcomplete⟩)] at hzero
    cases hzero
  · intro h t _
    exact if_neg fun hcontested => h ((Adequate.contested_iff wf had).mp hcontested).2

theorem Adequate.conflict_cases (h : (t, loser) ∈ (g.state k).conflicts) :
    t = SymbolTable.errorSymbol ∧
      (g.state k).onTerminal? t = some ⟨.throwAway, ItemSet.empty⟩ ∧
      ∃ c ∈ g.Complete k, t ∈ g.followOf c ∧ loser = g.reduction c := by
  have hb := wf.bounded
  obtain ⟨ht, hloser⟩ := mem_conflicts h
  rw [decision_losers] at hloser
  cases hc : candidates (g.offer k) t with
  | nil =>
    rw [hc] at hloser
    cases hloser
  | cons c others =>
    have hone : others = [] := by
      have hnot : ¬2 ≤ (g.Rivals k t).ncard := Adequate.not_disputed wf had
      rw [hb.ncard_rivals, hc] at hnot
      simpa using hnot
    cases hold : g.offered (g.offer k) t with
    | none => simp [hc, hone, hold] at hloser
    | some old =>
      have hcontested : g.Contested k t :=
        hb.contested_iff.mpr ⟨by simp [hc], by simp [hold]⟩
      obtain ⟨rfl, hpassed, -⟩ := (Adequate.contested_iff wf had).mp hcontested
      have hacts : (g.offer k).actsOnError = true := hb.actsOnError_iff.mpr (Or.inr hpassed)
      obtain ⟨hfinal, hfollow⟩ := mem_candidates (hc ▸ List.mem_cons_self)
      have hcomplete : c ∈ g.Complete k := hb.complete_eq.ge hfinal
      obtain ⟨s, hl⟩ := lhs_of_final hcomplete.2
      have hthrow : old = ⟨.throwAway, ItemSet.empty⟩ := by
        rcases offered_cases hold with ⟨-, hne⟩ | ⟨rfl, -⟩
        · obtain ⟨b, a, ha, hb', -⟩ := hb.goto_nonempty_iff.mpr hne
          exact absurd (wf.follow_of_mem hl hfollow)
            (had.shift_reduce a c _ s ha hb' ht hcomplete.1 hcomplete.2 hl)
        · rfl
      refine ⟨rfl, ?_, c, hcomplete, hfollow, ?_⟩
      · rw [onTerminal_of_candidates ht hc, if_pos hacts, hold, hthrow]
        rfl
      · simpa [hc, hone, hold, hacts] using hloser

end Adequate

end NumberedGrammar

namespace Automaton

open Classical

variable {m : Automaton} {g : Grammar}

/-- The numbers of states and the terminals at which `P` holds. -/
noncomputable def places (m : Automaton) (P : State → Nat → Prop) :
    Finset (Fin m.states.size × Nat) :=
  (Finset.univ ×ˢ Finset.range m.grammar.terminalCount).filter fun p => P m.states[p.1] p.2

theorem sum_states (m : Automaton) (f : State → Nat → Nat) {count : State → Nat}
    (h : ∀ s ∈ m.states, count s = ∑ t ∈ Finset.range m.grammar.terminalCount, f s t) :
    m.states.toList.foldr (fun s sum => count s + sum) 0 =
      ∑ p ∈ (Finset.univ : Finset (Fin m.states.size)) ×ˢ Finset.range m.grammar.terminalCount,
        f m.states[p.1] p.2 := by
  rw [Finset.sum_product]
  have hcount : ∀ i : Fin m.states.size, ∑ t ∈ Finset.range m.grammar.terminalCount,
      f m.states[i] t = count m.states[i] := fun i => (h _ (Array.getElem_mem i.2)).symm
  simp only [hcount]
  have hfold : m.states.toList.foldr (fun s sum => count s + sum) 0 =
      (m.states.toList.map count).sum := by
    rw [List.sum_eq_foldr, List.foldr_map]
  rw [hfold]
  exact (Fin.sum_univ_fun_getElem m.states.toList count).symm

theorem count_eq_zero {f : State → Nat} {ss : List State} (h : ∀ s ∈ ss, f s = 0) :
    ss.foldr (fun s count => f s + count) 0 = 0 := by
  induction ss with
  | nil => rfl
  | cons s ss ih =>
    rw [List.foldr_cons, h s List.mem_cons_self, ih fun s' hs' => h s' (List.mem_cons_of_mem _ hs')]

theorem hasConflicts_eq_false : m.hasConflicts = false ↔
    ∀ s ∈ m.states, s.shiftReduce = 0 ∧ s.reduceReduce = 0 := by
  refine ⟨fun h s hs => uncounted_of_no_conflicts h hs, ?_⟩
  intro h
  have hshift : m.shiftReduce = 0 := count_eq_zero fun s hs => (h s (Array.mem_toList_iff.mp hs)).1
  have hreduce : m.reduceReduce = 0 :=
    count_eq_zero fun s hs => (h s (Array.mem_toList_iff.mp hs)).2
  simp [hasConflicts, hshift, hreduce]

theorem card_places (P : State → Nat → Prop) : (m.places P).card =
    ∑ p ∈ (Finset.univ : Finset (Fin m.states.size)) ×ˢ Finset.range m.grammar.terminalCount,
      if P m.states[p.1] p.2 then 1 else 0 :=
  Finset.card_filter _ _

theorem count_places {P : State → Nat → Prop} {count : State → Nat}
    (h : ∀ s ∈ m.states, count s =
      ∑ t ∈ Finset.range m.grammar.terminalCount, if P s t then 1 else 0) :
    m.states.toList.foldr (fun s sum => count s + sum) 0 = (m.places P).card := by
  rw [card_places]
  exact m.sum_states _ h

theorem built_of_mem {s : State} (hs : s ∈ (generate g).states) :
    ∃ k, s = (generate g).grammar.state k :=
  state_of_mem (Array.mem_toList_iff.mpr hs)

theorem conflicts_nil_iff {s : State} (hs : s ∈ (generate g).states) :
    s.conflicts = [] ↔ s.shiftReduce = 0 ∧ s.reduceReduce = 0 := by
  obtain ⟨k, rfl⟩ := built_of_mem hs
  exact (Numbering.bounded g).conflicts_eq_nil

theorem reduceReduce_eq_card (g : Grammar) : (generate g).reduceReduce =
    ((generate g).places fun s t => (generate g).grammar.Disputed s.kernel t).card := by
  refine count_places fun s hs => ?_
  obtain ⟨k, rfl⟩ := built_of_mem hs
  exact (Numbering.bounded g).reduceReduce_state

theorem shiftReduce_eq_card (g : Grammar) : (generate g).shiftReduce =
    ((generate g).places fun s t => (generate g).grammar.Contested s.kernel t).card := by
  refine count_places fun s hs => ?_
  obtain ⟨k, rfl⟩ := built_of_mem hs
  exact (Numbering.bounded g).shiftReduce_state

/-- The lists of conflicts have an entry for every rival but one, and one where a rule competes with
what is done anyway. -/
theorem length_all_conflicts (g : Grammar) :
    let m := generate g
    m.states.toList.foldr (fun s sum => s.conflicts.length + sum) 0 = m.shiftReduce +
      ∑ p ∈ m.places (fun s t => (m.grammar.Rivals s.kernel t).Nonempty),
        ((m.grammar.Rivals m.states[p.1].kernel p.2).ncard - 1) := by
  intro m
  have hshift : m.shiftReduce = (m.places fun s t => m.grammar.Contested s.kernel t).card :=
    shiftReduce_eq_card g
  rw [m.sum_states (fun s t => ((m.grammar.Rivals s.kernel t).ncard - 1) +
    if m.grammar.Contested s.kernel t then 1 else 0), Finset.sum_add_distrib, hshift, card_places,
    Nat.add_comm, places, Finset.sum_filter_of_ne]
  · rintro p - hne
    exact Set.nonempty_of_ncard_ne_zero fun hzero => hne (by rw [hzero, Nat.zero_sub])
  · intro s hs
    obtain ⟨k, rfl⟩ := built_of_mem hs
    exact (Numbering.bounded g).length_conflicts

/-- The counters of an automaton and the lists of its states agree. The reduce/reduce conflicts are
the places with several rivals, the shift/reduce conflicts the places where a rule competes with
what is done there anyway. The lists have an entry for each of the latter, and at each place one
for every rival but one; so there are conflicts if and only if some list has an entry. What a state
does in the end on the terminal of an entry is something else than what the entry says. -/
theorem conflicts_counted (g : Grammar) :
    let m := generate g
    let G := m.grammar
    m.reduceReduce = (m.places fun s t => G.Disputed s.kernel t).card ∧
    m.shiftReduce = (m.places fun s t => G.Contested s.kernel t).card ∧
    m.states.toList.foldr (fun s sum => s.conflicts.length + sum) 0 = m.shiftReduce +
      ∑ p ∈ m.places (fun s t => (G.Rivals s.kernel t).Nonempty),
        ((G.Rivals m.states[p.1].kernel p.2).ncard - 1) ∧
    (m.hasConflicts = true ↔ ∃ s ∈ m.states, s.conflicts ≠ []) ∧
    ∀ s ∈ m.states, ∀ t loser, (t, loser) ∈ s.conflicts →
      ∃ tr, s.onTerminal? t = some tr ∧ tr.isNontrivial = true ∧ tr ≠ loser := by
  intro m G
  refine ⟨reduceReduce_eq_card g, shiftReduce_eq_card g, length_all_conflicts g, ?_, ?_⟩
  · rw [← not_iff_not, Bool.not_eq_true, hasConflicts_eq_false]
    push Not
    exact forall₂_congr fun s hs => (conflicts_nil_iff hs).symm
  · intro s hs t loser hmem
    obtain ⟨k, rfl⟩ := built_of_mem hs
    obtain ⟨ht, hloser⟩ := NumberedGrammar.mem_conflicts hmem
    obtain ⟨tr, htr, hne⟩ := NumberedGrammar.winner_ne_loser ht hloser
    exact ⟨tr, htr, NumberedGrammar.nontrivial_own htr, hne⟩

theorem kernel_of_mem {s : State} (h : (generate g).hasIssues = false)
    (hs : s ∈ (generate g).states) : (generate g).grammar.Kernel {a | a ∈ s.kernel} := by
  have hm := explored_of_mem hs
  obtain ⟨i, hi⟩ := Array.getElem?_of_mem hs
  obtain ⟨ks, xs, hp⟩ :=
    NumberedGrammar.path_of_reached (hm.states.reached _ (Explored.kernel_mem hi))
  exact hp.kernel (represents_of_no_issues h).well_formed _ rfl

theorem compile_strict_eq (h : (generate g).hasConflicts = false) (w : Option Writer) :
    (g.compile ⟨true, w⟩).result = (g.compile ⟨false, w⟩).result := by
  have hfinish : ∀ name, Compilation.finish name true (generate g) =
      Compilation.finish name false (generate g) := by
    intro name
    simp [Compilation.finish, h]
  unfold Grammar.compile
  dsimp only
  rw [hfinish]

theorem exists_strict {lexical : Option LexicalSpec} (hissues : (generate g).hasIssues = false)
    (hconflicts : (generate g).hasConflicts = false)
    (hlexical : LexicalSpec.compile g.name (generate g) = .ok lexical) :
    ∃ cg, (g.compile ⟨true, none⟩).result = .ok cg := by
  obtain ⟨t, ht⟩ := exists_table_always g
  refine ⟨⟨g.name, lexical, some t⟩, ?_⟩
  simp [Grammar.compile, Compilation.finish, hissues, hconflicts, hlexical, ht]

section Adequate

variable (h : (generate g).hasIssues = false)
  (had : ∀ K, (generate g).grammar.Kernel K → (generate g).grammar.Adequate K)

include h had

theorem adequate_of_mem {s : State} (hs : s ∈ (generate g).states) :
    ∃ k, s = (generate g).grammar.state k ∧ (generate g).grammar.Adequate {a | a ∈ k} := by
  have hs' := (explored_of_mem hs).eq_of_mem hs
  exact ⟨s.kernel, hs', had _ (kernel_of_mem h hs)⟩

theorem reduceReduce_of_adequate {s : State} (hs : s ∈ (generate g).states) :
    s.reduceReduce = 0 := by
  have wf := (represents_of_no_issues h).well_formed
  obtain ⟨k, rfl, hadequate⟩ := adequate_of_mem h had hs
  exact NumberedGrammar.Adequate.reduceReduce_eq_zero wf hadequate

theorem conflicts_of_adequate {s : State} (hs : s ∈ (generate g).states) :
    s.conflicts = [] ↔ ¬(generate g).grammar.CompleteAtError s.kernel := by
  have wf := (represents_of_no_issues h).well_formed
  obtain ⟨k, rfl, hadequate⟩ := adequate_of_mem h had hs
  exact NumberedGrammar.Adequate.conflicts_eq_nil wf hadequate

theorem shiftReduce_of_adequate {s : State} (hs : s ∈ (generate g).states) :
    s.shiftReduce = 0 ↔ ¬(generate g).grammar.CompleteAtError s.kernel := by
  have hreduce := reduceReduce_of_adequate h had hs
  rw [← conflicts_of_adequate h had hs, conflicts_nil_iff hs]
  exact (and_iff_left hreduce).symm

theorem shiftReduce_iff_of_adequate : (generate g).shiftReduce = 0 ↔
    ∀ s ∈ (generate g).states, ¬(generate g).grammar.CompleteAtError s.kernel := by
  constructor
  · intro hzero s hs
    have hle : s.shiftReduce ≤ (generate g).shiftReduce := le_count (Array.mem_toList_iff.mpr hs)
    exact (shiftReduce_of_adequate h had hs).mp (by omega)
  · intro hquiet
    refine count_eq_zero fun s hs => ?_
    have hs := Array.mem_toList_iff.mp hs
    exact (shiftReduce_of_adequate h had hs).mpr (hquiet s hs)

end Adequate

/-- If all kernels are adequate, no reduce/reduce conflict is counted, and a shift/reduce conflict
only in a state that throws tokens away behind the error symbol and has a rule complete that the
error symbol can follow; it is recorded against what is thrown away, not against a shift. Without
such a state there are no conflicts, and strict compilation does what compilation does. -/
theorem adequate_conflicts (h : (generate g).hasIssues = false)
    (had : ∀ K, (generate g).grammar.Kernel K → (generate g).grammar.Adequate K) :
    let m := generate g
    let G := m.grammar
    m.reduceReduce = 0 ∧
    (m.shiftReduce = 0 ↔ ∀ s ∈ m.states, ¬G.CompleteAtError s.kernel) ∧
    (∀ s ∈ m.states, s.conflicts = [] ↔ ¬G.CompleteAtError s.kernel) ∧
    (∀ s ∈ m.states, ∀ t loser, (t, loser) ∈ s.conflicts → t = SymbolTable.errorSymbol ∧
      s.onTerminal? t = some ⟨.throwAway, ItemSet.empty⟩ ∧
      ∃ c ∈ G.Complete s.kernel, t ∈ G.followOf c ∧ loser = G.reduction c) ∧
    ((∀ s ∈ m.states, ¬G.CompleteAtError s.kernel) →
      (∀ w, (g.compile ⟨true, w⟩).result = (g.compile ⟨false, w⟩).result) ∧
      ∀ lexical, LexicalSpec.compile g.name m = .ok lexical →
        ∃ cg, (g.compile ⟨true, none⟩).result = .ok cg) := by
  intro m G
  have wf : G.WellFormed := (represents_of_no_issues h).well_formed
  have hreduces : m.reduceReduce = 0 :=
    count_eq_zero fun s hs => reduceReduce_of_adequate h had (Array.mem_toList_iff.mp hs)
  have hshifts : m.shiftReduce = 0 ↔ ∀ s ∈ m.states, ¬G.CompleteAtError s.kernel :=
    shiftReduce_iff_of_adequate h had
  refine ⟨hreduces, hshifts, fun s hs => conflicts_of_adequate h had hs, ?_, ?_⟩
  · intro s hs t loser hmem
    obtain ⟨k, rfl, hadequate⟩ := adequate_of_mem h had hs
    exact NumberedGrammar.Adequate.conflict_cases wf hadequate hmem
  · intro hquiet
    have hnone : m.hasConflicts = false := by
      simp [hasConflicts, hshifts.mpr hquiet, hreduces]
    exact ⟨compile_strict_eq hnone, fun lexical hlexical => exists_strict h hnone hlexical⟩

theorem all_adequate {options : CompileOptions} {cg : CompiledGrammar}
    (h : (g.compile options).result = .ok cg)
    (hempty : ∀ nt ∈ g.nonterminals, ∀ r ∈ nt.rules, r.tokens ≠ [])
    (hclosed : (generate g).grammar.Closed ((generate g).states.toList.map (·.kernel)))
    (hapart : ∀ k ∈ (generate g).states.toList.map (·.kernel), (generate g).grammar.Apart k) :
    ∀ K, (generate g).grammar.Kernel K → (generate g).grammar.Adequate K := by
  obtain ⟨hissues, t, ht, -⟩ := compile_eq_ok h
  have hg := generated_of_no_issues hissues ht
  exact hg.well_formed.all_adequate (hg.no_empty hempty) hclosed hapart

set_option maxRecDepth 100000 in
/-- Behind the error symbol a stop must come, so no rule is complete there. -/
theorem letters_uncontested : (generate Grammar.letters).hasIssues = false ∧
    (∀ K, (generate Grammar.letters).grammar.Kernel K →
      (generate Grammar.letters).grammar.Adequate K) ∧
    (∀ s ∈ (generate Grammar.letters).states, s.conflicts = []) ∧
    ∃ cg, (Grammar.letters.compile ⟨true, none⟩).result = .ok cg := by
  obtain ⟨cg, t, h, -, -⟩ := @Grammar.exists_table Grammar.letters ⟨false, none⟩
    (fun _ => true) (by decide +kernel)
  have hissues := (compile_eq_ok h).1
  have hadequate := all_adequate h (by decide) (by decide +kernel) (by decide +kernel)
  obtain ⟨-, hquiet, hnil, -, hstrict⟩ := adequate_conflicts hissues hadequate
  have hnone := hquiet.mp (by decide +kernel)
  exact ⟨hissues, hadequate, fun s hs => (hnil s hs).mpr (hnone s hs),
    cg, ((hstrict hnone).1 none).trans h⟩

/-- Pairs of things, each of which may be given up. -/
def pairs : Grammar where
  name := "pairs"
  start := some ⟨"s", .unknown⟩
  tokens := [some ⟨"x", "", "", false, .unknown⟩]
  precedences := []
  nonterminals := [("s", [["a", "a"]]), ("a", [[errorName], ["x"]])].map fun (owner, rules) =>
    ⟨owner, rules.map fun names =>
      ⟨names.map fun name => ⟨name, "", .unknown⟩, "", .left, "", .unknown⟩, .unknown⟩

set_option maxRecDepth 100000 in
/-- What was given up may be followed by another error symbol, and that counts as a conflict. -/
theorem pairs_contested : (generate pairs).hasIssues = false ∧
    (∀ r ∈ (generate pairs).grammar.rules, r.level = 0) ∧
    (∀ K, (generate pairs).grammar.Kernel K → (generate pairs).grammar.Adequate K) ∧
    (generate pairs).shiftReduce = 1 ∧ (∃ s ∈ (generate pairs).states, s.conflicts ≠ []) ∧
    ∀ cg, (pairs.compile ⟨true, none⟩).result ≠ .ok cg := by
  obtain ⟨cg, t, h, -, -⟩ := @Grammar.exists_table pairs ⟨false, none⟩
    (fun _ => true) (by decide +kernel)
  have hstate : ((generate pairs).states[1]?).any (fun s => !s.conflicts.isEmpty) = true := by
    decide +kernel
  obtain ⟨s, hs, hne⟩ := (Option.any_eq_true _ _).mp hstate
  refine ⟨(compile_eq_ok h).1, by decide +kernel,
    all_adequate h (by decide) (by decide +kernel) (by decide +kernel), by decide +kernel,
    ⟨s, Array.mem_of_getElem? hs, by simpa using hne⟩, ?_⟩
  intro cg' h'
  have hconflicts := no_conflicts_of_compile rfl h'
  revert hconflicts
  decide +kernel

end Automaton

end ParserTables

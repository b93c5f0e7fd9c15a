import ParserTables.Automaton.State
import ParserTables.Proofs.Closure

/-!
What a state can do. On a terminal it shifts to where the closure of its kernel leads, reduces by
a rule that the closure has complete, or throws tokens away after the error symbol; by default it
reduces by a complete rule. The three passes select among these and add nothing to them.
-/

namespace ParserTables

def tabulate (f : Nat → Option Transition) (xs : List Nat) : List (Nat × Transition) :=
  xs.filterMap fun x => (f x).map fun t => (x, t)

section Tabulate

variable {f : Nat → Option Transition} {xs : List Nat} {x : Nat} {t : Transition}

theorem mem_tabulate : (x, t) ∈ tabulate f xs ↔ x ∈ xs ∧ f x = some t := by
  simp only [tabulate, List.mem_filterMap, Option.map_eq_some_iff, Prod.mk.injEq]
  constructor
  · rintro ⟨y, hy, t', ht', rfl, rfl⟩
    exact ⟨hy, ht'⟩
  · rintro ⟨hx, ht⟩
    exact ⟨x, hx, t, ht, rfl, rfl⟩

theorem lookup_tabulate : (tabulate f xs).lookup x = if x ∈ xs then f x else none := by
  induction xs with
  | nil => simp [tabulate]
  | cons y ys ih =>
    have hcons : tabulate f (y :: ys) =
        ((f y).map fun t => (y, t)).toList ++ tabulate f ys := by
      cases hy : f y <;> simp [tabulate, hy]
    rw [hcons]
    by_cases hxy : x = y
    · subst hxy
      cases hx : f x with
      | none => simp [ih, hx]
      | some t => simp
    · have hne : (x == y) = false := by simpa using hxy
      cases hy : f y with
      | none => simp [ih, hxy]
      | some t => simp [List.lookup_cons, hne, ih, hxy]

theorem pairwise_tabulate (h : xs.Pairwise (· < ·)) :
    (tabulate f xs).Pairwise fun p q => p.1 < q.1 := by
  refine h.filterMap _ ?_
  intro a b hab p hp q hq
  obtain ⟨t, -, rfl⟩ := Option.map_eq_some_iff.mp hp
  obtain ⟨u, -, rfl⟩ := Option.map_eq_some_iff.mp hq
  exact hab

end Tabulate

/-- What a state does on a terminal, or by default if it has nothing of its own there. -/
def State.moveOn? (s : State) (terminal : Int) : Option Transition :=
  (if terminal < 0 then none else s.onTerminal? terminal.toNat).or s.fallback

namespace NumberedGrammar

variable {g : NumberedGrammar} {k : ItemSet} {o : Offer} {a c : Item} {s t : Nat}
  {tr : Transition}

def pushOn? (g : NumberedGrammar) (k : ItemSet) (s : Nat) : Option Transition :=
  let target := g.goto (g.closure k.items) s
  if target.isEmpty then none else some ⟨.push, target⟩

theorem decision_terminal (o : Offer) (t : Nat) : (g.decision o t).terminal = t := by
  unfold decision
  split <;> rfl

theorem terminals_state : (g.state k).terminals =
    tabulate (fun t => (g.decision (g.offer k) t).transition) (List.range g.terminalCount) := by
  simp only [state, tabulate, List.filterMap_map, Function.comp_def, decision_terminal]

theorem nonterminals_state :
    (g.state k).nonterminals = tabulate (g.pushOn? k) g.nonterminals := by
  change g.pushes (g.closure k.items) = _
  unfold pushes tabulate
  congr 1
  funext s
  unfold pushOn?
  by_cases h : (g.goto (g.closure k.items) s).isEmpty = true <;> simp [h]

theorem onTerminal_state : (g.state k).onTerminal? t =
    if t < g.terminalCount then (g.decision (g.offer k) t).transition else none := by
  simp [State.onTerminal?, terminals_state, lookup_tabulate]

theorem onNonterminal_state : (g.state k).onNonterminal? s =
    if s ∈ g.nonterminals then g.pushOn? k s else none := by
  simp [State.onNonterminal?, nonterminals_state, lookup_tabulate]

theorem fallback_state : (g.state k).fallback = (fallbackItem? (g.offer k)).map g.reduction := rfl

theorem mem_offer_finals :
    c ∈ (g.offer k).finals ↔ c ∈ g.closure k.items ∧ g.isFinal c = true :=
  mem_finals

theorem reduction_action (a : Item) :
    (g.reduction a).action = .accept ∨ (g.reduction a).action = .reduce := by
  unfold reduction
  by_cases hstart : g.lhs? a.rule = some g.startSymbol
  · exact Or.inl (if_pos hstart)
  · exact Or.inr (if_neg hstart)

theorem offered_cases (h : g.offered o t = some tr) :
    tr = ⟨.shift, g.goto o.items t⟩ ∧ (g.goto o.items t).isEmpty = false ∨
      tr = ⟨.throwAway, ItemSet.empty⟩ ∧ t = SymbolTable.errorSymbol ∧ o.throws = true := by
  unfold offered at h
  dsimp only at h
  split at h
  · next hne =>
    cases h
    exact Or.inl ⟨rfl, by simpa using hne⟩
  · split at h
    · next he =>
      cases h
      exact Or.inr ⟨rfl, by simpa using he⟩
    · cases h

theorem Bounded.offered_shift_iff (hb : g.Bounded) :
    g.offered (g.offer k) t = some tr ∧ tr.action = .shift ↔
      tr.action = .shift ∧ g.IsGoto {a | a ∈ k} t tr.target := by
  rw [hb.isGoto_iff]
  constructor
  · rintro ⟨hoffered, hshift⟩
    rcases offered_cases hoffered with ⟨rfl, hne⟩ | ⟨rfl, -⟩
    · exact ⟨rfl, rfl, hne⟩
    · cases hshift
  · rintro ⟨hshift, htarget, hne⟩
    refine ⟨?_, hshift⟩
    obtain ⟨action, target⟩ := tr
    obtain rfl : action = .shift := hshift
    obtain rfl : target = g.goto (g.closure k.items) t := htarget
    have hsome : (!(g.goto (g.closure k.items) t).isEmpty) = true := by simp [hne]
    exact if_pos hsome

theorem Bounded.onNonterminal_iff (hb : g.Bounded) :
    (g.state k).onNonterminal? s = some tr ↔
      g.terminalCount ≤ s ∧ tr.action = .push ∧ g.IsGoto {a | a ∈ k} s tr.target := by
  rw [onNonterminal_state, hb.isGoto_iff]
  constructor
  · intro h
    by_cases hs : s ∈ g.nonterminals
    · rw [if_pos hs] at h
      by_cases hne : (g.goto (g.closure k.items) s).isEmpty = true
      · simp [pushOn?, hne] at h
      · have htr : ⟨.push, g.goto (g.closure k.items) s⟩ = tr := by simpa [pushOn?, hne] using h
        subst htr
        exact ⟨(mem_nonterminals.mp hs).1, rfl, rfl, by simpa using hne⟩
    · rw [if_neg hs] at h
      cases h
  · rintro ⟨hle, hpush, htarget, hne⟩
    obtain ⟨b, hmem⟩ := ItemSet.isEmpty_eq_false.mp hne
    obtain ⟨a, -, ht, -⟩ := mem_goto.mp hmem
    rw [if_pos (mem_nonterminals.mpr ⟨hle, hb a s ht⟩)]
    obtain ⟨action, target⟩ := tr
    obtain rfl : action = .push := hpush
    obtain rfl : target = g.goto (g.closure k.items) s := htarget
    simp [pushOn?, hne]

/-- Weighing a shift against the default may drop it, but puts nothing in its place. -/
theorem settle_eq_some {kept : Option Transition} (h : (g.settle o kept).1 = some tr) :
    kept = some tr := by
  unfold settle at h
  split at h
  · split at h
    · exact h
    · cases h
    · exact h
  · exact h

theorem mem_candidates (h : c ∈ candidates (g.offer k) t) :
    c ∈ (g.offer k).finals ∧ t ∈ g.followOf c := by
  unfold candidates at h
  obtain ⟨⟨c', ts⟩, hmem, rfl⟩ := List.mem_map.mp h
  obtain ⟨hfollowed, ht⟩ := List.mem_filter.mp hmem
  simp only [offer] at hfollowed
  split at hfollowed
  · obtain ⟨a, ha, heq⟩ := List.mem_map.mp hfollowed
    cases heq
    exact ⟨ha, by simpa using ht⟩
  · cases hfollowed

/-- What is left on a terminal when competing reductions have been split up: where the state acts
on the error symbol what was offered, elsewhere the first reduction. -/
def kept? (g : NumberedGrammar) (o : Offer) (t : Nat) : Option Transition :=
  let reduce := (candidates o t).head?.map g.reduction
  if o.actsOnError then (g.offered o t).or reduce else reduce.or (g.offered o t)

theorem decision_transition : (g.decision o t).transition = (g.settle o (g.kept? o t)).1 := by
  unfold decision kept?
  cases hc : candidates o t with
  | nil => by_cases hacts : o.actsOnError = true <;> simp [hacts]
  | cons c others =>
    cases hold : g.offered o t with
    | none => by_cases hacts : o.actsOnError = true <;> simp [hacts]
    | some old => by_cases hacts : o.actsOnError = true <;> simp [hacts]

theorem kept_of_no_candidates (h : candidates o t = []) : g.kept? o t = g.offered o t := by
  by_cases hacts : o.actsOnError = true <;> simp [kept?, h, hacts]

theorem kept_of_not_offered (h : g.offered o t = none) :
    g.kept? o t = (candidates o t).head?.map g.reduction := by
  by_cases hacts : o.actsOnError = true <;> simp [kept?, h, hacts]

theorem onTerminal_eq (ht : t < g.terminalCount) :
    (g.state k).onTerminal? t = (g.settle (g.offer k) (g.kept? (g.offer k) t)).1 := by
  rw [onTerminal_state, if_pos ht, decision_transition]

theorem kept_cases (h : g.kept? o t = some tr) :
    g.offered o t = some tr ∨ ∃ c ∈ candidates o t, tr = g.reduction c := by
  have hreduce : (candidates o t).head?.map g.reduction = some tr →
      ∃ c ∈ candidates o t, tr = g.reduction c := by
    intro hmap
    obtain ⟨c, hc, rfl⟩ := Option.map_eq_some_iff.mp hmap
    exact ⟨c, List.mem_of_head? hc, rfl⟩
  unfold kept? at h
  by_cases hacts : o.actsOnError = true
  · rw [if_pos hacts] at h
    rcases Option.or_eq_some_iff.mp h with hoffered | ⟨-, hmap⟩
    · exact Or.inl hoffered
    · exact Or.inr (hreduce hmap)
  · rw [if_neg hacts] at h
    rcases Option.or_eq_some_iff.mp h with hmap | ⟨-, hoffered⟩
    · exact Or.inr (hreduce hmap)
    · exact Or.inl hoffered

theorem decision_cases (h : (g.decision (g.offer k) t).transition = some tr) :
    (tr = ⟨.shift, g.goto (g.closure k.items) t⟩ ∧
      (g.goto (g.closure k.items) t).isEmpty = false) ∨
    (tr = ⟨.throwAway, ItemSet.empty⟩ ∧ t = SymbolTable.errorSymbol ∧
      (g.offer k).throws = true) ∨
    ∃ c ∈ (g.offer k).finals, t ∈ g.followOf c ∧ tr = g.reduction c := by
  rw [decision_transition] at h
  rcases kept_cases (settle_eq_some h) with hoffered | ⟨c, hc, rfl⟩
  · rcases offered_cases hoffered with hs | ht
    · exact Or.inl hs
    · exact Or.inr (Or.inl ht)
  · obtain ⟨hfinal, hfollow⟩ := mem_candidates hc
    exact Or.inr (Or.inr ⟨c, hfinal, hfollow, rfl⟩)

theorem onTerminal_cases (h : (g.state k).onTerminal? t = some tr) :
    t < g.terminalCount ∧
    ((tr = ⟨.shift, g.goto (g.closure k.items) t⟩ ∧
        (g.goto (g.closure k.items) t).isEmpty = false) ∨
      (tr = ⟨.throwAway, ItemSet.empty⟩ ∧ t = SymbolTable.errorSymbol ∧
        (g.offer k).throws = true) ∨
      ∃ c ∈ (g.offer k).finals, t ∈ g.followOf c ∧ tr = g.reduction c) := by
  rw [onTerminal_state] at h
  by_cases hlt : t < g.terminalCount
  · rw [if_pos hlt] at h
    exact ⟨hlt, decision_cases h⟩
  · rw [if_neg hlt] at h
    cases h

theorem fallbackItem_mem (h : fallbackItem? o = some c) : c ∈ o.finals := by
  unfold fallbackItem? at h
  split at h
  · cases h
  · exact List.mem_of_getLast? h

theorem move_cases {x : Int} (h : (g.state k).moveOn? x = some tr) :
    (∃ t : Nat, x = t ∧ t < g.terminalCount ∧ tr = ⟨.shift, g.goto (g.closure k.items) t⟩ ∧
      (g.goto (g.closure k.items) t).isEmpty = false) ∨
    tr = ⟨.throwAway, ItemSet.empty⟩ ∨
    ∃ c ∈ g.closure k.items, g.isFinal c = true ∧ tr = g.reduction c := by
  unfold State.moveOn? at h
  rcases Option.or_eq_some_iff.mp h with hown | ⟨-, hdefault⟩
  · split at hown
    · cases hown
    · next hx =>
      obtain ⟨hlt, ⟨rfl, hne⟩ | ⟨rfl, -⟩ | ⟨c, hc, -, rfl⟩⟩ := onTerminal_cases hown
      · exact Or.inl ⟨x.toNat, by omega, hlt, rfl, hne⟩
      · exact Or.inr (Or.inl rfl)
      · exact Or.inr (Or.inr ⟨c, (mem_offer_finals.mp hc).1, (mem_offer_finals.mp hc).2, rfl⟩)
  · rw [fallback_state] at hdefault
    obtain ⟨c, hc, rfl⟩ := Option.map_eq_some_iff.mp hdefault
    have hmem := mem_offer_finals.mp (fallbackItem_mem hc)
    exact Or.inr (Or.inr ⟨c, hmem.1, hmem.2, rfl⟩)

/-- A state acts on the error symbol by a shift, or throws tokens away because its kernel has just
moved over that symbol. -/
theorem throws_of_throwAway (h : (g.state k).onTerminal? t = some tr)
    (ht : tr.action = .throwAway) : t = SymbolTable.errorSymbol ∧ g.afterError k = true := by
  obtain ⟨-, ⟨rfl, -⟩ | ⟨rfl, rfl, hthrows⟩ | ⟨c, -, -, rfl⟩⟩ := onTerminal_cases h
  · cases ht
  · refine ⟨rfl, ?_⟩
    simp only [offer, Bool.and_eq_true] at hthrows
    exact hthrows.2
  · rcases reduction_action c with haction | haction
    · cases ht.symm.trans haction
    · cases ht.symm.trans haction

theorem move_of_shifts (h : ((g.state k).onTerminal? t).any (·.action = .shift) = true) :
    (g.state k).moveOn? t = some ⟨.shift, g.goto (g.closure k.items) t⟩ ∧
      (g.goto (g.closure k.items) t).isEmpty = false := by
  obtain ⟨tr, hown, hshift⟩ := (Option.any_eq_true _ _).mp h
  have hmove : (g.state k).moveOn? t = some tr := by
    simp [State.moveOn?, hown]
  have haction : tr.action = .shift := of_decide_eq_true hshift
  rcases move_cases hmove with ⟨t', ht, -, rfl, hne⟩ | rfl | ⟨c, -, -, rfl⟩
  · obtain rfl : t = t' := by omega
    exact ⟨hmove, hne⟩
  · cases haction
  · rcases reduction_action c with hreduce | hreduce
    · cases haction.symm.trans hreduce
    · cases haction.symm.trans hreduce

theorem closure_accepting {r : Production} (hr : g.rules[0]? = some r)
    (hlen : r.tokens.length = 2) :
    g.closure (ItemSet.ofList [⟨0, 2⟩]).items = [⟨0, 2⟩] := by
  have hnone : g.tokenAt? ⟨0, 2⟩ = none := by
    simp [tokenAt?, hr, ← hlen]
  have hitems : (ItemSet.ofList [⟨0, 2⟩]).items = [⟨0, 2⟩] := rfl
  have hreach : reach g.symbolCount g.leads [] = [] := by
    unfold reach
    cases g.symbolCount <;> rfl
  simp [hitems, closure, nonterminalAt?, hnone, hreach]

theorem move_accepts {r : Production} (hr : g.rules[0]? = some r)
    (hlen : r.tokens.length = 2) (he : g.tokenBefore? ⟨0, 2⟩ = some SymbolTable.endSymbol)
    (x : Int) :
    (g.state (ItemSet.ofList [⟨0, 2⟩])).moveOn? x = some (g.reduction ⟨0, 2⟩) := by
  have hclosure := closure_accepting hr hlen
  have hnone : g.tokenAt? ⟨0, 2⟩ = none := by
    simp [tokenAt?, hr, ← hlen]
  have hgoto : ∀ t, g.goto [⟨0, 2⟩] t = ItemSet.empty := by
    intro t
    simp [goto, hnone, ItemSet.ofList]
  have hfinals : (g.finals [⟨0, 2⟩]).items = [⟨0, 2⟩] := by
    have hf : g.isFinal ⟨0, 2⟩ = true := by simp [isFinal, hr, hlen]
    simp only [finals, List.filter_cons, hf, if_true, List.filter_nil]
    rfl
  have hafter : g.afterError (ItemSet.ofList [⟨0, 2⟩]) = false := by
    change ([⟨0, 2⟩] : List Item).any _ = false
    simp [he, SymbolTable.endSymbol, SymbolTable.errorSymbol]
  have hoffer : g.offer (ItemSet.ofList [⟨0, 2⟩]) = ⟨[⟨0, 2⟩], [⟨0, 2⟩], [], false, false⟩ := by
    simp [offer, hclosure, hgoto, hfinals, hafter, splits, ItemSet.empty, ItemSet.isEmpty]
  have hdecision : ∀ t, (g.decision (g.offer (ItemSet.ofList [⟨0, 2⟩])) t).transition = none := by
    intro t
    rw [hoffer]
    simp [decision, candidates, offered, settle, hgoto, ItemSet.empty, ItemSet.isEmpty]
  unfold State.moveOn?
  rw [onTerminal_state, hdecision, fallback_state, hoffer]
  simp [fallbackItem?, splits]

end NumberedGrammar

end ParserTables

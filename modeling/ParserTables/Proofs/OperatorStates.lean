import ParserTables.Proofs.Adequacy
import ParserTables.Proofs.Exploration
import ParserTables.Proofs.Operators

/-!
The states of operator productions. The last symbols of a path tell which rule is complete behind
it, so a state has one complete rule at most; and a terminal tells the item that it is shifted by.
Hence there is nothing to choose but whether an operator is shifted behind an operation or the
operation is reduced, and there the bindings of the two operators decide.
-/

namespace ParserTables

theorem ItemSet.items_eq_singleton {s : ItemSet} {a : Item} (h : ∀ b, b ∈ s ↔ b = a) :
    s.items = [a] := by
  have heq : s = ItemSet.ofList [a] := by
    refine ItemSet.ext ?_
    intro b
    rw [h b, ItemSet.mem_ofList, List.mem_singleton]
  rw [heq]
  rfl

namespace NumberedGrammar

variable {g : NumberedGrammar} {u : Nat} {bind : Nat → Binding} {k : ItemSet} {ks : List ItemSet}
  {xs : List Nat} {a b d : Item} {x y i j p : Nat} {r : Production}

def IsOperator (g : NumberedGrammar) (u i x : Nat) : Prop :=
  ∃ r : Production, g.rules[i]? = some r ∧ r.symbols = [u, x, u]

def IsAtom (g : NumberedGrammar) (i x : Nat) : Prop :=
  ∃ r : Production, g.rules[i]? = some r ∧ r.symbols = [x]

theorem IsOperator.token_eq (wf : g.WellFormed) (ho : g.IsOperator u i x) (p : Nat) :
    g.tokenAt? ⟨i, p⟩ = [u, x, u][p]? := by
  obtain ⟨r, hr, hsym⟩ := ho
  rw [wf.token_eq hr, hsym]

theorem IsAtom.token_eq (wf : g.WellFormed) (ha : g.IsAtom i x) (p : Nat) :
    g.tokenAt? ⟨i, p⟩ = [x][p]? := by
  obtain ⟨r, hr, hsym⟩ := ha
  rw [wf.token_eq hr, hsym]

namespace OperatorRules

section Items

variable (h : g.OperatorRules u bind)

include h

theorem operand_nonterminal : g.terminalCount ≤ u := by
  obtain ⟨r, u', hr, -, hsym, hu⟩ := h.well_formed.start_rule
  obtain ⟨r', hr', hsym', -⟩ := h.start_rule
  cases hr.symm.trans hr'
  cases hsym.symm.trans hsym'
  exact hu

theorem rule_cases (hr : g.rules[i]? = some r) : (i = 0 ∧ r.symbols = [u, SymbolTable.endSymbol]) ∨
    (i ≠ 0 ∧ ∃ x < g.terminalCount, r.symbols = [x]) ∨
    (i ≠ 0 ∧ ∃ x < g.terminalCount, r.symbols = [u, x, u]) := by
  by_cases hi : i = 0
  · subst hi
    obtain ⟨r', hr', hsym, -⟩ := h.start_rule
    cases hr.symm.trans hr'
    exact Or.inl ⟨rfl, hsym⟩
  · obtain ⟨-, x, hx, -, ⟨hsym, -⟩ | ⟨hsym, -⟩⟩ := h.shapes i r hi hr
    · exact Or.inr (Or.inl ⟨hi, x, hx, hsym⟩)
    · exact Or.inr (Or.inr ⟨hi, x, hx, hsym⟩)

theorem item_cases (ht : g.tokenAt? ⟨i, p⟩ = some x) (hx : x < g.terminalCount) :
    (i = 0 ∧ p = 1 ∧ x = SymbolTable.endSymbol) ∨ (g.IsAtom i x ∧ p = 0) ∨
      (g.IsOperator u i x ∧ p = 1) := by
  have hu := h.operand_nonterminal
  obtain ⟨r, hr, hs⟩ := h.well_formed.token_iff.mp ht
  dsimp only at hr hs
  rcases h.rule_cases hr with ⟨hi, hsym⟩ | ⟨hi, y, -, hsym⟩ | ⟨hi, y, -, hsym⟩
  · rw [hsym] at hs
    rcases p with _ | _ | p
    · simp only [List.getElem?_cons_zero, Option.some.injEq] at hs
      omega
    · exact Or.inl ⟨hi, rfl, by simpa using hs.symm⟩
    · simp at hs
  · rw [hsym] at hs
    rcases p with _ | p
    · obtain rfl : y = x := by simpa using hs
      exact Or.inr (Or.inl ⟨⟨r, hr, hsym⟩, rfl⟩)
    · simp at hs
  · rw [hsym] at hs
    rcases p with _ | _ | _ | p
    · simp only [List.getElem?_cons_zero, Option.some.injEq] at hs
      omega
    · obtain rfl : y = x := by simpa using hs
      exact Or.inr (Or.inr ⟨⟨r, hr, hsym⟩, rfl⟩)
    · simp only [List.getElem?_cons_succ, List.getElem?_cons_zero, Option.some.injEq] at hs
      omega
    · simp at hs

theorem mark_bounds (hm : g.IsAtom i x ∨ g.IsOperator u i x) : i ≠ 0 ∧ x < g.terminalCount ∧
    x ≠ SymbolTable.errorSymbol ∧ x ≠ SymbolTable.endSymbol := by
  obtain ⟨r, hr, hsym⟩ : ∃ r : Production, g.rules[i]? = some r ∧
      (r.symbols = [x] ∨ r.symbols = [u, x, u]) := by
    rcases hm with ⟨r, hr, hsym⟩ | ⟨r, hr, hsym⟩
    · exact ⟨r, hr, Or.inl hsym⟩
    · exact ⟨r, hr, Or.inr hsym⟩
  have hmem : x ∈ r.symbols := by
    rcases hsym with hsym | hsym <;> simp [hsym]
  have hi : i ≠ 0 := by
    rintro rfl
    obtain ⟨r', hr', hsym', -⟩ := h.start_rule
    cases hr.symm.trans hr'
    rcases hsym with hsym | hsym <;> cases hsym.symm.trans hsym'
  have hend : x ≠ SymbolTable.endSymbol := by
    rintro rfl
    exact hi (h.well_formed.end_only i r hr hmem)
  obtain ⟨-, y, hy, herror, hshape⟩ := h.shapes i r hi hr
  have hxy : x = y := by
    rcases hshape with ⟨hsym', -⟩ | ⟨hsym', -⟩
    · rcases hsym with hsym | hsym
      · cases hsym.symm.trans hsym'
        rfl
      · cases hsym.symm.trans hsym'
    · rcases hsym with hsym | hsym
      · cases hsym.symm.trans hsym'
      · cases hsym.symm.trans hsym'
        rfl
  rw [hxy] at hend ⊢
  exact ⟨hi, hy, herror, hend⟩

theorem mark_unique (hm : g.IsAtom i x ∨ g.IsOperator u i x)
    (hm' : g.IsAtom j x ∨ g.IsOperator u j x) : i = j := by
  have hu := h.operand_nonterminal
  obtain ⟨hi, hx, -⟩ := h.mark_bounds hm
  obtain ⟨hj, -⟩ := h.mark_bounds hm'
  have hmem : ∀ {i}, g.IsAtom i x ∨ g.IsOperator u i x →
      ∃ r : Production, g.rules[i]? = some r ∧ x ∈ r.symbols := by
    rintro i (⟨r, hr, hsym⟩ | ⟨r, hr, hsym⟩)
    · exact ⟨r, hr, by simp [hsym]⟩
    · exact ⟨r, hr, by simp [hsym]⟩
  obtain ⟨r, hr, hmem₁⟩ := hmem hm
  obtain ⟨r', hr', hmem₂⟩ := hmem hm'
  exact h.distinct i j r r' x hi hj hr hr' hmem₁ hmem₂ (by omega)

theorem atom_not_operator (ha : g.IsAtom i x) (ho : g.IsOperator u j x) : False := by
  obtain rfl := h.mark_unique (Or.inl ha) (Or.inr ho)
  obtain ⟨r, hr, hsym⟩ := ha
  obtain ⟨r', hr', hsym'⟩ := ho
  cases hr.symm.trans hr'
  cases hsym.symm.trans hsym'

/-- A terminal is before the dot of one item only. -/
theorem item_unique (ha : g.tokenAt? a = some x) (hb : g.tokenAt? b = some x)
    (hx : x < g.terminalCount) : a = b := by
  obtain ⟨i, p⟩ := a
  obtain ⟨j, q⟩ := b
  rcases h.item_cases ha hx with ⟨rfl, rfl, rfl⟩ | ⟨hi, rfl⟩ | ⟨hi, rfl⟩
  · exact (h.well_formed.token_end hb).symm
  · rcases h.item_cases hb hx with ⟨-, -, rfl⟩ | ⟨hj, rfl⟩ | ⟨hj, rfl⟩
    · exact absurd rfl (h.mark_bounds (Or.inl hi)).2.2.2
    · rw [h.mark_unique (Or.inl hi) (Or.inl hj)]
    · exact (h.atom_not_operator hi hj).elim
  · rcases h.item_cases hb hx with ⟨-, -, rfl⟩ | ⟨hj, rfl⟩ | ⟨hj, rfl⟩
    · exact absurd rfl (h.mark_bounds (Or.inr hi)).2.2.2
    · exact (h.atom_not_operator hj hi).elim
    · rw [h.mark_unique (Or.inr hi) (Or.inr hj)]

theorem not_before_error : g.tokenAt? a ≠ some SymbolTable.errorSymbol := by
  intro ht
  rcases h.item_cases (i := a.rule) (p := a.phase) ht h.well_formed.error_lt with
    ⟨-, -, he⟩ | ⟨hi, -⟩ | ⟨hi, -⟩
  · cases he
  · exact (h.mark_bounds (Or.inl hi)).2.2.1 rfl
  · exact (h.mark_bounds (Or.inr hi)).2.2.1 rfl

theorem goto_items (ha : a ∈ g.closure k.items) (ht : g.tokenAt? a = some x)
    (hx : x < g.terminalCount) : (g.goto (g.closure k.items) x).items = [a.advance] := by
  refine ItemSet.items_eq_singleton ?_
  intro b
  constructor
  · intro hb
    obtain ⟨c, -, hc, rfl⟩ := mem_goto.mp hb
    rw [h.item_unique hc ht hx]
  · rintro rfl
    exact mem_goto.mpr ⟨a, ha, ht, rfl⟩

theorem operator_binding (ho : g.IsOperator u i x) (p : Nat) :
    g.level ⟨i, p⟩ = (bind x).level ∧ g.assoc ⟨i, p⟩ = (bind x).assoc ∧
      g.isBinary ⟨i, p⟩ = true ∧ ((bind x).assoc = .left ∨ (bind x).assoc = .right) := by
  have hi := (h.mark_bounds (Or.inr ho)).1
  obtain ⟨r, hr, hsym⟩ := ho
  obtain ⟨-, y, -, -, ⟨hsym', -⟩ | ⟨hsym', hbinary, hlevel, hassoc, hdirected⟩⟩ :=
    h.shapes i r hi hr
  · cases hsym.symm.trans hsym'
  · cases hsym.symm.trans hsym'
    exact ⟨by simp [level, hr, hlevel], by simp [assoc, hr, hassoc],
      by simp [isBinary, hr, hbinary], hdirected⟩

/-- An operator is shifted behind an operation that it may be the right operand of. -/
theorem verdict_keep (ho : g.IsOperator u i x) (ho' : g.IsOperator u j y)
    (hgroups : (bind y).GroupsRight (bind x)) (p q : Nat) : g.verdict ⟨i, p⟩ [⟨j, q⟩] = .keep := by
  obtain ⟨hlevel, -, hbinary, -⟩ := h.operator_binding ho p
  obtain ⟨hlevel', hassoc', hbinary', -⟩ := h.operator_binding ho' q
  rcases hgroups with hlt | ⟨heq, hright⟩
  · have horder : compare (bind y).level (bind x).level = .gt := Nat.compare_eq_gt.mpr hlt
    simp [verdict, hlevel, hlevel', horder]
  · have horder : compare (bind y).level (bind x).level = .eq := Nat.compare_eq_eq.mpr heq.symm
    simp [verdict, hlevel, hlevel', horder, hbinary, hbinary', hassoc', hright]

/-- An operation is reduced before an operator that it may be the left operand of. -/
theorem verdict_drop (ho : g.IsOperator u i x) (ho' : g.IsOperator u j y)
    (hgroups : (bind x).GroupsLeft (bind y)) (p q : Nat) : g.verdict ⟨i, p⟩ [⟨j, q⟩] = .drop := by
  obtain ⟨hlevel, -, hbinary, -⟩ := h.operator_binding ho p
  obtain ⟨hlevel', hassoc', hbinary', -⟩ := h.operator_binding ho' q
  rcases hgroups with hlt | ⟨heq, hleft⟩
  · have horder : compare (bind y).level (bind x).level = .lt := Nat.compare_eq_lt.mpr hlt
    simp [verdict, hlevel, hlevel', horder]
  · have horder : compare (bind y).level (bind x).level = .eq := Nat.compare_eq_eq.mpr heq
    have hleft' : (bind y).assoc = .left := (h.consistent y x heq).trans hleft
    simp [verdict, hlevel, hlevel', horder, hbinary, hbinary', hassoc', hleft']

theorem verdict_decides (ht : g.tokenAt? a = some x) (hx : x < g.terminalCount) (d : Item)
    (f : Fault) : g.verdict d [a.advance] ≠ .fault f := by
  have hdirected : g.isBinary a.advance = true →
      g.assoc a.advance = .left ∨ g.assoc a.advance = .right := by
    intro hbinary
    obtain ⟨i, p⟩ := a
    obtain ⟨r, hr, hb⟩ := isBinary_iff.mp hbinary
    dsimp only [Item.advance] at hr
    rcases h.item_cases ht hx with ⟨rfl, -⟩ | ⟨hatom, -⟩ | ⟨ho, -⟩
    · obtain ⟨r', hr', -, hb'⟩ := h.start_rule
      cases hr.symm.trans hr'
      cases hb.symm.trans hb'
    · have hi := (h.mark_bounds (Or.inl hatom)).1
      obtain ⟨r', hr', hsym⟩ := hatom
      cases hr.symm.trans hr'
      obtain ⟨-, y, -, -, ⟨-, hb'⟩ | ⟨hsym', -⟩⟩ := h.shapes i r hi hr
      · cases hb.symm.trans hb'
      · cases hsym.symm.trans hsym'
    · obtain ⟨-, hassoc, -, hdirected⟩ := h.operator_binding ho (p + 1)
      dsimp only [Item.advance]
      rw [hassoc]
      exact hdirected
  cases horder : compare (g.level a.advance) (g.level d) with
  | lt => simp [verdict, horder]
  | gt => simp [verdict, horder]
  | eq =>
    by_cases hbinary : g.isBinary a.advance = true
    · rcases hdirected hbinary with hassoc | hassoc
      · by_cases hd : g.isBinary d = true <;> simp [verdict, horder, hbinary, hassoc, hd]
      · by_cases hd : g.isBinary d = true <;> simp [verdict, horder, hbinary, hassoc, hd]
    · simp [verdict, horder, hbinary]

theorem no_fault (hx : x < g.terminalCount) :
    (g.settle (g.offer k) (g.offered (g.offer k) x)).2 = none := by
  unfold settle
  split
  · next target d hoffered hd =>
    rcases offered_cases hoffered with ⟨htarget, hne⟩ | ⟨hthrow, -⟩
    · obtain rfl : target = g.goto (g.closure k.items) x := congrArg Transition.target htarget
      obtain ⟨b, hb⟩ := ItemSet.isEmpty_eq_false.mp hne
      obtain ⟨a, ha, ht, -⟩ := mem_goto.mp hb
      rw [h.goto_items ha ht hx]
      split
      · rfl
      · rfl
      · next f hf => exact absurd hf (h.verdict_decides ht hx d f)
    · cases hthrow
  · rfl

end Items

section Paths

variable (h : g.OperatorRules u bind) (hp : g.Path (k :: ks) xs)

include h hp

theorem final_cases (hd : d ∈ g.closure k.items) (hf : g.isFinal d = true) :
    (d = ⟨0, 2⟩ ∧ xs.head? = some SymbolTable.endSymbol) ∨
    (∃ i x, d = ⟨i, 1⟩ ∧ g.IsAtom i x ∧ xs.head? = some x) ∨
    ∃ i x ys, d = ⟨i, 3⟩ ∧ g.IsOperator u i x ∧ xs = u :: x :: u :: ys := by
  obtain ⟨r, ys, k', ks', hr, hphase, hxs, -⟩ := hp.complete h.well_formed hd hf
  obtain ⟨i, p⟩ := d
  dsimp only at hr hphase
  rcases h.rule_cases hr with ⟨rfl, hsym⟩ | ⟨-, x, -, hsym⟩ | ⟨-, x, -, hsym⟩
  · rw [hsym] at hphase hxs
    exact Or.inl ⟨by rw [hphase]; rfl, by rw [hxs]; rfl⟩
  · have hatom : g.IsAtom i x := ⟨r, hr, hsym⟩
    rw [hsym] at hphase hxs
    exact Or.inr (Or.inl ⟨i, x, by rw [hphase]; rfl, hatom, by rw [hxs]; rfl⟩)
  · have hoperator : g.IsOperator u i x := ⟨r, hr, hsym⟩
    rw [hsym] at hphase hxs
    exact Or.inr (Or.inr ⟨i, x, ys, by rw [hphase]; rfl, hoperator, hxs⟩)

/-- Behind an operand nothing but an operation is complete. -/
theorem final_behind_operand (hd : d ∈ g.closure k.items) (hf : g.isFinal d = true)
    (hxs : xs.head? = some u) :
    ∃ i x ys, d = ⟨i, 3⟩ ∧ g.IsOperator u i x ∧ xs = u :: x :: u :: ys := by
  have hu := h.operand_nonterminal
  have hend := h.well_formed.end_lt
  rcases h.final_cases hp hd hf with ⟨-, hhead⟩ | ⟨i, x, -, hi, hhead⟩ | hoperation
  · have := Option.some.inj (hxs.symm.trans hhead)
    omega
  · have := Option.some.inj (hxs.symm.trans hhead)
    have := (h.mark_bounds (Or.inl hi)).2.1
    omega
  · exact hoperation

theorem final_unique (ha : a ∈ g.closure k.items) (hfa : g.isFinal a = true)
    (hb : b ∈ g.closure k.items) (hfb : g.isFinal b = true) : a = b := by
  rcases h.final_cases hp ha hfa with ⟨rfl, hend⟩ | ⟨i, x, rfl, hi, hx⟩ | ⟨i, x, ys, rfl, hi, rfl⟩
  · exact (hp.ended_item h.well_formed hend hb).symm
  · rcases h.final_cases hp hb hfb with ⟨rfl, hend⟩ | ⟨j, y, rfl, hj, hy⟩ | ⟨j, y, ys, -, -, rfl⟩
    · exact hp.ended_item h.well_formed hend ha
    · cases hx.symm.trans hy
      rw [h.mark_unique (Or.inl hi) (Or.inl hj)]
    · obtain ⟨j', z, zs, heq, -⟩ := h.final_behind_operand hp ha hfa rfl
      cases heq
  · obtain ⟨j, y, zs, rfl, hj, hy⟩ := h.final_behind_operand hp hb hfb rfl
    cases hy
    rw [h.mark_unique (Or.inr hi) (Or.inr hj)]

theorem not_acts_on_error : (g.offer k).actsOnError = false := by
  have hgoto : ∀ k : ItemSet,
      (g.goto (g.closure k.items) SymbolTable.errorSymbol).isEmpty = true := by
    intro k
    by_contra hne
    obtain ⟨b, hb⟩ := ItemSet.isEmpty_eq_false.mp (by simpa using hne)
    obtain ⟨a, -, ht, -⟩ := mem_goto.mp hb
    exact h.not_before_error ht
  have hafter : g.afterError k = false := by
    by_contra he
    have hhead := hp.after_error (by simpa using he)
    cases hp with
    | start => cases hhead
    | step _ hne =>
      obtain rfl := Option.some.inj hhead
      rw [hgoto] at hne
      cases hne
  simp [offer, hgoto, hafter]

theorem not_splits : splits (g.offer k).finals (g.offer k).actsOnError = false := by
  have hlength : (g.offer k).finals.length ≤ 1 := by
    have hnodup : (g.offer k).finals.Nodup := ItemSet.nodup _
    match hfinals : (g.offer k).finals with
    | [] => simp
    | [_] => simp
    | a :: b :: rest =>
      exfalso
      have hmem : ∀ c ∈ (g.offer k).finals, c ∈ g.closure k.items ∧ g.isFinal c = true :=
        fun c hc => mem_offer_finals.mp hc
      rw [hfinals] at hnodup hmem
      obtain ⟨ha, hfa⟩ := hmem a (by simp)
      obtain ⟨hb, hfb⟩ := hmem b (by simp)
      have hab := h.final_unique hp ha hfa hb hfb
      simp [hab] at hnodup
  rw [h.not_acts_on_error hp]
  simp only [splits, Bool.and_false, Bool.or_false, decide_eq_false_iff_not]
  omega

/-- On every terminal there is only the shift against the default. -/
theorem decision_eq (x : Nat) : g.decision (g.offer k) x =
    ⟨x, (g.settle (g.offer k) (g.offered (g.offer k) x)).1, [], false, false,
      (g.settle (g.offer k) (g.offered (g.offer k) x)).2⟩ := by
  unfold decision
  rw [candidates_nil (h.not_splits hp)]

theorem quiet : (g.state k).undecided = [] ∧ (g.state k).shiftReduce = 0 ∧
    (g.state k).reduceReduce = 0 := by
  have hdecision : ∀ d ∈ (List.range g.terminalCount).map (g.decision (g.offer k)),
      d.fault = none ∧ d.shiftReduce = false ∧ d.reduceReduce = false := by
    intro d hd
    obtain ⟨x, hx, rfl⟩ := List.mem_map.mp hd
    rw [h.decision_eq hp x]
    exact ⟨h.no_fault (List.mem_range.mp hx), rfl, rfl⟩
  refine ⟨?_, ?_, ?_⟩
  · refine List.filterMap_eq_nil_iff.mpr ?_
    intro d hd
    rw [(hdecision d hd).1]
    rfl
  · refine List.countP_eq_zero.mpr ?_
    intro d hd
    simp [(hdecision d hd).2.1]
  · refine List.countP_eq_zero.mpr ?_
    intro d hd
    simp [(hdecision d hd).2.2]

theorem move_shift (ha : a ∈ g.closure k.items) (ht : g.tokenAt? a = some x)
    (hx : x < g.terminalCount)
    (hkeep : ∀ d ∈ g.closure k.items, g.isFinal d = true → g.verdict d [a.advance] ≠ .drop) :
    (g.state k).moveOn? x = some ⟨.shift, g.goto (g.closure k.items) x⟩ := by
  have hown : (g.state k).onTerminal? x = some ⟨.shift, g.goto (g.closure k.items) x⟩ := by
    rw [onTerminal_state, if_pos hx, h.decision_eq hp, offered_shift ha ht]
    refine settle_shift ?_
    intro d hd
    obtain ⟨hcl, hf⟩ := mem_offer_finals.mp (fallbackItem_mem hd)
    rw [h.goto_items ha ht hx]
    exact hkeep d hcl hf
  simp [State.moveOn?, hown]

theorem move_reduce (hd : d ∈ g.closure k.items) (hf : g.isFinal d = true)
    (hx : x < g.terminalCount)
    (hdrop : ∀ a ∈ g.closure k.items, g.tokenAt? a = some x → g.verdict d [a.advance] = .drop) :
    (g.state k).moveOn? x = some (g.reduction d) := by
  have hsplits := h.not_splits hp
  have hfallback : fallbackItem? (g.offer k) = some d := by
    have honly := (finals_of_not_splits hsplits (mem_offer_finals.mpr ⟨hd, hf⟩)).1
    unfold fallbackItem?
    rw [hsplits, honly]
    rfl
  have hown : (g.state k).onTerminal? x = none := by
    rw [onTerminal_state, if_pos hx, h.decision_eq hp]
    cases hoffered : g.offered (g.offer k) x with
    | none => rfl
    | some tr =>
      rcases offered_cases hoffered with ⟨rfl, hne⟩ | ⟨rfl, -, hthrows⟩
      · obtain ⟨b, hb⟩ := ItemSet.isEmpty_eq_false.mp hne
        obtain ⟨a, ha, ht, -⟩ := mem_goto.mp hb
        have hverdict : g.verdict d (g.goto (g.closure k.items) x).items = .drop := by
          rw [h.goto_items ha ht hx]
          exact hdrop a ha ht
        change (g.settle (g.offer k) (some ⟨.shift, g.goto (g.closure k.items) x⟩)).1 = none
        simp only [settle, hfallback, hverdict]
      · have hacts := h.not_acts_on_error hp
        have hboth : (g.offer k).actsOnError = (!(g.goto (g.closure k.items)
          SymbolTable.errorSymbol).isEmpty || (g.offer k).throws) := rfl
        rw [hboth, hthrows, Bool.or_true] at hacts
        cases hacts
  simp [State.moveOn?, hown, fallback_state, hfallback]

end Paths

section Operands

variable (h : g.OperatorRules u bind)

include h

theorem rule_lhs (hm : g.IsAtom i x ∨ g.IsOperator u i x) (hr : g.rules[i]? = some r) :
    r.lhs = u :=
  (h.shapes i r (h.mark_bounds hm).1 hr).1

theorem begin_mem (hb : b ∈ g.closure k.items) (ht : g.tokenAt? b = some u)
    (hm : g.IsAtom i x ∨ g.IsOperator u i x) : ⟨i, 0⟩ ∈ g.closure k.items := by
  have wf := h.well_formed
  obtain ⟨r, hr⟩ : ∃ r : Production, g.rules[i]? = some r := by
    rcases hm with ⟨r, hr, -⟩ | ⟨r, hr, -⟩
    · exact ⟨r, hr⟩
    · exact ⟨r, hr⟩
  exact wf.mem_closure.mpr (.spawn (wf.mem_closure.mp hb) ht h.operand_nonterminal
    (lhs_eq_some.mpr ⟨r, hr, h.rule_lhs hm hr⟩))

end Operands

/-- The path is empty or ends with an operator, so that an operand comes next. -/
def Awaiting (g : NumberedGrammar) (u : Nat) (xs : List Nat) : Prop :=
  ∀ y ∈ xs.head?, ∃ i, g.IsOperator u i y

section Moves

variable (h : g.OperatorRules u bind)

include h

theorem shift_atom (hp : g.Path (k :: ks) xs) (hxs : Awaiting g u xs)
    (ha : ⟨i, 0⟩ ∈ g.closure k.items) (hatom : g.IsAtom i x) :
    (g.state k).moveOn? x = some ⟨.shift, g.goto (g.closure k.items) x⟩ := by
  have hu := h.operand_nonterminal
  refine h.move_shift hp ha (hatom.token_eq h.well_formed 0) (h.mark_bounds (Or.inl hatom)).2.1 ?_
  intro d hd hf
  exfalso
  rcases h.final_cases hp hd hf with ⟨-, hhead⟩ | ⟨j, y, -, hj, hhead⟩ | ⟨j, y, ys, -, -, rfl⟩
  · obtain ⟨j, hj⟩ := hxs _ hhead
    exact (h.mark_bounds (Or.inr hj)).2.2.2 rfl
  · obtain ⟨j', hj'⟩ := hxs _ hhead
    exact h.atom_not_operator hj hj'
  · obtain ⟨j', hj'⟩ := hxs _ rfl
    have := (h.mark_bounds (Or.inr hj')).2.1
    omega

theorem closure_after_atom (hp : g.Path (k :: ks) (x :: xs)) (hatom : g.IsAtom i x)
    (ha : a ∈ g.closure k.items) : a = ⟨i, 1⟩ := by
  have hx := (h.mark_bounds (Or.inl hatom)).2.1
  cases hp with
  | step _ _ =>
    have hclosure := h.well_formed.mem_closure.mp ha
    clear ha
    induction hclosure with
    | kernel hk =>
      obtain ⟨b, -, hb, rfl⟩ := mem_goto.mp hk
      rw [h.item_unique hb (hatom.token_eq h.well_formed 0) hx]
      rfl
    | spawn _ ht _ _ ih =>
      rw [ih, hatom.token_eq h.well_formed 1] at ht
      cases ht

theorem reduce_atom (hp : g.Path (k :: ks) (x :: xs)) (hatom : g.IsAtom i x)
    (hd : ⟨i, 1⟩ ∈ g.closure k.items) (hy : y < g.terminalCount) :
    (g.state k).moveOn? y = some (g.reduction ⟨i, 1⟩) := by
  have hf : g.isFinal ⟨i, 1⟩ = true := by
    obtain ⟨r, hr, hsym⟩ := hatom
    exact h.well_formed.final_iff.mpr ⟨r, hr, by simp [hsym]⟩
  apply h.move_reduce hp hd hf hy
  intro a ha ht
  rw [h.closure_after_atom hp hatom ha, hatom.token_eq h.well_formed] at ht
  cases ht

theorem shift_operator (hp : g.Path (k :: ks) (u :: xs)) (ha : ⟨j, 1⟩ ∈ g.closure k.items)
    (ho : g.IsOperator u j y) (hxs : ∀ x ∈ xs.head?, (bind y).GroupsRight (bind x)) :
    (g.state k).moveOn? y = some ⟨.shift, g.goto (g.closure k.items) y⟩ := by
  apply h.move_shift hp ha (ho.token_eq h.well_formed 1) (h.mark_bounds (Or.inr ho)).2.1
  intro d hd hf
  obtain ⟨i, x, ys, rfl, hi, hpath⟩ := h.final_behind_operand hp hd hf rfl
  cases hpath
  rw [show (Item.advance ⟨j, 1⟩) = ⟨j, 2⟩ from rfl, h.verdict_keep hi ho (hxs x rfl)]
  simp

theorem reduce_operator (hp : g.Path (k :: ks) (u :: x :: u :: xs)) (ho : g.IsOperator u i x)
    (hd : ⟨i, 3⟩ ∈ g.closure k.items) (hy : y = SymbolTable.endSymbol ∨
      ∃ j, g.IsOperator u j y ∧ (bind x).GroupsLeft (bind y)) :
    (g.state k).moveOn? y = some (g.reduction ⟨i, 3⟩) := by
  have hf : g.isFinal ⟨i, 3⟩ = true := by
    obtain ⟨r, hr, hsym⟩ := ho
    exact h.well_formed.final_iff.mpr ⟨r, hr, by simp [hsym]⟩
  rcases hy with rfl | ⟨j, hj, hgroups⟩
  · apply h.move_reduce hp hd hf h.well_formed.end_lt
    intro a ha ht
    exfalso
    rw [h.well_formed.token_end ht] at ha
    obtain ⟨k', ks', z, zs, -, hxs, hpath, hbegin, -⟩ := hp.before h.well_formed ha
    cases hxs
    cases (hpath.initial h.well_formed hbegin).2.2
  · have hy := (h.mark_bounds (Or.inr hj)).2.1
    apply h.move_reduce hp hd hf hy
    intro a _ ht
    rw [h.item_unique ht (hj.token_eq h.well_formed 1) hy]
    exact h.verdict_drop ho hj hgroups 3 2

theorem shift_end (hp : g.Path (k :: ks) [u]) (ha : ⟨0, 1⟩ ∈ g.closure k.items) :
    (g.state k).moveOn? SymbolTable.endSymbol =
      some ⟨.shift, g.goto (g.closure k.items) SymbolTable.endSymbol⟩ := by
  apply h.move_shift hp ha h.well_formed.token_at_end h.well_formed.end_lt
  intro d hd hf
  obtain ⟨i, x, ys, -, -, hpath⟩ := h.final_behind_operand hp hd hf rfl
  cases hpath

end Moves

end OperatorRules

end NumberedGrammar

theorem Automaton.quiet_of_operators {g : Grammar} {e : String} {rules : List Rule}
    (hissues : (Numbering.ofGrammar g).issues = []) (ho : g.Operators e rules) :
    (generate g).hasIssues = false ∧ (generate g).hasConflicts = false := by
  obtain ⟨u, -, h⟩ := Numbering.operatorRules_of_no_issues hissues ho
  have hexplored : (generate g).Explored :=
    explored_of_start (Numbering.represents_of_no_issues hissues).user_start
  have hquiet : ∀ s ∈ (generate g).states.toList, s.undecided = [] ∧ s.shiftReduce = 0 ∧
      s.reduceReduce = 0 := by
    intro s hs
    obtain ⟨i, hi⟩ := List.getElem?_of_mem hs
    have hi : (generate g).states[i]? = some s := by simpa using hi
    obtain ⟨ks, xs, hpath⟩ := NumberedGrammar.path_of_reached
      (hexplored.states.reached _ (Explored.kernel_mem hi))
    rw [hexplored.state_eq hi]
    exact h.quiet hpath
  have hsum : ∀ (f : State → Nat) (ss : List State), (∀ s ∈ ss, f s = 0) →
      ss.foldr (fun s count => f s + count) 0 = 0 := by
    intro f ss hzero
    induction ss with
    | nil => rfl
    | cons s ss ih =>
      rw [List.foldr_cons, hzero s (by simp), ih fun s' hs' => hzero s' (by simp [hs'])]
  constructor
  · have hall : (generate g).issues = [] := by
      unfold Automaton.issues
      refine List.append_eq_nil_iff.mpr ⟨hissues, List.flatMap_eq_nil_iff.mpr ?_⟩
      rintro ⟨s, i⟩ hs
      have hmem : s ∈ (generate g).states.toList :=
        List.mem_of_getElem? (List.mem_zipIdx_iff_getElem?.mp hs)
      simp [(hquiet s hmem).1]
    simp [hasIssues, hall]
  · have hsr : (generate g).shiftReduce = 0 := hsum _ _ fun s hs => (hquiet s hs).2.1
    have hrr : (generate g).reduceReduce = 0 := hsum _ _ fun s hs => (hquiet s hs).2.2
    simp [hasConflicts, hsr, hrr]

end ParserTables

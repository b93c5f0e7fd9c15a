import ParserTables.Proofs.Follow
import ParserTables.Proofs.Path

/-!
States without conflicts. Where the terminals that a closure shifts and those that can come after
its complete rules are all apart, the three passes take nothing away: a state shifts every
terminal that some item stands before, and reduces by a rule on every terminal that can come after
it. Precedence decides nothing between rules without levels, and associativity nothing between
binary rules that are not in conflict.
-/

namespace ParserTables.NumberedGrammar

variable {g : NumberedGrammar} {k : ItemSet} {ks : List ItemSet} {xs : List Nat} {a d : Item}
  {o : Offer} {x s : Nat} {target : ItemSet}

inductive Kernel (g : NumberedGrammar) : Set Item → Prop
  | start : Kernel g {⟨0, 0⟩}
  | goto {K : Set Item} {a : Item} {x : Nat} : Kernel g K → g.Closure K a →
      g.tokenAt? a = some x →
      Kernel g {b | ∃ a, g.Closure K a ∧ g.tokenAt? a = some x ∧ a.advance = b}

/-- No terminal is both shifted and can come after a complete rule, and none can come after two
complete rules. -/
structure Adequate (g : NumberedGrammar) (K : Set Item) : Prop where
  shift_reduce : ∀ a b x s, g.Closure K a → g.tokenAt? a = some x → x < g.terminalCount →
    g.Closure K b → g.isFinal b = true → g.lhs? b.rule = some s → ¬ g.Follow s x
  reduce_reduce : ∀ a b s s' x, g.Closure K a → g.isFinal a = true → g.lhs? a.rule = some s →
    g.Closure K b → g.isFinal b = true → g.lhs? b.rule = some s' → a ≠ b →
    ¬ (g.Follow s x ∧ g.Follow s' x)

theorem WellFormed.goto_items (wf : g.WellFormed) (k : ItemSet) (x : Nat) :
    {b | b ∈ g.goto (g.closure k.items) x} =
      {b | ∃ a, g.Closure {a | a ∈ k} a ∧ g.tokenAt? a = some x ∧ a.advance = b} :=
  wf.bounded.goto_items k x

theorem initialKernel_items : {a | a ∈ initialKernel} = {(⟨0, 0⟩ : Item)} :=
  Set.ext fun _ => mem_initialKernel

theorem Path.kernel (wf : g.WellFormed) (h : g.Path ks xs) :
    ∀ k ∈ ks.head?, g.Kernel {a | a ∈ k} := by
  induction h with
  | start =>
    rintro k ⟨⟩
    rw [initialKernel_items]
    exact .start
  | @step k ks xs x _ hne ih =>
    rintro k' ⟨⟩
    obtain ⟨b, hb⟩ := ItemSet.isEmpty_eq_false.mp hne
    obtain ⟨a, ha, ht, -⟩ := mem_goto.mp hb
    rw [wf.goto_items]
    exact .goto (ih k rfl) (wf.mem_closure.mp ha) ht

def Apart (g : NumberedGrammar) (k : ItemSet) : Prop :=
  ∀ b ∈ g.closure k.items, g.isFinal b = true → ∀ x ∈ g.followOf b, ∀ a ∈ g.closure k.items,
    g.tokenAt? a ≠ some x ∧ (g.isFinal a = true → x ∈ g.followOf a → a = b)

instance (k : ItemSet) : Decidable (g.Apart k) := by
  unfold Apart
  infer_instance

theorem WellFormed.adequate_iff (wf : g.WellFormed) (hempty : g.NoEmptyRule) :
    g.Adequate {a | a ∈ k} ↔ g.Apart k := by
  constructor
  · intro h b hb hfb x hx a ha
    obtain ⟨s, hl⟩ := lhs_of_final hfb
    have hfollow := wf.follow_of_mem hl hx
    constructor
    · intro ht
      exact h.shift_reduce a b x s (wf.mem_closure.mp ha) ht
        hfollow.lt (wf.mem_closure.mp hb) hfb hl hfollow
    · intro hfa hx'
      by_contra hab
      obtain ⟨s', hl'⟩ := lhs_of_final hfa
      exact h.reduce_reduce a b s' s x (wf.mem_closure.mp ha) hfa hl' (wf.mem_closure.mp hb) hfb
        hl hab ⟨wf.follow_of_mem hl' hx', hfollow⟩
  · intro h
    constructor
    · intro a b x s ha ht _ hb hfb hl hfollow
      exact (h b (wf.mem_closure.mpr hb) hfb x (wf.mem_of_follow hempty hl hfollow) a
        (wf.mem_closure.mpr ha)).1 ht
    · rintro a b s s' x ha hfa hl hb hfb hl' hab ⟨hx, hx'⟩
      exact hab ((h b (wf.mem_closure.mpr hb) hfb x (wf.mem_of_follow hempty hl' hx') a
        (wf.mem_closure.mpr ha)).2 hfa (wf.mem_of_follow hempty hl hx))

/-- The kernels of a list that has the initial kernel and that no transition leaves. -/
def Closed (g : NumberedGrammar) (ks : List ItemSet) : Prop :=
  initialKernel ∈ ks ∧ ∀ k ∈ ks, ∀ a ∈ g.closure k.items, ∀ x ∈ g.tokenAt? a,
    g.goto (g.closure k.items) x ∈ ks

instance (ks : List ItemSet) : Decidable (g.Closed ks) := by
  unfold Closed
  infer_instance

theorem Kernel.mem_of_closed (wf : g.WellFormed) (hc : g.Closed ks) {K : Set Item}
    (h : g.Kernel K) : ∃ k ∈ ks, K = {a | a ∈ k} := by
  induction h with
  | start => exact ⟨initialKernel, hc.1, initialKernel_items.symm⟩
  | @goto K a x _ ha ht ih =>
    obtain ⟨k, hk, rfl⟩ := ih
    refine ⟨_, hc.2 k hk a (wf.mem_closure.mpr ha) x ht, ?_⟩
    exact (wf.goto_items k x).symm

/-- Whether all kernels are adequate is found by going through them. -/
theorem WellFormed.all_adequate (wf : g.WellFormed) (hempty : g.NoEmptyRule)
    (hc : g.Closed ks) (h : ∀ k ∈ ks, g.Apart k) : ∀ K, g.Kernel K → g.Adequate K := by
  intro K hK
  obtain ⟨k, hk, rfl⟩ := hK.mem_of_closed wf hc
  exact (wf.adequate_iff hempty).mpr (h k hk)

/-- What the passes need of the rules: no levels, and binary rules of the shape that they have. -/
structure Plain (g : NumberedGrammar) : Prop where
  level : ∀ (i : Nat) (r : Production), g.rules[i]? = some r → r.level = 0
  binary : ∀ (i : Nat) (r : Production), g.rules[i]? = some r → r.binary = true →
    ∃ op, r.symbols = [r.lhs, op, r.lhs]

theorem Plain.level_eq (h : g.Plain) (a : Item) : g.level a = 0 := by
  unfold NumberedGrammar.level
  cases hr : g.rules[a.rule]? with
  | none => rfl
  | some r => exact h.level _ r hr

theorem isBinary_iff : g.isBinary a = true ↔
    ∃ r : Production, g.rules[a.rule]? = some r ∧ r.binary = true := by
  simp [isBinary, Option.any_eq_true]

/-- Two binary rules meet behind one left-hand side, so its operator comes after it. -/
theorem Path.follow_of_binary (wf : g.WellFormed) (hg : g.Plain) (h : g.Path (k :: ks) xs)
    (ha : a ∈ g.closure k.items) (ht : g.tokenAt? a = some x) (hx : x < g.terminalCount)
    (hba : g.isBinary a = true) (hd : d ∈ g.closure k.items) (hf : g.isFinal d = true)
    (hbd : g.isBinary d = true) (hl : g.lhs? d.rule = some s) : g.Follow s x := by
  obtain ⟨i, p⟩ := a
  obtain ⟨j, q⟩ := d
  obtain ⟨r, hr, hb⟩ := isBinary_iff.mp hba
  obtain ⟨r', hr', hb'⟩ := isBinary_iff.mp hbd
  dsimp only at hr hr'
  obtain ⟨op, hsym⟩ := hg.binary i r hr hb
  obtain ⟨op', hsym'⟩ := hg.binary j r' hr' hb'
  have hlhs := wf.lhs_nonterminal i r hr
  have hs : s = r'.lhs := by
    obtain ⟨r'', hr'', rfl⟩ := lhs_eq_some.mp hl
    cases hr'.symm.trans hr''
    rfl
  obtain rfl : q = 3 := by
    obtain ⟨r'', hr'', hq⟩ := wf.final_iff.mp hf
    cases hr'.symm.trans hr''
    simpa [hsym'] using hq
  rw [wf.token_eq hr, hsym] at ht
  obtain ⟨rfl, rfl⟩ : p = 1 ∧ op = x := by
    rcases p with _ | _ | _ | p
    · simp only [List.getElem?_cons_zero, Option.some.injEq] at ht
      omega
    · exact ⟨rfl, by simpa using ht⟩
    · simp only [List.getElem?_cons_succ, List.getElem?_cons_zero, Option.some.injEq] at ht
      omega
    · simp at ht
  obtain ⟨-, -, y, ys, -, hxs, -, -, hy⟩ := h.before wf ha
  obtain ⟨-, -, z, zs, -, hxs', -, -, hz⟩ := h.before wf hd
  rw [wf.token_eq hr, hsym] at hy
  rw [wf.token_eq hr', hsym'] at hz
  have heq : r'.lhs = r.lhs := by
    cases hxs.symm.trans hxs'
    simp only [List.getElem?_cons_succ, List.getElem?_cons_zero, Option.some.injEq] at hy hz
    rw [hz, hy]
  rw [hs, heq]
  exact @Follow.inside g _ r [] [] _ _ _ _ hr hsym .nil (.terminal hx)

theorem settle_shift (h : ∀ d, fallbackItem? o = some d → g.verdict d target.items ≠ .drop) :
    (g.settle o (some ⟨.shift, target⟩)).1 = some ⟨.shift, target⟩ := by
  unfold settle
  cases hd : fallbackItem? o with
  | none => rfl
  | some d =>
    have hne := h d hd
    dsimp only
    split
    · rfl
    · next hdrop => exact absurd hdrop hne
    · rfl

theorem settle_reduction : (g.settle o (some (g.reduction a))).1 = some (g.reduction a) := by
  unfold settle reduction
  by_cases hs : g.lhs? a.rule = some g.startSymbol
  · simp [hs]
  · simp [hs]

theorem Plain.verdict_ne_drop (hg : g.Plain) {cs : List Item}
    (h : ∀ c ∈ cs, ¬ (g.isBinary c = true ∧ g.isBinary d = true)) : g.verdict d cs ≠ .drop := by
  cases cs with
  | nil => simp [verdict]
  | cons c others =>
    have hc : (g.isBinary c && g.isBinary d) = false := by
      have := h c (by simp)
      cases hb : g.isBinary c with
      | false => rfl
      | true => simpa [hb] using this
    simp [verdict, hg.level_eq, hc]

theorem mem_candidates_iff (h : splits (g.offer k).finals (g.offer k).actsOnError = true) :
    a ∈ candidates (g.offer k) x ↔ a ∈ (g.offer k).finals ∧ x ∈ g.followOf a := by
  have hfollowed : (g.offer k).followed =
      (g.offer k).finals.map fun c => (c, g.followOf c) := if_pos h
  simp [candidates, hfollowed, List.filter_map]

theorem candidates_nil (h : splits (g.offer k).finals (g.offer k).actsOnError = false) :
    candidates (g.offer k) x = [] := by
  have hfollowed : (g.offer k).followed = [] := if_neg (by rw [Bool.not_eq_true]; exact h)
  simp [candidates, hfollowed]

theorem offered_shift (ha : a ∈ g.closure k.items) (ht : g.tokenAt? a = some x) :
    g.offered (g.offer k) x = some ⟨.shift, g.goto (g.closure k.items) x⟩ := by
  change (if !(g.goto (g.closure k.items) x).isEmpty then _ else _) = _
  rw [goto_nonempty ha ht]
  rfl

/-- A state that is not split has one complete rule at most, and then does not act on the error
symbol. -/
theorem finals_of_not_splits {finals : List Item} {acts : Bool} (h : splits finals acts = false)
    (ha : a ∈ finals) : finals = [a] ∧ acts = false := by
  unfold splits at h
  simp only [Bool.or_eq_false_iff, decide_eq_false_iff_not, Nat.not_le] at h
  have hpos := List.length_pos_of_mem ha
  have hlength : finals.length = 1 := by omega
  obtain ⟨b, rfl⟩ := List.length_eq_one_iff.mp hlength
  rw [List.mem_singleton.mp ha]
  exact ⟨rfl, by simpa using h.2⟩

theorem Path.move_shift (wf : g.WellFormed) (hg : g.Plain) (h : g.Path (k :: ks) xs)
    (had : g.Adequate {a | a ∈ k}) (ha : a ∈ g.closure k.items) (ht : g.tokenAt? a = some x)
    (hx : x < g.terminalCount) :
    (g.state k).moveOn? x = some ⟨.shift, g.goto (g.closure k.items) x⟩ := by
  have hcandidates : candidates (g.offer k) x = [] := by
    by_contra hsome
    obtain ⟨c, hc⟩ := List.exists_mem_of_ne_nil _ hsome
    obtain ⟨hfinal, hfollow⟩ := mem_candidates hc
    obtain ⟨hcl, hf⟩ := mem_offer_finals.mp hfinal
    obtain ⟨s, hl⟩ := lhs_of_final hf
    exact had.shift_reduce a c x s (wf.mem_closure.mp ha) ht hx (wf.mem_closure.mp hcl) hf hl
      (wf.follow_of_mem hl hfollow)
  have hoffered := offered_shift ha ht
  have hsettle : (g.settle (g.offer k) (some ⟨.shift, g.goto (g.closure k.items) x⟩)).1 =
      some ⟨.shift, g.goto (g.closure k.items) x⟩ := by
    refine settle_shift ?_
    intro d hd
    obtain ⟨hcl, hf⟩ := mem_offer_finals.mp (fallbackItem_mem hd)
    obtain ⟨s, hl⟩ := lhs_of_final hf
    refine hg.verdict_ne_drop ?_
    rintro c hc ⟨hbc, hbd⟩
    obtain ⟨b, hb, htb, rfl⟩ := mem_goto.mp hc
    exact had.shift_reduce a d x s (wf.mem_closure.mp ha) ht hx (wf.mem_closure.mp hcl) hf hl
      (h.follow_of_binary wf hg hb htb hx hbc hcl hf hbd hl)
  have hown : (g.state k).onTerminal? x = some ⟨.shift, g.goto (g.closure k.items) x⟩ := by
    rw [onTerminal_eq hx, kept_of_no_candidates hcandidates, hoffered]
    exact hsettle
  simp [State.moveOn?, hown]

section Reductions

variable (wf : g.WellFormed) (had : g.Adequate {a | a ∈ k}) (ha : a ∈ g.closure k.items)
  (hf : g.isFinal a = true) (hl : g.lhs? a.rule = some s) (hx : g.Follow s x)

include wf had ha hf hl hx

theorem offered_none (hne : x ≠ SymbolTable.errorSymbol) : g.offered (g.offer k) x = none := by
  have hgoto : (g.goto (g.closure k.items) x).isEmpty = true := by
    by_contra hsome
    obtain ⟨b, hb⟩ := ItemSet.isEmpty_eq_false.mp (by simpa using hsome)
    obtain ⟨c, hc, ht, -⟩ := mem_goto.mp hb
    exact had.shift_reduce c a x s (wf.mem_closure.mp hc) ht hx.lt (wf.mem_closure.mp ha) hf hl hx
  change (if !(g.goto (g.closure k.items) x).isEmpty then _
    else if x = SymbolTable.errorSymbol && _ then _ else _) = _
  simp [hgoto, hne]

theorem candidate_unique : ∀ c ∈ candidates (g.offer k) x, c = a := by
  intro c hc
  by_contra hca
  obtain ⟨hfinal, hfollow⟩ := mem_candidates hc
  obtain ⟨hcl, hf'⟩ := mem_offer_finals.mp hfinal
  obtain ⟨s', hl'⟩ := lhs_of_final hf'
  exact had.reduce_reduce c a s' s x (wf.mem_closure.mp hcl) hf' hl' (wf.mem_closure.mp ha) hf
    hl hca ⟨wf.follow_of_mem hl' hfollow, hx⟩

theorem move_reduce (hempty : g.NoEmptyRule) (hne : x ≠ SymbolTable.errorSymbol) :
    (g.state k).moveOn? x = some (g.reduction a) := by
  have hoffered := offered_none wf had ha hf hl hx hne
  have hfinals : a ∈ (g.offer k).finals := mem_offer_finals.mpr ⟨ha, hf⟩
  cases hsplits : splits (g.offer k).finals (g.offer k).actsOnError with
  | true =>
    have hmem := (mem_candidates_iff hsplits).mpr ⟨hfinals, wf.mem_of_follow hempty hl hx⟩
    have hown : (g.state k).onTerminal? x = some (g.reduction a) := by
      rw [onTerminal_eq hx.lt, kept_of_not_offered hoffered]
      cases hc : candidates (g.offer k) x with
      | nil =>
        rw [hc] at hmem
        cases hmem
      | cons c others =>
        obtain rfl : c = a := candidate_unique wf had ha hf hl hx c (by simp [hc])
        exact settle_reduction
    simp [State.moveOn?, hown]
  | false =>
    have hown : (g.state k).onTerminal? x = none := by
      rw [onTerminal_eq hx.lt, kept_of_not_offered hoffered, candidates_nil hsplits]
      rfl
    have honly := (finals_of_not_splits hsplits hfinals).1
    have hdefault : (g.state k).fallback = some (g.reduction a) := by
      rw [fallback_state]
      unfold fallbackItem?
      rw [hsplits, honly]
      rfl
    simp [State.moveOn?, hown, hdefault]

end Reductions

end ParserTables.NumberedGrammar

import ParserTables.Automaton.Basic
import ParserTables.Proofs.State

/-!
Paths through the kernels of a grammar, from the initial kernel over some symbols. The stack of a
parser is such a path. Where the closure of the last kernel has a rule with the dot in it, the last
symbols of the path are those left of the dot, and the kernel before them has the same rule with
the dot at its beginning; this is what makes a reduction possible.
-/

namespace ParserTables.NumberedGrammar

/-- Kernels and the symbols between them, the last of both first. -/
inductive Path (g : NumberedGrammar) : List ItemSet → List Nat → Prop
  | start : Path g [initialKernel] []
  | step {k : ItemSet} {ks : List ItemSet} {xs : List Nat} {x : Nat} : Path g (k :: ks) xs →
      (g.goto (g.closure k.items) x).isEmpty = false →
      Path g (g.goto (g.closure k.items) x :: k :: ks) (x :: xs)

variable {g : NumberedGrammar} {k : ItemSet} {ks : List ItemSet} {xs : List Nat} {a : Item}
  {i p x : Nat} {r : Production}

theorem mem_initialKernel : a ∈ initialKernel ↔ a = ⟨0, 0⟩ := by
  simp [initialKernel]

theorem Path.length_eq (h : g.Path ks xs) : ks.length = xs.length + 1 := by
  induction h with
  | start => rfl
  | step _ _ ih => simpa using ih

theorem Path.drop (h : g.Path ks xs) (hp : p ≤ xs.length) : g.Path (ks.drop p) (xs.drop p) := by
  induction p generalizing ks xs with
  | zero => exact h
  | succ p ih =>
    cases h with
    | start => simp at hp
    | step hpath _ => exact ih hpath (by simpa using hp)

theorem Path.unique (h : g.Path ks xs) {ks' : List ItemSet} (h' : g.Path ks' xs) : ks = ks' := by
  induction h generalizing ks' with
  | start =>
    cases h'
    rfl
  | step _ _ ih =>
    cases h' with
    | step hpath _ =>
      cases ih hpath
      rfl

theorem Path.exists_cons (h : g.Path ks xs) : ∃ k ks', ks = k :: ks' := by
  cases h with
  | start => exact ⟨_, _, rfl⟩
  | step _ _ => exact ⟨_, _, rfl⟩

theorem WellFormed.mem_kernel (wf : g.WellFormed) (ha : a ∈ g.closure k.items)
    (hp : a.phase ≠ 0) : a ∈ k :=
  (wf.mem_closure.mp ha).mem_of_phase hp

theorem Path.initial_of_phase (h : g.Path (k :: ks) xs) (ha : a ∈ k) (hp : a.phase = 0) :
    a = ⟨0, 0⟩ ∧ k = initialKernel ∧ ks = [] ∧ xs = [] := by
  cases h with
  | start => exact ⟨mem_initialKernel.mp ha, rfl, rfl, rfl⟩
  | step _ _ =>
    obtain ⟨b, -, -, rfl⟩ := mem_goto.mp ha
    cases hp

/-- An item past its beginning comes from the kernel before, over the symbol left of the dot. -/
theorem Path.before (wf : g.WellFormed) (h : g.Path (k :: ks) xs)
    (ha : ⟨i, p + 1⟩ ∈ g.closure k.items) :
    ∃ k' ks' x xs', ks = k' :: ks' ∧ xs = x :: xs' ∧ g.Path (k' :: ks') xs' ∧
      ⟨i, p⟩ ∈ g.closure k'.items ∧ g.tokenAt? ⟨i, p⟩ = some x := by
  have hk := wf.mem_kernel ha (by simp)
  cases h with
  | start => cases mem_initialKernel.mp hk
  | step hpath _ =>
    obtain ⟨⟨j, q⟩, hb, htok, heq⟩ := mem_goto.mp hk
    cases heq
    exact ⟨_, _, _, _, rfl, rfl, hpath, hb, htok⟩

/-- The symbols left of the dot end the path, and their rule begins where they begin. -/
theorem Path.handle (wf : g.WellFormed) (hr : g.rules[i]? = some r) (h : g.Path (k :: ks) xs)
    (ha : ⟨i, p⟩ ∈ g.closure k.items) :
    ∃ ys k' ks', xs = (r.symbols.take p).reverse ++ ys ∧ (r.symbols.take p).length = p ∧
      (k :: ks).drop p = k' :: ks' ∧ g.Path (k' :: ks') ys ∧ ⟨i, 0⟩ ∈ g.closure k'.items := by
  induction p generalizing k ks xs with
  | zero => exact ⟨xs, k, ks, by simp, by simp, rfl, h, ha⟩
  | succ p ih =>
    obtain ⟨k₁, ks₁, x, xs₁, rfl, rfl, hpath, hb, htok⟩ := h.before wf ha
    obtain ⟨ys, k', ks', rfl, hlen, hdrop, hpath', hbegin⟩ := ih hpath hb
    rw [wf.token_eq hr] at htok
    refine ⟨ys, k', ks', ?_, ?_, by simpa using hdrop, hpath', hbegin⟩
    · rw [List.take_add_one, htok]
      simp
    · rw [List.take_add_one, htok]
      simp [hlen]

theorem Path.complete (wf : g.WellFormed) (h : g.Path (k :: ks) xs)
    (ha : a ∈ g.closure k.items) (hf : g.isFinal a = true) :
    ∃ r ys k' ks', g.rules[a.rule]? = some r ∧ a.phase = r.symbols.length ∧
      xs = r.symbols.reverse ++ ys ∧ (k :: ks).drop r.symbols.length = k' :: ks' ∧
      g.Path (k' :: ks') ys ∧ ⟨a.rule, 0⟩ ∈ g.closure k'.items := by
  obtain ⟨i, p⟩ := a
  obtain ⟨r, hr, hp⟩ := wf.final_iff.mp hf
  obtain ⟨ys, k', ks', hxs, -, hdrop, hpath, hbegin⟩ := h.handle wf hr ha
  dsimp only at hp
  subst hp
  rw [List.take_length] at hxs
  exact ⟨r, ys, k', ks', hr, rfl, hxs, hdrop, hpath, hbegin⟩

theorem Path.asked (wf : g.WellFormed) (h : g.Path (k :: ks) xs)
    (ha : ⟨i, 0⟩ ∈ g.closure k.items) (hi : i ≠ 0) (hr : g.rules[i]? = some r) :
    ∃ b ∈ g.closure k.items, g.tokenAt? b = some r.lhs := by
  cases wf.mem_closure.mp ha with
  | kernel hk => exact absurd (congrArg Item.rule (h.initial_of_phase hk rfl).1) hi
  | spawn hb htok _ hl =>
    obtain ⟨r', hr', rfl⟩ := lhs_eq_some.mp hl
    cases hr.symm.trans hr'
    exact ⟨_, wf.mem_closure.mpr hb, htok⟩

theorem goto_nonempty (hb : a ∈ g.closure k.items) (ht : g.tokenAt? a = some x) :
    (g.goto (g.closure k.items) x).isEmpty = false :=
  ItemSet.isEmpty_eq_false.mpr ⟨a.advance, mem_goto.mpr ⟨a, hb, ht, rfl⟩⟩

theorem WellFormed.advance_mem (wf : g.WellFormed) (ha : a ∈ g.closure k.items)
    (ht : g.tokenAt? a = some x) : a.advance ∈ g.closure (g.goto (g.closure k.items) x).items :=
  wf.mem_closure.mpr (.kernel (mem_goto.mpr ⟨a, ha, ht, rfl⟩))

theorem Path.push (wf : g.WellFormed) (h : g.Path (k :: ks) xs)
    (ha : ⟨i, 0⟩ ∈ g.closure k.items) (hi : i ≠ 0) (hr : g.rules[i]? = some r) :
    (g.goto (g.closure k.items) r.lhs).isEmpty = false := by
  obtain ⟨b, hb, ht⟩ := h.asked wf ha hi hr
  exact goto_nonempty hb ht

theorem Path.initial (wf : g.WellFormed) (h : g.Path (k :: ks) xs)
    (ha : ⟨0, 0⟩ ∈ g.closure k.items) : k = initialKernel ∧ ks = [] ∧ xs = [] := by
  cases wf.mem_closure.mp ha with
  | kernel hk => exact (h.initial_of_phase hk rfl).2
  | spawn hb htok _ hl =>
    obtain ⟨r₀, u, hr₀, hl₀, -⟩ := wf.start_rule
    obtain ⟨r', hr', rfl⟩ := lhs_eq_some.mp hl
    cases hr₀.symm.trans hr'
    obtain ⟨r, hr, hs⟩ := wf.token_iff.mp htok
    exact absurd hl₀ (wf.symbol_ne_start _ r hr _ (List.mem_of_getElem? hs))

theorem WellFormed.token_at_end (wf : g.WellFormed) :
    g.tokenAt? ⟨0, 1⟩ = some SymbolTable.endSymbol := by
  obtain ⟨r, u, hr, -, hsym, -⟩ := wf.start_rule
  rw [wf.token_eq hr, hsym]
  rfl

theorem WellFormed.token_end (wf : g.WellFormed)
    (ht : g.tokenAt? a = some SymbolTable.endSymbol) : a = ⟨0, 1⟩ := by
  obtain ⟨i, p⟩ := a
  obtain ⟨r, hr, hs⟩ := wf.token_iff.mp ht
  dsimp only at hr hs
  obtain rfl := wf.end_only i r hr (List.mem_of_getElem? hs)
  obtain ⟨r₀, u, hr₀, -, hsym, hu⟩ := wf.start_rule
  cases hr₀.symm.trans hr
  have htwo := wf.two_terminals
  rw [hsym] at hs
  cases p with
  | zero =>
    have : u = SymbolTable.endSymbol := by simpa using hs
    simp only [SymbolTable.endSymbol] at this
    omega
  | succ p =>
    cases p with
    | zero => rfl
    | succ p => simp at hs

/-- After the end of input only the start production is left, and it is complete. -/
theorem Path.ended (wf : g.WellFormed) (h : g.Path (k :: ks) xs)
    (hx : xs.head? = some SymbolTable.endSymbol) : k = ItemSet.ofList [⟨0, 2⟩] := by
  cases h with
  | start => simp at hx
  | step _ hne =>
    obtain rfl := Option.some.inj hx
    obtain ⟨a, ha⟩ := ItemSet.isEmpty_eq_false.mp hne
    refine ItemSet.ext ?_
    intro b
    rw [ItemSet.mem_ofList, List.mem_singleton]
    constructor
    · intro hb
      obtain ⟨c, -, htok, rfl⟩ := mem_goto.mp hb
      rw [wf.token_end htok]
      rfl
    · rintro rfl
      obtain ⟨c, hc, htok, rfl⟩ := mem_goto.mp ha
      exact mem_goto.mpr ⟨c, hc, htok, by rw [wf.token_end htok]; rfl⟩

theorem Path.move_ended (wf : g.WellFormed) (h : g.Path (k :: ks) xs)
    (hx : xs.head? = some SymbolTable.endSymbol) (y : Int) :
    (g.state k).moveOn? y = some (g.reduction ⟨0, 2⟩) := by
  obtain ⟨r, u, hr, -, hsym, -⟩ := wf.start_rule
  have hlen : r.tokens.length = 2 := by
    rw [wf.length_tokens hr, hsym]
    rfl
  rw [h.ended wf hx]
  exact move_accepts hr hlen wf.token_at_end y

theorem Path.ended_item (wf : g.WellFormed) (h : g.Path (k :: ks) xs)
    (hx : xs.head? = some SymbolTable.endSymbol) (ha : a ∈ g.closure k.items) : a = ⟨0, 2⟩ := by
  obtain ⟨r, u, hr, -, hsym, -⟩ := wf.start_rule
  have hlen : r.tokens.length = 2 := by
    rw [wf.length_tokens hr, hsym]
    rfl
  rw [h.ended wf hx, closure_accepting hr hlen] at ha
  exact List.mem_singleton.mp ha

theorem Path.after_error (h : g.Path (k :: ks) xs) (he : g.afterError k = true) :
    xs.head? = some SymbolTable.errorSymbol := by
  obtain ⟨a, ha, htok⟩ := List.any_eq_true.mp he
  cases h with
  | start =>
    cases mem_initialKernel.mp ha
    simp [tokenBefore?] at htok
  | step _ _ =>
    obtain ⟨b, -, hb, rfl⟩ := mem_goto.mp ha
    simpa [tokenBefore?, Item.advance, hb] using htok

end ParserTables.NumberedGrammar

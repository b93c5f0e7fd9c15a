import Mathlib.Data.Finset.Powerset
import ParserTables.Proofs.Generation

/-!
The states of an automaton are those of the kernels that shifts and pushes lead to from the
initial kernel, each kernel once. Kernels are discovered one after another; at any time those
built and those still queued are all different, and what leads on from a state that is built is
among them. A kernel is a set of items of the grammar, so the steps that the exploration is given
are enough for all of them, and it ends with nothing queued. None of this needs the grammar to be
free of faults.
-/

namespace ParserTables

def State.Moves (s : State) (tr : Transition) : Prop :=
  (tr.action = .shift ∧ ∃ x, s.onTerminal? x = some tr) ∨ ∃ x, s.onNonterminal? x = some tr

namespace NumberedGrammar

variable {g : NumberedGrammar} {k k' : ItemSet} {ks known queue : List ItemSet}
  {built : List State} {s : State} {tr : Transition} {a : Item} {n : Nat}

theorem moves_target (h : (g.state k).Moves tr) :
    ∃ x, tr.target = g.goto (g.closure k.items) x ∧ tr.target.isEmpty = false := by
  rcases h with ⟨hshift, x, hx⟩ | ⟨x, hx⟩
  · obtain ⟨-, ⟨rfl, hne⟩ | ⟨rfl, -⟩ | ⟨c, -, -, rfl⟩⟩ := onTerminal_cases hx
    · exact ⟨x, rfl, hne⟩
    · cases hshift
    · rcases reduction_action c with hreduce | hreduce
      · cases hshift.symm.trans hreduce
      · cases hshift.symm.trans hreduce
  · rw [onNonterminal_state] at hx
    split at hx
    · unfold pushOn? at hx
      dsimp only at hx
      split at hx
      · cases hx
      · next hne =>
        cases hx
        exact ⟨x, rfl, by simpa using hne⟩
    · cases hx

theorem mem_terminals_state {x : Nat} :
    (x, tr) ∈ (g.state k).terminals ↔ (g.state k).onTerminal? x = some tr := by
  rw [onTerminal_state, terminals_state, mem_tabulate, List.mem_range]
  by_cases hx : x < g.terminalCount <;> simp [hx]

theorem mem_nonterminals_state {x : Nat} :
    (x, tr) ∈ (g.state k).nonterminals ↔ (g.state k).onNonterminal? x = some tr := by
  rw [onNonterminal_state, nonterminals_state, mem_tabulate]
  by_cases hx : x ∈ g.nonterminals <;> simp [hx]

theorem mem_successors : k' ∈ (g.state k).successors ↔
    ∃ tr, (g.state k).Moves tr ∧ tr.target = k' := by
  simp only [State.successors, List.mem_append, List.mem_filterMap, List.mem_map, Prod.exists]
  constructor
  · rintro (⟨x, tr, hmem, hshift⟩ | ⟨x, tr, hmem, rfl⟩)
    · split at hshift
      · next haction =>
        cases hshift
        exact ⟨tr, Or.inl ⟨haction, x, mem_terminals_state.mp hmem⟩, rfl⟩
      · cases hshift
    · exact ⟨tr, Or.inr ⟨x, mem_nonterminals_state.mp hmem⟩, rfl⟩
  · rintro ⟨tr, ⟨haction, x, hx⟩ | ⟨x, hx⟩, rfl⟩
    · exact Or.inl ⟨x, tr, mem_terminals_state.mpr hx, if_pos haction⟩
    · exact Or.inr ⟨x, tr, mem_nonterminals_state.mpr hx, rfl⟩

theorem path_of_reached (h : Relation.ReflTransGen (fun k k' => k' ∈ (g.state k).successors)
    initialKernel k) : ∃ ks xs, g.Path (k :: ks) xs := by
  induction h with
  | refl => exact ⟨[], [], .start⟩
  | tail _ hstep ih =>
    obtain ⟨ks, xs, hpath⟩ := ih
    obtain ⟨tr, hmoves, rfl⟩ := mem_successors.mp hstep
    obtain ⟨x, htarget, hne⟩ := moves_target hmoves
    rw [htarget] at hne ⊢
    exact ⟨_, _, hpath.step hne⟩

/-- A kernel has items of the grammar; all of them stand right after one symbol, except in the
initial kernel. -/
structure IsKernel (g : NumberedGrammar) (k : ItemSet) : Prop where
  nonempty : ∃ a, a ∈ k
  items : ∀ a ∈ k, g.isItem a = true
  same_symbol : k ≠ initialKernel →
    ∃ x, ∀ a ∈ k, 1 ≤ a.phase ∧ g.tokenBefore? a = some x

theorem isItem_advance {x : Nat} (h : g.tokenAt? a = some x) : g.isItem a.advance = true := by
  obtain ⟨r, hr, ht⟩ := tokenAt_eq_some.mp h
  have hlt := (List.getElem?_eq_some_iff.mp ht).1
  simp only [isItem, Item.advance, hr, Option.any_some]
  exact decide_eq_true (Nat.succ_le_of_lt hlt)

theorem moves_isKernel (h : (g.state k).Moves tr) : g.IsKernel tr.target := by
  obtain ⟨x, htarget, hne⟩ := moves_target h
  have hmember : ∀ a ∈ tr.target, ∃ b, g.tokenAt? b = some x ∧ b.advance = a := by
    intro a ha
    rw [htarget] at ha
    obtain ⟨b, -, hb, hab⟩ := mem_goto.mp ha
    exact ⟨b, hb, hab⟩
  constructor
  · exact ItemSet.isEmpty_eq_false.mp hne
  · intro a ha
    obtain ⟨b, hb, rfl⟩ := hmember a ha
    exact isItem_advance hb
  · intro _
    refine ⟨x, ?_⟩
    intro a ha
    obtain ⟨b, hb, rfl⟩ := hmember a ha
    exact ⟨Nat.succ_le_succ (Nat.zero_le _), hb⟩

theorem initial_isKernel {r : Production} (hr : g.rules[0]? = some r) :
    g.IsKernel initialKernel := by
  constructor
  · exact ⟨⟨0, 0⟩, mem_initialKernel.mpr rfl⟩
  · intro a ha
    rw [mem_initialKernel.mp ha]
    simp [isItem, hr]
  · intro hne
    exact absurd rfl hne

def itemsFrom (i : Nat) : List Production → List Item
  | [] => []
  | r :: rs => (List.range (r.tokens.length + 1)).map (Item.mk i) ++ itemsFrom (i + 1) rs

theorem mem_itemsFrom {rs : List Production} {i : Nat} {r : Production}
    (hr : rs[a.rule - i]? = some r) (hi : i ≤ a.rule) (hp : a.phase ≤ r.tokens.length) :
    a ∈ itemsFrom i rs := by
  induction rs generalizing i with
  | nil => simp at hr
  | cons r₀ rs ih =>
    obtain ⟨j, p⟩ := a
    dsimp only at hr hi hp
    rcases Nat.eq_or_lt_of_le hi with rfl | hlt
    · rw [Nat.sub_self] at hr
      cases hr
      refine List.mem_append_left _ (List.mem_map.mpr ⟨p, ?_, rfl⟩)
      exact List.mem_range.mpr (Nat.lt_succ_of_le hp)
    · refine List.mem_append_right _ (ih ?_ hlt)
      obtain ⟨d, rfl⟩ := Nat.exists_eq_add_of_lt hlt
      have hsub : i + d + 1 - i = d + 1 := by omega
      have hsub' : i + d + 1 - (i + 1) = d := by omega
      rw [hsub] at hr
      simpa [hsub'] using hr

theorem length_itemsFrom (rs : List Production) (i : Nat) : (itemsFrom i rs).length =
    rs.foldr (fun r count => r.tokens.length + 1 + count) 0 := by
  induction rs generalizing i with
  | nil => rfl
  | cons r rs ih => simp [itemsFrom, ih]

/-- There are no more sets of items than the bound says. -/
theorem length_le_kernelBound (hnodup : ks.Nodup)
    (hitems : ∀ k ∈ ks, ∀ a ∈ k, g.isItem a = true) : ks.length ≤ g.kernelBound := by
  have hinjective : Function.Injective fun k : ItemSet => k.items.toFinset := by
    intro k k' heq
    refine ItemSet.ext ?_
    intro a
    rw [ItemSet.mem_def, ItemSet.mem_def, ← List.mem_toFinset, ← List.mem_toFinset]
    exact Finset.ext_iff.mp heq a
  have hsubset : (ks.map fun k => k.items.toFinset).toFinset ⊆
      (itemsFrom 0 g.rules.toList).toFinset.powerset := by
    intro A hA
    obtain ⟨k, hk, rfl⟩ := List.mem_map.mp (List.mem_toFinset.mp hA)
    refine Finset.mem_powerset.mpr ?_
    intro a ha
    have hitem := hitems k hk a (List.mem_toFinset.mp ha)
    obtain ⟨r, hr, hp⟩ := (Option.any_eq_true _ _).mp hitem
    refine List.mem_toFinset.mpr (mem_itemsFrom (r := r) ?_ (Nat.zero_le _) (by simpa using hp))
    simpa using hr
  calc ks.length = (ks.map fun k => k.items.toFinset).toFinset.card := by
        rw [List.toFinset_card_of_nodup (hnodup.map hinjective), List.length_map]
    _ ≤ (itemsFrom 0 g.rules.toList).toFinset.powerset.card := Finset.card_le_card hsubset
    _ = 2 ^ (itemsFrom 0 g.rules.toList).toFinset.card := Finset.card_powerset _
    _ ≤ 2 ^ (itemsFrom 0 g.rules.toList).length :=
        Nat.pow_le_pow_right (by decide) (List.toFinset_card_le _)
    _ = g.kernelBound := by rw [length_itemsFrom]; rfl

theorem mem_newKernels : k ∈ newKernels known ks ↔ k ∈ ks ∧ k ∉ known := by
  induction ks generalizing known with
  | nil => simp [newKernels]
  | cons k₀ ks ih =>
    unfold newKernels
    split
    · next hk₀ =>
      rw [ih]
      constructor
      · rintro ⟨hk, hnew⟩
        exact ⟨List.mem_cons_of_mem _ hk, hnew⟩
      · rintro ⟨hk, hnew⟩
        rcases List.mem_cons.mp hk with rfl | hk
        · exact absurd hk₀ hnew
        · exact ⟨hk, hnew⟩
    · next hk₀ =>
      simp only [List.mem_cons, ih, List.mem_append, List.not_mem_nil, or_false, not_or]
      constructor
      · rintro (rfl | ⟨hk, hnew, -⟩)
        · exact ⟨Or.inl rfl, hk₀⟩
        · exact ⟨Or.inr hk, hnew⟩
      · rintro ⟨rfl | hk, hnew⟩
        · exact Or.inl rfl
        · by_cases heq : k = k₀
          · exact Or.inl heq
          · exact Or.inr ⟨hk, hnew, heq⟩

theorem nodup_newKernels (h : known.Nodup) : (known ++ newKernels known ks).Nodup := by
  induction ks generalizing known with
  | nil => simpa [newKernels] using h
  | cons k ks ih =>
    unfold newKernels
    split
    · exact ih h
    · next hk =>
      have hmore : (known ++ [k]).Nodup := by
        refine List.nodup_append.mpr ⟨h, by simp, ?_⟩
        rintro k' hk' k'' hk'' rfl
        obtain rfl := List.mem_singleton.mp hk''
        exact hk hk'
      simpa using ih hmore

/-- How far an exploration has come: the states built, the kernels queued, and where they are
from. -/
structure Discovered (g : NumberedGrammar) (built : List State) (queue : List ItemSet) : Prop where
  nodup : (built.map (·.kernel) ++ queue).Nodup
  built_eq : ∀ s ∈ built, s = g.state s.kernel
  kernels : ∀ k ∈ built.map (·.kernel) ++ queue, g.IsKernel k
  reached : ∀ k ∈ built.map (·.kernel) ++ queue,
    Relation.ReflTransGen (fun k k' => k' ∈ (g.state k).successors) initialKernel k
  followed : ∀ s ∈ built, ∀ k ∈ s.successors, k ∈ built.map (·.kernel) ++ queue

theorem Discovered.step (h : g.Discovered built (k :: queue)) :
    g.Discovered (built ++ [g.state k]) (queue ++ newKernels
      (built.map (·.kernel) ++ k :: queue) (g.state k).successors) := by
  have hkernels : (built ++ [g.state k]).map (·.kernel) ++ (queue ++ newKernels
      (built.map (·.kernel) ++ k :: queue) (g.state k).successors) =
      (built.map (·.kernel) ++ k :: queue) ++ newKernels
        (built.map (·.kernel) ++ k :: queue) (g.state k).successors := by
    simp only [List.map_append, List.map_cons, List.map_nil, List.append_assoc,
      List.cons_append, List.nil_append]
    rfl
  have hmem : k ∈ built.map (·.kernel) ++ k :: queue := by simp
  constructor
  case nodup =>
    rw [hkernels]
    exact nodup_newKernels h.nodup
  case built_eq =>
    intro s hs
    rcases List.mem_append.mp hs with hs | hs
    · exact h.built_eq s hs
    · rw [List.mem_singleton.mp hs]
      rfl
  case kernels =>
    intro k' hk'
    rw [hkernels] at hk'
    rcases List.mem_append.mp hk' with hk' | hk'
    · exact h.kernels k' hk'
    · obtain ⟨tr, hmoves, rfl⟩ := mem_successors.mp (mem_newKernels.mp hk').1
      exact moves_isKernel hmoves
  case reached =>
    intro k' hk'
    rw [hkernels] at hk'
    rcases List.mem_append.mp hk' with hk' | hk'
    · exact h.reached k' hk'
    · exact (h.reached k hmem).tail (mem_newKernels.mp hk').1
  case followed =>
    intro s hs k' hk'
    rw [hkernels]
    rcases List.mem_append.mp hs with hs | hs
    · exact List.mem_append_left _ (h.followed s hs k' hk')
    · rw [List.mem_singleton.mp hs] at hk'
      by_cases hold : k' ∈ built.map (·.kernel) ++ k :: queue
      · exact List.mem_append_left _ hold
      · exact List.mem_append_right _ (mem_newKernels.mpr ⟨hk', hold⟩)

/-- With as many steps as there can be kernels, an exploration ends with an empty queue. -/
theorem Discovered.explore (h : g.Discovered built queue)
    (enough : g.kernelBound ≤ n + built.length) :
    g.Discovered (g.explore n built queue) [] := by
  induction n generalizing built queue with
  | zero =>
    have hbound := length_le_kernelBound h.nodup fun k hk => (h.kernels k hk).items
    rw [List.length_append, List.length_map] at hbound
    have hempty : queue = [] := List.eq_nil_of_length_eq_zero (by omega)
    subst hempty
    exact h
  | succ n ih =>
    cases queue with
    | nil => exact h
    | cons k queue =>
      refine ih h.step ?_
      rw [List.length_append, List.length_singleton]
      omega

theorem discovered_states {r : Production} (hr : g.rules[0]? = some r) :
    g.Discovered g.states [] := by
  refine Discovered.explore ⟨by simp, by simp, ?_, ?_, by simp⟩ (Nat.le_add_right _ _)
  · intro k hk
    rw [List.mem_singleton.mp hk]
    exact initial_isKernel hr
  · intro k hk
    rw [List.mem_singleton.mp hk]

end NumberedGrammar

theorem Numbering.rule_zero_of_start {g : Grammar} (h : (ofGrammar g).userStart.isSome = true) :
    ∃ r, (ofGrammar g).grammar.rules[0]? = some r := by
  unfold ofGrammar at h ⊢
  dsimp only at h ⊢
  split at h
  · exact ⟨_, rfl⟩
  · cases h
  · cases h

namespace Automaton

variable {g : Grammar} {m : Automaton} {i j : Nat} {s : State} {k : ItemSet} {tr : Transition}

/-- The state with number `i` has a shift or a push to the state with number `j`. -/
def Goes (m : Automaton) (i j : Nat) : Prop :=
  ∃ (s s' : State) (tr : Transition), m.states[i]? = some s ∧ m.states[j]? = some s' ∧
    s.Moves tr ∧ tr.target = s'.kernel

structure Explored (m : Automaton) : Prop where
  states : m.grammar.Discovered m.states.toList []
  first : m.At NumberedGrammar.initialKernel 0

theorem explored_of_start (h : (generate g).numbering.userStart.isSome = true) :
    (generate g).Explored := by
  have hstates : (generate g).states = (Numbering.ofGrammar g).grammar.states.toArray := if_pos h
  obtain ⟨r, hr⟩ := Numbering.rule_zero_of_start h
  constructor
  · rw [hstates, List.toList_toArray]
    exact NumberedGrammar.discovered_states hr
  · unfold At
    rw [hstates, List.getElem?_toArray]
    exact NumberedGrammar.first_state

theorem states_cases (g : Grammar) : (generate g).states = #[] ∨ (generate g).Explored := by
  by_cases hstart : (generate g).numbering.userStart.isSome = true
  · exact Or.inr (explored_of_start hstart)
  · exact Or.inl (if_neg hstart)

theorem explored_of_mem {g : Grammar} (hs : s ∈ (generate g).states) : (generate g).Explored := by
  rcases states_cases g with hnone | hm
  · simp [hnone] at hs
  · exact hm

namespace Explored

theorem eq_of_mem (h : m.Explored) (hs : s ∈ m.states) : s = m.grammar.state s.kernel :=
  h.states.built_eq s (Array.mem_toList_iff.mpr hs)

theorem state_eq (h : m.Explored) (hs : m.states[i]? = some s) : s = m.grammar.state s.kernel :=
  h.eq_of_mem (Array.mem_of_getElem? hs)

theorem kernel_mem (hs : m.states[i]? = some s) :
    s.kernel ∈ m.states.toList.map (·.kernel) ++ [] := by
  rw [List.append_nil]
  exact List.mem_map_of_mem (Array.mem_toList_iff.mpr (Array.mem_of_getElem? hs))

theorem kernel_of_mem (h : m.Explored) (hs : s ∈ m.states) : m.grammar.IsKernel s.kernel := by
  obtain ⟨i, hi⟩ := Array.getElem?_of_mem hs
  exact h.states.kernels _ (kernel_mem hi)

theorem index_unique (h : m.Explored) {s' : State} (hs : m.states[i]? = some s)
    (hs' : m.states[j]? = some s') (heq : s.kernel = s'.kernel) : i = j := by
  have hnodup := h.states.nodup
  rw [List.append_nil] at hnodup
  have hi : (m.states.toList.map (·.kernel))[i]? = some s.kernel := by simp [hs]
  have hj : (m.states.toList.map (·.kernel))[j]? = some s.kernel := by simp [hs', heq]
  have hlt := (List.getElem?_eq_some_iff.mp hi).1
  exact (List.getElem?_inj hlt hnodup).mp (hi.trans hj.symm)

theorem stateIndex_eq (h : m.Explored) (hs : m.states[i]? = some s) :
    m.stateIndex? s.kernel = some i := by
  obtain ⟨hlt, rfl⟩ := Array.getElem?_eq_some_iff.mp hs
  refine Array.findIdx?_eq_some_iff_getElem.mpr ⟨hlt, by simp, ?_⟩
  intro j hj
  have hjlt : j < m.states.size := Nat.lt_trans hj hlt
  simp only [decide_eq_true_eq]
  intro heq
  have := h.index_unique (Array.getElem?_eq_getElem hjlt) hs heq
  omega

theorem exists_target (h : m.Explored) (hs : m.states[i]? = some s) (htr : s.Moves tr) :
    ∃ (j : Nat) (s' : State), m.states[j]? = some s' ∧ s'.kernel = tr.target := by
  have hsucc : tr.target ∈ s.successors := by
    rw [h.state_eq hs] at htr ⊢
    exact NumberedGrammar.mem_successors.mpr ⟨tr, htr, rfl⟩
  have hmem := h.states.followed s (Array.mem_toList_iff.mpr (Array.mem_of_getElem? hs)) _ hsucc
  rw [List.append_nil] at hmem
  obtain ⟨s', hs', hkernel⟩ := List.mem_map.mp hmem
  obtain ⟨j, hj⟩ := List.getElem?_of_mem hs'
  exact ⟨j, s', by simpa using hj, hkernel⟩

theorem reached_from (h : m.Explored)
    (hk : Relation.ReflTransGen (fun k k' => k' ∈ (m.grammar.state k).successors)
      NumberedGrammar.initialKernel k) :
    ∃ (j : Nat) (s : State), m.states[j]? = some s ∧ s.kernel = k ∧
      Relation.ReflTransGen m.Goes 0 j := by
  induction hk with
  | refl => exact ⟨0, _, h.first, rfl, .refl⟩
  | @tail k k' _ hstep ih =>
    obtain ⟨j, s, hs, rfl, hchain⟩ := ih
    obtain ⟨tr, hmoves, rfl⟩ := NumberedGrammar.mem_successors.mp hstep
    rw [← h.state_eq hs] at hmoves
    obtain ⟨j', s', hs', htarget⟩ := h.exists_target hs hmoves
    exact ⟨j', s', hs', htarget, hchain.tail ⟨s, s', tr, hs, hs', hmoves, htarget.symm⟩⟩

theorem reached (h : m.Explored) (hs : m.states[i]? = some s) :
    Relation.ReflTransGen m.Goes 0 i := by
  obtain ⟨j, s', hs', hkernel, hchain⟩ := h.reached_from (h.states.reached _ (kernel_mem hs))
  rwa [h.index_unique hs hs' hkernel.symm]

end Explored

/-- The states are the kernels that shifts and pushes lead to from the initial one, each once. -/
theorem states_reached_once (h : (generate g).numbering.userStart.isSome = true) :
    let m := generate g
    (∃ s : State, m.states[0]? = some s ∧ ∀ a, a ∈ s.kernel ↔ a = ⟨0, 0⟩) ∧
    (∀ (i : Nat) (s : State), m.states[i]? = some s → m.stateIndex? s.kernel = some i ∧
      (∃ a, a ∈ s.kernel) ∧ (∀ a ∈ s.kernel, m.grammar.isItem a = true) ∧
      (i ≠ 0 → ∃ x, ∀ a ∈ s.kernel, 1 ≤ a.phase ∧ m.grammar.tokenBefore? a = some x) ∧
      (∀ tr, s.Moves tr → ∃! j : Nat, ∃ s' : State, m.states[j]? = some s' ∧
        s'.kernel = tr.target) ∧
      Relation.ReflTransGen m.Goes 0 i) ∧
    ∀ (i j : Nat) (s s' : State), m.states[i]? = some s → m.states[j]? = some s' → i ≠ j →
      ¬ ∀ a, a ∈ s.kernel ↔ a ∈ s'.kernel := by
  intro m
  have hm : m.Explored := explored_of_start h
  refine ⟨⟨_, hm.first, fun a => NumberedGrammar.mem_initialKernel⟩, ?_, ?_⟩
  · intro i s hs
    obtain ⟨hnonempty, hitems, hsame⟩ := hm.states.kernels _ (Explored.kernel_mem hs)
    refine ⟨hm.stateIndex_eq hs, hnonempty, hitems, ?_, ?_, hm.reached hs⟩
    · intro hi
      refine hsame ?_
      intro hinitial
      exact hi (hm.index_unique hs hm.first hinitial)
    · intro tr htr
      obtain ⟨j, s', hs', htarget⟩ := hm.exists_target hs htr
      refine ⟨j, ⟨s', hs', htarget⟩, ?_⟩
      rintro j' ⟨s'', hs'', htarget'⟩
      exact hm.index_unique hs'' hs' (htarget'.trans htarget.symm)
  · intro i j s s' hs hs' hne hsame
    exact hne (hm.index_unique hs hs' (ItemSet.ext hsame))

set_option maxRecDepth 100000 in
theorem letters_states : (generate Grammar.letters).states.size = 7 ∧
    ∀ (i : Nat) (s : State), (generate Grammar.letters).states[i]? = some s →
      (∃ a, a ∈ s.kernel) ∧ Relation.ReflTransGen (generate Grammar.letters).Goes 0 i := by
  obtain ⟨-, hstates, -⟩ := @states_reached_once Grammar.letters (by decide +kernel)
  refine ⟨by decide +kernel, ?_⟩
  intro i s hs
  obtain ⟨-, hnonempty, -, -, -, hreached⟩ := hstates i s hs
  exact ⟨hnonempty, hreached⟩

end Automaton

end ParserTables

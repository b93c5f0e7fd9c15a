import ParserTables.Automaton.Description
import ParserTables.Proofs.Declaring
import ParserTables.Proofs.Flattening
import ParserTables.Proofs.Follow

/-!
Whatever faults a grammar has, nothing is ever asked for that is not there: generating its
automaton, making the table and describing the automaton look up rules, states and declarations
that exist. The naming goes on after names that it refuses, so its invariant speaks of the names
that are held and not of those that were declared; the states are built from items of the grammar
even where tokens have no number.
-/

namespace ParserTables

namespace Naming

variable {g : Grammar} {n n' : Naming} {names terminals : List String} {augmented name : String}
  {nt : Nonterminal} {nts before : List Nonterminal}

/-- A name that a nonterminal could have, since it is neither reserved nor that of a terminal. -/
structure Free (terminals : List String) (name : String) : Prop where
  nonempty : name ≠ ""
  unreserved : isReserved name = false
  not_terminal : name ∉ terminals

theorem exists_find {owners : List Nonterminal} (h : ∃ owner ∈ owners, owner.name = name) :
    ∃ first, owners.find? (·.name = name) = some first := by
  obtain ⟨owner, howner, hname⟩ := h
  exact Option.isSome_iff_exists.mp (List.find?_isSome.mpr ⟨owner, howner, by simpa using hname⟩)

/-- Looking among the owners finds what looking among the declarations would have found. -/
theorem OwnersHeld.find_declared (h : OwnersHeld g terminals augmented n names)
    (hfree : Free terminals name) (hnt : nt ∈ g.nonterminals)
    (hs : declareNonterminal n nt = (n', none)) :
    n'.owners.toList.find? (·.name = name) = (n.owners.toList ++ [nt]).find? (·.name = name) := by
  have houtcome := h.declare_nonterminal nt
  rw [hs] at houtcome
  cases houtcome with
  | added fit room holds issues =>
    rcases declare_nonterminal_cases hs with ⟨issue, rfl⟩ | ⟨-, id, symbols, named, -, rfl, hend⟩
    · have hnames := holds.names_eq
      rw [owners_report, ← h.names_eq] at hnames
      simp at hnames
    · rcases hend with ⟨-, issue, rfl⟩ | ⟨-, rfl⟩ <;> simp
  | refused unfit holds =>
    rw [owners_report, List.find?_append]
    by_cases hname : nt.name = name
    · subst hname
      have hold : nt.name ∈ names := by
        by_contra hnew
        exact unfit ⟨hfree.nonempty, hfree.unreserved, hnew⟩
      obtain ⟨first, hfirst⟩ := exists_find (h.owner_of_name hnt hfree.not_terminal hold)
      simp [hfirst]
    · simp [hname]

theorem OwnersHeld.find_each (h : OwnersHeld g terminals augmented n names)
    (hfree : Free terminals name) (hnts : ∀ nt ∈ nts, nt ∈ g.nonterminals)
    (he : each declareNonterminal n nts = (n', none)) :
    n'.owners.toList.find? (·.name = name) = (n.owners.toList ++ nts).find? (·.name = name) := by
  induction nts generalizing n names with
  | nil =>
    cases he
    simp
  | cons nt nts ih =>
    obtain ⟨hnt, hrest⟩ := List.forall_mem_cons.mp hnts
    unfold each at he
    split at he
    · next n₁ hs =>
      have hfirst := h.find_declared hfree hnt hs
      have houtcome := h.declare_nonterminal nt
      rw [hs] at houtcome
      have hheld : ∃ names₁, OwnersHeld g terminals augmented n₁ names₁ := by
        cases houtcome with
        | added _ _ holds _ => exact ⟨_, holds⟩
        | refused _ holds => exact ⟨_, holds⟩
      obtain ⟨names₁, h₁⟩ := hheld
      rw [ih h₁ hrest he, List.find?_append, hfirst, ← List.find?_append, List.append_assoc]
      rfl
    · cases he

/-- The naming has come to a nonterminal whose name is in the table, but not as a terminal. -/
structure Repeated (g : Grammar) (before : List Nonterminal) (nt : Nonterminal) (n : Naming) :
    Prop where
  place : ∃ after, g.nonterminals = before ++ nt :: after
  reached : andThen (begin g) (fun n => each declareNonterminal n before) = (n, none)
  nonempty : nt.name ≠ ""
  unreserved : isReserved nt.name = false
  not_terminal : n.positions[nt.name]? = none
  held : (n.symbols.id? nt.name).isSome = true

theorem Repeated.exists_first (h : Repeated g before nt n) : ∃ first,
    n.owners.find? (·.name = nt.name) = some first ∧
      before.find? (·.name = nt.name) = some first := by
  obtain ⟨after, hplace⟩ := h.place
  obtain ⟨n₀, hbegin, hrun⟩ := andThen_ok h.reached
  obtain ⟨terminals, augmented, h₀, howners⟩ := owners_held_begin hbegin
  obtain ⟨names, hn⟩ := declares_nonterminals.exists_held hrun ⟨_, h₀⟩
  have hterminal : nt.name ∉ terminals := by
    intro hmem
    have hsome := Std.TreeMap.mem_iff_isSome_getElem?.mp ((hn.position_iff _).mpr hmem)
    rw [h.not_terminal] at hsome
    cases hsome
  have hbefore : ∀ nt' ∈ before, nt' ∈ g.nonterminals := by
    intro nt' hnt'
    rw [hplace]
    exact List.mem_append_left _ hnt'
  have hold : nt.name ∈ names := by
    rcases (hn.texts.id_isSome_iff hn.table).mp h.held with hreserved | hold
    · rw [h.unreserved] at hreserved
      cases hreserved
    · exact hold
  obtain ⟨first, hfirst⟩ := exists_find (hn.owner_of_name (by simp [hplace]) hterminal hold)
  have hfind := h₀.find_each ⟨h.nonempty, h.unreserved, hterminal⟩ hbefore hrun
  rw [hfirst, howners] at hfind
  exact ⟨first, by rw [← Array.find?_toList, hfirst], by simpa using hfind.symm⟩

end Naming

namespace NumberedGrammar

variable {g : NumberedGrammar} {k : ItemSet} {a c : Item} {as : List Item} {s x : Nat}
  {tr : Transition}

/-- The items whose rules are looked up when the state of a kernel is built: those of its closure,
those that it leads to, and those right after the occurrences of what is reduced, with theirs. -/
inductive Consults (g : NumberedGrammar) (k : ItemSet) : Item → Prop where
  | closure {a : Item} (ha : a ∈ g.closure k.items) : Consults g k a
  | moved {a : Item} (x : Nat) (ha : a ∈ g.goto (g.closure k.items) x) : Consults g k a
  | next {a : Item} (s : Nat) (ha : a ∈ (g.occurrences s).map Item.advance) : Consults g k a
  | context {a c : Item} (s : Nat) (hc : c ∈ g.finals (g.closure k.items))
      (hs : g.lhs? c.rule = some s) (ha : a ∈ g.closure (g.contexts s)) : Consults g k a

theorem isItem_spawned (ha : a ∈ g.spawned s) : g.isItem a = true := by
  obtain ⟨hl, hphase⟩ := mem_spawned.mp ha
  obtain ⟨r, hr, -⟩ := lhs_eq_some.mp hl
  simp [isItem, hr, hphase]

theorem isItem_closure (hitems : ∀ a ∈ as, g.isItem a = true) (ha : a ∈ g.closure as) :
    g.isItem a = true := by
  rcases List.mem_append.mp ha with ha | ha
  · exact hitems a ha
  · obtain ⟨s, -, hs⟩ := List.mem_flatMap.mp ha
    exact isItem_spawned hs

theorem isItem_goto (ha : a ∈ g.goto as x) : g.isItem a = true := by
  obtain ⟨b, -, hb, rfl⟩ := mem_goto.mp ha
  exact isItem_advance hb

theorem isItem_next (ha : a ∈ (g.occurrences s).map Item.advance) : g.isItem a = true := by
  obtain ⟨b, hb, rfl⟩ := List.mem_map.mp ha
  exact isItem_advance (mem_occurrences.mp hb)

theorem isItem_contexts (ha : a ∈ g.contexts s) : g.isItem a = true := by
  obtain ⟨y, -, hy⟩ := List.mem_flatMap.mp ha
  exact isItem_next (List.mem_filter.mp hy).1

theorem Consults.isItem (hk : ∀ a ∈ k, g.isItem a = true) (h : g.Consults k a) :
    g.isItem a = true := by
  cases h with
  | closure ha => exact isItem_closure hk ha
  | moved x ha => exact isItem_goto ha
  | next s ha => exact isItem_next ha
  | context s _ _ ha => exact isItem_closure (fun _ hb => isItem_contexts hb) ha

theorem consults_goto {tr : Transition} (htarget : tr.target = g.goto (g.closure k.items) x) :
    ∀ a ∈ tr.target, g.Consults k a := by
  intro a ha
  rw [htarget] at ha
  exact .moved x ha

theorem consults_reduction (hc : c ∈ (g.offer k).finals) :
    ∀ a ∈ (g.reduction c).target, g.Consults k a := by
  intro a ha
  rw [List.mem_singleton.mp (ItemSet.mem_ofList.mp ha)]
  exact .closure (mem_offer_finals.mp hc).1

theorem consults_offered {t : Nat} (h : g.offered (g.offer k) t = some tr) :
    ∀ a ∈ tr.target, g.Consults k a := by
  rcases offered_cases h with ⟨rfl, -⟩ | ⟨rfl, -⟩
  · exact consults_goto rfl
  · intro a ha
    exact absurd ha (ItemSet.not_mem_empty a)

theorem loser_cases {t : Nat} (h : tr ∈ (g.decision (g.offer k) t).losers) :
    (∃ c ∈ (g.offer k).finals, tr = g.reduction c) ∨ g.offered (g.offer k) t = some tr := by
  unfold decision at h
  dsimp only at h
  split at h
  · cases h
  · next c others hc =>
    have hfinal : ∀ c' ∈ c :: others, c' ∈ (g.offer k).finals := by
      intro c' hc'
      exact (mem_candidates (hc ▸ hc')).1
    have hothers : tr ∈ others.map g.reduction → ∃ c ∈ (g.offer k).finals, tr = g.reduction c := by
      intro hmem
      obtain ⟨c', hc', rfl⟩ := List.mem_map.mp hmem
      exact ⟨c', hfinal c' (List.mem_cons_of_mem _ hc'), rfl⟩
    split at h
    · exact Or.inl (hothers (by simpa using h))
    · next old hold =>
      split at h
      · rcases List.mem_append.mp h with h | h
        · exact Or.inl (hothers h)
        · exact Or.inl ⟨c, hfinal c List.mem_cons_self, List.mem_singleton.mp h⟩
      · rcases List.mem_append.mp h with h | h
        · exact Or.inl (hothers h)
        · exact Or.inr (by rw [hold, List.mem_singleton.mp h])

theorem consults_emitted (h : (g.state k).Emits tr) : ∀ a ∈ tr.target, g.Consults k a := by
  cases h with
  | terminal x h =>
    rw [mem_terminals_state] at h
    obtain ⟨-, ⟨rfl, -⟩ | ⟨rfl, -⟩ | ⟨c, hc, -, rfl⟩⟩ := onTerminal_cases h
    · exact consults_goto rfl
    · intro a ha
      exact absurd ha (ItemSet.not_mem_empty a)
    · exact consults_reduction hc
  | fallback h =>
    rw [fallback_state] at h
    obtain ⟨c, hc, rfl⟩ := Option.map_eq_some_iff.mp h
    exact consults_reduction (fallbackItem_mem hc)
  | nonterminal x h =>
    obtain ⟨y, htarget, -⟩ := moves_target (Or.inr ⟨x, mem_nonterminals_state.mp h⟩)
    exact consults_goto htarget

theorem consults_conflict {x : Nat} (h : (x, tr) ∈ (g.state k).conflicts) :
    ∀ a ∈ tr.target, g.Consults k a := by
  simp only [state, List.mem_flatMap, List.mem_map] at h
  obtain ⟨d, ⟨t, -, rfl⟩, loser, hloser, heq⟩ := h
  cases heq
  rcases loser_cases hloser with ⟨c, hc, rfl⟩ | hoffered
  · exact consults_reduction hc
  · exact consults_offered hoffered

end NumberedGrammar

theorem bind_ok {α β ε : Type} {x : Except ε α} {f : α → Except ε β} (hx : ∃ a, x = .ok a)
    (hf : ∀ a, x = .ok a → ∃ b, f a = .ok b) : ∃ b, x >>= f = .ok b := by
  obtain ⟨a, rfl⟩ := hx
  exact hf a rfl

namespace Automaton

variable {m : Automaton} {a : Item} {s : State} {tr : Transition} {target : ItemSet}

theorem ruleOf_of_isItem (h : m.grammar.isItem a = true) : ∃ r, m.ruleOf a = .ok r := by
  obtain ⟨r, hr, hphase⟩ := (Option.any_eq_true _ _).mp h
  have hle : ¬ r.tokens.length < a.phase := Nat.not_lt.mpr (by simpa using hphase)
  have hrule : m.rules[a.rule]? = some r := hr
  refine ⟨r, ?_⟩
  unfold ruleOf
  rw [hrule]
  exact if_neg hle

theorem itemTexts_ok (h : ∀ a ∈ target, m.grammar.isItem a = true) :
    ∃ texts, m.itemTexts target = .ok texts :=
  exists_mapM fun a ha => bind_ok (ruleOf_of_isItem (h a ha)) fun _ _ => ⟨_, rfl⟩

theorem transitionText_ok (h : ∀ a ∈ tr.target, m.grammar.isItem a = true) :
    ∃ text, m.transitionText tr = .ok text := by
  have hdestination : ∀ verb, ∃ text, m.destination verb tr.target = .ok text := by
    intro verb
    unfold destination
    split
    · exact ⟨_, rfl⟩
    · split
      · exact ⟨_, rfl⟩
      · exact bind_ok (itemTexts_ok h) fun texts _ => ⟨_, rfl⟩
  have hreduction : ∀ verb, ∃ text, m.reductionText verb tr.target = .ok text := by
    intro verb
    refine bind_ok (exists_mapM fun a ha => bind_ok ?_ fun _ _ => ⟨_, rfl⟩) fun _ _ => ⟨_, rfl⟩
    obtain ⟨r, hr, -⟩ := (Option.any_eq_true _ _).mp (h a ha)
    have hrule : m.rules[a.rule]? = some r := hr
    exact ⟨r, by simp [elementAt, hrule]⟩
  unfold transitionText
  cases tr.action with
  | shift => exact hdestination _
  | push => exact hdestination _
  | reduce => exact hreduction _
  | accept => exact hreduction _
  | throwAway => exact ⟨_, rfl⟩

theorem stateText_ok {index : Nat} (hkernel : ∀ a ∈ s.kernel, m.grammar.isItem a = true)
    (hemitted : ∀ tr, s.Emits tr → ∀ a ∈ tr.target, m.grammar.isItem a = true)
    (hconflicts : ∀ x tr, (x, tr) ∈ s.conflicts → ∀ a ∈ tr.target, m.grammar.isItem a = true) :
    ∃ text, m.stateText s index = .ok text := by
  refine bind_ok (itemTexts_ok hkernel) fun _ _ => bind_ok ?_ fun _ _ => bind_ok ?_ fun _ _ =>
    bind_ok ?_ fun _ _ => bind_ok ?_ fun _ _ => ⟨_, rfl⟩
  · refine exists_mapM ?_
    rintro ⟨x, tr⟩ hmem
    exact bind_ok (transitionText_ok (hemitted tr (.terminal x hmem))) fun _ _ => ⟨_, rfl⟩
  · refine exists_mapM ?_
    intro tr hmem
    exact bind_ok (transitionText_ok (hemitted tr (.fallback (Option.mem_toList.mp hmem))))
      fun _ _ => ⟨_, rfl⟩
  · refine exists_mapM ?_
    rintro ⟨x, tr⟩ hmem
    exact bind_ok (transitionText_ok (hemitted tr (.nonterminal x hmem))) fun _ _ => ⟨_, rfl⟩
  · refine exists_mapM ?_
    rintro ⟨x, tr⟩ hmem
    exact bind_ok (transitionText_ok (hconflicts x tr hmem)) fun _ _ => ⟨_, rfl⟩

theorem isItem_consulted {g : Grammar} (hs : s ∈ (generate g).states)
    (ha : (generate g).grammar.Consults s.kernel a) : (generate g).grammar.isItem a = true := by
  exact ha.isItem ((explored_of_mem hs).kernel_of_mem hs).items

theorem exists_table_always (g : Grammar) : ∃ t, (generate g).table = .ok t := by
  rcases states_cases g with hnone | hm
  · exact bind_ok (by simp [hnone, pure, Except.pure]) fun _ _ => ⟨_, rfl⟩
  · exact hm.exists_table

theorem emitted_of_entry {e : Entry} (he : e ∈ (m.rowOf s).entries) :
    ∃ x tr, s.Emits tr ∧ e = m.entryOf x tr := by
  simp only [Row.entries, rowOf, entriesOf, List.mem_append, List.mem_map, Option.mem_toList,
    Option.map_eq_some_iff, Prod.exists] at he
  rcases he with (⟨x, tr, hmem, rfl⟩ | ⟨tr, hf, rfl⟩) | ⟨x, tr, hmem, rfl⟩
  · exact ⟨_, tr, .terminal x hmem, rfl⟩
  · exact ⟨_, tr, .fallback hf, rfl⟩
  · exact ⟨_, tr, .nonterminal x hmem, rfl⟩

theorem Shows.entry_emitted {t : Table} (h : m.Shows t) {slot : Int} (hlow : 1 ≤ slot)
    (hhigh : slot < t.entries.count) : ∃ s ∈ m.states, ∃ x tr, s.Emits tr ∧
      t.entries.get slot = .ok (some (m.entryOf x tr)) := by
  obtain ⟨n, rfl⟩ : ∃ n : Nat, slot = n + 1 := ⟨(slot - 1).toNat, by omega⟩
  have hcount := h.entries
  generalize hall : m.states.toList.flatMap (fun s => (m.rowOf s).entries) = all at hcount
  have hlt : n < all.length := by
    rw [hcount, Slots.ofParts, Slots.count_ofArray] at hhigh
    simp only [List.map_toArray, List.size_toArray, List.length_map, List.length_cons] at hhigh
    omega
  have hmem : all[n] ∈ m.states.toList.flatMap fun s => (m.rowOf s).entries := by
    rw [hall]
    exact List.getElem_mem hlt
  obtain ⟨s, hs, hentry⟩ := List.mem_flatMap.mp hmem
  obtain ⟨x, tr, htr, heq⟩ := emitted_of_entry hentry
  refine ⟨s, Array.mem_toList_iff.mp hs, x, tr, htr, ?_⟩
  have hsplit : reservedEntry :: all =
      (reservedEntry :: all.take n) ++ (all[n] :: all.drop (n + 1)) := by simp
  have hget := Table.get_entry hcount _ _ _ hsplit
  rw [heq, List.length_cons, List.length_take, Nat.min_eq_left (Nat.le_of_lt hlt)] at hget
  exact_mod_cast hget

/-- No grammar, whatever its faults, makes the generator look for something that is not there: the
table and the description exist, and each entry has the kind of an action; the rules that are
looked up exist and the dot stands in them; a shift or a push finds its state, and a reduction has
one rule; and a nonterminal that is declared again finds its first declaration. -/
theorem generation_safe (g : Grammar) :
    let m := generate g
    (∃ t, m.table = .ok t ∧ ∀ slot : Int, 1 ≤ slot → slot < t.entries.count →
      ∃ (e : Entry) (action : Action), t.entries.get slot = .ok (some e) ∧
        e.kind = action.kind) ∧
    (∃ text, m.describe = .ok text) ∧
    (∀ s ∈ m.states, (∀ a, m.grammar.Consults s.kernel a → ∃ r, m.ruleOf a = .ok r) ∧
      ∀ tr, s.Emits tr → m.Lands tr ∧ ∀ a ∈ tr.target, ∃ r, m.ruleOf a = .ok r) ∧
    ∀ before nt n, Naming.Repeated g before nt n → ∃ first,
      n.owners.find? (·.name = nt.name) = some first ∧
        before.find? (·.name = nt.name) = some first := by
  intro m
  have hconsulted : ∀ s ∈ m.states, ∀ a, m.grammar.Consults s.kernel a →
      m.grammar.isItem a = true := fun s hs a ha => isItem_consulted hs ha
  have hemitted : ∀ s ∈ m.states, ∀ tr, s.Emits tr → ∀ a ∈ tr.target,
      m.grammar.isItem a = true := by
    intro s hs tr htr a ha
    obtain ⟨k, rfl⟩ := state_of_mem (Array.mem_toList_iff.mpr hs)
    exact hconsulted _ hs a (NumberedGrammar.consults_emitted htr a ha)
  have hconflicts : ∀ s ∈ m.states, ∀ x tr, (x, tr) ∈ s.conflicts → ∀ a ∈ tr.target,
      m.grammar.isItem a = true := by
    intro s hs x tr htr a ha
    obtain ⟨k, rfl⟩ := state_of_mem (Array.mem_toList_iff.mpr hs)
    exact hconsulted _ hs a (NumberedGrammar.consults_conflict htr a ha)
  refine ⟨?_, ?_, ?_, fun before nt n h => h.exists_first⟩
  · obtain ⟨t, ht⟩ := exists_table_always g
    refine ⟨t, ht, ?_⟩
    intro slot hlow hhigh
    obtain ⟨s, -, x, tr, -, hget⟩ := (shows_of_table ht).entry_emitted hlow hhigh
    exact ⟨_, tr.action, hget, rfl⟩
  · refine bind_ok (exists_mapM ?_) fun _ _ => ⟨_, rfl⟩
    rintro ⟨s, index⟩ hmem
    have hs : s ∈ m.states :=
      Array.mem_toList_iff.mp (List.mem_of_getElem? (List.mem_zipIdx_iff_getElem?.mp hmem))
    refine stateText_ok ?_ (hemitted s hs) (hconflicts s hs)
    intro a ha
    exact hconsulted s hs a (.closure (List.mem_append_left _ ha))
  · intro s hs
    refine ⟨fun a ha => ruleOf_of_isItem (hconsulted s hs a ha), ?_⟩
    intro tr htr
    refine ⟨?_, fun a ha => ruleOf_of_isItem (hemitted s hs tr htr a ha)⟩
    obtain ⟨i, hi⟩ := Array.getElem?_of_mem hs
    exact (explored_of_mem hs).lands hi htr

end Automaton

end ParserTables

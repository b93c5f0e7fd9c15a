import Mathlib.Data.List.Perm.Subperm
import Mathlib.Data.List.TakeWhile
import Mathlib.Data.Set.Basic
import Mathlib.Logic.Relation
import ParserTables.Automaton.Closure
import ParserTables.Proofs.Numbering

/-!
The closure of a set of items as a least set: it has the items themselves and, with an item whose
dot stands before a nonterminal, the rules of that nonterminal with the dot at their beginning.
The search that computes it stops after as many steps as there are symbols; each step adds a
symbol that was not seen before, so by then nothing is left to add.
-/

namespace ParserTables

section Reach

variable {next : Nat → List Nat} {bound k x : Nat} {seen todo starts : List Nat}

theorem reachFrom_sound (h : x ∈ reachFrom next k seen todo) :
    x ∈ seen ∨ ∃ a ∈ todo, Relation.ReflTransGen (fun a b => b ∈ next a) a x := by
  induction k generalizing seen todo with
  | zero => exact Or.inl h
  | succ k ih =>
    unfold reachFrom at h
    split at h
    · exact Or.inl h
    · next a rest hd =>
      have hsub : a :: rest ⊆ todo := hd ▸ (List.dropWhile_sublist _).subset
      have ha : a ∈ todo := hsub (by simp)
      rcases ih h with hs | ⟨b, hb, hbx⟩
      · rcases List.mem_append.mp hs with hs | hs
        · exact Or.inl hs
        · obtain rfl := List.mem_singleton.mp hs
          exact Or.inr ⟨x, ha, .refl⟩
      · rcases List.mem_append.mp hb with hb | hb
        · exact Or.inr ⟨a, ha, .head hb hbx⟩
        · exact Or.inr ⟨b, hsub (by simp [hb]), hbx⟩

/-- As many different numbers below a bound as the bound says are all of them. -/
theorem mem_of_full (nodup : seen.Nodup) (below : ∀ a ∈ seen, a < bound)
    (full : bound ≤ seen.length) (hx : x < bound) : x ∈ seen := by
  have hsub : seen ⊆ List.range bound := fun a ha => List.mem_range.mpr (below a ha)
  have hperm := (nodup.subperm hsub).perm_of_length_le (by simpa using full)
  exact hperm.mem_iff.mpr (List.mem_range.mpr hx)

/-- The invariant of the search: what leads on from a point seen is seen or still to do, and the
steps left are enough to see all the other points. -/
structure Searching (next : Nat → List Nat) (bound k : Nat) (seen todo : List Nat) : Prop where
  nodup : seen.Nodup
  seen_lt : ∀ a ∈ seen, a < bound
  todo_lt : ∀ a ∈ todo, a < bound
  enough : bound ≤ k + seen.length
  leads_on : ∀ a ∈ seen, ∀ b ∈ next a, b ∈ seen ∨ b ∈ todo

theorem Searching.step (hnext : ∀ a, ∀ b ∈ next a, b < bound) {a : Nat} {rest : List Nat}
    (h : Searching next bound (k + 1) seen todo)
    (hd : todo.dropWhile (seen.contains ·) = a :: rest) :
    Searching next bound k (seen ++ [a]) (next a ++ rest) ∧
      ∀ b ∈ todo, b ∈ seen ++ [a] ∨ b ∈ rest := by
  have hsub : a :: rest ⊆ todo := hd ▸ (List.dropWhile_sublist _).subset
  have hnew : a ∉ seen := by
    have hhead := List.head?_dropWhile_not (fun b => seen.contains b) todo
    rw [hd] at hhead
    simpa using hhead
  have hsplit : ∀ b ∈ todo, b ∈ seen ++ [a] ∨ b ∈ rest := by
    intro b hb
    have hcut : todo.takeWhile (seen.contains ·) ++ a :: rest = todo :=
      hd ▸ List.takeWhile_append_dropWhile
    rw [← hcut] at hb
    rcases List.mem_append.mp hb with hb | hb
    · have hseen := List.mem_takeWhile_imp hb
      exact Or.inl (by simpa using Or.inl hseen)
    · rcases List.mem_cons.mp hb with rfl | hb
      · exact Or.inl (by simp)
      · exact Or.inr hb
  refine ⟨⟨?_, ?_, ?_, ?_, ?_⟩, hsplit⟩
  · rw [List.nodup_append]
    refine ⟨h.nodup, by simp, ?_⟩
    intro b hb c hc
    obtain rfl := List.mem_singleton.mp hc
    rintro rfl
    exact hnew hb
  · intro b hb
    rcases List.mem_append.mp hb with hb | hb
    · exact h.seen_lt b hb
    · obtain rfl := List.mem_singleton.mp hb
      exact h.todo_lt b (hsub (by simp))
  · intro b hb
    rcases List.mem_append.mp hb with hb | hb
    · exact hnext a b hb
    · exact h.todo_lt b (hsub (by simp [hb]))
  · have := h.enough
    simp only [List.length_append, List.length_singleton]
    omega
  · intro b hb c hc
    rcases List.mem_append.mp hb with hb | hb
    · rcases h.leads_on b hb c hc with hc | hc
      · exact Or.inl (by simp [hc])
      · rcases hsplit c hc with hc | hc
        · exact Or.inl hc
        · exact Or.inr (by simp [hc])
    · obtain rfl := List.mem_singleton.mp hb
      exact Or.inr (by simp [hc])

/-- The search ends with a set that holds what it began with and that nothing leads out of. -/
theorem Searching.closed (hnext : ∀ a, ∀ b ∈ next a, b < bound)
    (h : Searching next bound k seen todo) :
    (∀ a ∈ seen, a ∈ reachFrom next k seen todo) ∧ (∀ a ∈ todo, a ∈ reachFrom next k seen todo) ∧
      ∀ a ∈ reachFrom next k seen todo, ∀ b ∈ next a, b ∈ reachFrom next k seen todo := by
  induction k generalizing seen todo with
  | zero =>
    have hall : ∀ {b}, b < bound → b ∈ seen := fun hb =>
      mem_of_full h.nodup h.seen_lt (by simpa using h.enough) hb
    exact ⟨fun a ha => ha, fun a ha => hall (h.todo_lt a ha), fun a _ b hb => hall (hnext a b hb)⟩
  | succ k ih =>
    unfold reachFrom
    split
    · next hd =>
      have hdone : ∀ a ∈ todo, a ∈ seen := by
        intro a ha
        simpa using List.dropWhile_eq_nil_iff.mp hd a ha
      refine ⟨fun a ha => ha, hdone, ?_⟩
      intro a ha b hb
      rcases h.leads_on a ha b hb with hb | hb
      · exact hb
      · exact hdone b hb
    · next a rest hd =>
      obtain ⟨h', hsplit⟩ := h.step hnext hd
      obtain ⟨hseen, htodo, hclosed⟩ := ih h'
      refine ⟨fun b hb => hseen b (by simp [hb]), ?_, hclosed⟩
      intro b hb
      rcases hsplit b hb with hb | hb
      · exact hseen b hb
      · exact htodo b (by simp [hb])

theorem mem_reach (hstarts : ∀ a ∈ starts, a < bound) (hnext : ∀ a, ∀ b ∈ next a, b < bound) :
    x ∈ reach bound next starts ↔
      ∃ a ∈ starts, Relation.ReflTransGen (fun a b => b ∈ next a) a x := by
  have hinit : Searching next bound bound [] starts :=
    ⟨List.nodup_nil, by simp, hstarts, by simp, by simp⟩
  obtain ⟨-, htodo, hclosed⟩ := hinit.closed hnext
  constructor
  · intro h
    rcases reachFrom_sound h with h | h
    · simp at h
    · exact h
  · rintro ⟨a, ha, hax⟩
    induction hax with
    | refl => exact htodo a ha
    | tail _ hb ih => exact hclosed _ ih _ hb

end Reach

namespace ItemSet

theorem isEmpty_eq_false {s : ItemSet} : s.isEmpty = false ↔ ∃ a, a ∈ s := by
  unfold isEmpty
  rw [List.isEmpty_eq_false_iff_exists_mem]
  rfl

theorem nodup (s : ItemSet) : s.items.Nodup := by
  refine s.ascending.imp ?_
  intro a b hlt
  rintro rfl
  exact Item.lt_irrefl a hlt

theorem ext {s t : ItemSet} (h : ∀ a, a ∈ s ↔ a ∈ t) : s = t := by
  have hperm : s.items.Perm t.items := (List.perm_ext_iff_of_nodup s.nodup t.nodup).mpr h
  have heq : s.items = t.items := by
    refine hperm.eq_of_pairwise ?_ s.ascending t.ascending
    intro a b _ _ hab hba
    exact absurd (Item.lt_trans hab hba) (Item.lt_irrefl a)
  obtain ⟨as, has⟩ := s
  cases heq
  rfl

end ItemSet

namespace NumberedGrammar

variable {g : NumberedGrammar} {as : List Item} {a : Item} {s t : Nat} {K L : Set Item}

inductive Closure (g : NumberedGrammar) (K : Set Item) : Item → Prop
  | kernel {a : Item} : a ∈ K → Closure g K a
  | spawn {a : Item} {s i : Nat} : Closure g K a → g.tokenAt? a = some s →
      g.terminalCount ≤ s → g.lhs? i = some s → Closure g K ⟨i, 0⟩

theorem nonterminalAt_eq_some :
    g.nonterminalAt? a = some s ↔ g.tokenAt? a = some s ∧ g.terminalCount ≤ s := by
  simp [nonterminalAt?, Option.filter_eq_some_iff, isTerminal]

theorem mem_spawned : a ∈ g.spawned s ↔ g.lhs? a.rule = some s ∧ a.phase = 0 := by
  obtain ⟨i, p⟩ := a
  simp only [spawned, List.mem_map, Item.mk.injEq, mem_rulesOf]
  constructor
  · rintro ⟨j, hj, rfl, rfl⟩
    exact ⟨hj, rfl⟩
  · rintro ⟨hi, rfl⟩
    exact ⟨i, hi, rfl, rfl⟩

theorem Bounded.leads_lt (hb : g.Bounded) : ∀ s, ∀ x ∈ g.leads s, x < g.symbolCount := by
  intro s x hx
  obtain ⟨a, -, ha⟩ := List.mem_filterMap.mp hx
  exact hb a x (nonterminalAt_eq_some.mp ha).1

theorem Closure.of_spawned (h : g.Closure K a) (ht : g.tokenAt? a = some s)
    (hnt : g.terminalCount ≤ s) {b : Item} (hb : b ∈ g.spawned s) : g.Closure K b := by
  obtain ⟨hlhs, hphase⟩ := mem_spawned.mp hb
  obtain ⟨i, p⟩ := b
  cases hphase
  exact .spawn h ht hnt hlhs

theorem Closure.trans (hsub : ∀ a ∈ K, g.Closure L a) (h : g.Closure K a) : g.Closure L a := by
  induction h with
  | kernel hk => exact hsub _ hk
  | spawn _ ht hnt hl ih => exact .spawn ih ht hnt hl

theorem Closure.mono (hsub : ∀ a ∈ K, a ∈ L) (h : g.Closure K a) : g.Closure L a :=
  h.trans fun _ ha => .kernel (hsub _ ha)

/-- An item that is not at its beginning is one of those that the closure is of. -/
theorem Closure.mem_of_phase (h : g.Closure K a) (hp : a.phase ≠ 0) : a ∈ K := by
  cases h with
  | kernel hk => exact hk
  | spawn _ _ _ _ => exact absurd rfl hp

theorem dot_of_leads {x y : Nat} (hy : y ∈ as.filterMap g.nonterminalAt?)
    (h : Relation.ReflTransGen (fun s s' => s' ∈ g.leads s) y x) :
    ∃ b, g.Closure {b | b ∈ as} b ∧ g.tokenAt? b = some x ∧ g.terminalCount ≤ x := by
  induction h with
  | refl =>
    obtain ⟨b, hb, hby⟩ := List.mem_filterMap.mp hy
    obtain ⟨htok, hnt⟩ := nonterminalAt_eq_some.mp hby
    exact ⟨b, .kernel hb, htok, hnt⟩
  | tail _ hlead ih =>
    obtain ⟨b, hb, htok, hnt⟩ := ih
    obtain ⟨c, hc, hcx⟩ := List.mem_filterMap.mp hlead
    obtain ⟨htok', hnt'⟩ := nonterminalAt_eq_some.mp hcx
    exact ⟨c, hb.of_spawned htok hnt hc, htok', hnt'⟩

theorem Bounded.mem_closure (hb : g.Bounded) :
    a ∈ g.closure as ↔ g.Closure {b | b ∈ as} a := by
  have hstarts : ∀ x ∈ as.filterMap g.nonterminalAt?, x < g.symbolCount := by
    intro x hx
    obtain ⟨b, -, hbx⟩ := List.mem_filterMap.mp hx
    exact hb b x (nonterminalAt_eq_some.mp hbx).1
  have hreach : ∀ {x}, x ∈ reach g.symbolCount g.leads (as.filterMap g.nonterminalAt?) ↔ _ :=
    mem_reach hstarts hb.leads_lt
  constructor
  · intro h
    rcases List.mem_append.mp h with h | h
    · exact .kernel h
    · obtain ⟨x, hx, hax⟩ := List.mem_flatMap.mp h
      obtain ⟨y, hy, hyx⟩ := hreach.mp hx
      obtain ⟨b, hb, htok, hnt⟩ := dot_of_leads hy hyx
      exact hb.of_spawned htok hnt hax
  · intro h
    induction h with
    | kernel hk => exact List.mem_append_left _ hk
    | @spawn b x i _ htok hnt hlhs ih =>
      refine List.mem_append_right _ (List.mem_flatMap.mpr ⟨x, ?_, mem_spawned.mpr ⟨hlhs, rfl⟩⟩)
      have hdot := nonterminalAt_eq_some.mpr ⟨htok, hnt⟩
      rcases List.mem_append.mp ih with hb | hb
      · exact hreach.mpr ⟨x, List.mem_filterMap.mpr ⟨b, hb, hdot⟩, .refl⟩
      · obtain ⟨y, hy, hby⟩ := List.mem_flatMap.mp hb
        obtain ⟨z, hz, hzy⟩ := hreach.mp hy
        exact hreach.mpr ⟨z, hz, hzy.tail (List.mem_filterMap.mpr ⟨b, hby, hdot⟩)⟩

theorem WellFormed.mem_closure (wf : g.WellFormed) :
    a ∈ g.closure as ↔ g.Closure {b | b ∈ as} a :=
  wf.bounded.mem_closure

theorem mem_goto : a ∈ g.goto as s ↔ ∃ b ∈ as, g.tokenAt? b = some s ∧ b.advance = a := by
  simp only [goto, ItemSet.mem_ofList, List.mem_map, List.mem_filter, decide_eq_true_eq]
  constructor
  · rintro ⟨b, ⟨hb, htok⟩, rfl⟩
    exact ⟨b, hb, htok, rfl⟩
  · rintro ⟨b, hb, htok, rfl⟩
    exact ⟨b, ⟨hb, htok⟩, rfl⟩

def movedOver (g : NumberedGrammar) (P : Set Item) (x : Nat) : Set Item :=
  {b | ∃ a ∈ P, g.tokenAt? a = some x ∧ a.advance = b}

def Goto (g : NumberedGrammar) (K : Set Item) (x : Nat) : Set Item :=
  g.movedOver {a | g.Closure K a} x

theorem Bounded.goto_items (hb : g.Bounded) (k : ItemSet) (x : Nat) :
    {b | b ∈ g.goto (g.closure k.items) x} = g.Goto {a | a ∈ k} x := by
  ext b
  constructor
  · intro hmem
    obtain ⟨a, ha, ht, rfl⟩ := mem_goto.mp hmem
    exact ⟨a, hb.mem_closure.mp ha, ht, rfl⟩
  · rintro ⟨a, ha, ht, rfl⟩
    exact mem_goto.mpr ⟨a, hb.mem_closure.mpr ha, ht, rfl⟩

/-- The target of a shift or a push over `x`: where the closure leads, which must be somewhere. -/
structure IsGoto (g : NumberedGrammar) (K : Set Item) (x : Nat) (target : ItemSet) : Prop where
  items : {b | b ∈ target} = g.Goto K x
  nonempty : (g.Goto K x).Nonempty

theorem IsGoto.iff_eq {target : ItemSet} {x : Nat} : g.IsGoto K x target ↔
    {b | b ∈ target} = g.Goto K x ∧ (g.Goto K x).Nonempty :=
  ⟨fun h => ⟨h.items, h.nonempty⟩, fun h => ⟨h.1, h.2⟩⟩

theorem Bounded.isGoto_iff (hb : g.Bounded) {k target : ItemSet} {x : Nat} :
    g.IsGoto {a | a ∈ k} x target ↔
      target = g.goto (g.closure k.items) x ∧ (g.goto (g.closure k.items) x).isEmpty = false := by
  constructor
  · rintro ⟨hitems, hne⟩
    rw [← hb.goto_items] at hitems hne
    have heq : target = g.goto (g.closure k.items) x :=
      ItemSet.ext fun b => Set.ext_iff.mp hitems b
    exact ⟨heq, ItemSet.isEmpty_eq_false.mpr hne⟩
  · rintro ⟨rfl, hne⟩
    constructor
    · exact hb.goto_items k x
    · rw [← hb.goto_items]
      exact ItemSet.isEmpty_eq_false.mp hne

theorem mem_finals : a ∈ g.finals as ↔ a ∈ as ∧ g.isFinal a = true := by
  simp [finals]

theorem mem_shiftable :
    t ∈ g.shiftable as ↔ t < g.terminalCount ∧ ∃ a ∈ as, g.tokenAt? a = some t := by
  simp [shiftable]

theorem mem_nonterminals : s ∈ g.nonterminals ↔ g.terminalCount ≤ s ∧ s < g.symbolCount := by
  simp only [nonterminals, List.mem_map, List.mem_range]
  constructor
  · rintro ⟨i, hi, rfl⟩
    omega
  · rintro ⟨hle, hlt⟩
    exact ⟨s - g.terminalCount, by omega, by omega⟩

end NumberedGrammar

end ParserTables

import Mathlib.Data.Finset.Card
import Mathlib.Data.Set.Insert
import ParserTables.Automaton.Gather
import ParserTables.Proofs.Bounds
import ParserTables.Proofs.Exploration

/-!
The walk that gathers the transitions of a set of items loses none of them, although it is cut
short. At any time what is gathered is what the items give that the walk has come to: a rule that
was entered is one of them, and so is an item whose push is there. An item that was come to is
still on the way down or has all rules of its nonterminal behind it; at the end none is on the
way, so the items come to are those of the closure.
-/

namespace ParserTables

/-- A transition has the target `T` and one of the given actions; there is none if `T` is empty. -/
structure LeadsTo (tr? : Option Transition) (actions : Set Action) (T : Set Item) : Prop where
  action : ∀ tr ∈ tr?, tr.action ∈ actions
  nonempty : ∀ tr ∈ tr?, ∃ b, b ∈ tr.target
  target : ∀ b, b ∈ T ↔ ∃ tr ∈ tr?, b ∈ tr.target

section LeadsTo

variable {tr? : Option Transition} {tr : Transition} {actions : Set Action} {act : Action}
  {T : Set Item} {a : Item}

theorem LeadsTo.none : LeadsTo none actions ∅ := by
  constructor <;> simp

theorem LeadsTo.put (h : LeadsTo tr? actions T) (hact : act ∈ actions) (a : Item) :
    LeadsTo (some (Transition.put a act tr?)) actions (insert a T) := by
  constructor
  case action =>
    rintro tr ⟨⟩
    cases tr? with
    | none => exact hact
    | some old => exact h.action old rfl
  case nonempty =>
    rintro tr ⟨⟩
    exact ⟨a, ItemSet.mem_insert.mpr (Or.inl rfl)⟩
  case target =>
    intro b
    have htarget := h.target b
    cases tr? with
    | none =>
      have hnot : b ∉ T := by simpa using htarget
      simp [Transition.put, Transition.insert, hnot]
    | some old =>
      have hold : b ∈ T ↔ b ∈ old.target := by simpa using htarget
      simp [Transition.put, Transition.insert, hold]

theorem LeadsTo.congr {T' : Set Item} (h : LeadsTo tr? actions T) (heq : ∀ b, b ∈ T' ↔ b ∈ T) :
    LeadsTo tr? actions T' :=
  ⟨h.action, h.nonempty, fun b => (heq b).trans (h.target b)⟩

theorem LeadsTo.map_target_iff {T' : ItemSet} (h : LeadsTo tr? actions T) :
    tr?.map (·.target) = some T' ↔ {b | b ∈ T'} = T ∧ ∃ b, b ∈ T' := by
  constructor
  · intro hmap
    obtain ⟨tr, rfl, rfl⟩ := Option.map_eq_some_iff.mp hmap
    refine ⟨?_, h.nonempty tr rfl⟩
    ext b
    simpa using (h.target b).symm
  · rintro ⟨rfl, b, hb⟩
    obtain ⟨tr, rfl, -⟩ := (h.target b).mp hb
    refine congrArg some (ItemSet.ext ?_)
    intro c
    simpa using (h.target c).symm

theorem LeadsTo.eq_some_iff (h : LeadsTo tr? {act} T) :
    tr? = some tr ↔ tr.action = act ∧ {b | b ∈ tr.target} = T ∧ T.Nonempty := by
  constructor
  · rintro rfl
    obtain ⟨hitems, b, hb⟩ := h.map_target_iff.mp rfl
    exact ⟨h.action tr rfl, hitems, b, hitems.le hb⟩
  · rintro ⟨hact, hitems, b, hb⟩
    obtain ⟨old, rfl, htarget⟩ :=
      Option.map_eq_some_iff.mp (h.map_target_iff.mpr ⟨hitems, b, hitems.ge hb⟩)
    have haction : old.action = tr.action := (h.action old rfl).trans hact.symm
    obtain ⟨action, target⟩ := tr
    obtain rfl : old.action = action := haction
    obtain rfl : old.target = target := htarget
    rfl

theorem LeadsTo.eq_some_iff_guarded {p : Prop} (h : LeadsTo tr? {act} {b | p ∧ b ∈ T}) :
    tr? = some tr ↔ p ∧ tr.action = act ∧ {b | b ∈ tr.target} = T ∧ T.Nonempty := by
  rw [h.eq_some_iff]
  by_cases hp : p
  · simp [hp]
  · simp [hp]

theorem LeadsTo.insert {m : Std.TreeMap Nat Transition} {x : Nat} {F F' : Nat → Set Item}
    (h : ∀ y, LeadsTo m[y]? {act} (F y))
    (hadd : ∀ y b, b ∈ F' y ↔ (x = y ∧ b = a) ∨ b ∈ F y) (y : Nat) :
    LeadsTo (m.insert x (Transition.put a act m[x]?))[y]? {act} (F' y) := by
  rw [Std.TreeMap.getElem?_insert]
  by_cases hxy : x = y
  · subst hxy
    rw [if_pos (by simp)]
    exact ((h x).put rfl a).congr fun b => by simp [hadd]
  · rw [if_neg (by simpa using hxy)]
    exact (h y).congr fun b => by simp [hadd, hxy]

end LeadsTo

namespace NumberedGrammar

variable {g : NumberedGrammar} {a b c : Item} {x y n : Nat} {k : ItemSet} {bs : List Item}
  {s s' : Gathered} {A B P P' P'' : Set Item} {p : Nat → Prop}

theorem movedOver_insert (ha : g.tokenAt? a = some x) :
    b ∈ g.movedOver (insert a P) y ↔ (x = y ∧ b = a.advance) ∨ b ∈ g.movedOver P y := by
  constructor
  · rintro ⟨c, rfl | hc, ht, rfl⟩
    · exact Or.inl ⟨Option.some.inj (ha.symm.trans ht), rfl⟩
    · exact Or.inr ⟨c, hc, ht, rfl⟩
  · rintro (⟨rfl, rfl⟩ | ⟨c, hc, ht, rfl⟩)
    · exact ⟨a, Set.mem_insert a P, ha, rfl⟩
    · exact ⟨c, Set.mem_insert_of_mem a hc, ht, rfl⟩

def movedOverIf (g : NumberedGrammar) (p : Nat → Prop) (P : Set Item) (x : Nat) : Set Item :=
  {b | p x ∧ b ∈ g.movedOver P x}

theorem movedOverIf_insert (ha : g.tokenAt? a = some x) (hx : p x) :
    b ∈ g.movedOverIf p (insert a P) y ↔ (x = y ∧ b = a.advance) ∨ b ∈ g.movedOverIf p P y := by
  constructor
  · rintro ⟨hy, hb⟩
    rcases (movedOver_insert ha).mp hb with hnew | hold
    · exact Or.inl hnew
    · exact Or.inr ⟨hy, hold⟩
  · rintro (⟨rfl, rfl⟩ | ⟨hy, hold⟩)
    · exact ⟨hx, (movedOver_insert ha).mpr (Or.inl ⟨rfl, rfl⟩)⟩
    · exact ⟨hy, (movedOver_insert ha).mpr (Or.inr hold)⟩

theorem movedOverIf_insert_of_not (ha : ∀ x, g.tokenAt? a = some x → ¬ p x) :
    b ∈ g.movedOverIf p (insert a P) y ↔ b ∈ g.movedOverIf p P y := by
  constructor
  · rintro ⟨hy, c, rfl | hc, ht, rfl⟩
    · exact absurd hy (ha y ht)
    · exact ⟨hy, c, hc, ht, rfl⟩
  · rintro ⟨hy, c, hc, ht, rfl⟩
    exact ⟨hy, c, Set.mem_insert_of_mem a hc, ht, rfl⟩

theorem advance_injective (h : a.advance = b.advance) : a = b := by
  obtain ⟨i, p⟩ := a
  obtain ⟨j, q⟩ := b
  simpa [Item.advance] using h

theorem tokenAt_of_final (h : g.isFinal a = true) : g.tokenAt? a = none := by
  obtain ⟨r, hr, hp⟩ := (Option.any_eq_true _ _).mp h
  have hp' : a.phase = r.tokens.length := by simpa using hp
  simp [tokenAt?, hr, hp']

/-- What is gathered when the walk has come to the items of `P`. -/
structure Gives (g : NumberedGrammar) (P : Set Item) (s : Gathered) : Prop where
  terminals : ∀ x, LeadsTo s.terminals[x]? {.shift} (g.movedOverIf (· < g.terminalCount) P x)
  nonterminals : ∀ x,
    LeadsTo s.nonterminals[x]? {.push} (g.movedOverIf (g.terminalCount ≤ ·) P x)
  fallback : LeadsTo s.fallback {.reduce, .accept} {a | a ∈ P ∧ g.isFinal a = true}

theorem gives_empty : g.Gives ∅ .empty := by
  constructor
  case terminals =>
    intro x
    exact LeadsTo.none.congr (by simp [movedOverIf, movedOver])
  case nonterminals =>
    intro x
    exact LeadsTo.none.congr (by simp [movedOverIf, movedOver])
  case fallback => exact LeadsTo.none.congr (by simp)

theorem Gives.visit (h : g.Gives P s) (a : Item) : g.Gives P (s.visit a) :=
  ⟨h.terminals, h.nonterminals, h.fallback⟩

theorem Gives.complete (h : g.Gives P s) (hf : g.isFinal a = true) :
    g.Gives (insert a P) (s.complete (g.reduction a).action a) := by
  have hnone : ∀ (p : Nat → Prop) x, g.tokenAt? a = some x → ¬ p x := by
    simp [tokenAt_of_final hf]
  constructor
  case terminals =>
    exact fun x => (h.terminals x).congr fun _ => movedOverIf_insert_of_not (hnone _)
  case nonterminals =>
    exact fun x => (h.nonterminals x).congr fun _ => movedOverIf_insert_of_not (hnone _)
  case fallback =>
    refine (h.fallback.put ?_ a).congr ?_
    · rcases reduction_action (g := g) a with haction | haction <;> simp [haction]
    · intro b
      constructor
      · rintro ⟨rfl | hb, hfb⟩
        · exact Or.inl rfl
        · exact Or.inr ⟨hb, hfb⟩
      · rintro (rfl | ⟨hb, hfb⟩)
        · exact ⟨Set.mem_insert b P, hf⟩
        · exact ⟨Set.mem_insert_of_mem a hb, hfb⟩

theorem final_insert (hf : g.isFinal a = false) :
    b ∈ {b | b ∈ insert a P ∧ g.isFinal b = true} ↔ b ∈ {b | b ∈ P ∧ g.isFinal b = true} := by
  constructor
  · rintro ⟨rfl | hb, hfb⟩
    · cases hf.symm.trans hfb
    · exact ⟨hb, hfb⟩
  · rintro ⟨hb, hfb⟩
    exact ⟨Set.mem_insert_of_mem a hb, hfb⟩

theorem Gives.skip (h : g.Gives P s) (hf : g.isFinal a = false) (ht : g.tokenAt? a = none) :
    g.Gives (insert a P) s := by
  have hnone : ∀ (p : Nat → Prop) x, g.tokenAt? a = some x → ¬ p x := by
    simp [ht]
  constructor
  case terminals =>
    exact fun x => (h.terminals x).congr fun _ => movedOverIf_insert_of_not (hnone _)
  case nonterminals =>
    exact fun x => (h.nonterminals x).congr fun _ => movedOverIf_insert_of_not (hnone _)
  case fallback => exact h.fallback.congr fun _ => final_insert hf

theorem Gives.shift (h : g.Gives P s) (hf : g.isFinal a = false) (ht : g.tokenAt? a = some x)
    (hx : x < g.terminalCount) : g.Gives (insert a P) (s.shift x a.advance) := by
  have hother : ∀ y, g.tokenAt? a = some y → ¬ g.terminalCount ≤ y := by
    intro y hy
    cases ht.symm.trans hy
    exact Nat.not_le_of_lt hx
  constructor
  case terminals => exact LeadsTo.insert h.terminals fun _ _ => movedOverIf_insert ht hx
  case nonterminals =>
    exact fun y => (h.nonterminals y).congr fun _ => movedOverIf_insert_of_not hother
  case fallback => exact h.fallback.congr fun _ => final_insert hf

theorem Gives.push (h : g.Gives P s) (hf : g.isFinal a = false) (ht : g.tokenAt? a = some x)
    (hx : g.terminalCount ≤ x) : g.Gives (insert a P) (s.push x a.advance) := by
  have hother : ∀ y, g.tokenAt? a = some y → ¬ y < g.terminalCount := by
    intro y hy
    cases ht.symm.trans hy
    exact Nat.not_lt_of_le hx
  constructor
  case terminals =>
    exact fun y => (h.terminals y).congr fun _ => movedOverIf_insert_of_not hother
  case nonterminals => exact LeadsTo.insert h.nonterminals fun _ _ => movedOverIf_insert ht hx
  case fallback => exact h.fallback.congr fun _ => final_insert hf

/-- The push of an item is there only if the walk has come to the item. -/
theorem Gives.mem_of_pushes (h : g.Gives P s) (hp : s.pushes x a.advance = true) : a ∈ P := by
  obtain ⟨tr, htr, hmem⟩ := (Option.any_eq_true _ _).mp hp
  obtain ⟨-, b, hb, -, hab⟩ := ((h.nonterminals x).target a.advance).mpr
    ⟨tr, htr, of_decide_eq_true hmem⟩
  rw [← advance_injective hab]
  exact hb

theorem not_final_of_token (h : g.tokenAt? a = some x) : g.isFinal a = false := by
  by_contra hf
  cases (tokenAt_of_final (by simpa using hf)).symm.trans h

/-- Going once more over the pushes of items that the walk has come to changes nothing. -/
theorem Gives.pushAll (h : g.Gives P s) (hbs : ∀ b ∈ bs, b ∈ P) : g.Gives P (g.pushAll bs s) ∧
    (g.pushAll bs s).visited = s.visited := by
  unfold NumberedGrammar.pushAll
  induction bs generalizing s with
  | nil => exact ⟨h, rfl⟩
  | cons b bs ih =>
    obtain ⟨hb, hrest⟩ := List.forall_mem_cons.mp hbs
    rw [List.foldl_cons]
    cases hn : g.nonterminalAt? b with
    | none => exact ih h hrest
    | some x =>
      obtain ⟨ht, hx⟩ := nonterminalAt_eq_some.mp hn
      have hpush := h.push (not_final_of_token ht) ht hx
      rw [Set.insert_eq_of_mem hb] at hpush
      exact ih hpush hrest

/-- The rules that an item hands over to. -/
def Enters (g : NumberedGrammar) (a b : Item) : Prop :=
  ∃ x, g.nonterminalAt? a = some x ∧ b ∈ g.spawned x

/-- Coming from the items of `P` to those of `P'` by way of `A`: what is new is reached from `A`
and has all the rules that it hands over to behind it. -/
structure Extends (g : NumberedGrammar) (A P P' : Set Item) : Prop where
  old : ∀ a ∈ P, a ∈ P'
  starts : ∀ a ∈ A, a ∈ P'
  reached : ∀ a ∈ P', a ∈ P ∨ g.Closure A a
  closed : ∀ a ∈ P', a ∈ P ∨ ∀ b, g.Enters a b → b ∈ P'

theorem extends_self (h : ∀ a ∈ A, a ∈ P) : g.Extends A P P :=
  ⟨fun _ ha => ha, h, fun _ ha => Or.inl ha, fun _ ha => Or.inl ha⟩

theorem Extends.trans (h : g.Extends A P P') (h' : g.Extends B P' P'') :
    g.Extends (A ∪ B) P P'' := by
  constructor
  case old => exact fun a ha => h'.old a (h.old a ha)
  case starts =>
    rintro a (ha | ha)
    · exact h'.old a (h.starts a ha)
    · exact h'.starts a ha
  case reached =>
    intro a ha
    rcases h'.reached a ha with ha | ha
    · rcases h.reached a ha with ha | ha
      · exact Or.inl ha
      · exact Or.inr (ha.mono fun _ hb => Or.inl hb)
    · exact Or.inr (ha.mono fun _ hb => Or.inr hb)
  case closed =>
    intro a ha
    rcases h'.closed a ha with ha | hnext
    · rcases h.closed a ha with ha | hnext
      · exact Or.inl ha
      · exact Or.inr fun b hb => h'.old b (hnext b hb)
    · exact Or.inr hnext

theorem Closure.enter (h : g.Closure A a) (hb : g.Enters a b) : g.Closure A b := by
  obtain ⟨x, hx, hspawned⟩ := hb
  obtain ⟨ht, hnt⟩ := nonterminalAt_eq_some.mp hx
  exact h.of_spawned ht hnt hspawned

/-- Nothing on the way any more: the items come to are those of the closure. -/
theorem Extends.eq_closure (h : g.Extends A ∅ P) : a ∈ P ↔ g.Closure A a := by
  constructor
  · intro ha
    rcases h.reached a ha with hnone | hreached
    · cases hnone
    · exact hreached
  · intro ha
    induction ha with
    | kernel hk => exact h.starts _ hk
    | @spawn b x i _ ht hnt hl ih =>
      rcases h.closed b ih with hnone | hclosed
      · cases hnone
      · exact hclosed _ ⟨x, nonterminalAt_eq_some.mpr ⟨ht, hnt⟩, mem_spawned.mpr ⟨hl, rfl⟩⟩

theorem Extends.enter (h : g.Extends {b | g.Enters a b} (insert a P) P') :
    g.Extends {a} P P' := by
  have ha : a ∈ P' := h.old a (Set.mem_insert a P)
  have hfirst : g.Closure {a} a := .kernel rfl
  constructor
  case old => exact fun b hb => h.old b (Set.mem_insert_of_mem a hb)
  case starts =>
    rintro b rfl
    exact ha
  case reached =>
    intro b hb
    rcases h.reached b hb with (rfl | hold) | hreached
    · exact Or.inr hfirst
    · exact Or.inl hold
    · exact Or.inr (hreached.trans fun c hc => hfirst.enter hc)
  case closed =>
    intro b hb
    rcases h.closed b hb with (rfl | hold) | hclosed
    · exact Or.inr h.starts
    · exact Or.inl hold
    · exact Or.inr hclosed

def unvisited (g : NumberedGrammar) (s : Gathered) : Finset Nat :=
  (Finset.range g.rules.size).filter fun i => (⟨i, 0⟩ : Item) ∉ s.visited

theorem unvisited_subset (h : ∀ b ∈ s.visited, b ∈ s'.visited) :
    g.unvisited s' ⊆ g.unvisited s := by
  intro i hi
  obtain ⟨hlt, hnew⟩ := Finset.mem_filter.mp hi
  exact Finset.mem_filter.mpr ⟨hlt, fun hmem => hnew (h _ hmem)⟩

theorem card_unvisited_lt (s : Gathered) : (g.unvisited s).card < g.rules.size + 1 := by
  have hcard := Finset.card_filter_le (Finset.range g.rules.size)
    fun i => (⟨i, 0⟩ : Item) ∉ s.visited
  rw [Finset.card_range] at hcard
  exact Nat.lt_succ_of_le hcard

theorem card_unvisited_visit (hb : b ∈ g.spawned x) (hnew : b ∉ s.visited) :
    (g.unvisited (s.visit b)).card < (g.unvisited s).card := by
  obtain ⟨hl, hphase⟩ := mem_spawned.mp hb
  obtain ⟨i, p⟩ := b
  cases hphase
  obtain ⟨r, hr, -⟩ := lhs_eq_some.mp hl
  have hlt := (Array.getElem?_eq_some_iff.mp hr).1
  refine Finset.card_lt_card ⟨unvisited_subset fun c hc => ItemSet.mem_insert.mpr (Or.inr hc), ?_⟩
  intro hsub
  have hmem := hsub (Finset.mem_filter.mpr ⟨Finset.mem_range.mpr hlt, hnew⟩)
  exact (Finset.mem_filter.mp hmem).2 (ItemSet.mem_insert.mpr (Or.inl rfl))

/-- A stretch of the walk that begins with `s`, the items of `P` come to, and comes to those
of `A` and what they lead to. -/
def Walks (g : NumberedGrammar) (A P : Set Item) (s s' : Gathered) : Prop :=
  ∃ P', g.Extends A P P' ∧ g.Gives P' s' ∧ (∀ b ∈ s.visited, b ∈ s'.visited) ∧
    ∀ b ∈ s'.visited, b ∈ P'

theorem Gives.leaf (h : g.Gives (insert a P) s') (hnone : ∀ x, g.nonterminalAt? a ≠ some x)
    (hvisited : ∀ b ∈ s.visited, b ∈ insert a P) (hsame : s'.visited = s.visited) :
    g.Walks {a} P s s' := by
  have hext : g.Extends {b | g.Enters a b} (insert a P) (insert a P) :=
    extends_self fun b ⟨x, hx, _⟩ => absurd hx (hnone x)
  rw [← hsame] at hvisited
  exact ⟨_, hext.enter, h, fun b hb => hsame ▸ hb, hvisited⟩

theorem Walks.enter (h : g.Walks {b | b ∈ g.spawned x} (insert a P) s s')
    (ha : g.nonterminalAt? a = some x) : g.Walks {a} P s (g.pushAll (g.spawned x) s') := by
  obtain ⟨P', hext, hgives, hmono, hsub⟩ := h
  obtain ⟨hagain, hsame⟩ := hgives.pushAll hext.starts
  have henters : {b | b ∈ g.spawned x} = {b | g.Enters a b} := by
    ext b
    simp [Enters, ha]
  rw [henters] at hext
  rw [← hsame] at hmono hsub
  exact ⟨P', hext.enter, hagain, hmono, hsub⟩

theorem Gives.enterAll {enter : Item → Gathered → Gathered} (h : g.Gives P s)
    (hbs : ∀ b ∈ bs, b ∈ g.spawned x) (hvisited : ∀ b ∈ s.visited, b ∈ P)
    (hfuel : (g.unvisited s).card ≤ n)
    (henter : ∀ b s P, g.Gives P s → (∀ c ∈ s.visited, c ∈ P ∨ c = b) →
      (g.unvisited s).card < n → g.Walks {b} P s (enter b s)) :
    g.Walks {b | b ∈ bs} P s
      (bs.foldl (fun s b => if b ∈ s.visited then s else enter b (s.visit b)) s) := by
  induction bs generalizing s P with
  | nil => exact ⟨P, extends_self (by simp), h, fun _ hb => hb, hvisited⟩
  | cons b bs ih =>
    obtain ⟨hb, hrest⟩ := List.forall_mem_cons.mp hbs
    have hsplit : {c | c ∈ b :: bs} = {b} ∪ {c | c ∈ bs} := by
      ext c
      simp
    rw [List.foldl_cons, hsplit]
    by_cases hseen : b ∈ s.visited
    · rw [if_pos hseen]
      obtain ⟨P', hext, hgives, hmono, hsub⟩ := ih h hrest hvisited hfuel
      have hself : g.Extends {b} P P := extends_self fun c hc => hc ▸ hvisited b hseen
      exact ⟨P', hself.trans hext, hgives, hmono, hsub⟩
    · rw [if_neg hseen]
      have hvisit : ∀ c ∈ (s.visit b).visited, c ∈ P ∨ c = b := by
        intro c hc
        rcases ItemSet.mem_insert.mp hc with rfl | hc
        · exact Or.inr rfl
        · exact Or.inl (hvisited c hc)
      have hless := Nat.lt_of_lt_of_le (card_unvisited_visit hb hseen) hfuel
      obtain ⟨P₁, hext₁, hgives₁, hmono₁, hsub₁⟩ := henter b _ P (h.visit b) hvisit hless
      have hmono : ∀ c ∈ s.visited, c ∈ (enter b (s.visit b)).visited := fun c hc =>
        hmono₁ c (ItemSet.mem_insert.mpr (Or.inr hc))
      have hfuel₁ := Nat.le_trans (Finset.card_le_card (unvisited_subset (g := g) hmono)) hfuel
      obtain ⟨P₂, hext₂, hgives₂, hmono₂, hsub₂⟩ := ih hgives₁ hrest hsub₁ hfuel₁
      exact ⟨P₂, hext₁.trans hext₂, hgives₂, fun c hc => hmono₂ c (hmono c hc), hsub₂⟩

/-- One item of the walk, by the depth that is left for the rules not entered yet. -/
theorem Gives.gatherFrom (h : g.Gives P s) (hvisited : ∀ b ∈ s.visited, b ∈ P ∨ b = a)
    (hfuel : (g.unvisited s).card < n) : g.Walks {a} P s (g.gatherFrom n a s) := by
  induction n generalizing a s P with
  | zero => exact absurd hfuel (Nat.not_lt_zero _)
  | succ n ih =>
    have hinsert : ∀ b ∈ s.visited, b ∈ insert a P := by
      intro b hb
      rcases hvisited b hb with hb | rfl
      · exact Set.mem_insert_of_mem a hb
      · exact Set.mem_insert b P
    unfold NumberedGrammar.gatherFrom
    by_cases hf : g.isFinal a = true
    · rw [if_pos hf]
      exact (h.complete hf).leaf (by simp [nonterminalAt?, tokenAt_of_final hf]) hinsert rfl
    · rw [if_neg hf]
      have hopen : g.isFinal a = false := by simpa using hf
      cases ht : g.tokenAt? a with
      | none => exact (h.skip hopen ht).leaf (by simp [nonterminalAt?, ht]) hinsert rfl
      | some x =>
        dsimp only
        by_cases hterm : g.isTerminal x = true
        · rw [if_pos hterm]
          have hshift := h.shift hopen ht (of_decide_eq_true hterm)
          exact hshift.leaf (by simp [nonterminalAt?, ht, hterm]) hinsert rfl
        · rw [if_neg hterm]
          have hx : g.terminalCount ≤ x := by simpa [isTerminal] using hterm
          by_cases hpushes : s.pushes x a.advance = true
          · rw [if_pos hpushes]
            have ha := h.mem_of_pushes hpushes
            rw [Set.insert_eq_of_mem ha] at hinsert
            exact ⟨P, extends_self fun b hb => hb ▸ ha, h, fun b hb => hb, hinsert⟩
          · rw [if_neg hpushes]
            have hentered := (h.push hopen ht hx).enterAll
              (fun b (hb : b ∈ g.spawned x) => hb) hinsert (Nat.le_of_lt_succ hfuel)
              (fun b s P hgives hv hlt => ih hgives hv hlt)
            exact Walks.enter hentered (nonterminalAt_eq_some.mpr ⟨ht, hx⟩)

theorem Gives.gatherAll (h : g.Gives P s) (hvisited : ∀ b ∈ s.visited, b ∈ P) :
    g.Walks {b | b ∈ bs} P s
      (bs.foldl (fun s a => g.gatherFrom (g.rules.size + 1) a s) s) := by
  induction bs generalizing s P with
  | nil => exact ⟨P, extends_self (by simp), h, fun _ hb => hb, hvisited⟩
  | cons b bs ih =>
    have hsplit : {c | c ∈ b :: bs} = {b} ∪ {c | c ∈ bs} := by
      ext c
      simp
    rw [List.foldl_cons, hsplit]
    obtain ⟨P₁, hext₁, hgives₁, hmono₁, hsub₁⟩ :=
      h.gatherFrom (fun c hc => Or.inl (hvisited c hc)) (card_unvisited_lt s)
    obtain ⟨P₂, hext₂, hgives₂, hmono₂, hsub₂⟩ := ih hgives₁ hsub₁
    exact ⟨P₂, hext₁.trans hext₂, hgives₂, fun c hc => hmono₂ c (hmono₁ c hc), hsub₂⟩

/-- What is gathered of a set of items is what its closure gives. -/
theorem gives_gather (k : ItemSet) : g.Gives {a | g.Closure {b | b ∈ k} a} (g.gather k) := by
  have hwalk : g.Walks {b | b ∈ k.items} ∅ .empty (g.gather k) :=
    gives_empty.gatherAll (by simp [Gathered.empty])
  obtain ⟨P, hext, hgives, -, -⟩ := hwalk
  have heq : P = {a | g.Closure {b | b ∈ k} a} := by
    ext a
    exact hext.eq_closure
  exact heq ▸ hgives

theorem terminals_gather (k : ItemSet) {tr : Transition} :
    (g.gather k).terminals[x]? = some tr ↔
      x < g.terminalCount ∧ tr.action = .shift ∧ g.IsGoto {a | a ∈ k} x tr.target := by
  rw [((gives_gather k).terminals x).eq_some_iff_guarded, IsGoto.iff_eq]
  exact Iff.rfl

theorem nonterminals_gather (k : ItemSet) {tr : Transition} :
    (g.gather k).nonterminals[x]? = some tr ↔
      g.terminalCount ≤ x ∧ tr.action = .push ∧ g.IsGoto {a | a ∈ k} x tr.target := by
  rw [((gives_gather k).nonterminals x).eq_some_iff_guarded, IsGoto.iff_eq]
  exact Iff.rfl

end NumberedGrammar

namespace Automaton

/-- The walk computes where a set of items leads. For every set `k` of items over the rules of a
grammar it has a shift for the terminals, a push for the nonterminals that the closure leads
over, each with all that the closure has there, and a default for the complete items of the
closure; and with these the state of the set begins. -/
theorem transitions_gathered (g : Grammar) (k : ItemSet) :
    let G := (generate g).grammar
    let K : Set Item := {a | a ∈ k}
    (∀ t tr, (G.gather k).terminals[t]? = some tr ↔
      t < G.terminalCount ∧ tr.action = .shift ∧ G.IsGoto K t tr.target) ∧
    (∀ x tr, (G.gather k).nonterminals[x]? = some tr ↔
      G.terminalCount ≤ x ∧ tr.action = .push ∧ G.IsGoto K x tr.target) ∧
    (∀ T, (G.gather k).fallback.map (·.target) = some T ↔
      {a | a ∈ T} = {a | G.Closure K a ∧ G.isFinal a = true} ∧ ∃ a, a ∈ T) ∧
    (∀ t T, t < G.terminalCount ∧ G.offered (G.offer k) t = some ⟨.shift, T⟩ ↔
      (G.gather k).terminals[t]? = some ⟨.shift, T⟩) ∧
    (∀ x, (G.state k).onNonterminal? x = (G.gather k).nonterminals[x]?) ∧
    ∀ a, a ∈ (G.offer k).finals ↔ ∃ d ∈ (G.gather k).fallback, a ∈ d.target := by
  intro G K
  have hb : G.Bounded := Numbering.bounded g
  have hfallback := (NumberedGrammar.gives_gather (g := G) k).fallback
  refine ⟨fun t tr => NumberedGrammar.terminals_gather k,
    fun x tr => NumberedGrammar.nonterminals_gather k, fun T => hfallback.map_target_iff,
    ?_, ?_, ?_⟩
  · intro t T
    have hshift : G.offered (G.offer k) t = some ⟨.shift, T⟩ ∧ Action.shift = .shift ↔
        Action.shift = .shift ∧ G.IsGoto K t T := hb.offered_shift_iff
    rw [NumberedGrammar.terminals_gather]
    constructor
    · rintro ⟨ht, hoffered⟩
      exact ⟨ht, hshift.mp ⟨hoffered, rfl⟩⟩
    · rintro ⟨ht, hgoto⟩
      exact ⟨ht, (hshift.mpr hgoto).1⟩
  · intro x
    refine Option.ext fun tr => ?_
    rw [hb.onNonterminal_iff, NumberedGrammar.nonterminals_gather]
  · intro a
    rw [NumberedGrammar.mem_offer_finals, hb.mem_closure]
    exact hfallback.target a

end Automaton

end ParserTables

import ParserTables.Proofs.Gathering

/-!
The walk that gathers transitions, without any bound on its depth. Each step down enters a rule
that has not been entered before, whatever the rules look like: a nonterminal that begins with
itself, directly or by way of others, is entered once for each of its rules. So every walk ends,
and with the depth that it is given the bounded walk is never cut off.
-/

namespace ParserTables.NumberedGrammar

inductive Walk where
  | item (a : Item)
  | rules (bs : List Item)
  | items (as : List Item)

/-- A walk that ends leads from what has been gathered before to what has been gathered then. -/
inductive Gathers (g : NumberedGrammar) : Walk → Gathered → Gathered → Prop
  | complete {a : Item} {s : Gathered} : g.isFinal a = true →
      Gathers g (.item a) s (s.complete (g.reduction a).action a)
  | unnumbered {a : Item} {s : Gathered} : g.isFinal a = false → g.tokenAt? a = none →
      Gathers g (.item a) s s
  | shift {a : Item} {x : Nat} {s : Gathered} : g.isFinal a = false → g.tokenAt? a = some x →
      g.isTerminal x = true → Gathers g (.item a) s (s.shift x a.advance)
  | known {a : Item} {x : Nat} {s : Gathered} : g.isFinal a = false → g.tokenAt? a = some x →
      g.isTerminal x = false → s.pushes x a.advance = true → Gathers g (.item a) s s
  | push {a : Item} {x : Nat} {s s' : Gathered} : g.isFinal a = false → g.tokenAt? a = some x →
      g.isTerminal x = false → s.pushes x a.advance = false →
      Gathers g (.rules (g.spawned x)) (s.push x a.advance) s' →
      Gathers g (.item a) s (g.pushAll (g.spawned x) s')
  | entered {s : Gathered} : Gathers g (.rules []) s s
  | again {b : Item} {bs : List Item} {s s' : Gathered} : b ∈ s.visited →
      Gathers g (.rules bs) s s' → Gathers g (.rules (b :: bs)) s s'
  | enter {b : Item} {bs : List Item} {s s₁ s' : Gathered} : b ∉ s.visited →
      Gathers g (.item b) (s.visit b) s₁ → Gathers g (.rules bs) s₁ s' →
      Gathers g (.rules (b :: bs)) s s'
  | done {s : Gathered} : Gathers g (.items []) s s
  | next {a : Item} {as : List Item} {s s₁ s' : Gathered} : Gathers g (.item a) s s₁ →
      Gathers g (.items as) s₁ s' → Gathers g (.items (a :: as)) s s'

variable {g : NumberedGrammar} {w : Walk} {s s' s'' : Gathered} {a b : Item} {as bs : List Item}
  {x n : Nat} {k : ItemSet}

theorem Gathers.unique (h : g.Gathers w s s') (h' : g.Gathers w s s'') : s' = s'' := by
  induction h generalizing s'' with
  | complete hf =>
    cases h' with
    | complete _ => rfl
    | unnumbered hf' _ => cases hf.symm.trans hf'
    | shift hf' _ _ => cases hf.symm.trans hf'
    | known hf' _ _ _ => cases hf.symm.trans hf'
    | push hf' _ _ _ _ => cases hf.symm.trans hf'
  | unnumbered hf ht =>
    cases h' with
    | complete hf' => cases hf.symm.trans hf'
    | unnumbered _ _ => rfl
    | shift _ ht' _ => cases ht.symm.trans ht'
    | known _ ht' _ _ => cases ht.symm.trans ht'
    | push _ ht' _ _ _ => cases ht.symm.trans ht'
  | shift hf ht hx =>
    cases h' with
    | complete hf' => cases hf.symm.trans hf'
    | unnumbered _ ht' => cases ht.symm.trans ht'
    | shift _ ht' _ =>
      cases ht.symm.trans ht'
      rfl
    | known _ ht' hx' _ =>
      cases ht.symm.trans ht'
      cases hx.symm.trans hx'
    | push _ ht' hx' _ _ =>
      cases ht.symm.trans ht'
      cases hx.symm.trans hx'
  | known hf ht hx hp =>
    cases h' with
    | complete hf' => cases hf.symm.trans hf'
    | unnumbered _ _ => rfl
    | shift _ ht' hx' =>
      cases ht.symm.trans ht'
      cases hx.symm.trans hx'
    | known _ _ _ _ => rfl
    | push _ ht' _ hp' _ =>
      cases ht.symm.trans ht'
      cases hp.symm.trans hp'
  | push hf ht hx hp _ ih =>
    cases h' with
    | complete hf' => cases hf.symm.trans hf'
    | unnumbered _ ht' => cases ht.symm.trans ht'
    | shift _ ht' hx' =>
      cases ht.symm.trans ht'
      cases hx.symm.trans hx'
    | known _ ht' _ hp' =>
      cases ht.symm.trans ht'
      cases hp.symm.trans hp'
    | push _ ht' _ _ h' =>
      cases ht.symm.trans ht'
      rw [ih h']
  | entered =>
    cases h' with
    | entered => rfl
  | again hb _ ih =>
    cases h' with
    | again _ h' => exact ih h'
    | enter hb' _ _ => exact absurd hb hb'
  | enter hb _ _ ihb ih =>
    cases h' with
    | again hb' _ => exact absurd hb' hb
    | enter _ hb' h' =>
      cases ihb hb'
      exact ih h'
  | done =>
    cases h' with
    | done => rfl
  | next _ _ iha ih =>
    cases h' with
    | next ha' h' =>
      cases iha ha'
      exact ih h'

/-! ### Ending -/

theorem visited_pushAll (bs : List Item) (s : Gathered) :
    (g.pushAll bs s).visited = s.visited := by
  unfold pushAll
  induction bs generalizing s with
  | nil => rfl
  | cons b bs ih =>
    rw [List.foldl_cons, ih]
    cases g.nonterminalAt? b with
    | none => rfl
    | some x => rfl

theorem Gathers.keeps (h : g.Gathers w s s') : ∀ b ∈ s.visited, b ∈ s'.visited := by
  induction h with
  | complete _ => exact fun _ hb => hb
  | unnumbered _ _ => exact fun _ hb => hb
  | shift _ _ _ => exact fun _ hb => hb
  | known _ _ _ _ => exact fun _ hb => hb
  | push _ _ _ _ _ ih =>
    rw [visited_pushAll]
    exact ih
  | entered => exact fun _ hb => hb
  | again _ _ ih => exact ih
  | enter _ _ _ ihb ih =>
    exact fun c hc => ih c (ihb c (ItemSet.mem_insert.mpr (Or.inr hc)))
  | done => exact fun _ hb => hb
  | next _ _ iha ih => exact fun c hc => ih c (iha c hc)

theorem gathers_rules {enter : Item → Gathered → Gathered} (hbs : ∀ b ∈ bs, b ∈ g.spawned x)
    (hfuel : (g.unvisited s).card ≤ n) (henter : ∀ b s, (g.unvisited s).card < n →
      g.Gathers (.item b) s (enter b s)) :
    g.Gathers (.rules bs) s
      (bs.foldl (fun s b => if b ∈ s.visited then s else enter b (s.visit b)) s) := by
  induction bs generalizing s with
  | nil => exact .entered
  | cons b bs ih =>
    obtain ⟨hb, hrest⟩ := List.forall_mem_cons.mp hbs
    rw [List.foldl_cons]
    by_cases hseen : b ∈ s.visited
    · rw [if_pos hseen]
      exact .again hseen (ih hrest hfuel)
    · rw [if_neg hseen]
      have hless := Nat.lt_of_lt_of_le (card_unvisited_visit hb hseen) hfuel
      have hfirst := henter b (s.visit b) hless
      have hfewer := Finset.card_le_card (unvisited_subset (g := g) hfirst.keeps)
      exact .enter hseen hfirst (ih hrest (Nat.le_of_lt (Nat.lt_of_le_of_lt hfewer hless)))

/-- The bounded walk comes to its own end when it has more depth left than rules to enter. -/
theorem gathers_gatherFrom (hfuel : (g.unvisited s).card < n) :
    g.Gathers (.item a) s (g.gatherFrom n a s) := by
  induction n generalizing a s with
  | zero => exact absurd hfuel (Nat.not_lt_zero _)
  | succ n ih =>
    unfold gatherFrom
    by_cases hf : g.isFinal a = true
    · rw [if_pos hf]
      exact .complete hf
    · rw [if_neg hf]
      have hopen : g.isFinal a = false := by simpa using hf
      cases ht : g.tokenAt? a with
      | none => exact .unnumbered hopen ht
      | some x =>
        dsimp only
        by_cases hx : g.isTerminal x = true
        · rw [if_pos hx]
          exact .shift hopen ht hx
        · rw [if_neg hx]
          by_cases hp : s.pushes x a.advance = true
          · rw [if_pos hp]
            exact .known hopen ht (by simpa using hx) hp
          · rw [if_neg hp]
            have hrules := gathers_rules (fun b (hb : b ∈ g.spawned x) => hb)
              (s := s.push x a.advance) (Nat.le_of_lt_succ hfuel) fun b s hlt => ih hlt
            exact .push hopen ht (by simpa using hx) (by simpa using hp) hrules

theorem gathers_item (a : Item) (s : Gathered) :
    g.Gathers (.item a) s (g.gatherFrom (g.rules.size + 1) a s) :=
  gathers_gatherFrom (card_unvisited_lt s)

theorem gathers_items (as : List Item) (s : Gathered) : g.Gathers (.items as) s
    (as.foldl (fun s a => g.gatherFrom (g.rules.size + 1) a s) s) := by
  induction as generalizing s with
  | nil => exact .done
  | cons a as ih => exact .next (gathers_item a s) (ih _)

theorem exists_gathers_rules (bs : List Item) (s : Gathered) :
    ∃ s', g.Gathers (.rules bs) s s' := by
  induction bs generalizing s with
  | nil => exact ⟨s, .entered⟩
  | cons b bs ih =>
    by_cases hseen : b ∈ s.visited
    · obtain ⟨s', h'⟩ := ih s
      exact ⟨s', .again hseen h'⟩
    · obtain ⟨s', h'⟩ := ih (g.gatherFrom (g.rules.size + 1) b (s.visit b))
      exact ⟨s', .enter hseen (gathers_item b _) h'⟩

/-- A walk ends, whatever is walked through and whatever has been entered and gathered before. -/
theorem gathers_once (w : Walk) (s : Gathered) : ∃! s', g.Gathers w s s' := by
  refine existsUnique_of_exists_of_unique ?_ fun _ _ h h' => h.unique h'
  cases w with
  | item a => exact ⟨_, gathers_item a s⟩
  | rules bs => exact exists_gathers_rules bs s
  | items as => exact ⟨_, gathers_items as s⟩

theorem gathers_gather_iff : g.Gathers (.items k.items) .empty s ↔ s = g.gather k := by
  have hgather : g.Gathers (.items k.items) .empty (g.gather k) := gathers_items k.items .empty
  constructor
  · exact fun h => h.unique hgather
  · rintro rfl
    exact hgather

theorem Gathers.mem_terminals (h : g.Gathers (.item a) .empty s) : x ∈ s.terminals ↔
    x < g.terminalCount ∧ ∃ b, g.Closure {a} b ∧ g.tokenAt? b = some x := by
  have hgather : g.Gathers (.item a) .empty (g.gather (ItemSet.ofList [a])) :=
    gathers_item a .empty
  obtain rfl := h.unique hgather
  have hset : {b | b ∈ ItemSet.ofList [a]} = ({a} : Set Item) := by
    ext b
    simp
  have hleads := (gives_gather (g := g) (ItemSet.ofList [a])).terminals x
  rw [hset] at hleads
  rw [Std.TreeMap.mem_iff_isSome_getElem?, Option.isSome_iff_exists]
  constructor
  · rintro ⟨tr, htr⟩
    obtain ⟨c, hc⟩ := hleads.nonempty tr htr
    obtain ⟨hlt, b, hb, ht, -⟩ := (hleads.target c).mpr ⟨tr, htr, hc⟩
    exact ⟨hlt, b, hb, ht⟩
  · rintro ⟨hlt, b, hb, ht⟩
    obtain ⟨tr, htr, -⟩ := (hleads.target b.advance).mp ⟨hlt, b, hb, ht, rfl⟩
    exact ⟨tr, htr⟩

end ParserTables.NumberedGrammar

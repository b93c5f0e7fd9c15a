import ParserTables.Proofs.Follow
import ParserTables.Proofs.Walking

/-!
The right contexts of a nonterminal, unwound one nonterminal after another without any bound: each
occurrence in the middle of a rule gives its context at once, and at the end of a rule the
unwinding goes on with the nonterminal that the rule belongs to, unless it has been entered before.
Only the nonterminals that have rules can be entered, each of them once, so the unwinding ends
whatever has been entered before. What it leaves behind is closed under handing on, hence the
contexts that it gives are those that the search for them finds.
-/

namespace ParserTables

structure Unwound where
  entered : List Nat
  contexts : List Item

namespace Unwound

def empty : Unwound := ⟨[], []⟩

def enter (s : Unwound) (x : Nat) : Unwound := { s with entered := s.entered ++ [x] }

def add (s : Unwound) (a : Item) : Unwound := { s with contexts := s.contexts ++ [a] }

end Unwound

namespace NumberedGrammar

inductive Unwinding where
  | symbol (x : Nat)
  | occurrences (as : List Item)

/-- An unwinding that ends leads from what has been found before to what has been found then. -/
inductive Unwinds (g : NumberedGrammar) : Unwinding → Unwound → Unwound → Prop
  | again {x : Nat} {s : Unwound} : x ∈ s.entered → Unwinds g (.symbol x) s s
  | enter {x : Nat} {s s' : Unwound} : x ∉ s.entered →
      Unwinds g (.occurrences (g.occurrences x)) (s.enter x) s' → Unwinds g (.symbol x) s s'
  | done {s : Unwound} : Unwinds g (.occurrences []) s s
  | handOn {a : Item} {as : List Item} {y : Nat} {s s₁ s' : Unwound} :
      g.isFinal a.advance = true → g.lhs? a.rule = some y → Unwinds g (.symbol y) s s₁ →
      Unwinds g (.occurrences as) s₁ s' → Unwinds g (.occurrences (a :: as)) s s'
  | context {a : Item} {as : List Item} {s s' : Unwound} : g.isFinal a.advance = false →
      Unwinds g (.occurrences as) (s.add a.advance) s' → Unwinds g (.occurrences (a :: as)) s s'

variable {g : NumberedGrammar} {u : Unwinding} {s s' s'' : Unwound} {a b : Item}
  {as bs cs : List Item} {xs ys : List Nat} {x y n : Nat} {K : Set Item}

theorem Unwinds.unique (h : g.Unwinds u s s') (h' : g.Unwinds u s s'') : s' = s'' := by
  induction h generalizing s'' with
  | again hx =>
    cases h' with
    | again _ => rfl
    | enter hx' _ => exact absurd hx hx'
  | enter hx _ ih =>
    cases h' with
    | again hx' => exact absurd hx' hx
    | enter _ h' => exact ih h'
  | done =>
    cases h' with
    | done => rfl
  | handOn hf hl _ _ ihy ih =>
    cases h' with
    | handOn _ hl' hy' h' =>
      cases hl.symm.trans hl'
      cases ihy hy'
      exact ih h'
    | context hf' _ => cases hf.symm.trans hf'
  | context hf _ ih =>
    cases h' with
    | handOn hf' _ _ _ => cases hf.symm.trans hf'
    | context _ h' => exact ih h'

/-! ### What is found -/

def handedOn (g : NumberedGrammar) (as : List Item) : List Nat :=
  (as.map Item.advance).filterMap fun a => if g.isFinal a then g.lhs? a.rule else none

def inRules (g : NumberedGrammar) (as : List Item) : List Item :=
  (as.map Item.advance).filter fun a => !g.isFinal a

/-- Coming from `s` to `s'` by way of the nonterminals `xs` and the contexts `bs`: what has been
entered on the way is reached from `xs`, all that it hands on to has been entered as well, and its
contexts have been found. -/
structure Finds (g : NumberedGrammar) (xs : List Nat) (bs : List Item) (s s' : Unwound) :
    Prop where
  old : ∀ y ∈ s.entered, y ∈ s'.entered
  starts : ∀ y ∈ xs, y ∈ s'.entered
  reached : ∀ y ∈ s'.entered, y ∈ s.entered ∨
    ∃ x ∈ xs, Relation.ReflTransGen (fun x y => y ∈ g.endedBy x) x y
  closed : ∀ y ∈ s'.entered, y ∈ s.entered ∨ ∀ z ∈ g.endedBy y, z ∈ s'.entered
  contexts : ∀ b, b ∈ s'.contexts ↔ b ∈ s.contexts ∨ b ∈ bs ∨
    ∃ y ∈ s'.entered, y ∉ s.entered ∧ b ∈ g.after y

theorem entered_enter : ∀ y ∈ s.entered, y ∈ (s.enter x).entered :=
  fun _ hy => List.mem_append_left _ hy

theorem finds_self (hxs : ∀ y ∈ xs, y ∈ s.entered) : g.Finds xs [] s s := by
  constructor
  case old => exact fun y hy => hy
  case starts => exact hxs
  case reached => exact fun y hy => Or.inl hy
  case closed => exact fun y hy => Or.inl hy
  case contexts =>
    intro b
    constructor
    · exact Or.inl
    · rintro (hb | hb | ⟨y, hy, hnew, -⟩)
      · exact hb
      · cases hb
      · exact absurd hy hnew

theorem finds_add (s : Unwound) (b : Item) : g.Finds [] [b] s (s.add b) := by
  have hself : g.Finds [] [] s s := finds_self fun _ hy => absurd hy List.not_mem_nil
  refine ⟨hself.old, hself.starts, hself.reached, hself.closed, ?_⟩
  intro c
  constructor
  · intro hc
    rcases List.mem_append.mp hc with hc | hc
    · exact Or.inl hc
    · exact Or.inr (Or.inl hc)
  · rintro (hc | hc | ⟨y, hy, hnew, -⟩)
    · exact List.mem_append_left _ hc
    · exact List.mem_append_right _ hc
    · exact absurd hy hnew

theorem Finds.trans {s₁ : Unwound} (h : g.Finds xs bs s s₁) (h' : g.Finds ys cs s₁ s') :
    g.Finds (xs ++ ys) (bs ++ cs) s s' := by
  constructor
  case old => exact fun y hy => h'.old y (h.old y hy)
  case starts =>
    intro y hy
    rcases List.mem_append.mp hy with hy | hy
    · exact h'.old y (h.starts y hy)
    · exact h'.starts y hy
  case reached =>
    intro y hy
    rcases h'.reached y hy with hy | ⟨x, hx, hxy⟩
    · rcases h.reached y hy with hy | ⟨x, hx, hxy⟩
      · exact Or.inl hy
      · exact Or.inr ⟨x, List.mem_append_left _ hx, hxy⟩
    · exact Or.inr ⟨x, List.mem_append_right _ hx, hxy⟩
  case closed =>
    intro y hy
    rcases h'.closed y hy with hy | hnext
    · rcases h.closed y hy with hy | hnext
      · exact Or.inl hy
      · exact Or.inr fun z hz => h'.old z (hnext z hz)
    · exact Or.inr hnext
  case contexts =>
    intro b
    rw [h'.contexts, h.contexts, List.mem_append]
    constructor
    · rintro ((hb | hb | ⟨y, hy, hnew, hb⟩) | hb | ⟨y, hy, hnew, hb⟩)
      · exact Or.inl hb
      · exact Or.inr (Or.inl (Or.inl hb))
      · exact Or.inr (Or.inr ⟨y, h'.old y hy, hnew, hb⟩)
      · exact Or.inr (Or.inl (Or.inr hb))
      · exact Or.inr (Or.inr ⟨y, hy, fun hold => hnew (h.old y hold), hb⟩)
    · rintro (hb | (hb | hb) | ⟨y, hy, hnew, hb⟩)
      · exact Or.inl (Or.inl hb)
      · exact Or.inl (Or.inr (Or.inl hb))
      · exact Or.inr (Or.inl hb)
      · by_cases hfirst : y ∈ s₁.entered
        · exact Or.inl (Or.inr (Or.inr ⟨y, hfirst, hnew, hb⟩))
        · exact Or.inr (Or.inr ⟨y, hy, hfirst, hb⟩)

/-- A nonterminal is behind when all that it hands on to is. -/
theorem Finds.enter (h : g.Finds (g.endedBy x) (g.after x) (s.enter x) s') (hnew : x ∉ s.entered) :
    g.Finds [x] [] s s' := by
  have hx : x ∈ s'.entered := h.old x (List.mem_append_right _ (List.mem_singleton.mpr rfl))
  have hsplit : ∀ {y}, y ∈ (s.enter x).entered → y ∈ s.entered ∨ y = x := fun hy =>
    (List.mem_append.mp hy).imp_right List.mem_singleton.mp
  constructor
  case old => exact fun y hy => h.old y (entered_enter y hy)
  case starts =>
    intro y hy
    rwa [List.mem_singleton.mp hy]
  case reached =>
    intro y hy
    rcases h.reached y hy with hy | ⟨z, hz, hzy⟩
    · rcases hsplit hy with hy | rfl
      · exact Or.inl hy
      · exact Or.inr ⟨y, List.mem_singleton.mpr rfl, .refl⟩
    · exact Or.inr ⟨x, List.mem_singleton.mpr rfl, .head hz hzy⟩
  case closed =>
    intro y hy
    rcases h.closed y hy with hy | hnext
    · rcases hsplit hy with hy | rfl
      · exact Or.inl hy
      · exact Or.inr h.starts
    · exact Or.inr hnext
  case contexts =>
    intro b
    rw [h.contexts]
    constructor
    · rintro (hb | hb | ⟨y, hy, hfresh, hb⟩)
      · exact Or.inl hb
      · exact Or.inr (Or.inr ⟨x, hx, hnew, hb⟩)
      · exact Or.inr (Or.inr ⟨y, hy, fun hold => hfresh (entered_enter y hold), hb⟩)
    · rintro (hb | hb | ⟨y, hy, hfresh, hb⟩)
      · exact Or.inl hb
      · cases hb
      · by_cases hyx : y = x
        · exact Or.inr (Or.inl (hyx ▸ hb))
        · refine Or.inr (Or.inr ⟨y, hy, ?_, hb⟩)
          intro hentered
          rcases hsplit hentered with hold | heq
          · exact hfresh hold
          · exact hyx heq

def Unwinding.starts (g : NumberedGrammar) : Unwinding → List Nat
  | .symbol x => [x]
  | .occurrences as => g.handedOn as

def Unwinding.given (g : NumberedGrammar) : Unwinding → List Item
  | .symbol _ => []
  | .occurrences as => g.inRules as

theorem Unwinds.finds (h : g.Unwinds u s s') : g.Finds (u.starts g) (u.given g) s s' := by
  induction h with
  | @again x s hx => exact finds_self fun y hy => (List.mem_singleton.mp hy) ▸ hx
  | enter hx _ ih =>
    exact Finds.enter ih hx
  | done => exact finds_self fun _ hy => absurd hy List.not_mem_nil
  | @handOn a as y s s₁ s' hf hl _ _ ihy ih =>
    have hstarts : g.handedOn (a :: as) = [y] ++ g.handedOn as :=
      List.filterMap_cons_some (by rw [if_pos hf]; exact hl)
    have hgiven : g.inRules (a :: as) = [] ++ g.inRules as := by simp [inRules, hf]
    change g.Finds (g.handedOn (a :: as)) (g.inRules (a :: as)) s s'
    rw [hstarts, hgiven]
    exact ihy.trans ih
  | @context a as s s' hf _ ih =>
    have hstarts : g.handedOn (a :: as) = [] ++ g.handedOn as := by simp [handedOn, hf]
    have hgiven : g.inRules (a :: as) = [a.advance] ++ g.inRules as := by simp [inRules, hf]
    change g.Finds (g.handedOn (a :: as)) (g.inRules (a :: as)) s s'
    rw [hstarts, hgiven]
    exact (finds_add s a.advance).trans ih

/-- Unwinding finds the contexts that the search finds. -/
theorem Unwinds.mem_contexts (h : g.Unwinds (.symbol x) .empty s) :
    b ∈ s.contexts ↔ b ∈ g.Context x := by
  have hfinds : g.Finds [x] [] .empty s := h.finds
  have hentered : ∀ {y}, y ∈ s.entered ↔
      Relation.ReflTransGen (fun x y => y ∈ g.endedBy x) x y := by
    intro y
    constructor
    · intro hy
      rcases hfinds.reached y hy with hnone | ⟨z, hz, hzy⟩
      · cases hnone
      · exact (List.mem_singleton.mp hz) ▸ hzy
    · intro hxy
      induction hxy with
      | refl => exact hfinds.starts x (List.mem_singleton.mpr rfl)
      | tail _ hstep ih =>
        rcases hfinds.closed _ ih with hnone | hnext
        · cases hnone
        · exact hnext _ hstep
  rw [hfinds.contexts]
  constructor
  · rintro (hnone | hnone | ⟨y, hy, -, hb⟩)
    · cases hnone
    · cases hnone
    · exact ⟨y, hentered.mp hy, hb⟩
  · rintro ⟨y, hxy, hb⟩
    exact Or.inr (Or.inr ⟨y, hentered.mpr hxy, List.not_mem_nil, hb⟩)

/-! ### Ending -/

/-- The rules of nonterminals that have not been entered. -/
def unentered (g : NumberedGrammar) (s : Unwound) : Finset Nat :=
  (Finset.range g.rules.size).filter fun i => ∃ y, g.lhs? i = some y ∧ y ∉ s.entered

theorem unentered_subset (h : ∀ y ∈ s.entered, y ∈ s'.entered) :
    g.unentered s' ⊆ g.unentered s := by
  intro i hi
  obtain ⟨hlt, y, hl, hnew⟩ := Finset.mem_filter.mp hi
  exact Finset.mem_filter.mpr ⟨hlt, y, hl, fun hmem => hnew (h y hmem)⟩

theorem card_unentered_enter {i : Nat} (hl : g.lhs? i = some x) (hnew : x ∉ s.entered) :
    (g.unentered (s.enter x)).card < (g.unentered s).card := by
  obtain ⟨r, hr, -⟩ := lhs_eq_some.mp hl
  have hlt := (Array.getElem?_eq_some_iff.mp hr).1
  refine Finset.card_lt_card ⟨unentered_subset entered_enter, ?_⟩
  intro hsub
  have hmem := hsub (Finset.mem_filter.mpr ⟨Finset.mem_range.mpr hlt, x, hl, hnew⟩)
  obtain ⟨-, y, hy, hopen⟩ := Finset.mem_filter.mp hmem
  cases hl.symm.trans hy
  exact hopen (List.mem_append_right _ (List.mem_singleton.mpr rfl))

theorem exists_occurrences (hfuel : (g.unentered s).card < n)
    (howner : ∀ i y s, g.lhs? i = some y → (g.unentered s).card < n →
      ∃ s', g.Unwinds (.symbol y) s s') : ∃ s', g.Unwinds (.occurrences as) s s' := by
  induction as generalizing s with
  | nil => exact ⟨s, .done⟩
  | cons a as ih =>
    by_cases hf : g.isFinal a.advance = true
    · obtain ⟨y, hy⟩ := lhs_of_final hf
      obtain ⟨s₁, h₁⟩ := howner _ y s hy hfuel
      have hless := Finset.card_le_card (unentered_subset (g := g) h₁.finds.old)
      obtain ⟨s', h'⟩ := ih (Nat.lt_of_le_of_lt hless hfuel)
      exact ⟨s', .handOn hf hy h₁ h'⟩
    · obtain ⟨s', h'⟩ := @ih (s.add a.advance) hfuel
      exact ⟨s', .context (by simpa using hf) h'⟩

/-- A nonterminal that has rules, by the rules of those not entered yet. -/
theorem exists_owner {i : Nat} (hl : g.lhs? i = some x) (hfuel : (g.unentered s).card < n) :
    ∃ s', g.Unwinds (.symbol x) s s' := by
  induction n generalizing s x i with
  | zero => exact absurd hfuel (Nat.not_lt_zero _)
  | succ n ih =>
    by_cases hseen : x ∈ s.entered
    · exact ⟨s, .again hseen⟩
    · have hless := Nat.lt_of_lt_of_le (card_unentered_enter hl hseen) (Nat.le_of_lt_succ hfuel)
      obtain ⟨s', h'⟩ : ∃ s', g.Unwinds (.occurrences (g.occurrences x)) (s.enter x) s' :=
        exists_occurrences hless fun i y s hy hlt => ih hy hlt
      exact ⟨s', .enter hseen h'⟩

/-- Unwinding ends, whatever is unwound and whatever has been entered and found before. -/
theorem unwinds_once (u : Unwinding) (s : Unwound) : ∃! s', g.Unwinds u s s' := by
  have hoccurrences : ∀ as s, ∃ s', g.Unwinds (.occurrences as) s s' := fun as s =>
    exists_occurrences (Nat.lt_succ_self _) fun i y s hy hlt => exists_owner hy hlt
  refine existsUnique_of_exists_of_unique ?_ fun _ _ h h' => h.unique h'
  cases u with
  | occurrences as => exact hoccurrences as s
  | symbol x =>
    by_cases hseen : x ∈ s.entered
    · exact ⟨s, .again hseen⟩
    · obtain ⟨s', h'⟩ := hoccurrences (g.occurrences x) (s.enter x)
      exact ⟨s', .enter hseen h'⟩

/-! ### The terminals behind the contexts -/

theorem Closure.single (h : g.Closure K a) : ∃ c ∈ K, g.Closure {c} a := by
  induction h with
  | @kernel a hk => exact ⟨a, hk, .kernel rfl⟩
  | spawn _ ht hnt hl ih =>
    obtain ⟨c, hc, hca⟩ := ih
    exact ⟨c, hc, .spawn hca ht hnt hl⟩

/-- The terminals that can follow a rule are those that the walks from the unwound contexts of its
nonterminal gather, one walk for each context. -/
theorem Bounded.mem_followOf (hb : g.Bounded)
    (hlhs : ∀ (i : Nat) (r : Production), g.rules[i]? = some r → r.lhs < g.symbolCount)
    (hl : g.lhs? a.rule = some x) (h : g.Unwinds (.symbol x) .empty s) {t : Nat} :
    t ∈ g.followOf a ↔ ∃ c ∈ s.contexts, ∃ w, g.Gathers (.item c) .empty w ∧ t ∈ w.terminals := by
  obtain ⟨r, hr, rfl⟩ := lhs_eq_some.mp hl
  have hfollow : g.followOf a = g.follow r.lhs := by rw [followOf, hl]
  rw [hfollow, hb.mem_follow hlhs (hlhs _ r hr)]
  simp only [h.mem_contexts]
  constructor
  · rintro ⟨hlt, b, hclosure, ht⟩
    obtain ⟨c, hc, hcb⟩ := hclosure.single
    have hwalk := gathers_item (g := g) c .empty
    exact ⟨c, hc, _, hwalk, hwalk.mem_terminals.mpr ⟨hlt, b, hcb, ht⟩⟩
  · rintro ⟨c, hc, w, hwalk, hw⟩
    obtain ⟨hlt, b, hcb, ht⟩ := hwalk.mem_terminals.mp hw
    have hsub : ∀ d ∈ ({c} : Set Item), d ∈ g.Context r.lhs := fun d hd => hd.symm ▸ hc
    exact ⟨hlt, b, hcb.mono hsub, ht⟩

end NumberedGrammar

end ParserTables

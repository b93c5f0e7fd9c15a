import ParserTables.Automaton.Follow
import ParserTables.Proofs.Closure

/-!
The terminals that can begin a symbol and those that can come after it, as least fixpoints over
all rules. The terminals that the automaton reduces on are found by the same fixpoints without
looking past symbols that can be empty. So they are among those that can come after the left-hand
side, and they are all of them where nothing that comes right behind a symbol can be empty, as in
a grammar without empty rules.
-/

namespace ParserTables.NumberedGrammar

variable {g : NumberedGrammar} {a b : Item} {s x y : Nat} {xs : List Nat} {K : Set Item}

inductive Nullable (g : NumberedGrammar) : List Nat → Prop
  | nil : Nullable g []
  | cons {i : Nat} {r : Production} {xs : List Nat} : g.rules[i]? = some r →
      Nullable g r.symbols → Nullable g xs → Nullable g (r.lhs :: xs)

inductive First (g : NumberedGrammar) : Nat → Nat → Prop
  | terminal {x : Nat} : x < g.terminalCount → First g x x
  | rule {i : Nat} {r : Production} {before after : List Nat} {y x : Nat} :
      g.rules[i]? = some r → r.symbols = before ++ y :: after → Nullable g before →
      First g y x → First g r.lhs x

inductive Follow (g : NumberedGrammar) : Nat → Nat → Prop
  | inside {i : Nat} {r : Production} {before between after : List Nat} {s y x : Nat} :
      g.rules[i]? = some r → r.symbols = before ++ s :: (between ++ y :: after) →
      Nullable g between → First g y x → Follow g s x
  | atEnd {i : Nat} {r : Production} {before after : List Nat} {s x : Nat} :
      g.rules[i]? = some r → r.symbols = before ++ s :: after → Nullable g after →
      Follow g r.lhs x → Follow g s x

/-- The terminals that begin a symbol when nothing is taken to be empty. -/
inductive Begins (g : NumberedGrammar) : Nat → Nat → Prop
  | terminal {x : Nat} : x < g.terminalCount → Begins g x x
  | rule {i : Nat} {r : Production} {after : List Nat} {y x : Nat} :
      g.rules[i]? = some r → r.symbols = y :: after → Begins g y x → Begins g r.lhs x

/-- The terminals that come after a symbol when nothing is taken to be empty. -/
inductive Adjoins (g : NumberedGrammar) : Nat → Nat → Prop
  | inside {i : Nat} {r : Production} {before after : List Nat} {s y x : Nat} :
      g.rules[i]? = some r → r.symbols = before ++ s :: y :: after → Begins g y x → Adjoins g s x
  | atEnd {i : Nat} {r : Production} {before : List Nat} {s x : Nat} :
      g.rules[i]? = some r → r.symbols = before ++ [s] → Adjoins g r.lhs x → Adjoins g s x

inductive Behind (g : NumberedGrammar) : Nat → Prop
  | next {i : Nat} {r : Production} {before after : List Nat} {s y : Nat} :
      g.rules[i]? = some r → r.symbols = before ++ s :: y :: after → Behind g y
  | first {i : Nat} {r : Production} {after : List Nat} {y : Nat} :
      Behind g r.lhs → g.rules[i]? = some r → r.symbols = y :: after → Behind g y

def NoEmptyBehind (g : NumberedGrammar) : Prop := ∀ y, g.Behind y → ¬ g.Nullable [y]

def NoEmptyRule (g : NumberedGrammar) : Prop :=
  ∀ (i : Nat) (r : Production), g.rules[i]? = some r → r.symbols ≠ []

theorem First.lt (h : g.First s x) : x < g.terminalCount := by
  induction h with
  | terminal hx => exact hx
  | rule _ _ _ _ ih => exact ih

theorem Follow.lt (h : g.Follow s x) : x < g.terminalCount := by
  induction h with
  | inside _ _ _ hfirst => exact hfirst.lt
  | atEnd _ _ _ _ ih => exact ih

theorem Nullable.eq_nil (hne : g.NoEmptyRule) (h : g.Nullable xs) : xs = [] := by
  induction h with
  | nil => rfl
  | cons hr _ _ ih _ => exact absurd ih (hne _ _ hr)

theorem mem_occurrences : a ∈ g.occurrences s ↔ g.tokenAt? a = some s := by
  obtain ⟨i, p⟩ := a
  simp only [occurrences, List.mem_flatMap, List.mem_range, List.mem_filter, List.mem_map,
    decide_eq_true_eq, Item.mk.injEq]
  constructor
  · rintro ⟨-, -, -, ht⟩
    exact ht
  · intro ht
    obtain ⟨r, hr, hs⟩ := tokenAt_eq_some.mp ht
    have hi := (Array.getElem?_eq_some_iff.mp hr).1
    have hp := (List.getElem?_eq_some_iff.mp hs).1
    refine ⟨i, hi, ⟨p, ?_, rfl, rfl⟩, ht⟩
    rw [hr]
    exact hp

theorem mem_after : b ∈ g.after s ↔
    ∃ a, g.tokenAt? a = some s ∧ a.advance = b ∧ g.isFinal b = false := by
  simp only [after, List.mem_filter, List.mem_map, mem_occurrences, Bool.not_eq_true']
  constructor
  · rintro ⟨⟨a, ht, rfl⟩, hf⟩
    exact ⟨a, ht, rfl, hf⟩
  · rintro ⟨a, ht, rfl, hf⟩
    exact ⟨⟨a, ht, rfl⟩, hf⟩

theorem mem_endedBy : x ∈ g.endedBy s ↔
    ∃ a, g.tokenAt? a = some s ∧ g.isFinal a.advance = true ∧ g.lhs? a.rule = some x := by
  simp only [endedBy, List.mem_filterMap, List.mem_map, mem_occurrences]
  constructor
  · rintro ⟨b, ⟨a, ht, rfl⟩, hb⟩
    split at hb
    · next hf => exact ⟨a, ht, hf, hb⟩
    · cases hb
  · rintro ⟨a, ht, hf, hl⟩
    exact ⟨a.advance, ⟨a, ht, rfl⟩, by rw [if_pos hf]; exact hl⟩

theorem lhs_of_final (h : g.isFinal a = true) : ∃ s, g.lhs? a.rule = some s := by
  obtain ⟨r, hr, -⟩ := (Option.any_eq_true _ _).mp h
  exact ⟨r.lhs, lhs_eq_some.mpr ⟨r, hr, rfl⟩⟩

/-- The items right after a symbol, or after a left-hand side that ends with it. -/
def Context (g : NumberedGrammar) (s : Nat) : Set Item :=
  {a | ∃ s', Relation.ReflTransGen (fun s s' => s' ∈ g.endedBy s) s s' ∧ a ∈ g.after s'}

theorem endedBy_lt
    (hlhs : ∀ (i : Nat) (r : Production), g.rules[i]? = some r → r.lhs < g.symbolCount) :
    ∀ s, ∀ x ∈ g.endedBy s, x < g.symbolCount := by
  intro s x hx
  obtain ⟨a, -, -, hl⟩ := mem_endedBy.mp hx
  obtain ⟨r, hr, rfl⟩ := lhs_eq_some.mp hl
  exact hlhs _ r hr

/-- The contexts may be of any grammar whose rules have no numbers but those of its symbols. -/
theorem Bounded.mem_follow (hb : g.Bounded)
    (hlhs : ∀ (i : Nat) (r : Production), g.rules[i]? = some r → r.lhs < g.symbolCount)
    (hs : s < g.symbolCount) : x ∈ g.follow s ↔ x < g.terminalCount ∧
      ∃ a, g.Closure (g.Context s) a ∧ g.tokenAt? a = some x := by
  have hstarts : ∀ a ∈ [s], a < g.symbolCount := by simpa using hs
  have hcontexts : ∀ a, a ∈ g.contexts s ↔ a ∈ g.Context s := by
    intro a
    simp only [contexts, List.mem_flatMap, mem_reach hstarts (endedBy_lt hlhs),
      List.mem_singleton, exists_eq_left]
    rfl
  have hset : {b | b ∈ g.contexts s} = g.Context s := Set.ext hcontexts
  rw [follow, mem_shiftable]
  simp only [hb.mem_closure, hset]

theorem WellFormed.mem_follow (wf : g.WellFormed) (hs : s < g.symbolCount) :
    x ∈ g.follow s ↔ x < g.terminalCount ∧
      ∃ a, g.Closure (g.Context s) a ∧ g.tokenAt? a = some x :=
  wf.bounded.mem_follow wf.lhs_lt hs

theorem WellFormed.adjoins_of_endedBy (wf : g.WellFormed) (hs : y ∈ g.endedBy s)
    (hy : g.Adjoins y x) : g.Adjoins s x := by
  obtain ⟨a, ht, hf, hl⟩ := mem_endedBy.mp hs
  obtain ⟨r, hr, rfl⟩ := lhs_eq_some.mp hl
  obtain ⟨r', hr', hp⟩ := wf.final_iff.mp hf
  cases hr.symm.trans hr'
  have hend : r.symbols.drop (a.phase + 1) = [] := List.drop_eq_nil_of_le (Nat.le_of_eq hp.symm)
  have hsplit := wf.split_token hr ht
  rw [hend] at hsplit
  exact .atEnd hr hsplit hy

theorem WellFormed.adjoins_of_context (wf : g.WellFormed) (ha : g.Closure (g.Context s) a)
    (ht : g.tokenAt? a = some y) (hy : g.Begins y x) : g.Adjoins s x := by
  induction ha generalizing y with
  | kernel hk =>
    obtain ⟨s', hreach, hafter⟩ := hk
    obtain ⟨b, htb, rfl, -⟩ := mem_after.mp hafter
    have hnext : g.Adjoins s' x := by
      obtain ⟨r, hr, -⟩ := wf.token_iff.mp htb
      have hsplit := wf.split_token hr htb
      have hdrop : r.symbols.drop (b.phase + 1) = y :: _ := wf.drop_token (a := b.advance) hr ht
      rw [hdrop] at hsplit
      exact .inside hr hsplit hy
    clear ht hafter htb
    induction hreach using Relation.ReflTransGen.head_induction_on with
    | refl => exact hnext
    | head hstep _ ih => exact wf.adjoins_of_endedBy hstep ih
  | @spawn b z j _ htb _ hl ih =>
    obtain ⟨r, hr, rfl⟩ := lhs_eq_some.mp hl
    exact ih htb (.rule hr (wf.split_token (a := ⟨j, 0⟩) hr ht) hy)

theorem WellFormed.token_of_begins (wf : g.WellFormed) (h : g.Begins y x)
    (ha : g.Closure K a) (ht : g.tokenAt? a = some y) :
    ∃ b, g.Closure K b ∧ g.tokenAt? b = some x := by
  induction h generalizing a with
  | terminal _ => exact ⟨a, ha, ht⟩
  | @rule i r after y x hr hsplit _ ih =>
    have hspawn : g.Closure K ⟨i, 0⟩ :=
      .spawn ha ht (wf.lhs_nonterminal i r hr) (lhs_eq_some.mpr ⟨r, hr, rfl⟩)
    exact ih hspawn (@token_of_split _ _ i r wf hr [] after hsplit)

theorem Begins.lt (h : g.Begins s x) : x < g.terminalCount := by
  induction h with
  | terminal hx => exact hx
  | rule _ _ _ ih => exact ih

theorem WellFormed.context_of_adjoins (wf : g.WellFormed) (h : g.Adjoins s x) :
    x < g.terminalCount ∧ ∃ a, g.Closure (g.Context s) a ∧ g.tokenAt? a = some x := by
  induction h with
  | @inside i r before after s y x hr hsplit hbegins =>
    refine ⟨hbegins.lt, ?_⟩
    have hs := wf.token_of_split hr hsplit
    have hy : g.tokenAt? ⟨i, before.length + 1⟩ = some y := by
      have hsplit' : r.symbols = (before ++ [s]) ++ y :: after := by simpa using hsplit
      simpa using wf.token_of_split hr hsplit'
    have hopen : g.isFinal ⟨i, before.length + 1⟩ = false := by
      by_contra hf
      obtain ⟨r', hr', hp⟩ := wf.final_iff.mp (by simpa using hf)
      cases hr.symm.trans hr'
      rw [wf.token_eq hr, List.getElem?_eq_none (Nat.le_of_eq hp.symm)] at hy
      cases hy
    have hcontext : (⟨i, before.length + 1⟩ : Item) ∈ g.Context s :=
      ⟨s, .refl, mem_after.mpr ⟨⟨i, before.length⟩, hs, rfl, hopen⟩⟩
    exact wf.token_of_begins hbegins (.kernel hcontext) hy
  | @atEnd i r before s x hr hsplit _ ih =>
    obtain ⟨hx, a, ha, ht⟩ := ih
    refine ⟨hx, a, ha.mono ?_, ht⟩
    have hends : r.lhs ∈ g.endedBy s := by
      refine mem_endedBy.mpr ⟨⟨i, before.length⟩, wf.token_of_split hr hsplit, ?_,
        lhs_eq_some.mpr ⟨r, hr, rfl⟩⟩
      exact wf.final_iff.mpr ⟨r, hr, by simp [Item.advance, hsplit]⟩
    rintro b ⟨s', hreach, hb⟩
    exact ⟨s', .head hends hreach, hb⟩

/-- The terminals that a complete item is reduced on are those that come after its left-hand side
when nothing is taken to be empty. -/
theorem WellFormed.mem_followOf (wf : g.WellFormed) (hl : g.lhs? a.rule = some s) :
    x ∈ g.followOf a ↔ g.Adjoins s x := by
  obtain ⟨r, hr, rfl⟩ := lhs_eq_some.mp hl
  rw [followOf, hl]
  change x ∈ g.follow r.lhs ↔ _
  rw [wf.mem_follow (wf.lhs_lt _ r hr)]
  constructor
  · rintro ⟨hlt, b, hb, ht⟩
    exact wf.adjoins_of_context hb ht (.terminal hlt)
  · exact wf.context_of_adjoins

theorem nodup_followOf (a : Item) : (g.followOf a).Nodup := by
  unfold followOf
  cases g.lhs? a.rule with
  | none => exact List.nodup_nil
  | some s => exact List.nodup_range.filter _

theorem Begins.first (h : g.Begins s x) : g.First s x := by
  induction h with
  | terminal hx => exact .terminal hx
  | @rule i r after y x hr hsplit _ ih => exact @First.rule g i r [] after y x hr hsplit .nil ih

theorem Adjoins.follow (h : g.Adjoins s x) : g.Follow s x := by
  induction h with
  | @inside i r before after s y x hr hsplit hbegins =>
    exact @Follow.inside g i r before [] after s y x hr hsplit .nil hbegins.first
  | atEnd hr hsplit _ ih => exact .atEnd hr hsplit .nil ih

theorem NoEmptyRule.no_empty_behind (hne : g.NoEmptyRule) : g.NoEmptyBehind := by
  intro y _ hnull
  cases hnull.eq_nil hne

theorem Nullable.head (h : g.Nullable (y :: xs)) : g.Nullable [y] := by
  cases h with
  | cons hr hnull _ => exact .cons hr hnull .nil

theorem Nullable.le_head (wf : g.WellFormed) (h : g.Nullable (y :: xs)) :
    g.terminalCount ≤ y := by
  cases h with
  | @cons i r _ hr _ _ => exact wf.lhs_nonterminal i r hr

/-- If nothing behind a symbol can be empty, what can begin it there does so at once. -/
theorem NoEmptyBehind.begins (hfull : g.NoEmptyBehind) (h : g.First y x) (hy : g.Behind y) :
    g.Begins y x := by
  induction h with
  | terminal hx => exact .terminal hx
  | @rule i r before after y x hr hsplit hnull _ ih =>
    cases before with
    | nil => exact .rule hr hsplit (ih (.first hy hr hsplit))
    | cons b bs => exact absurd hnull.head (hfull b (.first hy hr hsplit))

theorem NoEmptyBehind.adjoins (hfull : g.NoEmptyBehind) (h : g.Follow s x) : g.Adjoins s x := by
  induction h with
  | @inside i r before between after s y x hr hsplit hnull hfirst =>
    cases between with
    | nil => exact .inside hr hsplit (hfull.begins hfirst (.next hr hsplit))
    | cons b bs => exact absurd hnull.head (hfull b (.next hr hsplit))
  | @atEnd i r before after s x hr hsplit hnull _ ih =>
    cases after with
    | nil => exact .atEnd hr hsplit ih
    | cons b bs => exact absurd hnull.head (hfull b (.next hr hsplit))

theorem WellFormed.follow_of_mem (wf : g.WellFormed) (hl : g.lhs? a.rule = some s)
    (hx : x ∈ g.followOf a) : g.Follow s x :=
  ((wf.mem_followOf hl).mp hx).follow

theorem WellFormed.mem_of_follow (wf : g.WellFormed) (hne : g.NoEmptyRule)
    (hl : g.lhs? a.rule = some s) (hx : g.Follow s x) : x ∈ g.followOf a :=
  (wf.mem_followOf hl).mpr (hne.no_empty_behind.adjoins hx)

end ParserTables.NumberedGrammar

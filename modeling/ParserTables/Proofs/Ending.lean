import ParserTables.Proofs.Contexts
import ParserTables.Proofs.Worklist

/-!
A generation comes to an end. Four of its parts go on until something is found or nothing is left:
the search for a name of the augmented start symbol, the walk through a closure, the unwinding of
right contexts and the worklist of kernels. None of them needs a bound to end, whatever the grammar
is like and whatever its faults, and the bounds that they are given do not cut them off.
-/

namespace ParserTables

namespace Naming

/-- Appending apostrophes to a name until it is free ends with a fresh name. -/
inductive Freshens (taken : String → Bool) : String → String → Prop
  | free {name : String} : taken name = false → Freshens taken name name
  | again {name fresh : String} : taken name = true → Freshens taken (name ++ "'") fresh →
      Freshens taken name fresh

variable {taken : String → Bool} {name fresh fresh' : String} {k : Nat}

theorem Freshens.unique (h : Freshens taken name fresh) (h' : Freshens taken name fresh') :
    fresh = fresh' := by
  induction h with
  | free hname =>
    cases h' with
    | free _ => rfl
    | again hname' _ => cases hname.symm.trans hname'
  | again hname _ ih =>
    cases h' with
    | free hname' => cases hname.symm.trans hname'
    | again _ h' => exact ih h'

theorem freshens_freshName (hfree : taken (freshName taken k name) = false) :
    Freshens taken name (freshName taken k name) := by
  induction k generalizing name with
  | zero => exact .free hfree
  | succ k ih =>
    unfold freshName at hfree ⊢
    by_cases hname : taken name = true
    · rw [if_pos hname] at hfree ⊢
      exact .again hname (ih hfree)
    · rw [if_neg hname]
      exact .free (by simpa using hname)

theorem freshens_augmented_iff {n : Naming} {g : Grammar} :
    Freshens (n.isTaken g) (startName g ++ "'") name ↔ name = n.augmentedName g := by
  have haugmented : Freshens (n.isTaken g) (startName g ++ "'") (n.augmentedName g) :=
    freshens_freshName (augmented_untaken n g)
  constructor
  · exact fun h => h.unique haugmented
  · rintro rfl
    exact haugmented

end Naming

namespace Automaton

/-- A generation ends for every grammar, also for one with faults. The search for the name of the
augmented start symbol ends whatever has been named before; so does each walk through items and
each unwinding of contexts, whatever has been entered before; and so does the worklist, whatever
keys its kernels are told apart by. They give what the generation is made of: the name, the
transitions of a set of items, the terminals behind a rule and, if different kernels have different
keys, the states. -/
theorem generation_ends (g : Grammar) :
    let m := generate g
    let G := m.grammar
    (∀ (n : Naming) name, Naming.Freshens (n.isTaken g) (Naming.startName g ++ "'") name ↔
      name = n.augmentedName g) ∧
    (∀ w s, ∃! s', G.Gathers w s s') ∧
    (∀ (k : ItemSet) s, G.Gathers (.items k.items) .empty s ↔ s = G.gather k) ∧
    (∀ u s, ∃! s', G.Unwinds u s s') ∧
    (∀ a x s t, G.lhs? a.rule = some x → G.Unwinds (.symbol x) .empty s →
      (t ∈ G.followOf a ↔
        ∃ c ∈ s.contexts, ∃ w, G.Gathers (.item c) .empty w ∧ t ∈ w.terminals)) ∧
    (m.numbering.userStart = none → m.states = #[]) ∧
    (m.numbering.userStart.isSome = true → ∀ (κ : Type) [DecidableEq κ] (key : ItemSet → κ),
      (∃! w, G.Explores key (.initial key) w) ∧ (Function.Injective key →
        ∀ w, G.Explores key (.initial key) w → w.built = m.states.toList)) := by
  intro m G
  refine ⟨fun n name => Naming.freshens_augmented_iff, NumberedGrammar.gathers_once,
    fun k s => NumberedGrammar.gathers_gather_iff, NumberedGrammar.unwinds_once, ?_, ?_, ?_⟩
  · intro a x s t hl hunwinds
    exact (Numbering.bounded g).mem_followOf (Numbering.lhs_lt g) hl hunwinds
  · intro hnone
    have hunset : ¬ m.numbering.userStart.isSome = true := by simp [hnone]
    exact if_neg hunset
  · intro hstart κ _ key
    obtain ⟨r, hr⟩ := Numbering.rule_zero_of_start hstart
    refine ⟨NumberedGrammar.explores_once hr key, ?_⟩
    intro hkey w hw
    have hstates : m.states = G.states.toArray := if_pos hstart
    rw [hstates, List.toList_toArray]
    exact hw.built_eq hr hkey

end Automaton

end ParserTables

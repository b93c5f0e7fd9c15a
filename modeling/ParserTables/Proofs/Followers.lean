import ParserTables.Proofs.Follow
import ParserTables.Proofs.Generation

/-!
The terminals that complete rules are reduced on, for whole grammars. They are looked for without
regard to symbols that can be empty; a terminal that comes after a symbol only across such symbols
is overlooked, and then a reduction is missing that some sentence needs.
-/

namespace ParserTables.Automaton

variable {g : Grammar} {a : Item}

def lists : Grammar where
  name := "lists"
  start := some ⟨"l", .unknown⟩
  tokens := [some ⟨"item", "", "", false, .unknown⟩]
  precedences := []
  nonterminals := [⟨"l", [["l", "item"], []].map fun names =>
    ⟨names.map fun name => ⟨name, "", .unknown⟩, "", .left, "", .unknown⟩, .unknown⟩]

/-- Each terminal that a complete rule is reduced on is found once. They are the terminals that
come after the left-hand side when nothing is taken to be empty: all of them can follow it, and
where nothing that comes right behind a symbol can be empty nothing else can. -/
theorem followers_found (h : (generate g).hasIssues = false)
    (hf : (generate g).grammar.isFinal a = true) :
    let G := (generate g).grammar
    (G.followOf a).Nodup ∧ ∃ s, G.lhs? a.rule = some s ∧
      (∀ x, x ∈ G.followOf a ↔ G.Adjoins s x) ∧ (∀ x ∈ G.followOf a, G.Follow s x) ∧
      (G.NoEmptyBehind → ∀ x, x ∈ G.followOf a ↔ G.Follow s x) := by
  intro G
  have wf : G.WellFormed := (represents_of_no_issues h).well_formed
  obtain ⟨r, hr, -⟩ := wf.final_iff.mp hf
  have hl : G.lhs? a.rule = some r.lhs := NumberedGrammar.lhs_eq_some.mpr ⟨r, hr, rfl⟩
  refine ⟨NumberedGrammar.nodup_followOf a, r.lhs, hl, fun x => wf.mem_followOf hl,
    fun x hx => wf.follow_of_mem hl hx, ?_⟩
  intro hfull x
  constructor
  · exact wf.follow_of_mem hl
  · intro hx
    exact (wf.mem_followOf hl).mpr (hfull.adjoins hx)

set_option maxRecDepth 100000 in
/-- Only terminals come behind a list, so the items and the end of input are found. -/
theorem lists_followers : ∃ s, (generate lists).grammar.lhs? 2 = some s ∧
    ∀ x, x ∈ (generate lists).grammar.followOf ⟨2, 0⟩ ↔
      (generate lists).grammar.Follow s x := by
  have hissues : (generate lists).hasIssues = false := by decide +kernel
  have wf : (generate lists).grammar.WellFormed := (represents_of_no_issues hissues).well_formed
  obtain ⟨-, s, hs, -, -, hexact⟩ := @followers_found lists ⟨2, 0⟩ hissues (by decide +kernel)
  refine ⟨s, hs, hexact ?_⟩
  have htail : ∀ r ∈ (generate lists).grammar.rules.toList, ∀ y ∈ r.symbols.tail,
      y < (generate lists).grammar.terminalCount := by decide +kernel
  have hterminal : ∀ y, (generate lists).grammar.Behind y →
      y < (generate lists).grammar.terminalCount := by
    intro y hy
    induction hy with
    | @next i r before after s y hr hsplit =>
      refine htail r (Array.mem_toList_iff.mpr (Array.mem_of_getElem? hr)) y ?_
      rw [hsplit]
      cases before <;> simp
    | @first i r after y _ hr _ ih => exact absurd ih (Nat.not_lt.mpr (wf.lhs_nonterminal i r hr))
  intro y hy hnull
  exact absurd (hterminal y hy) (Nat.not_lt.mpr (hnull.le_head wf))

/-- The sentences are `x z` and `x w`; what is before `z` depends on an empty symbol. -/
def overlooking : Grammar where
  name := "overlooking"
  start := some ⟨"s", .unknown⟩
  tokens := ["x", "z", "w"].map fun name => some ⟨name, "", "", false, .unknown⟩
  precedences := []
  nonterminals := [("s", [["p", "n", "z"], ["q", "w"]]), ("p", [["x"]]), ("q", [["x"]]),
    ("n", [[]])].map fun (owner, rules) => ⟨owner, rules.map fun names =>
      ⟨names.map fun name => ⟨name, "", .unknown⟩, "", .left, "", .unknown⟩, .unknown⟩

set_option maxRecDepth 100000 in
/-- `z` can follow `p`, across `n`, but the rule of `p` is not reduced on it. -/
theorem overlooking_overlooks : (generate overlooking).hasIssues = false ∧
    (generate overlooking).grammar.isFinal ⟨3, 1⟩ = true ∧
    ∃ s, (generate overlooking).grammar.lhs? 3 = some s ∧
      (generate overlooking).grammar.Follow s 3 ∧
      3 ∉ (generate overlooking).grammar.followOf ⟨3, 1⟩ := by
  refine ⟨by decide +kernel, by decide +kernel, 7, by decide +kernel, ?_, by decide +kernel⟩
  have hrule : ((generate overlooking).grammar.rules[1]?).map (·.symbols) = some [7, 9, 3] := by
    decide +kernel
  have hempty : ((generate overlooking).grammar.rules[5]?).map (fun r => (r.lhs, r.symbols)) =
      some (9, []) := by decide +kernel
  obtain ⟨r, hr, hsymbols⟩ := Option.map_eq_some_iff.mp hrule
  obtain ⟨n, hn, hshape⟩ := Option.map_eq_some_iff.mp hempty
  obtain ⟨hlhs, hnone⟩ := Prod.mk.inj hshape
  have hnull : (generate overlooking).grammar.Nullable [9] :=
    hlhs ▸ .cons hn (hnone ▸ .nil) .nil
  exact @NumberedGrammar.Follow.inside _ 1 r [] [9] [] 7 3 3 hr hsymbols hnull
    (.terminal (by decide +kernel))

end ParserTables.Automaton

import ParserTables.Grammar.Declaration
import ParserTables.Grammar.Reader
import ParserTables.Proofs.Skeleton

/-!
What the table of a grammar depends on. The automaton of a grammar and that of its skeleton have
the same symbols and the same states, and their issues are of the same kinds, one by one. Two
grammars that are the same once they are erased are therefore given the same table; when the
patterns and the skip flags of their tokens agree as well, both are compiled or neither is.
-/

namespace ParserTables

namespace Automaton

variable {m m' : Automaton} {f : TokenDecl → TokenDecl}

structure Erases (f : TokenDecl → TokenDecl) (m m' : Automaton) : Prop where
  numbering : m.numbering.Erases f m'.numbering
  states : m'.states = m.states

theorem erases_generate (hf : TokenDecl.KeepsName f) (g : Grammar) :
    (generate g).Erases f (generate (g.strip f)) := by
  have h := Numbering.erases_ofGrammar hf g
  have hgrammar : (Numbering.ofGrammar (g.strip f)).grammar =
      (Numbering.ofGrammar g).grammar.skeleton := by
    unfold Numbering.grammar NumberedGrammar.skeleton
    rw [h.naming.symbols, h.rules]
  refine ⟨h, ?_⟩
  unfold generate
  dsimp only
  rw [h.user_start, hgrammar, NumberedGrammar.states_skeleton]

namespace Erases

theorem symbols (h : m.Erases f m') : m'.symbols = m.symbols := h.numbering.naming.symbols

theorem rules (h : m.Erases f m') : m'.rules = m.rules.map Production.skeleton := h.numbering.rules

theorem causes (h : m.Erases f m') : m'.issues.map (·.cause) = m.issues.map (·.cause) := by
  unfold issues
  rw [List.map_append, List.map_append, h.numbering.causes, h.states, List.map_flatMap,
    List.map_flatMap]
  congr 2
  funext p
  rw [List.map_map, List.map_map]
  rfl

theorem has_issues (h : m.Erases f m') : m'.hasIssues = m.hasIssues := by
  simpa [hasIssues] using congrArg List.isEmpty h.causes

theorem shift_reduce (h : m.Erases f m') : m'.shiftReduce = m.shiftReduce := by
  simp [shiftReduce, h.states]

theorem reduce_reduce (h : m.Erases f m') : m'.reduceReduce = m.reduceReduce := by
  simp [reduceReduce, h.states]

theorem state_index (h : m.Erases f m') : m'.stateIndex? = m.stateIndex? := by
  funext kernel
  simp [stateIndex?, h.states]

theorem table (h : m.Erases f m') : m'.table = m.table := by
  have hentry : m'.entry = m.entry := by
    funext token tr
    simp [entry, entryData, h.state_index]
  have hrow : m'.row = m.row := by
    funext s
    simp [row, hentry]
  have hrules : m'.rules.map (fun r => (⟨r.lhs, r.tokens.length, r.text⟩ : TableRule)) =
      m.rules.map fun r => ⟨r.lhs, r.tokens.length, r.text⟩ := by
    rw [h.rules, Array.map_map]
    rfl
  unfold Automaton.table
  rw [h.states, hrow, h.symbols, hrules, h.shift_reduce, h.reduce_reduce]

/-! The description shows symbols, states and the texts of rules. -/

theorem item_text (h : m.Erases f m') : m'.itemText = m.itemText := by
  have htoken : m'.tokenText = m.tokenText := by
    funext s
    cases s with
    | none => rfl
    | some s => simp [tokenText, h.symbols]
  funext a
  unfold itemText ruleOf
  rw [h.rules, Array.getElem?_map, h.symbols, htoken]
  cases m.rules[a.rule]? with
  | none => rfl
  | some r => by_cases hphase : r.tokens.length < a.phase <;> simp [hphase, Production.skeleton]

theorem reduction_text (h : m.Erases f m') : m'.reductionText = m.reductionText := by
  have helement : ∀ a : Item, (do
      let r ← elementAt m'.rules a.rule
      return s!"rule {a.rule} ({r.text})" : Except Breach String) = do
      let r ← elementAt m.rules a.rule
      return s!"rule {a.rule} ({r.text})" := by
    intro a
    unfold elementAt
    rw [h.rules, Array.getElem?_map]
    cases m.rules[(a.rule : Int).toNat]? with
    | none => rfl
    | some r => by_cases hneg : (a.rule : Int) < 0 <;> simp [hneg, Production.skeleton]
  funext verb target
  unfold reductionText
  simp only [helement]

theorem transition_text (h : m.Erases f m') : m'.transitionText = m.transitionText := by
  have hdestination : m'.destination = m.destination := by
    funext verb target
    simp [destination, itemTexts, h.state_index, h.item_text]
  funext t
  simp [transitionText, hdestination, h.reduction_text]

theorem describe (h : m.Erases f m') : m'.describe = m.describe := by
  have hstate : m'.stateText = m.stateText := by
    funext s index
    simp [stateText, itemTexts, transitionLines, conflictLines, h.item_text, h.transition_text,
      h.symbols]
  unfold Automaton.describe
  rw [hstate, h.states, h.shift_reduce, h.reduce_reduce, h.rules, Array.toList_map,
    List.zipIdx_map, List.map_map]
  rfl

/-! The lexical specification is made from the patterns and the skip flags. -/

theorem token_decl (h : m.Erases f m') (id : Nat) : m'.tokenDecl? id = (m.tokenDecl? id).map f := by
  unfold Automaton.tokenDecl? Naming.tokenDecl?
  rw [h.numbering.naming.declared]
  split <;> simp

theorem entries (h : m.Erases TokenDecl.lexicalSkeleton m') :
    LexicalSpec.entries m' = LexicalSpec.entries m := by
  have hpattern : LexicalSpec.hasPattern m' = LexicalSpec.hasPattern m := by
    funext id
    unfold LexicalSpec.hasPattern
    rw [h.token_decl, Option.any_map]
    rfl
  have hentry : LexicalSpec.entryOf? m' = LexicalSpec.entryOf? m := by
    funext id
    unfold LexicalSpec.entryOf?
    rw [h.token_decl, h.symbols]
    cases m.tokenDecl? id with
    | none => rfl
    | some d =>
      by_cases hempty : d.pattern = ""
      · simp [Option.filter_some, hempty, TokenDecl.lexicalSkeleton]
      · simp [Option.filter_some, hempty, TokenDecl.lexicalSkeleton]
  unfold LexicalSpec.entries LexicalSpec.lexedTerminals
  rw [h.symbols, hpattern, hentry]

/-- The names of the grammars may differ, and with them those of the specifications. -/
theorem lexical (h : m.Erases TokenDecl.lexicalSkeleton m') (name name' : String) :
    (LexicalSpec.compile name' m').map (fun _ => ()) =
      (LexicalSpec.compile name m).map fun _ => () := by
  have hspec : ∀ count es kindNames machine name name',
      ((LexicalSpec.ofLexer count es (.single name' kindNames machine)).map some).map
        (fun _ => ()) = ((LexicalSpec.ofLexer count es (.single name kindNames machine)).map
          some).map fun _ => () := by
    intro count es kindNames machine name name'
    unfold LexicalSpec.ofLexer Lexer.single
    dsimp only
    cases KindTables.ofNames count es (Slots.ofArray ("" :: kindNames).toArray).elements <;> rfl
  unfold LexicalSpec.compile LexicalSpec.patternErrors
  rw [h.entries, h.symbols]
  dsimp only
  split
  · rfl
  · split
    · split
      · rfl
      · split
        · rfl
        · exact hspec _ _ _ _ _ _
    · rfl

theorem finish (h : m.Erases TokenDecl.lexicalSkeleton m') (name name' : String) (strict : Bool) :
    (Compilation.finish name' strict m').map (·.table) =
      (Compilation.finish name strict m).map (·.table) := by
  have hlexical := h.lexical name name'
  unfold Compilation.finish hasConflicts
  rw [h.shift_reduce, h.reduce_reduce, h.table]
  split
  · rfl
  · generalize LexicalSpec.compile name m = spec at hlexical ⊢
    generalize LexicalSpec.compile name' m' = spec' at hlexical ⊢
    cases spec with
    | error message =>
      cases spec' with
      | error message' =>
        cases hlexical
        rfl
      | ok lexical' => cases hlexical
    | ok lexical =>
      cases spec' with
      | error message' => cases hlexical
      | ok lexical' => cases m.table <;> rfl

end Erases

/-- A grammar and its lexical skeleton compile to the same table, or neither compiles. -/
theorem compile_erased (g : Grammar) (options : CompileOptions) :
    (g.lexicalSkeleton.compile options).result.toOption.map (·.table) =
      (g.compile options).result.toOption.map (·.table) := by
  have h : (generate g).Erases TokenDecl.lexicalSkeleton (generate g.lexicalSkeleton) :=
    erases_generate TokenDecl.keepsName_lexicalSkeleton g
  have hfinish := h.finish g.name g.lexicalSkeleton.name options.strict
  have hmap : ∀ r : Except CompileError CompiledGrammar,
      r.toOption.map (·.table) = (r.map (·.table)).toOption := by
    intro r
    cases r <;> rfl
  have hsame : (Compilation.finish g.lexicalSkeleton.name options.strict
      (generate g.lexicalSkeleton)).toOption.map (·.table) =
      (Compilation.finish g.name options.strict (generate g)).toOption.map (·.table) := by
    rw [hmap, hmap, hfinish]
  have herror : ∀ e e' : CompileError, (Except.error e' : Except _ CompiledGrammar).toOption.map
      (·.table) = (Except.error e : Except _ CompiledGrammar).toOption.map (·.table) :=
    fun _ _ => rfl
  unfold Grammar.compile
  dsimp only
  rw [h.has_issues, h.describe]
  split
  · exact herror _ _
  · split
    · exact hsame
    · split
      · exact herror _ _
      · split
        · exact herror _ _
        · exact hsame

/-- The table of a grammar is decided by its structure: by the names of its symbols, by its
precedences and by its rules. The patterns and the skip flags decide, besides, whether the grammar
is compiled at all. -/
theorem tables_structural {g g' : Grammar} (h : g.skeleton = g'.skeleton) :
    (generate g).issues.map (·.cause) = (generate g').issues.map (·.cause) ∧
    (generate g).hasIssues = (generate g').hasIssues ∧
    (generate g).shiftReduce = (generate g').shiftReduce ∧
    (generate g).reduceReduce = (generate g').reduceReduce ∧
    (generate g).table = (generate g').table ∧
    (∀ options options' cg cg', (g.compile options).result = .ok cg →
      (g'.compile options').result = .ok cg' → cg.table = cg'.table) ∧
    (g.lexicalSkeleton = g'.lexicalSkeleton → ∀ options,
      (g.compile options).result.toOption.map (·.table) =
        (g'.compile options).result.toOption.map (·.table)) := by
  have hg : (generate g).Erases TokenDecl.skeleton (generate g.skeleton) :=
    erases_generate TokenDecl.keepsName_skeleton g
  have hg' : (generate g').Erases TokenDecl.skeleton (generate g.skeleton) :=
    h ▸ erases_generate TokenDecl.keepsName_skeleton g'
  have htable : (generate g).table = (generate g').table := hg.table.symm.trans hg'.table
  refine ⟨hg.causes.symm.trans hg'.causes, hg.has_issues.symm.trans hg'.has_issues,
    hg.shift_reduce.symm.trans hg'.shift_reduce, hg.reduce_reduce.symm.trans hg'.reduce_reduce,
    htable, ?_, ?_⟩
  · intro options options' cg cg' hcg hcg'
    obtain ⟨-, t, ht, heq⟩ := compile_eq_ok hcg
    obtain ⟨-, t', ht', heq'⟩ := compile_eq_ok hcg'
    rw [htable, ht'] at ht
    rw [heq, heq', Except.ok.inj ht]
  · intro hlexical options
    rw [← compile_erased g, ← compile_erased g', hlexical]

def sumText : String :=
  "\x7b\"name\": \"sum\", " ++
  "\"start\": \x7b\"name\": \"e\", \"pos\": \x7b\"row\": 1, \"col\": 2\x7d\x7d, " ++
  "\"tokens\": [\x7b\"name\": \"id\", \"type\": \"int\", \"pattern\": \"[0-9]+\"\x7d], " ++
  "\"precedences\": [\x7b\"name\": \"'+'\", \"assoc\": \"left\"\x7d], " ++
  "\"nonterminals\": [\x7b\"name\": \"e\", \"rules\": [" ++
  "\x7b\"tokens\": " ++
  "[\x7b\"name\": \"e\"\x7d, \x7b\"name\": \"'+'\"\x7d, \x7b\"name\": \"e\"\x7d]\x7d, " ++
  "\x7b\"tokens\": [\x7b\"name\": \"id\"\x7d]\x7d]\x7d]\x7d"

def sums : Grammar := Grammar.ofDeclarations "sums"
  [.token "id" "[0-9]+", .precedence .left "'+'",
    .rule ⟨"e", [("e", ""), ("'+'", ""), ("e", "")], "", .left, "", true⟩,
    .rule ⟨"e", [("id", "value")], "", .left, "number", true⟩]

set_option maxRecDepth 100000 in
theorem sum_tables : ∃ g cg cg', Grammar.read (Bytes.ofString sumText) = .ok g ∧
    g.skeleton = sums.skeleton ∧ (g.compile ⟨true, none⟩).result = .ok cg ∧
    (sums.compile ⟨true, none⟩).result = .ok cg' ∧ cg.table = cg'.table := by
  have hread : (match Grammar.read (Bytes.ofString sumText) with
      | .ok g => decide (g.skeleton = sums.skeleton ∧ g.lexicalSkeleton = sums.lexicalSkeleton)
      | .error _ => false) = true := by decide +kernel
  have hcompiled : (sums.compile ⟨true, none⟩).result.toOption.isSome = true := by decide +kernel
  split at hread
  · next g hg =>
    obtain ⟨hskeleton, hlexical⟩ := of_decide_eq_true hread
    obtain ⟨-, -, -, -, -, hsame, hboth⟩ := tables_structural hskeleton
    cases hsums : (sums.compile ⟨true, none⟩).result with
    | error e =>
      rw [hsums] at hcompiled
      cases hcompiled
    | ok cg' =>
      have htables := hboth hlexical ⟨true, none⟩
      rw [hsums] at htables
      cases hresult : (g.compile ⟨true, none⟩).result with
      | error e =>
        rw [hresult] at htables
        cases htables
      | ok cg => exact ⟨g, cg, cg', hg, hskeleton, hresult, rfl, hsame _ _ cg cg' hresult hsums⟩
  · cases hread

end Automaton

end ParserTables

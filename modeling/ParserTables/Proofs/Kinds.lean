import ParserTables.Proofs.Terminals
import Std.Data.String.ToNat
import Std.Data.TreeMap.Lemmas

/-!
Which terminals the kinds of a lexical specification stand for. The entries of a grammar are those
of its literals and of its declared patterns, so no terminal has two of them, and the kinds are
numbered like the entries. Going through the names of the kinds therefore finds every entry once,
and what is entered for one kind is not changed by the kinds behind it.
-/

namespace ParserTables

theorem kindName_injective : Function.Injective kindName := by
  intro a b h
  have hlist : "x_".toList ++ (toString a).toList = "x_".toList ++ (toString b).toList := by
    simpa [kindName] using congrArg String.toList h
  exact Nat.repr_inj.mp (String.toList_injective (List.append_cancel_left hlist))

theorem kindName_ne_empty (id : Nat) : kindName id ≠ "" := by
  intro h
  have hlength := congrArg String.length h
  simp [kindName] at hlength

namespace KindTables

variable {done rest es : List LexEntry} {terminalCount : Nat}
  {entries : Std.TreeMap String LexEntry} {e : LexEntry} {id : Nat}

/-- Where a terminal stands among the kinds of some entries; 0 when it has none. -/
def kindOf (es : List LexEntry) (id : Nat) : Nat :=
  ((es.findIdx? (·.terminal = id)).map (· + 1)).getD 0

def terminalOf (e : LexEntry) : Int := e.terminal

def skipOf (e : LexEntry) : Int := if e.skip then 1 else 0

/-- The tables when the kinds of some entries have been entered and those of the rest have not. -/
def filled (terminalCount : Nat) (done rest : List LexEntry) : KindTables where
  toTerminal := ((-1 :: done.map terminalOf) ++ rest.map fun _ => 0).toArray
  toKind := ((List.range terminalCount).map fun id => (kindOf done id : Int)).toArray
  skip := ((0 :: done.map skipOf) ++ rest.map fun _ => 0).toArray

theorem kindOf_append (hnew : e.terminal ∉ done.map LexEntry.terminal) :
    kindOf (done ++ [e]) id = if id = e.terminal then done.length + 1 else kindOf done id := by
  unfold kindOf
  rw [List.findIdx?_append]
  by_cases hid : id = e.terminal
  · have hnone : done.findIdx? (fun e' => decide (e'.terminal = id)) = none := by
      rw [List.findIdx?_eq_none_iff]
      intro e' he'
      simp only [decide_eq_false_iff_not]
      intro heq
      exact hnew (List.mem_map.mpr ⟨e', he', heq.trans hid⟩)
    rw [hnone, if_pos hid]
    simp [hid]
  · have hne : ¬ e.terminal = id := fun heq => hid heq.symm
    simp [hid, hne]

theorem set_behind {α : Type} (before after : List α) (a b : α) :
    (before ++ a :: after).set before.length b = before ++ b :: after := by
  rw [List.set_append_right _ _ (Nat.le_refl _), Nat.sub_self, List.set_cons_zero]

theorem enter_filled (hfind : entries[kindName e.terminal]? = some e)
    (hnew : e.terminal ∉ done.map (·.terminal)) :
    (filled terminalCount done (e :: rest)).enter entries (done.length + 1)
      (kindName e.terminal) = .ok (filled terminalCount (done ++ [e]) rest) := by
  have hterminal :=
    set_behind (-1 :: done.map terminalOf) (rest.map fun _ => 0) 0 (e.terminal : Int)
  have hskip := set_behind (0 :: done.map skipOf) (rest.map fun _ => 0) 0 1
  have hkind : ((List.range terminalCount).map fun id => (kindOf done id : Int)).set e.terminal
      ((done.length : Int) + 1) =
      (List.range terminalCount).map fun id => (kindOf (done ++ [e]) id : Int) := by
    refine List.ext_getElem (by simp) fun id hid hid' => ?_
    rw [List.getElem_set]
    simp only [List.getElem_map, List.getElem_range, kindOf_append hnew]
    by_cases heq : e.terminal = id
    · simp [heq]
    · simp [heq, Ne.symm heq]
  simp only [List.length_cons, List.length_map] at hterminal hskip
  unfold enter filled
  dsimp only
  rw [if_neg (kindName_ne_empty _)]
  simp only [hfind, List.map_cons, List.setIfInBounds_toArray, hterminal, hskip]
  cases hflag : e.skip <;> simp [terminalOf, skipOf, hflag, ← hkind]

theorem enterAll_filled (hfind : ∀ e ∈ rest, entries[kindName e.terminal]? = some e)
    (hdistinct : ((done ++ rest).map (·.terminal)).Nodup) :
    enterAll entries (filled terminalCount done rest) (done.length + 1)
      (rest.map fun e => kindName e.terminal) = .ok (filled terminalCount (done ++ rest) []) := by
  induction rest generalizing done with
  | nil => simp [enterAll]
  | cons e rest ih =>
    have hsplit : done ++ e :: rest = done ++ [e] ++ rest := by simp
    rw [hsplit] at hdistinct ⊢
    have hnew : e.terminal ∉ done.map (·.terminal) := by
      rw [List.map_append, List.map_append, List.nodup_append] at hdistinct
      obtain ⟨hfirst, -, -⟩ := hdistinct
      intro hmem
      exact (List.nodup_append.mp hfirst).2.2 _ hmem _ (by simp) rfl
    have hrest := ih (fun e' he' => hfind e' (List.mem_cons_of_mem e he')) hdistinct
    rw [List.length_append, List.length_singleton] at hrest
    rw [List.map_cons, enterAll, enter_filled (hfind e List.mem_cons_self) hnew]
    exact hrest

theorem ofNames_eq (hdistinct : (es.map (·.terminal)).Nodup) :
    ofNames terminalCount es ("" :: es.map fun e => kindName e.terminal).toArray =
      .ok (filled terminalCount es []) := by
  have hfind : ∀ e ∈ es, (Std.TreeMap.ofList (es.map fun e => (kindName e.terminal, e)) :
      Std.TreeMap String LexEntry)[kindName e.terminal]? = some e := by
    intro e he
    refine Std.TreeMap.getElem?_ofList_of_mem Std.ReflCmp.compare_self ?_
      (List.mem_map.mpr ⟨e, he, rfl⟩)
    rw [List.pairwise_map]
    refine (List.pairwise_map.mp hdistinct).imp fun {a b} hne hcompare => ?_
    exact hne (kindName_injective (Std.LawfulEqOrd.eq_of_compare hcompare))
  have hfirst : (blank (es.length + 1) terminalCount).enter
      (.ofList (es.map fun e => (kindName e.terminal, e))) 0 "" =
      .ok (filled terminalCount [] es) := by
    have hkinds : (List.range terminalCount).map (fun id => (kindOf [] id : Int)) =
        List.replicate terminalCount 0 := by
      simp [kindOf, List.map_const']
    have hblank : es.map (fun _ => (0 : Int)) = List.replicate es.length 0 := by
      simp [List.map_const']
    unfold enter blank filled
    rw [hkinds, hblank]
    simp [List.replicate_succ, ← List.toArray_replicate]
  have hall : enterAll (.ofList (es.map fun e => (kindName e.terminal, e)))
      (filled terminalCount [] es) 1 (es.map fun e => kindName e.terminal) =
      .ok (filled terminalCount es []) :=
    enterAll_filled hfind (by simpa using hdistinct)
  unfold ofNames
  dsimp only
  rw [enterAll]
  simp only [List.size_toArray, List.length_cons, List.length_map]
  rw [hfirst]
  exact hall

end KindTables

namespace Slots

theorem get_eq_ok {α : Type} {as : Array α} {i : Int} {a : α} :
    (ofArray as).get i = .ok a ↔ 0 ≤ i ∧ as[i.toNat]? = some a := by
  rw [get_ofArray]
  unfold elementAt
  by_cases hneg : i < 0
  · simp [hneg]
  · cases as[i.toNat]? <;> simp [hneg, Int.not_lt.mp hneg]

end Slots

namespace LexicalSpec

variable {m : Automaton} {s : LexicalSpec} {es : List LexEntry} {terminalCount id : Nat}

/-- What the tables of a specification hold that has a kind for each of some entries. -/
structure Lists (s : LexicalSpec) (terminalCount : Nat) (es : List LexEntry) : Prop where
  kind_count : s.kindToTerminal.count = es.length + 1
  skip_count : s.skip.count = es.length + 1
  terminal_count : s.terminalToKind.count = terminalCount
  invalid : s.kindToTerminal.get 0 = .ok (-1)
  invalid_kept : s.skip.get 0 = .ok 0
  terminal : ∀ (i : Nat) e, es[i]? = some e → s.kindToTerminal.get (i + 1) = .ok (e.terminal : Int)
  skip : ∀ (i : Nat) e, es[i]? = some e → s.skip.get (i + 1) = .ok (KindTables.skipOf e)
  kind : ∀ (i : Nat) e, es[i]? = some e → e.terminal < terminalCount →
    s.terminalToKind.get e.terminal = .ok (i + 1 : Int)
  no_kind : ∀ id < terminalCount, id ∉ es.map (·.terminal) → s.terminalToKind.get id = .ok 0

theorem kindOf_entry (hdistinct : (es.map (·.terminal)).Nodup) {i : Nat} {e : LexEntry}
    (he : es[i]? = some e) : KindTables.kindOf es e.terminal = i + 1 := by
  obtain ⟨hi, rfl⟩ := List.getElem?_eq_some_iff.mp he
  have hfind : es.findIdx? (·.terminal = es[i].terminal) = some i := by
    refine List.findIdx?_eq_some_iff_getElem.mpr ⟨hi, by simp, ?_⟩
    intro j hj heq
    have hi' : i < (es.map (·.terminal)).length := by simpa using hi
    have hj' : j < (es.map (·.terminal)).length := Nat.lt_trans hj hi'
    have hsame : (es.map (·.terminal))[j] = (es.map (·.terminal))[i] := by simpa using heq
    have hindex := hdistinct.getElem_inj_iff.mp hsame
    omega
  simp [KindTables.kindOf, hfind]

theorem kindOf_eq_zero (hnone : id ∉ es.map (·.terminal)) : KindTables.kindOf es id = 0 := by
  have hfind : es.findIdx? (·.terminal = id) = none := by
    rw [List.findIdx?_eq_none_iff]
    intro e he
    simp only [decide_eq_false_iff_not]
    rintro rfl
    exact hnone (List.mem_map_of_mem he)
  simp [KindTables.kindOf, hfind]

theorem ofLexer_lists (terminalCount : Nat) (hdistinct : (es.map (·.terminal)).Nodup)
    {lexer : Lexer}
    (hnames : lexer.kindNames.elements = ("" :: es.map fun e => kindName e.terminal).toArray) :
    ∃ s, ofLexer terminalCount es lexer = .ok s ∧ s.lexer = some lexer ∧
      s.Lists terminalCount es := by
  unfold ofLexer
  rw [hnames, KindTables.ofNames_eq hdistinct]
  refine ⟨_, rfl, rfl, ?_⟩
  unfold KindTables.filled
  simp only [List.map_nil, List.append_nil]
  constructor
  case kind_count => simp
  case skip_count => simp
  case terminal_count => simp
  case invalid => exact Slots.get_eq_ok.mpr ⟨by omega, by simp⟩
  case invalid_kept => exact Slots.get_eq_ok.mpr ⟨by omega, by simp⟩
  case terminal =>
    intro i e he
    exact Slots.get_eq_ok.mpr ⟨by omega, by simp [he, KindTables.terminalOf]⟩
  case skip =>
    intro i e he
    exact Slots.get_eq_ok.mpr ⟨by omega, by simp [he]⟩
  case kind =>
    intro i e he hlt
    exact Slots.get_eq_ok.mpr ⟨by omega, by simp [hlt, kindOf_entry hdistinct he]⟩
  case no_kind =>
    intro id hlt hnone
    exact Slots.get_eq_ok.mpr ⟨by omega, by simp [hlt, kindOf_eq_zero hnone]⟩

/-! ### The entries of a grammar -/

def hasEntry (m : Automaton) (id : Nat) : Bool :=
  hasPattern m id || isLiteral (m.symbols.nameOf id)

theorem entryOf_of_pattern {d : TokenDecl} (hd : m.tokenDecl? id = some d) (hp : d.pattern ≠ "") :
    entryOf? m id = some ⟨id, d.pattern, d.skip⟩ := by
  have hkept : (m.tokenDecl? id).filter (fun d => decide (d.pattern ≠ "")) = some d := by
    simp [hd, Option.filter, hp]
  unfold entryOf?
  dsimp only
  rw [hkept]

theorem entryOf_of_no_pattern (h : hasPattern m id = false) : entryOf? m id =
    (literalChar? (m.symbols.nameOf id)).map fun c => ⟨id, Pattern.escape c, false⟩ := by
  have hnone : (m.tokenDecl? id).filter (fun d => decide (d.pattern ≠ "")) = none := by
    unfold hasPattern at h
    cases hd : m.tokenDecl? id <;> simp_all
  unfold entryOf?
  dsimp only
  rw [hnone]

theorem hasPattern_iff : hasPattern m id = true ↔
    ∃ d, m.tokenDecl? id = some d ∧ d.pattern ≠ "" := by
  simp [hasPattern, Option.any_eq_true]

theorem skip_entry {e : LexEntry} (he : entryOf? m id = some e) : e.terminal = id ∧
    (e.skip = true ↔ ∃ d, m.tokenDecl? id = some d ∧ d.pattern ≠ "" ∧ d.skip = true) := by
  by_cases hpattern : hasPattern m id = true
  · obtain ⟨d, hd, hp⟩ := hasPattern_iff.mp hpattern
    rw [entryOf_of_pattern hd hp] at he
    cases he
    simp [hd, hp]
  · rw [entryOf_of_no_pattern (by simpa using hpattern)] at he
    obtain ⟨c, -, rfl⟩ := Option.map_eq_some_iff.mp he
    refine ⟨rfl, ?_⟩
    simp only [Bool.false_eq_true, false_iff]
    rintro ⟨d, hd, hp, -⟩
    exact hpattern (hasPattern_iff.mpr ⟨d, hd, hp⟩)

theorem terminal_entryOf (m : Automaton) :
    (fun id => (entryOf? m id).map (·.terminal)) = Option.guard (hasEntry m) := by
  funext id
  unfold Option.guard hasEntry
  by_cases hpattern : hasPattern m id = true
  · obtain ⟨d, hd, hp⟩ := hasPattern_iff.mp hpattern
    simp [entryOf_of_pattern hd hp, hpattern]
  · have hnone : hasPattern m id = false := by simpa using hpattern
    rw [entryOf_of_no_pattern hnone, hnone, Bool.false_or, isLiteral]
    cases literalChar? (m.symbols.nameOf id) <;> rfl

def entryTerminals (m : Automaton) : List Nat := (entries m).map (·.terminal)

/-- First come the literals without a pattern, then what has one. -/
theorem entryTerminals_eq (m : Automaton) : entryTerminals m =
    (lexedTerminals m).filter (fun id => hasEntry m id && !hasPattern m id) ++
      (lexedTerminals m).filter (hasPattern m) := by
  have hall : ∀ p : Nat → Bool, (((lexedTerminals m).filter p).filterMap (entryOf? m)).map
      (·.terminal) = (lexedTerminals m).filter fun id => hasEntry m id && p id := by
    intro p
    rw [List.map_filterMap, terminal_entryOf, List.filterMap_eq_filter, List.filter_filter]
  unfold entryTerminals entries
  rw [List.partition_eq_filter_filter]
  dsimp only
  rw [List.map_append, hall, hall]
  congr 2
  funext id
  cases hpattern : hasPattern m id <;> simp [hasEntry, hpattern]

theorem terminal_mem {e : LexEntry} (he : e ∈ entries m) : e.terminal ∈ entryTerminals m :=
  List.mem_map_of_mem he

theorem mem_lexedTerminals : id ∈ lexedTerminals m ↔ 2 ≤ id ∧ id < m.symbols.terminalCount := by
  unfold lexedTerminals SymbolTable.terminals
  rw [List.range_eq_range', List.drop_range', List.mem_range'_1]
  omega

theorem mem_entryTerminals : id ∈ entryTerminals m ↔
    2 ≤ id ∧ id < m.symbols.terminalCount ∧ hasEntry m id = true := by
  have hentry : hasPattern m id = true → hasEntry m id = true := by
    intro hpattern
    simp [hasEntry, hpattern]
  rw [entryTerminals_eq, List.mem_append, List.mem_filter, List.mem_filter, mem_lexedTerminals]
  cases hpattern : hasPattern m id <;> simp_all [and_assoc]

def Before (m : Automaton) (a b : Nat) : Prop :=
  (hasPattern m a = false ∧ hasPattern m b = true) ∨ (hasPattern m a = hasPattern m b ∧ a < b)

theorem ordered_entries (m : Automaton) : (entryTerminals m).Pairwise (Before m) := by
  have hascending : (lexedTerminals m).Pairwise (· < ·) :=
    List.pairwise_lt_range.sublist (List.drop_sublist 2 _)
  have hliteral : ∀ a ∈ (lexedTerminals m).filter (fun id => hasEntry m id && !hasPattern m id),
      hasPattern m a = false := by
    intro a ha
    obtain ⟨-, hentry⟩ := List.mem_filter.mp ha
    simpa using (Bool.and_eq_true_iff.mp hentry).2
  have hdeclared : ∀ a ∈ (lexedTerminals m).filter (hasPattern m), hasPattern m a = true :=
    fun a ha => (List.mem_filter.mp ha).2
  rw [entryTerminals_eq, List.pairwise_append]
  refine ⟨?_, ?_, fun a ha b hb => Or.inl ⟨hliteral a ha, hdeclared b hb⟩⟩
  · exact (hascending.filter _).imp_of_mem fun ha hb hlt =>
      Or.inr ⟨(hliteral _ ha).trans (hliteral _ hb).symm, hlt⟩
  · exact (hascending.filter _).imp_of_mem fun ha hb hlt =>
      Or.inr ⟨(hdeclared _ ha).trans (hdeclared _ hb).symm, hlt⟩

theorem not_before_self (m : Automaton) (a : Nat) : ¬ Before m a a := by
  simp [Before]

theorem Before.asymm {a b : Nat} (h : Before m a b) : ¬ Before m b a := by
  rintro (⟨hb, ha⟩ | ⟨heq, hlt⟩)
  · rcases h with ⟨ha', -⟩ | ⟨heq', -⟩
    · cases ha.symm.trans ha'
    · rw [ha, hb] at heq'
      cases heq'
  · rcases h with ⟨ha', hb'⟩ | ⟨-, hlt'⟩
    · rw [ha', hb'] at heq
      cases heq
    · exact Nat.lt_asymm hlt hlt'

theorem distinct_entries (m : Automaton) : (entryTerminals m).Nodup :=
  (ordered_entries m).imp fun h heq => by
    subst heq
    exact not_before_self m _ h

theorem kindNames_single (name : String) (kindNames : List String) (machine : Machine) :
    (Lexer.single name kindNames machine).kindNames.elements = ("" :: kindNames).toArray :=
  Slots.elements_ofArray _

/-- A specification that is compiled has a kind for each of the entries, if there are any. -/
theorem compile_cases {name : String} {lexical : Option LexicalSpec}
    (h : compile name m = .ok lexical) : (entries m = [] ∧ lexical = none) ∨
      (entries m ≠ [] ∧ ∃ s machine, lexical = some s ∧
        s.lexer = some (.single (nameOf name) ((entries m).map fun e => kindName e.terminal)
          machine) ∧ s.Lists m.symbols.terminalCount (entries m)) := by
  unfold compile at h
  dsimp only at h
  split at h
  · next hempty =>
    cases h
    exact Or.inl ⟨hempty, rfl⟩
  · next hne =>
    refine Or.inr ⟨hne, ?_⟩
    split at h
    · next patterns _ _ =>
      split at h
      · cases h
      · split at h
        · cases h
        · have hnames := kindNames_single (nameOf name)
            ((entries m).map fun e => kindName e.terminal) (.ofPatterns patterns)
          obtain ⟨s, hs, hlexer, hlists⟩ :=
            ofLexer_lists m.symbols.terminalCount (distinct_entries m) hnames
          rw [hs] at h
          cases h
          exact ⟨s, _, rfl, hlexer, hlists⟩
    · cases h

end LexicalSpec

namespace Grammar

/-- Whether the name is declared as a token with a pattern. -/
def Patterned (g : Grammar) (name : String) : Prop :=
  ∃ d, some d ∈ g.tokens ∧ d.name = name ∧ d.pattern ≠ ""

def HasPattern (g : Grammar) (t : Table) (x : Int) : Prop :=
  ∃ name, t.tokenName x = .ok name ∧ g.Patterned name

/-- A terminal besides the sentinels that lexemes can be of: it has a declared pattern, or it is a
character literal. -/
structure Recognizes (g : Grammar) (t : Table) (x : Int) : Prop where
  nonnegative : 0 ≤ x
  terminal : x < t.terminalCount
  ne_end : x ≠ t.endSymbol
  ne_error : x ≠ t.errorSymbol
  matched : ∃ name, t.tokenName x = .ok name ∧ (g.Patterned name ∨ isLiteral name = true)

/-- Whether a terminal stands before another one among the kinds: literals without a declared
pattern before declared patterns, and otherwise in the order of their numbers. -/
def Before (g : Grammar) (t : Table) (x y : Int) : Prop :=
  (¬ g.HasPattern t x ∧ g.HasPattern t y) ∨ ((g.HasPattern t x ↔ g.HasPattern t y) ∧ x < y)

end Grammar

/-- How the kinds of a specification and the terminals of a table belong together. -/
structure LexicalSpec.Corresponds (s : LexicalSpec) (g : Grammar) (t : Table) : Prop where
  invalid : s.kindToTerminal.get 0 = .ok (-1)
  terminal_of_kind : ∀ kind : Int, 1 ≤ kind → kind < s.kindToTerminal.count →
    ∃ x, s.kindToTerminal.get kind = .ok x ∧ g.Recognizes t x ∧ s.terminalToKind.get x = .ok kind
  kind_of_terminal : ∀ x, g.Recognizes t x → ∃ kind, 1 ≤ kind ∧ kind < s.kindToTerminal.count ∧
    s.terminalToKind.get x = .ok kind ∧ s.kindToTerminal.get kind = .ok x
  no_kind : ∀ x, 0 ≤ x → x < t.terminalCount → ¬ g.Recognizes t x → s.terminalToKind.get x = .ok 0
  sentinels : s.terminalToKind.get t.endSymbol = .ok 0 ∧ s.terminalToKind.get t.errorSymbol = .ok 0
  terminal_count : s.terminalToKind.count = t.terminalCount
  in_order : ∀ kind kind' x y, 1 ≤ kind → 1 ≤ kind' → s.kindToTerminal.get kind = .ok x →
    s.kindToTerminal.get kind' = .ok y → (kind < kind' ↔ g.Before t x y)

namespace Automaton

variable {g : Grammar} {t : Table} {x : Nat} {name : String}

theorem nameOf_eq {m : Automaton} (hx : m.symbols.text? x = some name) :
    m.symbols.nameOf x = name := by
  simp [SymbolTable.nameOf, SymbolTable.nameOfRef, hx]

theorem hasPattern_iff (h : (generate g).hasIssues = false)
    (hx : (generate g).symbols.text? x = some name) :
    LexicalSpec.hasPattern (generate g) x = true ↔ g.Patterned name := by
  rw [LexicalSpec.hasPattern_iff]
  simp only [tokenDecl_iff h hx, Grammar.Patterned, and_assoc]

theorem table_terminalCount {m : Automaton} (h : m.table = .ok t) :
    t.terminalCount = m.symbols.terminalCount := by
  obtain ⟨rows, -, h⟩ := bind_eq_ok.mp h
  cases h
  rfl

theorem hasPattern_number (h : (generate g).hasIssues = false) (hshows : (generate g).Shows t)
    (hx : (generate g).symbols.text? x = some name) :
    g.HasPattern t x ↔ LexicalSpec.hasPattern (generate g) x = true := by
  rw [hasPattern_iff h hx]
  constructor
  · rintro ⟨name', hname', hpattern⟩
    cases (hshows.token_name hx).symm.trans hname'
    exact hpattern
  · exact fun hpattern => ⟨name, hshows.token_name hx, hpattern⟩

/-- The terminals that lexemes can be of are those of the entries. -/
theorem recognizes_iff (h : (generate g).hasIssues = false) (ht : (generate g).table = .ok t)
    {x : Int} : g.Recognizes t x ↔
      ∃ id : Nat, id ∈ LexicalSpec.entryTerminals (generate g) ∧ x = id := by
  have hshows := shows_of_table ht
  have hcount := table_terminalCount ht
  have hrep := represents_of_no_issues h
  have hentry : ∀ id name, (generate g).symbols.text? id = some name →
      (LexicalSpec.hasEntry (generate g) id = true ↔
        g.Patterned name ∨ isLiteral name = true) := by
    intro id name hname
    rw [LexicalSpec.hasEntry, Bool.or_eq_true, hasPattern_iff h hname, nameOf_eq hname]
  constructor
  · rintro ⟨hnonneg, hterminal, hend, herror, name, hname, hmatched⟩
    obtain ⟨id, rfl, hid⟩ := hshows.text_of_name hname
    rw [hshows.end_symbol, SymbolTable.endSymbol] at hend
    rw [hshows.error_symbol, SymbolTable.errorSymbol] at herror
    refine ⟨id, LexicalSpec.mem_entryTerminals.mpr ⟨by omega, by omega, ?_⟩, rfl⟩
    exact (hentry id name hid).mpr hmatched
  · rintro ⟨id, hid, rfl⟩
    obtain ⟨htwo, hlt, hmatched⟩ := LexicalSpec.mem_entryTerminals.mp hid
    have hle : (generate g).symbols.terminalCount ≤ (generate g).symbols.size :=
      hrep.table.terminals_le
    obtain ⟨name, hname⟩ := hrep.table.text_of_lt (Nat.lt_of_lt_of_le hlt hle)
    constructor
    case nonnegative => omega
    case terminal => omega
    case ne_end =>
      rw [hshows.end_symbol, SymbolTable.endSymbol]
      omega
    case ne_error =>
      rw [hshows.error_symbol, SymbolTable.errorSymbol]
      omega
    case matched => exact ⟨name, hshows.token_name hname, (hentry id name hname).mp hmatched⟩

theorem before_iff (h : (generate g).hasIssues = false) (ht : (generate g).table = .ok t)
    {a b : Nat} (ha : a ∈ LexicalSpec.entryTerminals (generate g))
    (hb : b ∈ LexicalSpec.entryTerminals (generate g)) :
    g.Before t a b ↔ LexicalSpec.Before (generate g) a b := by
  have hpattern : ∀ id : Nat, id ∈ LexicalSpec.entryTerminals (generate g) →
      (g.HasPattern t id ↔ LexicalSpec.hasPattern (generate g) id = true) := by
    intro id hid
    obtain ⟨-, -, -, -, name, hname, -⟩ := (recognizes_iff h ht).mpr ⟨id, hid, rfl⟩
    obtain ⟨id', heq, hid'⟩ := (shows_of_table ht).text_of_name hname
    cases Int.natCast_inj.mp heq
    exact hasPattern_number h (shows_of_table ht) hid'
  unfold Grammar.Before LexicalSpec.Before
  rw [hpattern a ha, hpattern b hb]
  cases LexicalSpec.hasPattern (generate g) a <;>
    cases LexicalSpec.hasPattern (generate g) b <;> simp

theorem before_entries {m : Automaton} {i j : Nat} {e e' : LexEntry}
    (he : (LexicalSpec.entries m)[i]? = some e) (he' : (LexicalSpec.entries m)[j]? = some e') :
    i < j ↔ LexicalSpec.Before m e.terminal e'.terminal := by
  have hordered := LexicalSpec.ordered_entries m
  rw [LexicalSpec.entryTerminals, List.pairwise_map, List.pairwise_iff_getElem] at hordered
  obtain ⟨hi, rfl⟩ := List.getElem?_eq_some_iff.mp he
  obtain ⟨hj, rfl⟩ := List.getElem?_eq_some_iff.mp he'
  constructor
  · exact hordered i j hi hj
  · intro hbefore
    by_contra hle
    rcases Nat.lt_or_eq_of_le (Nat.le_of_not_lt hle) with hlt | rfl
    · exact hbefore.asymm (hordered j i hj hi hlt)
    · exact LexicalSpec.not_before_self m _ hbefore

theorem corresponds_of_lists (h : (generate g).hasIssues = false)
    (ht : (generate g).table = .ok t) {s : LexicalSpec}
    (hlists : s.Lists (generate g).symbols.terminalCount (LexicalSpec.entries (generate g))) :
    s.Corresponds g t := by
  have hshows := shows_of_table ht
  have hcount := table_terminalCount ht
  have htwo : 2 ≤ (generate g).symbols.terminalCount :=
    (represents_of_no_issues h).well_formed.two_terminals
  have hkind : ∀ kind : Int, 1 ≤ kind → kind < s.kindToTerminal.count → ∃ (i : Nat) (e : LexEntry),
      kind = i + 1 ∧ (LexicalSpec.entries (generate g))[i]? = some e := by
    intro kind hfirst hlt
    rw [hlists.kind_count] at hlt
    obtain ⟨i, rfl⟩ : ∃ i : Nat, kind = i + 1 := ⟨(kind - 1).toNat, by omega⟩
    have hi : i < (LexicalSpec.entries (generate g)).length := by omega
    exact ⟨i, _, rfl, List.getElem?_eq_getElem hi⟩
  have hentry : ∀ e ∈ LexicalSpec.entries (generate g), g.Recognizes t e.terminal ∧
      e.terminal < (generate g).symbols.terminalCount := by
    intro e he
    have hmem := LexicalSpec.terminal_mem he
    exact ⟨(recognizes_iff h ht).mpr ⟨_, hmem, rfl⟩, (LexicalSpec.mem_entryTerminals.mp hmem).2.1⟩
  have hnone : ∀ x, 0 ≤ x → x < t.terminalCount → ¬ g.Recognizes t x →
      s.terminalToKind.get x = .ok 0 := by
    intro x hnonneg hlt hx
    obtain ⟨id, rfl⟩ := Int.eq_ofNat_of_zero_le hnonneg
    exact hlists.no_kind id (by omega) fun hid => hx ((recognizes_iff h ht).mpr ⟨id, hid, rfl⟩)
  have hbound : ∀ kind x, s.kindToTerminal.get kind = .ok x → kind < s.kindToTerminal.count := by
    intro kind x hx
    unfold Slots.get at hx
    split at hx
    · assumption
    · cases hx
  constructor
  case invalid => exact hlists.invalid
  case terminal_of_kind =>
    intro kind hfirst hlt
    obtain ⟨i, e, rfl, he⟩ := hkind kind hfirst hlt
    obtain ⟨hrecognized, hterminal⟩ := hentry e (List.mem_of_getElem? he)
    exact ⟨e.terminal, hlists.terminal i e he, hrecognized, hlists.kind i e he hterminal⟩
  case kind_of_terminal =>
    intro x hx
    obtain ⟨id, hid, rfl⟩ := (recognizes_iff h ht).mp hx
    obtain ⟨e, he, rfl⟩ := List.mem_map.mp hid
    obtain ⟨i, hi⟩ := List.getElem?_of_mem he
    have hlt := (List.getElem?_eq_some_iff.mp hi).1
    refine ⟨i + 1, by omega, ?_, hlists.kind i e hi (hentry e he).2, hlists.terminal i e hi⟩
    rw [hlists.kind_count]
    omega
  case no_kind => exact hnone
  case sentinels =>
    rw [hshows.end_symbol, hshows.error_symbol, SymbolTable.endSymbol, SymbolTable.errorSymbol]
    constructor
    · refine hnone _ (by omega) (by omega) fun hx => hx.ne_end ?_
      rw [hshows.end_symbol, SymbolTable.endSymbol]
    · refine hnone _ (by omega) (by omega) fun hx => hx.ne_error ?_
      rw [hshows.error_symbol, SymbolTable.errorSymbol]
  case terminal_count =>
    rw [hlists.terminal_count, hcount]
  case in_order =>
    intro kind kind' x y hfirst hfirst' hx hy
    obtain ⟨i, e, rfl, he⟩ := hkind kind hfirst (hbound kind x hx)
    obtain ⟨j, e', rfl, he'⟩ := hkind kind' hfirst' (hbound kind' y hy)
    cases (hlists.terminal i e he).symm.trans hx
    cases (hlists.terminal j e' he').symm.trans hy
    rw [before_iff h ht (LexicalSpec.terminal_mem (List.mem_of_getElem? he))
      (LexicalSpec.terminal_mem (List.mem_of_getElem? he')), ← before_entries he he']
    omega

end Automaton

end ParserTables

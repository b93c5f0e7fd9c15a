import Mathlib.Data.List.Nodup
import ParserTables.Proofs.Derivation

/-!
Grammars of binary operators. Their only nonterminal has rules with an operator between two
operands and rules of one token, an atom; every rule has an operator or an atom of its own. How
tightly an operator binds is declared: the later the declaration, the tighter. Numbered, such a
grammar has productions of these shapes, with the levels and associativities that were declared.
-/

namespace ParserTables

theorem exists_three {α β : Type} {R : α → β → Prop} {as : List α} {x y z : β}
    (h : List.Forall₂ R as [x, y, z]) : ∃ a b c, as = [a, b, c] ∧ R a x ∧ R b y ∧ R c z := by
  cases h with
  | cons hx h =>
    cases h with
    | cons hy h =>
      cases h with
      | cons hz h =>
        cases h
        exact ⟨_, _, _, rfl, hx, hy, hz⟩

theorem exists_one {α β : Type} {R : α → β → Prop} {as : List α} {x : β}
    (h : List.Forall₂ R as [x]) : ∃ a, as = [a] ∧ R a x := by
  cases h with
  | cons hx h =>
    cases h
    exact ⟨_, rfl, hx⟩

structure Binding where
  level : Nat
  assoc : Associativity
  deriving DecidableEq, Repr

namespace Binding

variable {a b c : Binding}

/-- An operation with `inner` may be the left operand of `outer`. -/
def GroupsLeft (inner outer : Binding) : Prop :=
  outer.level < inner.level ∨ (outer.level = inner.level ∧ inner.assoc = .left)

/-- An operation with `inner` may be the right operand of `outer`. -/
def GroupsRight (inner outer : Binding) : Prop :=
  outer.level < inner.level ∨ (outer.level = inner.level ∧ inner.assoc = .right)

instance : Decidable (a.GroupsLeft b) := inferInstanceAs (Decidable (_ ∨ _))

instance : Decidable (a.GroupsRight b) := inferInstanceAs (Decidable (_ ∨ _))

/-- Operators on one level have one associativity. -/
def Consistent (a b : Binding) : Prop := a.level = b.level → a.assoc = b.assoc

theorem GroupsLeft.right_of (h : a.GroupsLeft b) (k : b.GroupsRight c) (hab : Consistent a b) :
    a.GroupsRight c := by
  rcases h with h | ⟨h, hleft⟩
  · rcases k with k | ⟨k, -⟩
    · exact Or.inl (by omega)
    · exact Or.inl (by omega)
  · rcases k with k | ⟨k, hright⟩
    · exact Or.inl (by omega)
    · have := hab h.symm
      rw [hleft, hright] at this
      cases this

theorem GroupsRight.left_of (h : a.GroupsRight b) (k : b.GroupsLeft c) (hab : Consistent a b) :
    a.GroupsLeft c := by
  rcases h with h | ⟨h, hright⟩
  · rcases k with k | ⟨k, -⟩
    · exact Or.inl (by omega)
    · exact Or.inl (by omega)
  · rcases k with k | ⟨k, hleft⟩
    · exact Or.inl (by omega)
    · have := hab h.symm
      rw [hleft, hright] at this
      cases this

theorem groupsRight_of_not_left (h : ¬ a.GroupsLeft b) (hab : Consistent a b)
    (hb : b.assoc = .left ∨ b.assoc = .right) : b.GroupsRight a := by
  rcases Nat.lt_trichotomy a.level b.level with hlt | heq | hgt
  · exact Or.inl hlt
  · rcases hb with hb | hb
    · exact absurd (Or.inr ⟨heq.symm, (hab heq).trans hb⟩) h
    · exact Or.inr ⟨heq, hb⟩
  · exact absurd (Or.inl hgt) h

end Binding

def Rule.names (r : Rule) : List String := r.tokens.map (·.name)

theorem Rule.isBinary_of_names {r : Rule} {e o : String} (h : r.names = [e, o, e])
    (hne : o ≠ e) : r.isBinary e = true := by
  unfold names at h
  unfold isBinary
  match ht : r.tokens with
  | [] => simp [ht] at h
  | [_] => simp [ht] at h
  | [_, _] => simp [ht] at h
  | [a, b, c] =>
    simp only [ht, List.map_cons, List.map_nil, List.cons.injEq, and_true] at h
    simp [h.1, h.2.1, h.2.2, hne]
  | _ :: _ :: _ :: _ :: _ => simp [ht] at h

theorem Rule.isBinary_of_atom {r : Rule} {e a : String} (h : r.names = [a]) :
    r.isBinary e = false := by
  obtain ⟨token, ht, -⟩ := List.map_eq_singleton_iff.mp h
  unfold isBinary
  rw [ht]

def Rule.precedenceName (r : Rule) (operator : String) : String :=
  if r.precedence = "" then operator else r.precedence

namespace Grammar

def declared (g : Grammar) : List PrecedenceDecl := g.precedences.filterMap id

/-- The place of a declaration, counted from one, and its associativity. -/
def declaredBinding (g : Grammar) (name : String) : Binding :=
  match g.declared.zipIdx.find? fun p => p.1.name = name with
  | some (d, i) => ⟨i + 1, d.assoc⟩
  | none => ⟨0, .left⟩

def binding (g : Grammar) (operator : String) : Binding :=
  match (g.nonterminals.flatMap (·.rules)).find? fun r => r.names[1]? = some operator with
  | some r => g.declaredBinding (r.precedenceName operator)
  | none => ⟨0, .left⟩

/-- The grammar has the one nonterminal `e` with rules for binary operators and for atoms, all
different and none the error symbol, and the operators have declared precedences. -/
structure Operators (g : Grammar) (e : String) (rules : List Rule) : Prop where
  start : ∃ d, g.start = some d ∧ d.name = e
  nonterminals : ∃ pos, g.nonterminals = [⟨e, rules, pos⟩]
  marks : ∃ marks : List String, marks.Nodup ∧ e ∉ marks ∧ errorName ∉ marks ∧
    List.Forall₂ (fun r x => r.names = [e, x, e] ∨ r.names = [x]) rules marks
  declared : ∀ r ∈ rules, ∀ o, r.names = [e, o, e] →
    ∃ d ∈ g.declared, d.name = r.precedenceName o ∧ (d.assoc = .left ∨ d.assoc = .right)

variable {g : Grammar} {e : String} {rules : List Rule} {r r' : Rule} {o x : String}

def levelAssoc (g : Grammar) : Nat → Associativity
  | 0 => .left
  | i + 1 => ((g.declared[i]?).map (·.assoc)).getD .left

theorem declaredBinding_assoc (name : String) :
    (g.declaredBinding name).assoc = g.levelAssoc (g.declaredBinding name).level := by
  unfold declaredBinding
  split
  · next d i hd =>
    have hmem := List.mem_zipIdx_iff_getElem?.mp (List.mem_of_find?_eq_some hd)
    dsimp only at hmem
    simp [levelAssoc, hmem]
  · rfl

theorem binding_assoc (o : String) : (g.binding o).assoc = g.levelAssoc (g.binding o).level := by
  unfold binding
  split
  · exact declaredBinding_assoc _
  · rfl

theorem binding_consistent (o o' : String) : (g.binding o).Consistent (g.binding o') := by
  intro hlevel
  rw [binding_assoc, binding_assoc, hlevel]

namespace Operators

variable {i j : Nat}

theorem exists_marks (h : g.Operators e rules) : ∃ marks : List String, marks.Nodup ∧
    e ∉ marks ∧ errorName ∉ marks ∧ ∀ {i : Nat} {r : Rule}, rules[i]? = some r →
      ∃ x, marks[i]? = some x ∧ (r.names = [e, x, e] ∨ r.names = [x]) := by
  obtain ⟨marks, hnodup, he, herror, hall⟩ := h.marks
  refine ⟨marks, hnodup, he, herror, ?_⟩
  intro i r hr
  obtain ⟨hlt, rfl⟩ := List.getElem?_eq_some_iff.mp hr
  have hlt' : i < marks.length := hall.length_eq ▸ hlt
  exact ⟨_, List.getElem?_eq_getElem hlt', (List.forall₂_iff_get.mp hall).2 i hlt hlt'⟩

theorem mark_of_rule (h : g.Operators e rules) (hr : rules[i]? = some r) :
    ∃ x, x ≠ e ∧ x ≠ errorName ∧ (r.names = [e, x, e] ∨ r.names = [x]) := by
  obtain ⟨marks, -, he, herror, hmarks⟩ := h.exists_marks
  obtain ⟨x, hx, hnames⟩ := hmarks hr
  have hmem := List.mem_of_getElem? hx
  refine ⟨x, ?_, ?_, hnames⟩
  · rintro rfl
    exact he hmem
  · rintro rfl
    exact herror hmem

theorem mark_ne (h : g.Operators e rules) (hr : rules[i]? = some r)
    (hnames : r.names = [e, x, e] ∨ r.names = [x]) : x ≠ e := by
  obtain ⟨y, hy, -, hnames'⟩ := h.mark_of_rule hr
  rcases hnames with hnames | hnames
  · rcases hnames' with hnames' | hnames'
    · cases hnames.symm.trans hnames'
      exact hy
    · cases hnames.symm.trans hnames'
  · rcases hnames' with hnames' | hnames'
    · cases hnames.symm.trans hnames'
    · cases hnames.symm.trans hnames'
      exact hy

theorem rule_unique (h : g.Operators e rules) (hr : rules[i]? = some r)
    (hr' : rules[j]? = some r') (hx : x ∈ r.names) (hx' : x ∈ r'.names) (hne : x ≠ e) :
    i = j := by
  obtain ⟨marks, hnodup, -, -, hmarks⟩ := h.exists_marks
  have hmark : ∀ {i : Nat} {r : Rule}, rules[i]? = some r → x ∈ r.names →
      marks[i]? = some x := by
    intro i r hr hx
    obtain ⟨y, hy, hnames⟩ := hmarks hr
    have hxy : x = y := by
      rcases hnames with hnames | hnames
      · rw [hnames] at hx
        simpa [hne] using hx
      · rw [hnames] at hx
        simpa using hx
    rw [hxy]
    exact hy
  have hi := hmark hr hx
  have hj := hmark hr' hx'
  exact (List.getElem?_inj (List.getElem?_eq_some_iff.mp hi).1 hnodup).mp (hi.trans hj.symm)

theorem binding_eq (h : g.Operators e rules) (hr : r ∈ rules) (hnames : r.names = [e, o, e]) :
    g.binding o = g.declaredBinding (r.precedenceName o) := by
  obtain ⟨pos, hnt⟩ := h.nonterminals
  have hflat : g.nonterminals.flatMap (·.rules) = rules := by simp [hnt]
  have hexists : ∃ r', rules.find? (fun r => decide (r.names[1]? = some o)) = some r' := by
    cases hf : rules.find? (fun r => decide (r.names[1]? = some o)) with
    | some r' => exact ⟨r', rfl⟩
    | none => simpa [hnames] using List.find?_eq_none.mp hf r hr
  obtain ⟨r', hr'⟩ := hexists
  have hmem := List.mem_of_find?_eq_some hr'
  have hsecond : r'.names[1]? = some o := by simpa using List.find?_some hr'
  obtain ⟨i, hi⟩ := List.getElem?_of_mem hr
  obtain ⟨j, hj⟩ := List.getElem?_of_mem hmem
  have ho : o ≠ e := h.mark_ne hi (Or.inl hnames)
  have hij := h.rule_unique hi hj (by simp [hnames]) (List.mem_of_getElem? hsecond) ho
  rw [hij, hj] at hi
  cases hi
  unfold binding
  rw [hflat, hr']

end Operators

end Grammar

def Precedence.ofPlace (p : PrecedenceDecl × Nat) : Precedence :=
  ⟨p.1.name, p.2 + 1, p.1.assoc, p.1.pos⟩

/-- Declarations without issues take their levels one after another, and no name twice. -/
theorem Precedence.declareAll_eq {known : List Precedence} {ds : List (Option PrecedenceDecl)}
    (h : (declareAll known ds).2 = []) (hknown : (known.map (·.name)).Nodup) :
    (declareAll known ds).1 = known ++ ((ds.filterMap id).zipIdx known.length).map ofPlace ∧
      ((declareAll known ds).1.map (·.name)).Nodup := by
  induction ds generalizing known with
  | nil => exact ⟨by simp [declareAll], hknown⟩
  | cons d ds ih =>
    cases d with
    | none => exact ih h hknown
    | some d =>
      unfold declareAll at h ⊢
      split at h
      · cases h
      · next hname =>
        rw [if_neg hname]
        split at h
        · cases h
        · next hnew =>
          have hmore : ((known ++ [ofDecl known d]).map (·.name)).Nodup := by
            rw [List.map_append]
            refine List.nodup_append.mpr ⟨hknown, by simp, ?_⟩
            intro x hx y hy hxy
            obtain rfl : y = d.name := by simpa [ofDecl] using hy
            obtain ⟨p, hp, rfl⟩ := List.mem_map.mp hx
            simpa [hxy] using List.find?_eq_none.mp hnew p hp
          obtain ⟨heq, hnodup⟩ := ih h hmore
          refine ⟨?_, hnodup⟩
          rw [heq, List.length_append, List.length_singleton, List.append_assoc]
          rfl

namespace Numbering

variable {g : Grammar} {e o : String} {rules : List Rule} {r : Rule} {n : Naming} {m : Numbering}
  {start : Nat}

theorem precedences_of_no_issues (h : (ofGrammar g).issues = []) :
    (ofGrammar g).precedences = g.declared.zipIdx.map Precedence.ofPlace ∧
      (g.declared.map (·.name)).Nodup := by
  have hprecs : (ofGrammar g).precedences = (Precedence.declareAll [] g.precedences).1 ∧
      (Precedence.declareAll [] g.precedences).2 = [] := by
    unfold ofGrammar at h ⊢
    dsimp only at h ⊢
    split at h
    · refine ⟨rfl, ?_⟩
      exact (List.append_eq_nil_iff.mp (List.append_eq_nil_iff.mp h).1).1
    · simp at h
    · exact ⟨rfl, (List.append_eq_nil_iff.mp h).1⟩
  obtain ⟨heq, hnodup⟩ := Precedence.declareAll_eq hprecs.2 List.nodup_nil
  rw [List.nil_append] at heq
  refine ⟨hprecs.1.trans heq, ?_⟩
  rw [heq, List.map_map] at hnodup
  have hnames : ((·.name) ∘ Precedence.ofPlace : PrecedenceDecl × Nat → String) =
      (·.name) ∘ Prod.fst := rfl
  rwa [hnames, ← List.map_map, List.zipIdx_map_fst] at hnodup

theorem find_declared (h : (ofGrammar g).issues = []) {d : PrecedenceDecl}
    (hd : d ∈ g.declared) : ∃ p, Precedence.find? (ofGrammar g).precedences d.name = some p ∧
      g.declaredBinding d.name = ⟨p.level, p.assoc⟩ ∧ p.assoc = d.assoc := by
  obtain ⟨hprecs, hnodup⟩ := precedences_of_no_issues h
  obtain ⟨i, hi⟩ := List.getElem?_of_mem hd
  obtain ⟨⟨d', i'⟩, hfind⟩ :
      ∃ p, g.declared.zipIdx.find? (fun p => p.1.name = d.name) = some p := by
    cases hf : g.declared.zipIdx.find? (fun p => decide (p.1.name = d.name)) with
    | some p => exact ⟨p, rfl⟩
    | none =>
      simpa using List.find?_eq_none.mp hf (d, i) (List.mem_zipIdx_iff_getElem?.mpr hi)
  have hname : d'.name = d.name := by simpa using List.find?_some hfind
  have hi' : g.declared[i']? = some d' :=
    List.mem_zipIdx_iff_getElem?.mp (List.mem_of_find?_eq_some hfind)
  have heq : d' = d := List.inj_on_of_nodup_map hnodup (List.mem_of_getElem? hi') hd hname
  refine ⟨Precedence.ofPlace (d', i'), ?_, ?_, by rw [heq]; rfl⟩
  · rw [hprecs]
    unfold Precedence.find?
    rw [List.find?_map]
    exact congrArg (Option.map Precedence.ofPlace) hfind
  · unfold Grammar.declaredBinding
    rw [hfind]
    rfl

theorem binding_of_rule (h : (ofGrammar g).issues = []) (ho : g.Operators e rules) (hr : r ∈ rules)
    (hnames : r.names = [e, o, e]) :
    ∃ p, Precedence.find? (ofGrammar g).precedences (r.precedenceName o) = some p ∧
      g.binding o = ⟨p.level, p.assoc⟩ ∧ (p.assoc = .left ∨ p.assoc = .right) := by
  obtain ⟨d, hd, hname, hassoc⟩ := ho.declared r hr o hnames
  obtain ⟨p, hfind, hbinding, hp⟩ := find_declared h hd
  rw [hname] at hfind hbinding
  exact ⟨p, hfind, (ho.binding_eq hr hnames).trans hbinding, hp ▸ hassoc⟩

theorem Built.rule_single (h : Built g m start) {pos : Position}
    (hnt : g.nonterminals = [⟨e, rules, pos⟩]) {i : Nat} {q : Production}
    (hq : m.rules[i + 1]? = some q) : ∃ r, rules[i]? = some r ∧
      production m.naming m.precedences (start + 1) e r = q ∧
      List.Forall₂ (fun s name => number? m.naming name = some s ∧
        m.naming.symbols.text? s = some name) q.symbols r.names := by
  have howned : ownedRules m.naming start = rules.map fun r => (start + 1, e, r) := by
    unfold ownedRules
    rw [h.complete.all_owners, hnt]
    simp
  obtain ⟨x, hx, rfl⟩ := h.rule_succ.mp hq
  have hresolved := h.resolved x (List.mem_of_getElem? hx)
  rw [howned, List.getElem?_map] at hx
  obtain ⟨r, hr, rfl⟩ := Option.map_eq_some_iff.mp hx
  refine ⟨r, hr, rfl, ?_⟩
  obtain ⟨-, hall⟩ := production_symbols m.precedences (start + 1) e hresolved
  rw [Rule.names, List.forall₂_map_right_iff]
  refine hall.imp ?_
  intro s token hs
  have hresolve : resolve m.naming token.name = .ok s := hs
  exact ⟨by simp [number?, hresolve], (h.token_bounds hs).1⟩

theorem inherited_operator {precs : List Precedence} {u x : Nat}
    (hnames : r.names = [e, o, e]) (hu : number? n e = some u)
    (hnt : n.symbols.isTerminal u = false) (hx : number? n o = some x)
    (ht : n.symbols.isTerminal x = true) :
    inherited? n precs r = Precedence.find? precs o := by
  have hinherited : inherited? n precs r = (r.names.filterMap fun name =>
      ((number? n name).filter n.symbols.isTerminal).bind fun _ =>
        Precedence.find? precs name).getLast? := by
    unfold inherited? Rule.names
    rw [List.filterMap_map]
    rfl
  rw [hinherited, hnames]
  cases hf : Precedence.find? precs o with
  | none => simp [hu, hx, hnt, hf]
  | some p => simp [hu, hx, hnt, ht, hf, Option.filter]

theorem production_operator {precs : List Precedence} {u x : Nat} {p : Precedence} (lhs : Nat)
    (hnames : r.names = [e, o, e]) (hu : number? n e = some u)
    (hnt : n.symbols.isTerminal u = false) (hx : number? n o = some x)
    (ht : n.symbols.isTerminal x = true)
    (hp : Precedence.find? precs (r.precedenceName o) = some p) :
    (production n precs lhs e r).level = p.level ∧
      (production n precs lhs e r).assoc = p.assoc := by
  have hprec : (explicit? precs r).or (inherited? n precs r) = some p := by
    unfold explicit?
    unfold Rule.precedenceName at hp
    by_cases hexplicit : r.precedence = ""
    · rw [if_pos hexplicit] at hp ⊢
      rw [inherited_operator hnames hu hnt hx ht, hp]
      rfl
    · rw [if_neg hexplicit] at hp ⊢
      rw [hp]
      rfl
  unfold production
  rw [hprec]
  exact ⟨rfl, rfl⟩

end Numbering

/-- Productions of binary operators and of atoms over the nonterminal `u`, with a start production.
An operator binds as `bind` says, and occurs in one production. -/
structure NumberedGrammar.OperatorRules (g : NumberedGrammar) (u : Nat) (bind : Nat → Binding) :
    Prop where
  well_formed : g.WellFormed
  start_rule : ∃ r : Production, g.rules[0]? = some r ∧ r.symbols = [u, SymbolTable.endSymbol] ∧
    r.binary = false
  shapes : ∀ (i : Nat) (r : Production), i ≠ 0 → g.rules[i]? = some r → r.lhs = u ∧
    ∃ x, x < g.terminalCount ∧ x ≠ SymbolTable.errorSymbol ∧
      (r.symbols = [x] ∧ r.binary = false ∨
        r.symbols = [u, x, u] ∧ r.binary = true ∧ r.level = (bind x).level ∧
          r.assoc = (bind x).assoc ∧ ((bind x).assoc = .left ∨ (bind x).assoc = .right))
  distinct : ∀ (i j : Nat) (r r' : Production) (x : Nat), i ≠ 0 → j ≠ 0 →
    g.rules[i]? = some r → g.rules[j]? = some r' → x ∈ r.symbols → x ∈ r'.symbols → x ≠ u → i = j
  consistent : ∀ x y, (bind x).Consistent (bind y)

def Numbering.bindingOf (m : Numbering) (g : Grammar) (x : Nat) : Binding :=
  g.binding ((m.naming.symbols.text? x).getD "")

namespace Numbering

variable {g : Grammar} {e : String} {rules : List Rule} {m : Numbering} {start : Nat}

theorem bindingOf_text {x : Nat} {name : String}
    (h : m.naming.symbols.text? x = some name) : m.bindingOf g x = g.binding name := by
  unfold bindingOf
  rw [h]
  rfl

section Productions

variable (h : Built g (ofGrammar g) start) (hissues : (ofGrammar g).issues = [])
  (ho : g.Operators e rules)

include h ho

theorem operand_text : (ofGrammar g).naming.symbols.text? (start + 1) = some e := by
  obtain ⟨pos, hnt⟩ := ho.nonterminals
  have howner : (ofGrammar g).naming.owners[0]? = some ⟨e, rules, pos⟩ := by
    rw [← Array.getElem?_toList, h.complete.all_owners, hnt]
    rfl
  exact h.complete.owner_text 0 _ howner

theorem terminal_of_name {x : Nat} {name : String} (hx : number? (ofGrammar g).naming name = some x)
    (htext : (ofGrammar g).naming.symbols.text? x = some name) (hne : name ≠ e) :
    x < (ofGrammar g).grammar.terminalCount := by
  obtain ⟨pos, hnt⟩ := ho.nonterminals
  have hstart : x ≠ (ofGrammar g).grammar.startSymbol := by
    rw [h.start_eq]
    unfold number? at hx
    split at hx
    · next s hs =>
      cases hx
      rintro rfl
      exact (resolve_ok hs).2.1 h.complete.start_symbol
    · cases hx
  by_contra hge
  obtain ⟨nt, hmem, hname⟩ := (h.represents.nonterminal_iff x name htext hstart).mp (by omega)
  rw [hnt, List.mem_singleton] at hmem
  subst hmem
  exact hne hname.symm

include hissues

theorem production_shape {i : Nat} {q : Production} (hq : (ofGrammar g).rules[i + 1]? = some q) :
    q.lhs = start + 1 ∧ ∃ x, x < (ofGrammar g).grammar.terminalCount ∧
      x ≠ SymbolTable.errorSymbol ∧ (q.symbols = [x] ∧ q.binary = false ∨
      q.symbols = [start + 1, x, start + 1] ∧ q.binary = true ∧
        q.level = ((ofGrammar g).bindingOf g x).level ∧
        q.assoc = ((ofGrammar g).bindingOf g x).assoc ∧
        (((ofGrammar g).bindingOf g x).assoc = .left ∨
          ((ofGrammar g).bindingOf g x).assoc = .right)) := by
  obtain ⟨pos, hnt⟩ := ho.nonterminals
  obtain ⟨r, hr, rfl, hall⟩ := h.rule_single hnt hq
  obtain ⟨x, hxe, hxerror, hnames⟩ := ho.mark_of_rule hr
  have hrep := h.represents
  refine ⟨rfl, ?_⟩
  have hmark : ∀ s, number? (ofGrammar g).naming x = some s →
      (ofGrammar g).naming.symbols.text? s = some x →
      s < (ofGrammar g).grammar.terminalCount ∧ s ≠ SymbolTable.errorSymbol := by
    intro s hs htext
    refine ⟨terminal_of_name h ho hs htext hxe, ?_⟩
    rintro rfl
    exact hxerror (Option.some.inj (htext.symm.trans hrep.error_text))
  rcases hnames with hnames | hnames
  · rw [hnames] at hall
    obtain ⟨a, b, c, hsymbols, ⟨ha, hatext⟩, ⟨hb, hbtext⟩, ⟨-, hctext⟩⟩ := exists_three hall
    obtain rfl := hrep.table.id_unique hatext (operand_text h ho)
    obtain rfl := hrep.table.id_unique hctext (operand_text h ho)
    obtain ⟨hlt, herror⟩ := hmark b hb hbtext
    obtain ⟨p, hfind, hbinding, hassoc⟩ :=
      binding_of_rule hissues ho (List.mem_of_getElem? hr) hnames
    have hoperand : (ofGrammar g).naming.symbols.isTerminal (start + 1) = false := by
      have hfirst := h.start_first.1
      refine decide_eq_false ?_
      change ¬ start + 1 < (ofGrammar g).grammar.terminalCount
      omega
    obtain ⟨hlevel, hassoc'⟩ := production_operator (start + 1) hnames ha hoperand hb
      (decide_eq_true hlt) hfind
    have hbind : (ofGrammar g).bindingOf g b = ⟨p.level, p.assoc⟩ :=
      (bindingOf_text hbtext).trans hbinding
    refine ⟨b, hlt, herror, Or.inr ⟨hsymbols, Rule.isBinary_of_names hnames hxe, ?_, ?_, ?_⟩⟩
    · rw [hbind]
      exact hlevel
    · rw [hbind]
      exact hassoc'
    · rw [hbind]
      exact hassoc
  · rw [hnames] at hall
    obtain ⟨a, hsymbols, ha, hatext⟩ := exists_one hall
    obtain ⟨hlt, herror⟩ := hmark a ha hatext
    exact ⟨a, hlt, herror, Or.inl ⟨hsymbols, Rule.isBinary_of_atom hnames⟩⟩

end Productions

/-- A grammar of operators without issues is numbered to productions of operators. -/
theorem operatorRules_of_no_issues (hissues : (ofGrammar g).issues = [])
    (ho : g.Operators e rules) : ∃ u, (ofGrammar g).naming.symbols.text? u = some e ∧
      (ofGrammar g).grammar.OperatorRules u ((ofGrammar g).bindingOf g) := by
  obtain ⟨start, h⟩ := built_of_no_issues hissues
  obtain ⟨pos, hnt⟩ := ho.nonterminals
  have hrep := h.represents
  have htext := operand_text h ho
  refine ⟨start + 1, htext, ?_⟩
  constructor
  case well_formed => exact hrep.well_formed
  case start_rule =>
    obtain ⟨d, q, u, hd, hq, hsymbols, hu⟩ := hrep.start_names
    obtain ⟨d', hd', rfl⟩ := ho.start
    cases hd.symm.trans hd'
    obtain rfl := hrep.table.id_unique hu htext
    exact ⟨q, hq, hsymbols, hrep.start_binary q hq⟩
  case shapes =>
    intro i q hi hq
    obtain ⟨i, rfl⟩ := Nat.exists_eq_succ_of_ne_zero hi
    exact production_shape h hissues ho hq
  case distinct =>
    intro i j q q' x hi hj hq hq' hx hx' hne
    obtain ⟨i, rfl⟩ := Nat.exists_eq_succ_of_ne_zero hi
    obtain ⟨j, rfl⟩ := Nat.exists_eq_succ_of_ne_zero hj
    obtain ⟨r, hr, -, hall⟩ := h.rule_single hnt hq
    obtain ⟨r', hr', -, hall'⟩ := h.rule_single hnt hq'
    have hspells := hall.imp fun _ _ hs => hs.2
    have hspells' := hall'.imp fun _ _ hs => hs.2
    obtain ⟨name, hname⟩ : ∃ name, (ofGrammar g).naming.symbols.text? x = some name :=
      hrep.table.text_of_lt (hrep.well_formed.symbol_lt _ q hq x hx)
    have hnamee : name ≠ e := by
      rintro rfl
      exact hne (hrep.table.id_unique hname htext)
    exact congrArg Nat.succ (ho.rule_unique hr hr' (SymbolTable.Spells.text_mem hspells hx hname)
      (SymbolTable.Spells.text_mem hspells' hx' hname) hnamee)
  case consistent =>
    intro x y
    exact g.binding_consistent _ _

end Numbering

end ParserTables

import Mathlib.Data.List.Nodup
import Mathlib.Data.List.Perm.Subperm
import ParserTables.Proofs.Naming

/-!
What a declaration does to a naming, whether or not the name is fit to be declared. A table holds
the sentinels and behind them a list of names. Declaring a name adds it behind them, or refuses it
with a report, or finds that there is no number left. So a list of declarations raises no issue
exactly when each name in turn is fit and there is room for all of them. The augmented start symbol
gets a name that no symbol of the grammar has, because more candidates are tried than there are
names.
-/

namespace ParserTables.Naming

open SymbolTable (maxSymbol)

variable {g : Grammar} {n n' : Naming} {names terminals known : List String}
  {name augmented : String}

structure Fit (known : List String) (name : String) : Prop where
  nonempty : name ≠ ""
  unreserved : isReserved name = false
  new : name ∉ known

structure AllFit (known names : List String) : Prop where
  nonempty : ∀ name ∈ names, name ≠ ""
  unreserved : ∀ name ∈ names, isReserved name = false
  distinct : (known ++ names).Nodup

theorem allFit_nil (h : known.Nodup) : AllFit known [] :=
  ⟨by simp, by simp, by simpa using h⟩

theorem allFit_cons : AllFit known (name :: names) ↔
    Fit known name ∧ AllFit (known ++ [name]) names := by
  have happend : known ++ name :: names = known ++ [name] ++ names := by simp
  constructor
  · intro h
    have hdistinct := h.distinct
    rw [happend] at hdistinct
    have hfirst := (List.nodup_append.mp hdistinct).1
    refine ⟨⟨h.nonempty name (by simp), h.unreserved name (by simp), ?_⟩, ?_, ?_, hdistinct⟩
    · intro hmem
      exact (List.nodup_append.mp hfirst).2.2 name hmem name (by simp) rfl
    · intro x hx
      exact h.nonempty x (by simp [hx])
    · intro x hx
      exact h.unreserved x (by simp [hx])
  · rintro ⟨hfit, h⟩
    constructor
    case nonempty =>
      intro x hx
      rcases List.mem_cons.mp hx with rfl | hx
      · exact hfit.nonempty
      · exact h.nonempty x hx
    case unreserved =>
      intro x hx
      rcases List.mem_cons.mp hx with rfl | hx
      · exact hfit.unreserved
      · exact h.unreserved x hx
    case distinct =>
      rw [happend]
      exact h.distinct

/-- A table holds the sentinels and behind them the given names. -/
def Texts (n : Naming) (names : List String) : Prop :=
  n.symbols.texts.toList = endName :: errorName :: names

theorem Texts.size_eq (h : n.Texts names) : n.symbols.size = names.length + 2 := by
  have hlength := congrArg List.length h
  simpa [SymbolTable.size] using hlength

theorem Texts.push (h : n.Texts names) (name : String) :
    (n.symbols.texts.push name).toList = endName :: errorName :: (names ++ [name]) := by
  rw [Array.toList_push, h]
  simp

theorem mem_texts :
    name ∈ endName :: errorName :: names ↔ isReserved name = true ∨ name ∈ names := by
  simp [isReserved, or_assoc]

theorem Texts.id_isSome_iff (h : n.Texts names) (hv : n.symbols.Valid) :
    (n.symbols.id? name).isSome = true ↔ isReserved name = true ∨ name ∈ names := by
  rw [hv.id_isSome_iff, h, mem_texts]

theorem Texts.id_eq_none (h : n.Texts names) (hv : n.symbols.Valid)
    (hreserved : isReserved name = false) (hnew : name ∉ names) : n.symbols.id? name = none := by
  have hiff : (n.symbols.id? name).isSome = true ↔ _ := h.id_isSome_iff hv
  simpa [hreserved, hnew] using hiff

theorem Texts.nodup (h : n.Texts names) (hv : n.symbols.Valid) :
    (endName :: errorName :: names).Nodup := by
  rw [← h]
  exact hv.nodup_texts

/-! ### Terminals -/

structure TerminalsHeld (n : Naming) (names : List String) : Prop extends TerminalsNamed n where
  texts : n.Texts names
  position_iff : ∀ name, name ∈ n.positions ↔ name ∈ names
  count : n.positions.size = names.length

theorem TerminalsHeld.report (h : n.TerminalsHeld names) (issue : Issue) :
    (n.report issue).TerminalsHeld names :=
  ⟨h.toTerminalsNamed.report issue, h.texts, h.position_iff, h.count⟩

theorem terminals_held_start : Naming.start.TerminalsHeld [] :=
  ⟨terminals_named_start, rfl, by simp [Naming.start], rfl⟩

theorem TerminalsHeld.position_none (h : n.TerminalsHeld names) (hnew : name ∉ names) :
    n.positions[name]? = none :=
  Std.TreeMap.getElem?_eq_none fun hmem => hnew ((h.position_iff name).mp hmem)

theorem TerminalsHeld.position_some (h : n.TerminalsHeld names) (hold : name ∈ names) :
    ∃ pos, n.positions[name]? = some pos :=
  Option.isSome_iff_exists.mp
    (Std.TreeMap.mem_iff_isSome_getElem?.mp ((h.position_iff name).mpr hold))

theorem TerminalsHeld.add (h : n.TerminalsHeld names) (hfit : Fit names name)
    (room : names.length + 2 ≤ maxSymbol) (pos : Position) (declared : Array TokenDecl) :
    TerminalsHeld ⟨{ n.symbols.append name with terminalCount := n.symbols.terminalCount + 1 },
      n.positions.insert name pos, declared, n.owners, n.issues⟩ (names ++ [name]) := by
  have hfresh := h.texts.id_eq_none h.table.toValid hfit.unreserved hfit.new
  have hroom : ¬ maxSymbol < n.symbols.size := by
    rw [h.texts.size_eq]
    omega
  have hregister := h.table.register_terminal_fresh hfresh
  rw [if_neg hroom] at hregister
  constructor
  case toTerminalsNamed => exact register_terminal_named h.toTerminalsNamed hregister _ _ _
  case texts => exact h.texts.push name
  case position_iff =>
    intro x
    rw [Std.TreeMap.mem_insert, Std.LawfulEqOrd.compare_eq_iff_eq, h.position_iff,
      List.mem_append, List.mem_singleton, or_comm, eq_comm]
  case count =>
    have hnone : n.positions.contains name = false := by
      rw [Bool.eq_false_iff, ne_eq, Std.TreeMap.contains_iff_mem, h.position_iff]
      exact hfit.new
    change (n.positions.insert name pos).size = _
    rw [Std.TreeMap.size_insert, hnone]
    simp [h.count]

/-- What comes of declaring a name where `names` are held: it is added, or refused, or there is no
number left for it. A name that is added can still have a flaw that is reported. -/
inductive Outcome (Holds : Naming → List String → Prop) (n : Naming) (names : List String)
    (name : String) (flawless : Prop) : Naming × Option SymbolError → Prop where
  | added {n' : Naming} (fit : Fit names name) (room : names.length + 2 ≤ maxSymbol)
      (holds : Holds n' (names ++ [name])) (issues : n'.issues = #[] ↔ n.issues = #[] ∧ flawless) :
      Outcome Holds n names name flawless (n', none)
  | refused {issue : Issue} (unfit : ¬ Fit names name) (holds : Holds (n.report issue) names) :
      Outcome Holds n names name flawless (n.report issue, none)
  | full {n' : Naming} {e : SymbolError} (exhausted : maxSymbol < names.length + 2) :
      Outcome Holds n names name flawless (n', some e)

theorem TerminalsHeld.declare_token (h : n.TerminalsHeld names) (d : TokenDecl) :
    Outcome TerminalsHeld n names d.name True (declareToken n d) := by
  unfold declareToken
  by_cases hempty : d.name = ""
  · rw [if_pos hempty]
    exact .refused (fun hfit => hfit.nonempty hempty) (h.report _)
  rw [if_neg hempty]
  cases hreserved : isReserved d.name with
  | true => exact .refused (fun hfit => by simp [hfit.unreserved] at hreserved) (h.report _)
  | false =>
    by_cases hold : d.name ∈ names
    · obtain ⟨pos, hpos⟩ := h.position_some hold
      rw [hpos]
      exact .refused (fun hfit => hfit.new hold) (h.report _)
    · have hfit : Fit names d.name := ⟨hempty, hreserved, hold⟩
      have hregister := h.table.register_terminal_fresh
        (h.texts.id_eq_none h.table.toValid hreserved hold)
      rw [h.texts.size_eq] at hregister
      simp only [h.position_none hold, hregister]
      by_cases hfull : maxSymbol < names.length + 2
      · simp only [hfull, if_true]
        exact .full hfull
      · simp only [hfull, if_false]
        exact .added hfit (Nat.le_of_not_lt hfull) (h.add hfit (Nat.le_of_not_lt hfull) _ _)
          (by simp)

/-- The sentinels have no apostrophe in them. -/
theorem unreserved_of_apostrophe (h : '\'' ∈ name.toList) : isReserved name = false := by
  by_contra hne
  have hreserved : isReserved name = true := by simpa using hne
  simp only [isReserved, Bool.or_eq_true, decide_eq_true_eq] at hreserved
  rcases hreserved with rfl | rfl
  · revert h
    decide
  · revert h
    decide

theorem apostrophe_of_literal (h : isLiteral name = true) : '\'' ∈ name.toList := by
  obtain ⟨c, hc⟩ := Option.isSome_iff_exists.mp h
  unfold literalChar? at hc
  split at hc
  · next heq => simp [heq]
  · cases hc

theorem fit_literal (h : isLiteral name = true) (hnew : name ∉ names) : Fit names name := by
  have happ := apostrophe_of_literal h
  refine ⟨?_, unreserved_of_apostrophe happ, hnew⟩
  rintro rfl
  simp at happ

/-- The names with a literal added that may be among them already. -/
def withLiteral (names : List String) (l : String) : List String :=
  if l ∈ names then names else names ++ [l]

theorem mem_withLiteral {l : String} : name ∈ withLiteral names l ↔ name ∈ names ∨ name = l := by
  unfold withLiteral
  by_cases hl : l ∈ names
  · rw [if_pos hl]
    constructor
    · exact Or.inl
    · rintro (hmem | rfl)
      · exact hmem
      · exact hl
  · rw [if_neg hl, List.mem_append, List.mem_singleton]

theorem mem_withLiterals {ls : List String} :
    name ∈ ls.foldl withLiteral names ↔ name ∈ names ∨ name ∈ ls := by
  induction ls generalizing names with
  | nil => simp
  | cons l ls ih => rw [List.foldl_cons, ih, mem_withLiteral, List.mem_cons, or_assoc]

theorem length_le_withLiterals (ls names : List String) :
    names.length ≤ (ls.foldl withLiteral names).length := by
  induction ls generalizing names with
  | nil => exact Nat.le_refl _
  | cons l ls ih =>
    have hone : names.length ≤ (withLiteral names l).length := by
      unfold withLiteral
      split <;> simp
    exact Nat.le_trans hone (ih _)

theorem nodup_withLiterals {ls : List String} (h : names.Nodup) :
    (ls.foldl withLiteral names).Nodup := by
  induction ls generalizing names with
  | nil => exact h
  | cons l ls ih =>
    refine ih ?_
    unfold withLiteral
    by_cases hl : l ∈ names
    · rwa [if_pos hl]
    · rw [if_neg hl]
      refine List.nodup_append.mpr ⟨h, by simp, ?_⟩
      rintro x hx y hy rfl
      exact hl (List.mem_singleton.mp hy ▸ hx)

/-- A literal that is declared already needs nothing; no literal raises an issue. -/
theorem TerminalsHeld.declare_literal (h : n.TerminalsHeld names) (hl : isLiteral name = true) :
    ((withLiteral names name).length + 2 ≤ maxSymbol + 1 ∧
      ∃ n', declareLiteral n name = (n', none) ∧ n'.TerminalsHeld (withLiteral names name) ∧
        n'.issues = n.issues) ∨
    (maxSymbol + 1 < (withLiteral names name).length + 2 ∧
      ∃ n' e, declareLiteral n name = (n', some e)) := by
  unfold declareLiteral withLiteral
  by_cases hold : name ∈ names
  · have hcontains : n.positions.contains name = true :=
      Std.TreeMap.contains_iff_mem.mpr ((h.position_iff name).mpr hold)
    have hsize := h.table.size_le
    rw [h.texts.size_eq] at hsize
    rw [if_pos hold, hcontains]
    exact Or.inl ⟨hsize, n, rfl, h, rfl⟩
  · have hcontains : n.positions.contains name = false := by
      rw [Bool.eq_false_iff, ne_eq, Std.TreeMap.contains_iff_mem, h.position_iff]
      exact hold
    have hfit : Fit names name := fit_literal hl hold
    have hregister := h.table.register_terminal_fresh
      (h.texts.id_eq_none h.table.toValid hfit.unreserved hold)
    rw [h.texts.size_eq] at hregister
    simp only [hold, hcontains, hregister, if_false, List.length_append, List.length_singleton]
    by_cases hfull : maxSymbol < names.length + 2
    · simp only [hfull, if_true]
      exact Or.inr ⟨by omega, _, _, rfl⟩
    · simp only [hfull, if_false]
      exact Or.inl ⟨by omega, _, rfl, h.add hfit (Nat.le_of_not_lt hfull) _ _, rfl⟩

/-! ### The start symbol -/

def marked (name : String) (count : Nat) : String :=
  name ++ String.ofList (List.replicate count '\'')

theorem marked_succ (name : String) (count : Nat) :
    marked (name ++ "'") count = marked name (count + 1) := by
  apply String.toList_injective
  simp [marked, List.replicate_succ]

theorem marked_injective (name : String) : Function.Injective (marked name) := by
  intro i j heq
  have hlength := congrArg String.length heq
  simpa [marked] using hlength

/-- A name that is taken after all has been preceded by taken ones only. -/
theorem freshName_taken {taken : String → Bool} {k : Nat}
    (h : taken (freshName taken k name) = true) : ∀ i ≤ k, taken (marked name i) = true := by
  induction k generalizing name with
  | zero =>
    intro i hi
    obtain rfl := Nat.le_zero.mp hi
    simpa [marked, freshName] using h
  | succ k ih =>
    unfold freshName at h
    by_cases hname : taken name = true
    · rw [if_pos hname] at h
      intro i hi
      cases i with
      | zero => simpa [marked] using hname
      | succ i =>
        rw [← marked_succ]
        exact ih h i (Nat.le_of_succ_le_succ hi)
    · rw [if_neg hname] at h
      exact absurd h hname

/-- With more tries than there are taken names, a fresh name is not taken. -/
theorem freshName_free {taken : String → Bool} {names : List String} {k : Nat}
    (htaken : ∀ name, taken name = true → name ∈ names) (enough : names.length ≤ k) :
    taken (freshName taken k name) = false := by
  by_contra hne
  have hall := freshName_taken (by simpa using hne)
  have hnodup : ((List.range (k + 1)).map (marked name)).Nodup :=
    List.nodup_range.map (marked_injective name)
  have hsubset : (List.range (k + 1)).map (marked name) ⊆ names := by
    intro x hx
    obtain ⟨i, hi, rfl⟩ := List.mem_map.mp hx
    exact htaken _ (hall i (Nat.le_of_lt_succ (List.mem_range.mp hi)))
  have hlength := (hnodup.subperm hsubset).length_le
  rw [List.length_map, List.length_range] at hlength
  omega

theorem augmented_untaken (n : Naming) (g : Grammar) :
    n.isTaken g (n.augmentedName g) = false := by
  have hlisted : ∀ x, n.isTaken g x = true →
      x ∈ n.positions.keys ++ g.nonterminals.map (·.name) := by
    intro x hx
    simpa [isTaken, Std.TreeMap.contains_iff_mem] using hx
  exact freshName_free hlisted (by simp)

theorem TerminalsHeld.augmented_free (h : n.TerminalsHeld names) (g : Grammar) :
    n.augmentedName g ∉ names ∧ ∀ nt ∈ g.nonterminals, nt.name ≠ n.augmentedName g := by
  have htaken : ∀ x, n.isTaken g x = true ↔ x ∈ names ∨ ∃ nt ∈ g.nonterminals, nt.name = x := by
    intro x
    simp only [isTaken, Bool.or_eq_true, Std.TreeMap.contains_iff_mem, h.position_iff,
      List.any_eq_true, decide_eq_true_eq]
  have hfree := augmented_untaken n g
  constructor
  · intro hold
    rw [(htaken _).mpr (Or.inl hold)] at hfree
    cases hfree
  · intro nt hnt hname
    rw [(htaken _).mpr (Or.inr ⟨nt, hnt, hname⟩)] at hfree
    cases hfree

theorem augmented_unreserved (n : Naming) (g : Grammar) :
    isReserved (n.augmentedName g) = false := by
  obtain ⟨marks, hmarks⟩ := freshName_eq (n.isTaken g) (n.positions.size + g.nonterminals.length)
    (startName g ++ "'")
  apply unreserved_of_apostrophe
  rw [augmentedName, hmarks]
  simp

/-! ### Nonterminals -/

/-- The nonterminals named so far, behind the terminals and the augmented start symbol. -/
structure OwnersHeld (g : Grammar) (terminals : List String) (augmented : String) (n : Naming)
    (names : List String) : Prop extends Named g n (terminals.length + 2) where
  texts : n.Texts names
  names_eq : names = terminals ++ augmented :: n.owners.toList.map (·.name)
  position_iff : ∀ name, name ∈ n.positions ↔ name ∈ terminals
  fresh : ∀ nt ∈ g.nonterminals, nt.name ≠ augmented

theorem OwnersHeld.report (h : OwnersHeld g terminals augmented n names) (issue : Issue) :
    OwnersHeld g terminals augmented (n.report issue) names :=
  ⟨h.toNamed.report issue, h.texts, h.names_eq, h.position_iff, h.fresh⟩

theorem TerminalsHeld.declare_start (h : n.TerminalsHeld terminals) (g : Grammar) :
    (terminals.length + 2 ≤ maxSymbol ∧ ∃ n', declareStart n g = (n', none) ∧
      OwnersHeld g terminals (n.augmentedName g) n' (terminals ++ [n.augmentedName g]) ∧
      n'.owners = #[] ∧ (n'.issues = #[] ↔ n.issues = #[] ∧ namesStart g = true)) ∨
    (maxSymbol < terminals.length + 2 ∧ ∃ n' e, declareStart n g = (n', some e)) := by
  obtain ⟨hnew, hfresh⟩ := h.augmented_free g
  have hregister := h.table.register_start_fresh
    (h.texts.id_eq_none h.table.toValid (augmented_unreserved n g) hnew)
  have hnamed : ∀ n', declareStart n g = (n', none) → ∃ start, Named g n' start ∧ _ :=
    fun n' hs => declare_start_named hs h.toTerminalsNamed
  have hbase : (if namesStart g then n
      else n.report (.new .noStartSymbol "" .unknown)).TerminalsHeld terminals := by
    split
    · exact h
    · exact h.report _
  have hsymbols : (if namesStart g then n
      else n.report (.new .noStartSymbol "" .unknown)).symbols = n.symbols := by
    split <;> rfl
  have hissues : (if namesStart g then n
      else n.report (.new .noStartSymbol "" .unknown)).issues = #[] ↔
      n.issues = #[] ∧ namesStart g = true := by
    by_cases hnames : namesStart g = true <;> simp [hnames]
  rw [← hsymbols] at hregister
  unfold declareStart at hnamed ⊢
  dsimp only at hnamed ⊢
  generalize (if namesStart g then n
    else n.report (.new .noStartSymbol "" .unknown)) = base at *
  obtain ⟨symbols, positions, declared, owners, issues⟩ := base
  have hsize : symbols.size = terminals.length + 2 := hbase.texts.size_eq
  simp only [hregister, hsize] at hnamed ⊢
  by_cases hfull : maxSymbol < terminals.length + 2
  · exact Or.inr ⟨hfull, by simp [hfull]⟩
  · simp only [hfull, if_false] at hnamed ⊢
    obtain ⟨start, hn, howners, -⟩ := hnamed _ rfl
    have hstart : start = terminals.length + 2 := (Option.some.inj hn.start_symbol).symm
    subst hstart
    refine Or.inl ⟨Nat.le_of_not_lt hfull, _, rfl,
      ⟨hn, ?_, ?_, hbase.position_iff, hfresh⟩, howners, hissues⟩
    · exact hbase.texts.push _
    · change owners = #[] at howners
      simp [howners]

theorem OwnersHeld.owner_of_name (h : OwnersHeld g terminals augmented n names) {nt : Nonterminal}
    (hnt : nt ∈ g.nonterminals) (hterminal : nt.name ∉ terminals) (hold : nt.name ∈ names) :
    ∃ owner ∈ n.owners.toList, owner.name = nt.name := by
  rw [h.names_eq, List.mem_append, List.mem_cons] at hold
  rcases hold with hold | hold | hold
  · exact absurd hold hterminal
  · exact absurd hold (h.fresh nt hnt)
  · simpa using hold

theorem OwnersHeld.declare_nonterminal (h : OwnersHeld g terminals augmented n names)
    (nt : Nonterminal) :
    Outcome (OwnersHeld g terminals augmented) n names nt.name (nt.rules ≠ [])
      (declareNonterminal n nt) := by
  have hnamed : ∀ n', declareNonterminal n nt = (n', none) →
      Named g n' (terminals.length + 2) ∧ _ :=
    fun n' hs => declare_nonterminal_named nt hs h.toNamed
  have hterminals : ∀ x ∈ terminals, x ∈ names := by
    intro x hx
    rw [h.names_eq]
    exact List.mem_append_left _ hx
  unfold declareNonterminal at hnamed ⊢
  by_cases hempty : nt.name = ""
  · rw [if_pos hempty]
    exact .refused (fun hfit => hfit.nonempty hempty) (h.report _)
  rw [if_neg hempty] at hnamed ⊢
  cases hreserved : isReserved nt.name with
  | true => exact .refused (fun hfit => by simp [hfit.unreserved] at hreserved) (h.report _)
  | false =>
    cases hpos : n.positions[nt.name]? with
    | some earlier =>
      have hmem : nt.name ∈ n.positions := by simp [Std.TreeMap.mem_iff_isSome_getElem?, hpos]
      exact .refused (fun hfit => hfit.new (hterminals _ ((h.position_iff _).mp hmem)))
        (h.report _)
    | none =>
      by_cases hold : nt.name ∈ names
      · have hid : (n.symbols.id? nt.name).isSome = true :=
          (h.texts.id_isSome_iff h.table).mpr (Or.inr hold)
        simp only [hid, if_true]
        exact .refused (fun hfit => hfit.new hold) (h.report _)
      · have hfit : Fit names nt.name := ⟨hempty, hreserved, hold⟩
        have hid : n.symbols.id? nt.name = none := h.texts.id_eq_none h.table hreserved hold
        have hregister : n.symbols.register nt.name .nonterminal = _ :=
          SymbolTable.register_fresh hid
        rw [h.texts.size_eq] at hregister
        simp only [hreserved, hpos, hid, SymbolTable.registerNonterminal, hregister] at hnamed ⊢
        by_cases hfull : maxSymbol < names.length + 2
        · simp only [hfull, if_true]
          exact .full hfull
        · simp only [hfull, if_false] at hnamed ⊢
          obtain ⟨hn, -⟩ := hnamed _ rfl
          refine .added hfit (Nat.le_of_not_lt hfull) ?_ ?_
          · have hnames : names ++ [nt.name] =
                terminals ++ augmented :: (n.owners.push nt).toList.map (·.name) := by
              rw [h.names_eq]
              simp
            by_cases hrules : nt.rules = []
            · rw [if_pos hrules] at hn ⊢
              exact ⟨hn, h.texts.push nt.name, hnames, h.position_iff, h.fresh⟩
            · rw [if_neg hrules] at hn ⊢
              exact ⟨hn, h.texts.push nt.name, hnames, h.position_iff, h.fresh⟩
          · by_cases hrules : nt.rules = [] <;> simp [hrules]

/-! ### Lists of declarations -/

/-- A naming that has gone through without an issue. -/
def Clean (r : Naming × Option SymbolError) : Prop := r.2 = none ∧ r.1.issues = #[]

theorem clean_andThen {r : Naming × Option SymbolError}
    {step : Naming → Naming × Option SymbolError} :
    Clean (andThen r step) ↔ ∃ n, r = (n, none) ∧ Clean (step n) := by
  obtain ⟨n, e⟩ := r
  cases e <;> simp [andThen, Clean]

/-- Declarations of one kind: `Holds` says which names are held, and `flawless` that a declaration
gives no reason for a report once its name is added. -/
structure Declares {α : Type} (step : Naming → α → Naming × Option SymbolError)
    (nameOf : α → String) (flawless : α → Prop) (Holds : Naming → List String → Prop) : Prop where
  room : ∀ n names, Holds n names → names.length + 2 ≤ maxSymbol + 1
  nodup : ∀ n names, Holds n names → names.Nodup
  outcome : ∀ n names a, Holds n names →
    Outcome Holds n names (nameOf a) (flawless a) (step n a)

theorem Texts.room (h : n.Texts names) (hv : n.symbols.Valid) :
    names.length + 2 ≤ maxSymbol + 1 := by
  rw [← h.size_eq]
  exact hv.size_le

theorem Texts.nodup_names (h : n.Texts names) (hv : n.symbols.Valid) : names.Nodup :=
  (List.nodup_cons.mp (List.nodup_cons.mp (h.nodup hv)).2).2

theorem declares_tokens : Declares declareToken (·.name) (fun _ => True) TerminalsHeld where
  room _ _ h := h.texts.room h.table.toValid
  nodup _ _ h := h.texts.nodup_names h.table.toValid
  outcome _ _ d h := h.declare_token d

theorem declares_nonterminals : Declares declareNonterminal (·.name) (·.rules ≠ [])
    (OwnersHeld g terminals augmented) where
  room _ _ h := h.texts.room h.table
  nodup _ _ h := h.texts.nodup_names h.table
  outcome _ _ nt h := h.declare_nonterminal nt

section Declares

variable {α : Type} {step : Naming → α → Naming × Option SymbolError} {nameOf : α → String}
  {flawless : α → Prop} {Holds : Naming → List String → Prop}

theorem Declares.exists_held (hd : Declares step nameOf flawless Holds) {as : List α}
    (he : each step n as = (n', none)) (h : ∃ names, Holds n names) : ∃ names, Holds n' names := by
  refine each_keeps (P := fun n => ∃ names, Holds n names) ?_ he h
  rintro n a n' hs ⟨names, h⟩
  have houtcome := hd.outcome n names a h
  rw [hs] at houtcome
  cases houtcome with
  | added _ _ holds _ => exact ⟨_, holds⟩
  | refused _ holds => exact ⟨_, holds⟩

/-- Declarations raise no issue when their names are fit one after another, none has a flaw, and
there are numbers for all of them; then their names are held behind the others. -/
theorem Declares.clean_each (hd : Declares step nameOf flawless Holds) (as : List α)
    (h : Holds n names) :
    (Clean (each step n as) ↔ n.issues = #[] ∧ AllFit names (as.map nameOf) ∧
      (∀ a ∈ as, flawless a) ∧ names.length + as.length + 2 ≤ maxSymbol + 1) ∧
    (Clean (each step n as) → Holds (each step n as).1 (names ++ as.map nameOf)) := by
  induction as generalizing n names with
  | nil =>
    have hroom := hd.room n names h
    have hfit := allFit_nil (hd.nodup n names h)
    simpa [each, Clean, hfit, hroom] using fun _ => h
  | cons a as ih =>
    have houtcome := hd.outcome n names a h
    unfold each
    generalize step n a = r at houtcome ⊢
    rw [List.map_cons, allFit_cons, List.forall_mem_cons, List.length_cons]
    cases houtcome with
    | added fit room holds issues =>
      obtain ⟨hclean, hheld⟩ := ih holds
      rw [List.append_assoc, List.length_append, List.length_singleton] at *
      refine ⟨?_, hheld⟩
      rw [hclean, issues]
      constructor
      · rintro ⟨⟨hissues, hfirst⟩, hfits, hrest, hroom⟩
        exact ⟨hissues, ⟨fit, hfits⟩, ⟨hfirst, hrest⟩, by omega⟩
      · rintro ⟨hissues, ⟨-, hfits⟩, ⟨hfirst, hrest⟩, hroom⟩
        exact ⟨⟨hissues, hfirst⟩, hfits, hrest, by omega⟩
    | @refused issue unfit holds =>
      obtain ⟨hclean, -⟩ := ih holds
      have hdirty : ¬ Clean (each step (n.report issue) as) := by
        intro hc
        exact issues_report_ne _ (hclean.mp hc).1
      refine ⟨iff_of_false hdirty ?_, fun hc => absurd hc hdirty⟩
      rintro ⟨-, ⟨hfit, -⟩, -⟩
      exact unfit hfit
    | @full n' e exhausted =>
      have hdirty : ¬ Clean (n', some e) := by
        rintro ⟨hnone, -⟩
        cases hnone
      refine ⟨iff_of_false hdirty ?_, fun hc => absurd hc hdirty⟩
      rintro ⟨-, -, -, hroom⟩
      omega

end Declares

theorem TerminalsHeld.each_literal (h : n.TerminalsHeld names) {ls : List String}
    (hls : ∀ l ∈ ls, isLiteral l = true) :
    ((ls.foldl withLiteral names).length + 2 ≤ maxSymbol + 1 ∧
      ∃ n', each declareLiteral n ls = (n', none) ∧
        n'.TerminalsHeld (ls.foldl withLiteral names) ∧ n'.issues = n.issues) ∨
    (maxSymbol + 1 < (ls.foldl withLiteral names).length + 2 ∧
      ∃ n' e, each declareLiteral n ls = (n', some e)) := by
  induction ls generalizing n names with
  | nil => exact Or.inl ⟨h.texts.room h.table.toValid, n, rfl, h, rfl⟩
  | cons l ls ih =>
    obtain ⟨hl, hrest⟩ := List.forall_mem_cons.mp hls
    rw [List.foldl_cons]
    unfold each
    rcases h.declare_literal hl with ⟨-, n₁, hdeclare, h₁, hissues⟩ | ⟨hfull, n₁, e, hdeclare⟩
    · rw [hdeclare, ← hissues]
      exact ih h₁ hrest
    · rw [hdeclare]
      have hlonger := length_le_withLiterals ls (withLiteral names l)
      exact Or.inr ⟨by omega, n₁, e, rfl⟩

/-! ### From the tokens to the start symbol -/

def nameTerminals (g : Grammar) : Naming × Option SymbolError :=
  andThen (each declareToken start (g.tokens.filterMap id))
    fun n => each declareLiteral n (literalsOf g)

def begin (g : Grammar) : Naming × Option SymbolError :=
  andThen (nameTerminals g) fun n => n.declareStart g

theorem literals_of : ∀ l ∈ literalsOf g, isLiteral l = true :=
  fun _ h => (List.mem_filter.mp h).2

theorem terminals_held (h : nameTerminals g = (n, none)) : ∃ names, n.TerminalsHeld names := by
  obtain ⟨n₁, h₁, hliterals⟩ := andThen_ok h
  obtain ⟨names, hheld⟩ := declares_tokens.exists_held h₁ ⟨[], terminals_held_start⟩
  rcases hheld.each_literal literals_of with
    ⟨-, n', hrun, hterminals, -⟩ | ⟨-, n', e, hrun⟩
  · cases hrun.symm.trans hliterals
    exact ⟨_, hterminals⟩
  · cases hrun.symm.trans hliterals

/-- However many declarations have been refused, the table holds terminals and an augmented name
that no nonterminal has. -/
theorem owners_held_begin (h : begin g = (n, none)) : ∃ terminals augmented,
    OwnersHeld g terminals augmented n (terminals ++ [augmented]) ∧ n.owners = #[] := by
  obtain ⟨n₁, h₁, hstart⟩ := andThen_ok h
  obtain ⟨terminals, hheld⟩ := terminals_held h₁
  rcases hheld.declare_start g with ⟨-, n', hdeclare, howners, hempty, -⟩ | ⟨-, n', e, hdeclare⟩
  · cases hdeclare.symm.trans hstart
    exact ⟨terminals, _, howners, hempty⟩
  · cases hdeclare.symm.trans hstart

end ParserTables.Naming

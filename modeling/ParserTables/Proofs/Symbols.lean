import Mathlib.Data.List.Basic
import ParserTables.Symbol

/-!
What every registration keeps of a symbol table: texts and numbers are inverse to each other, the
terminals come first, the start symbol is the first nonterminal, and the numbers stay within their
limit. A registration that succeeds finds its text in the table or adds it at the end.
-/

namespace ParserTables.SymbolTable

variable {t t' : SymbolTable} {text : String} {id : Nat} {kind : SymbolKind}

structure Valid (t : SymbolTable) : Prop where
  id_iff_text : ∀ text id, t.id? text = some id ↔ t.text? id = some text
  terminals_le : t.terminalCount ≤ t.size
  size_le : t.size ≤ maxSymbol + 1
  start_first : ∀ s, t.start = some s → s = t.terminalCount ∧ s < t.size

/-- Numbers that were given out keep their texts. -/
def Extends (t t' : SymbolTable) : Prop :=
  ∀ id text, t.text? id = some text → t'.text? id = some text

theorem Extends.refl (t : SymbolTable) : Extends t t := fun _ _ h => h

theorem Extends.trans {t₁ t₂ t₃ : SymbolTable} (h : Extends t₁ t₂) (k : Extends t₂ t₃) :
    Extends t₁ t₃ :=
  fun id text hid => k id text (h id text hid)

theorem Valid.text_lt (_ : t.Valid) (ht : t.text? id = some text) : id < t.size := by
  by_contra hge
  have hnone : t.texts[id]? = none := Array.getElem?_eq_none (Nat.le_of_not_lt hge)
  simp [text?, hnone] at ht

theorem Valid.text_of_lt (_ : t.Valid) (hlt : id < t.size) : ∃ text, t.text? id = some text :=
  ⟨t.texts[id], Array.getElem?_eq_getElem hlt⟩

theorem Valid.id_isSome_iff (h : t.Valid) : (t.id? text).isSome = true ↔ text ∈ t.texts.toList := by
  rw [Option.isSome_iff_exists, List.mem_iff_getElem?]
  refine exists_congr fun id => ?_
  rw [h.id_iff_text, text?, Array.getElem?_toList]

theorem Valid.id_unique (h : t.Valid) {a b : Nat} (ha : t.text? a = some text)
    (hb : t.text? b = some text) : a = b := by
  have hia := (h.id_iff_text text a).mpr ha
  have hib := (h.id_iff_text text b).mpr hb
  exact Option.some.inj (hia.symm.trans hib)

theorem Valid.nodup_texts (h : t.Valid) : t.texts.toList.Nodup := by
  refine List.pairwise_iff_getElem.mpr ?_
  intro i j hi hj hij heq
  have hfirst : t.text? i = some t.texts.toList[i] := by simp [text?]
  have hsecond : t.text? j = some t.texts.toList[i] := by
    rw [heq]
    simp [text?]
  have := h.id_unique hfirst hsecond
  omega

@[simp] theorem size_append : (t.append text).size = t.size + 1 := by
  simp [append, size]

@[simp] theorem terminalCount_append : (t.append text).terminalCount = t.terminalCount := rfl

theorem text_append : (t.append text).text? id = if id = t.size then some text else t.text? id :=
  Array.getElem?_push

theorem id_append (name : String) :
    (t.append text).id? name = if text = name then some t.size else t.id? name := by
  simp only [append, id?, Std.TreeMap.getElem?_insert, Std.LawfulEqOrd.compare_eq_iff_eq]

theorem extends_append (h : t.Valid) : Extends t (t.append text) := by
  intro id name hid
  have hlt := h.text_lt hid
  rw [text_append, if_neg (by omega)]
  exact hid

theorem valid_append (h : t.Valid) (fresh : t.id? text = none) (room : t.size ≤ maxSymbol) :
    (t.append text).Valid where
  id_iff_text name id := by
    rw [id_append, text_append]
    by_cases hid : id = t.size
    · subst hid
      rw [if_pos rfl]
      by_cases hname : text = name
      · simp [hname]
      · have hfree : t.id? name ≠ some t.size := by
          intro hold
          have := h.text_lt ((h.id_iff_text name t.size).mp hold)
          omega
        simp [hname, hfree]
    · rw [if_neg hid]
      by_cases hname : text = name
      · subst hname
        have hfree : t.text? id ≠ some text := by
          intro hold
          have := (h.id_iff_text text id).mpr hold
          simp [fresh] at this
        simp [hfree, Ne.symm hid]
      · rw [if_neg hname]
        exact h.id_iff_text name id
  terminals_le := by
    have := h.terminals_le
    simp only [terminalCount_append, size_append]
    omega
  size_le := by
    simp only [size_append]
    omega
  start_first s hs := by
    have := h.start_first s hs
    simp only [terminalCount_append, size_append]
    omega

theorem valid_new {endText errorText : String} (hne : endText ≠ errorText) :
    (new endText errorText).Valid where
  id_iff_text name id := by
    simp only [new, id?, text?, Std.TreeMap.getElem?_insert, Std.LawfulEqOrd.compare_eq_iff_eq]
    match id with
    | 0 => by_cases he : errorText = name <;> by_cases hn : endText = name <;>
        simp_all [endSymbol, errorSymbol]
    | 1 => by_cases he : errorText = name <;> by_cases hn : endText = name <;>
        simp_all [endSymbol, errorSymbol]
    | n + 2 => by_cases he : errorText = name <;> by_cases hn : endText = name <;>
        simp_all [endSymbol, errorSymbol]
  terminals_le := Nat.le_refl 2
  size_le := (by decide : 2 ≤ maxSymbol + 1)
  start_first s hs := by cases hs

theorem register_fresh (fresh : t.id? text = none) : t.register text kind =
    if maxSymbol < t.size then (.error (.tooMany maxSymbol t.size), t)
    else (.ok t.size, t.append text) := by
  unfold register
  rw [fresh]

theorem register_ok (hr : t.register text kind = (.ok id, t')) :
    t' = t ∧ t.id? text = some id ∨
      t.id? text = none ∧ t.size ≤ maxSymbol ∧ id = t.size ∧ t' = t.append text := by
  unfold register at hr
  split at hr
  · next found hfound =>
    split at hr
    · cases hr
      exact Or.inl ⟨rfl, hfound⟩
    · cases hr
  · next hfresh =>
    split at hr
    · cases hr
    · next hroom =>
      cases hr
      exact Or.inr ⟨hfresh, Nat.le_of_not_lt hroom, rfl, rfl⟩

theorem Valid.with_terminal (h : t.Valid) (fresh : t.id? text = none)
    (room : t.size ≤ maxSymbol) (all : t.size = t.terminalCount) (none : t.start = none) :
    ({ t.append text with terminalCount := t.terminalCount + 1 } : SymbolTable).Valid where
  id_iff_text := (valid_append h fresh room).id_iff_text
  terminals_le := by
    change t.terminalCount + 1 ≤ (t.append text).size
    simp only [size_append]
    omega
  size_le := (valid_append h fresh room).size_le
  start_first s hs := by
    change t.start = some s at hs
    rw [none] at hs
    cases hs

structure TerminalsOnly (t : SymbolTable) : Prop extends t.Valid where
  no_start : t.start = none
  all_terminal : t.size = t.terminalCount

theorem terminals_only_new {endText errorText : String} (hne : endText ≠ errorText) :
    (new endText errorText).TerminalsOnly :=
  { valid_new hne with no_start := rfl, all_terminal := rfl }

theorem terminals_only_register (h : t.TerminalsOnly)
    (hr : t.registerTerminal text = (.ok id, t')) : t'.TerminalsOnly ∧ Extends t t' := by
  unfold registerTerminal at hr
  split at hr
  · cases hr
    exact ⟨h, .refl t⟩
  · next hnone =>
    split at hr
    · cases hr
    · split at hr
      · next id' t'' hreg =>
        cases hr
        rcases register_ok hreg with ⟨rfl, hfound⟩ | ⟨hfresh, hroom, -, rfl⟩
        · have hlt := h.text_lt ((h.id_iff_text _ _).mp hfound)
          have hall := h.all_terminal
          have hterm : t''.isTerminal id = true := by
            simp only [isTerminal, decide_eq_true_eq]
            omega
          simp [hfound, hterm] at hnone
        · refine ⟨⟨h.toValid.with_terminal hfresh hroom h.all_terminal h.no_start, h.no_start, ?_⟩,
            extends_append h.toValid⟩
          have hall := h.all_terminal
          change (t.append text).size = t.terminalCount + 1
          simp only [size_append]
          omega
      · cases hr

theorem TerminalsOnly.register_terminal_fresh (h : t.TerminalsOnly) (fresh : t.id? text = none) :
    t.registerTerminal text =
      if maxSymbol < t.size then (.error (.tooMany maxSymbol t.size), t)
      else (.ok t.size, { t.append text with terminalCount := t.terminalCount + 1 }) := by
  have hall : ¬ t.terminalCount < t.size := by
    rw [h.all_terminal]
    exact Nat.lt_irrefl _
  unfold registerTerminal
  rw [fresh, register_fresh fresh]
  by_cases hfull : maxSymbol < t.size <;> simp [hall, hfull]

theorem TerminalsOnly.register_start_fresh (h : t.TerminalsOnly) (fresh : t.id? text = none) :
    t.registerStart text =
      if maxSymbol < t.size then (.error (.tooMany maxSymbol t.size), t)
      else (.ok t.size, { t.append text with start := some t.size }) := by
  have hall : ¬ t.terminalCount < t.size := by
    rw [h.all_terminal]
    exact Nat.lt_irrefl _
  unfold registerStart
  rw [h.no_start, register_fresh fresh]
  by_cases hfull : maxSymbol < t.size <;> simp [hall, hfull]

theorem register_start_ok (h : t.TerminalsOnly) (hr : t.registerStart text = (.ok id, t')) :
    t'.Valid ∧ Extends t t' ∧ t'.start = some t.size ∧ t'.terminalCount = t.terminalCount ∧
      t'.size = t.size + 1 ∧ t'.text? t.size = some text := by
  unfold registerStart at hr
  split at hr
  · cases hr
  · split at hr
    · cases hr
    · split at hr
      · next id' t'' hreg =>
        cases hr
        rcases register_ok hreg with ⟨rfl, hfound⟩ | ⟨hfresh, hroom, rfl, rfl⟩
        · have hlt := h.text_lt ((h.id_iff_text _ _).mp hfound)
          have hall := h.all_terminal
          have hkind : t''.kindOf id = .terminal := by
            simp only [kindOf, isTerminal, decide_eq_true_eq]
            rw [if_pos (by omega)]
          unfold register at hreg
          simp [hfound, hkind] at hreg
        · have hv := valid_append h.toValid hfresh hroom
          have hall := h.all_terminal
          refine ⟨⟨hv.id_iff_text, hv.terminals_le, hv.size_le, ?_⟩, extends_append h.toValid, rfl,
            rfl, size_append, ?_⟩
          · intro s hs
            cases hs
            change t.size = t.terminalCount ∧ t.size < (t.append text).size
            simp only [size_append]
            omega
          · change (t.append text).text? t.size = some text
            rw [text_append, if_pos rfl]
      · cases hr

theorem register_nonterminal_ok (h : t.Valid) (fresh : t.id? text = none)
    (hr : t.registerNonterminal text = (.ok id, t')) :
    t'.Valid ∧ Extends t t' ∧ t'.start = t.start ∧ t'.terminalCount = t.terminalCount ∧
      t'.size = t.size + 1 ∧ t'.text? t.size = some text := by
  rcases register_ok hr with ⟨-, hfound⟩ | ⟨-, hroom, -, rfl⟩
  · rw [fresh] at hfound
    cases hfound
  · refine ⟨valid_append h fresh hroom, extends_append h, rfl, rfl, size_append, ?_⟩
    rw [text_append, if_pos rfl]

end ParserTables.SymbolTable

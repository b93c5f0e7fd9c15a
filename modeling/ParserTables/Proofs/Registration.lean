import ParserTables.Proofs.Symbols

/-!
Registrations on a symbol table, one after another, in any order and with any texts. A registration
is refused and leaves the table as it was, or it finds its text, or it adds it behind all others.
So the answers that were given tell the kind of every symbol, and no number ever gets another text.
-/

namespace ParserTables

open SymbolTable (maxSymbol Extends)

inductive Registration where
  | terminal (text : String)
  | start (text : String)
  | nonterminal (text : String)
  deriving DecidableEq, Repr

namespace Registration

def text : Registration → String
  | .terminal text => text
  | .start text => text
  | .nonterminal text => text

def kind : Registration → SymbolKind
  | .terminal _ => .terminal
  | .start _ => .nonterminal
  | .nonterminal _ => .nonterminal

def early : Registration → Bool
  | .terminal _ => true
  | .start _ => true
  | .nonterminal _ => false

def on (r : Registration) (t : SymbolTable) : Except SymbolError Nat × SymbolTable :=
  match r with
  | .terminal text => t.registerTerminal text
  | .start text => t.registerStart text
  | .nonterminal text => t.registerNonterminal text

def addTo (r : Registration) (t : SymbolTable) : SymbolTable :=
  match r with
  | .terminal text => { t.append text with terminalCount := t.terminalCount + 1 }
  | .start text => { t.append text with start := some t.size }
  | .nonterminal text => t.append text

/-- When a registration is answered by a number, and the table that it leaves. The start symbol is
never registered twice. -/
inductive Admitted (t : SymbolTable) (r : Registration) : Nat → SymbolTable → Prop
  | known {id : Nat} : t.id? r.text = some id → t.kindOf id = r.kind →
      (∀ text, r ≠ .start text) → Admitted t r id t
  | new : t.id? r.text = none → t.size ≤ maxSymbol →
      (r.early = true → t.size = t.terminalCount) → Admitted t r t.size (r.addTo t)

end Registration

namespace SymbolTable

variable {t t' : SymbolTable} {id : Nat} {text : String} {kind : SymbolKind} {e : SymbolError}

theorem kindOf_eq_terminal : t.kindOf id = .terminal ↔ id < t.terminalCount := by
  unfold kindOf isTerminal
  by_cases h : id < t.terminalCount <;> simp [h]

theorem kindOf_eq_nonterminal : t.kindOf id = .nonterminal ↔ t.terminalCount ≤ id := by
  unfold kindOf isTerminal
  by_cases h : id < t.terminalCount
  · simp [h]
  · simp [h, Nat.le_of_not_lt h]

theorem register_known (hid : t.id? text = some id) :
    t.register text kind = if t.kindOf id = kind then (.ok id, t)
      else (.error (.otherKind text (t.kindOf id)), t) := by
  unfold register
  rw [hid]

theorem register_refused (hr : t.register text kind = (.error e, t')) : t' = t := by
  unfold register at hr
  split at hr
  · split at hr
    · cases hr
    · cases hr
      rfl
  · split at hr
    · cases hr
      rfl
    · cases hr

/-- The start symbol is a nonterminal, so there is none among terminals only. -/
theorem Valid.start_eq_none (h : t.Valid) (hall : t.size = t.terminalCount) : t.start = none := by
  cases hs : t.start with
  | none => rfl
  | some s =>
    obtain ⟨hfirst, hlt⟩ := h.start_first s hs
    omega

theorem Valid.with_start (h : t.Valid) (fresh : t.id? text = none)
    (room : t.size ≤ maxSymbol) (all : t.size = t.terminalCount) :
    ({ t.append text with start := some t.size } : SymbolTable).Valid := by
  have hv := valid_append h fresh room
  refine ⟨hv.id_iff_text, hv.terminals_le, hv.size_le, ?_⟩
  intro s hs
  cases hs
  change t.size = t.terminalCount ∧ t.size < (t.append text).size
  rw [size_append]
  omega

end SymbolTable

namespace Registration

variable {t t' : SymbolTable} {r : Registration} {id : Nat} {e : SymbolError}

theorem refused_unchanged (he : r.on t = (.error e, t')) : t' = t := by
  cases r with
  | terminal text =>
    simp only [on, SymbolTable.registerTerminal] at he
    split at he
    · cases he
    · split at he
      · cases he
        rfl
      · split at he
        · cases he
        · next hr =>
          cases he
          exact SymbolTable.register_refused hr
  | start text =>
    simp only [on, SymbolTable.registerStart] at he
    split at he
    · cases he
      rfl
    · split at he
      · cases he
        rfl
      · split at he
        · cases he
        · next hr =>
          cases he
          exact SymbolTable.register_refused hr
  | nonterminal text => exact SymbolTable.register_refused he

theorem on_known {found : Nat} (h : t.Valid) (hid : t.id? r.text = some found) :
    r.on t = (.ok id, t') ↔
      (t.kindOf found = r.kind ∧ ∀ text, r ≠ .start text) ∧ found = id ∧ t = t' := by
  have hlt := h.text_lt ((h.id_iff_text _ _).mp hid)
  cases r with
  | terminal text =>
    have hkind : t.isTerminal found = true ↔ t.kindOf found = .terminal := by
      rw [SymbolTable.kindOf_eq_terminal]
      simp [SymbolTable.isTerminal]
    change t.id? text = some found at hid
    by_cases hterminal : t.isTerminal found = true
    · simp [on, SymbolTable.registerTerminal, hid, Option.filter, hterminal,
          kind, hkind.mp hterminal]
    · have hlate : t.terminalCount < t.size := by
        simp only [SymbolTable.isTerminal, decide_eq_true_eq] at hterminal
        omega
      simp [on, SymbolTable.registerTerminal, hid, Option.filter, hterminal, hlate, kind,
        mt hkind.mpr hterminal]
  | start text =>
    change t.id? text = some found at hid
    have hnever : t.registerStart text ≠ (.ok id, t') := by
      unfold SymbolTable.registerStart
      cases hs : t.start with
      | some s => simp
      | none =>
        by_cases hlate : t.terminalCount < t.size
        · simp [hlate]
        · have hkind : t.kindOf found = .terminal := SymbolTable.kindOf_eq_terminal.mpr (by omega)
          simp [hlate, SymbolTable.register_known hid, hkind]
    exact iff_of_false hnever fun hfound => hfound.1.2 text rfl
  | nonterminal text =>
    change t.id? text = some found at hid
    change t.register text .nonterminal = _ ↔ _
    rw [SymbolTable.register_known hid]
    by_cases hkind : t.kindOf found = .nonterminal <;> simp [hkind, kind]

theorem on_fresh (h : t.Valid) (fresh : t.id? r.text = none) : r.on t = (.ok id, t') ↔
    (t.size ≤ maxSymbol ∧ (r.early = true → t.size = t.terminalCount)) ∧
      t.size = id ∧ r.addTo t = t' := by
  have hle := h.terminals_le
  have hearly : t.size = t.terminalCount ↔ ¬ t.terminalCount < t.size := by omega
  have hroom : t.size ≤ maxSymbol ↔ ¬ maxSymbol < t.size := Nat.not_lt.symm
  cases r with
  | terminal text =>
    change t.id? text = none at fresh
    change t.registerTerminal text = _ ↔ _
    unfold SymbolTable.registerTerminal
    rw [fresh, SymbolTable.register_fresh fresh, hearly, hroom]
    by_cases hlate : t.terminalCount < t.size <;> by_cases hfull : maxSymbol < t.size <;>
      simp [hlate, hfull, early, addTo]
  | start text =>
    change t.id? text = none at fresh
    change t.registerStart text = _ ↔ _
    unfold SymbolTable.registerStart
    rw [SymbolTable.register_fresh fresh, hearly, hroom]
    by_cases hlate : t.terminalCount < t.size
    · cases t.start <;> simp [hlate, early]
    · have hnone := h.start_eq_none (hearly.mpr hlate)
      by_cases hfull : maxSymbol < t.size <;> simp [hlate, hfull, hnone, early, addTo]
  | nonterminal text =>
    change t.id? text = none at fresh
    change t.register text .nonterminal = _ ↔ _
    rw [SymbolTable.register_fresh fresh, hroom]
    by_cases hfull : maxSymbol < t.size <;> simp [hfull, early, addTo]

theorem on_ok_iff (h : t.Valid) : r.on t = (.ok id, t') ↔ r.Admitted t id t' := by
  constructor
  · intro hr
    cases hid : t.id? r.text with
    | some found =>
      obtain ⟨⟨hkind, hstart⟩, rfl, rfl⟩ := (on_known h hid).mp hr
      exact .known hid hkind hstart
    | none =>
      obtain ⟨⟨hroom, hearly⟩, rfl, rfl⟩ := (on_fresh h hid).mp hr
      exact .new hid hroom hearly
  · intro ha
    cases ha with
    | known hid hkind hstart => exact (on_known h hid).mpr ⟨⟨hkind, hstart⟩, rfl, rfl⟩
    | new hid hroom hearly => exact (on_fresh h hid).mpr ⟨⟨hroom, hearly⟩, rfl, rfl⟩

namespace Admitted

theorem text_eq (h : t.Valid) (ha : r.Admitted t id t') : t'.text? id = some r.text := by
  cases ha with
  | known hid _ _ => exact (h.id_iff_text _ _).mp hid
  | new _ _ _ => cases r <;> exact SymbolTable.text_append.trans (if_pos rfl)

theorem kind_eq (h : t.Valid) (ha : r.Admitted t id t') : t'.kindOf id = r.kind := by
  have hle := h.terminals_le
  cases ha with
  | known _ hkind _ => exact hkind
  | new _ _ hearly =>
    cases r with
    | terminal text =>
      have hall := hearly rfl
      refine SymbolTable.kindOf_eq_terminal.mpr ?_
      simp only [addTo]
      omega
    | start text => exact SymbolTable.kindOf_eq_nonterminal.mpr hle
    | nonterminal text => exact SymbolTable.kindOf_eq_nonterminal.mpr hle

theorem extends_table (h : t.Valid) (ha : r.Admitted t id t') : Extends t t' := by
  cases ha with
  | known _ _ _ => exact .refl t
  | new _ _ _ => cases r <;> exact SymbolTable.extends_append h

theorem valid (h : t.Valid) (ha : r.Admitted t id t') : t'.Valid := by
  cases ha with
  | known _ _ _ => exact h
  | new fresh room early =>
    have hv := SymbolTable.valid_append h fresh room
    cases r with
    | terminal text =>
      have hall := early rfl
      exact h.with_terminal fresh room hall (h.start_eq_none hall)
    | start text => exact h.with_start fresh room (early rfl)
    | nonterminal text => exact hv

theorem kept_kind (ha : r.Admitted t id t') {old : Nat} (hold : old < t.size) :
    t'.kindOf old = t.kindOf old := by
  cases ha with
  | known _ _ _ => rfl
  | new _ _ hearly =>
    cases r with
    | terminal text =>
      have hall := hearly rfl
      have hnew : (addTo (.terminal text) t).kindOf old = .terminal :=
        SymbolTable.kindOf_eq_terminal.mpr (by simp only [addTo]; omega)
      rw [hnew, SymbolTable.kindOf_eq_terminal.mpr (by omega)]
    | start text => rfl
    | nonterminal text => rfl

theorem size_cases (ha : r.Admitted t id t') :
    t'.size = t.size ∨ id = t.size ∧ t'.size = t.size + 1 := by
  cases ha with
  | known _ _ _ => exact Or.inl rfl
  | new _ _ _ => cases r <;> exact Or.inr ⟨rfl, SymbolTable.size_append⟩

theorem terminalCount_le (ha : r.Admitted t id t') : t.terminalCount ≤ t'.terminalCount := by
  cases ha with
  | known _ _ _ => exact Nat.le_refl _
  | new _ _ _ =>
    cases r with
    | terminal text => exact Nat.le_succ _
    | start text => exact Nat.le_refl _
    | nonterminal text => exact Nat.le_refl _

theorem start_cases (h : t.Valid) (ha : r.Admitted t id t') :
    (∃ text, r = .start text) ∧ t.start = none ∧ t'.start = some id ∨
      (∀ text, r ≠ .start text) ∧ t'.start = t.start := by
  cases ha with
  | known _ _ hstart => exact Or.inr ⟨hstart, rfl⟩
  | new _ _ hearly =>
    cases r with
    | terminal text => exact Or.inr ⟨by simp, rfl⟩
    | start text => exact Or.inl ⟨⟨text, rfl⟩, h.start_eq_none (hearly rfl), rfl⟩
    | nonterminal text => exact Or.inr ⟨by simp, rfl⟩

end Admitted

end Registration

/-! ### Registrations one after another -/

abbrev Answered := Registration × Except SymbolError Nat

namespace SymbolTable

variable {t t' : SymbolTable} {endText errorText : String} {log : List Answered}

def after (t : SymbolTable) : List Registration → SymbolTable
  | [] => t
  | r :: rs => (r.on t).2.after rs

def answers (t : SymbolTable) : List Registration → List Answered
  | [] => []
  | r :: rs => (r, (r.on t).1) :: (r.on t).2.answers rs

/-- What the answers so far tell about a table. -/
structure Logged (endText errorText : String) (log : List Answered) (t : SymbolTable) : Prop
    extends t.Valid where
  end_text : t.text? endSymbol = some endText
  error_text : t.text? errorSymbol = some errorText
  two_terminals : 2 ≤ t.terminalCount
  given : ∀ r id, (r, .ok id) ∈ log → t.text? id = some r.text ∧ t.kindOf id = r.kind
  origin : ∀ id, 2 ≤ id → id < t.size → ∃ r, (r, .ok id) ∈ log
  start_iff : ∀ id, t.start = some id ↔ ∃ text, (.start text, .ok id) ∈ log

theorem logged_new (hne : endText ≠ errorText) :
    Logged endText errorText [] (new endText errorText) :=
  { valid_new hne with
    end_text := rfl
    error_text := rfl
    two_terminals := Nat.le_refl 2
    given := by simp
    origin := by
      intro id hid hlt
      change id < 2 at hlt
      omega
    start_iff := by simp [new] }

theorem Logged.refused (h : Logged endText errorText log t) (r : Registration) (e : SymbolError) :
    Logged endText errorText (log ++ [(r, .error e)]) t :=
  { h with
    given := by simpa using h.given
    origin := by simpa using h.origin
    start_iff := by simpa using h.start_iff }

theorem Logged.admitted {r : Registration} {id : Nat} (h : Logged endText errorText log t)
    (ha : r.Admitted t id t') : Logged endText errorText (log ++ [(r, .ok id)]) t' := by
  have hv := h.toValid
  have hextends := ha.extends_table hv
  constructor
  case toValid => exact ha.valid hv
  case end_text => exact hextends _ _ h.end_text
  case error_text => exact hextends _ _ h.error_text
  case two_terminals => exact Nat.le_trans h.two_terminals ha.terminalCount_le
  case given =>
    intro r' id' hmem
    rcases List.mem_append.mp hmem with hold | hnew
    · obtain ⟨htext, hkind⟩ := h.given r' id' hold
      exact ⟨hextends _ _ htext, (ha.kept_kind (hv.text_lt htext)).trans hkind⟩
    · obtain ⟨rfl, rfl⟩ : r' = r ∧ id' = id := by simpa using hnew
      exact ⟨ha.text_eq hv, ha.kind_eq hv⟩
  case origin =>
    intro id' htwo hlt
    by_cases hold : id' < t.size
    · obtain ⟨r', hr'⟩ := h.origin id' htwo hold
      exact ⟨r', List.mem_append_left _ hr'⟩
    · obtain ⟨rfl, hsize⟩ := ha.size_cases.resolve_left (by omega)
      obtain rfl : id' = t.size := by omega
      exact ⟨r, by simp⟩
  case start_iff =>
    intro id'
    rcases ha.start_cases hv with ⟨⟨text, rfl⟩, hnone, hstart⟩ | ⟨hother, hstart⟩
    · have hno : ∀ id text', (.start text', .ok id) ∉ log := by
        intro id text' hmem
        have := (h.start_iff id).mpr ⟨text', hmem⟩
        rw [hnone] at this
        cases this
      simp [hstart, hno, eq_comm]
    · rw [hstart, h.start_iff]
      refine exists_congr fun text => ?_
      have hne : (.start text, .ok id') ≠ ((r, .ok id) : Answered) := by
        intro heq
        exact hother text (Prod.ext_iff.mp heq).1.symm
      simp [hne]

theorem Logged.after (h : Logged endText errorText log t) (rs : List Registration) :
    Logged endText errorText (log ++ t.answers rs) (t.after rs) := by
  induction rs generalizing t log with
  | nil => simpa [answers, SymbolTable.after] using h
  | cons r rs ih =>
    have hnext : Logged endText errorText (log ++ [(r, (r.on t).1)]) (r.on t).2 := by
      cases hr : r.on t with
      | mk answer t' =>
        cases answer with
        | error e =>
          cases Registration.refused_unchanged hr
          exact h.refused r e
        | ok id => exact h.admitted ((Registration.on_ok_iff h.toValid).mp hr)
    have hrest := ih hnext
    rwa [List.append_assoc] at hrest

theorem extends_after (h : t.Valid) (rs : List Registration) : Extends t (t.after rs) := by
  induction rs generalizing t with
  | nil => exact .refl t
  | cons r rs ih =>
    cases hr : r.on t with
    | mk answer t' =>
      unfold SymbolTable.after
      rw [hr]
      cases answer with
      | error e =>
        cases Registration.refused_unchanged hr
        exact ih h
      | ok id =>
        have ha := (Registration.on_ok_iff h).mp hr
        exact (ha.extends_table h).trans (ih (ha.valid h))

/-- A table in which texts and numbers belong together one to one, and in which the answers tell
the kinds: the terminals come first, and the start symbol right behind them. -/
structure Consistent (endText errorText : String) (log : List Answered) (t : SymbolTable) :
    Prop where
  distinct : t.texts.toList.Nodup
  inverse : ∀ text id, t.id? text = some id ↔ t.text? id = some text
  numbered : ∀ id, (∃ text, t.text? id = some text) ↔ id < t.size
  size_le : t.size ≤ 65536
  sentinels : t.text? 0 = some endText ∧ t.text? 1 = some errorText
  given : ∀ r id, (r, .ok id) ∈ log → t.text? id = some r.text
  terminal_iff : ∀ id, t.isTerminal id = true ↔ id < t.terminalCount
  terminal_given : ∀ id, t.isTerminal id = true ↔
    id = 0 ∨ id = 1 ∨ ∃ r, r.kind = .terminal ∧ (r, .ok id) ∈ log
  nonterminal_given : ∀ id, t.isNonterminal id = true ↔
    ∃ r, r.kind = .nonterminal ∧ (r, .ok id) ∈ log
  one_kind : ∀ id, id < t.size → (t.isTerminal id = true ↔ t.isNonterminal id = false)
  in_order : t.terminals ++ t.nonterminals = List.range t.size
  start_given : ∀ id, t.start = some id ↔ ∃ text, (.start text, .ok id) ∈ log
  start_first : ∀ id, t.start = some id → t.nonterminals.head? = some id

theorem isTerminal_iff (id : Nat) : t.isTerminal id = true ↔ id < t.terminalCount := by
  simp [isTerminal]

theorem isNonterminal_iff (id : Nat) :
    t.isNonterminal id = true ↔ t.terminalCount ≤ id ∧ id < t.size := by
  simp [isNonterminal]

theorem Logged.kind_given (h : Logged endText errorText log t) {id : Nat} (htwo : 2 ≤ id)
    (hlt : id < t.size) (kind : SymbolKind) :
    t.kindOf id = kind ↔ ∃ r, r.kind = kind ∧ (r, .ok id) ∈ log := by
  constructor
  · intro hkind
    obtain ⟨r, hr⟩ := h.origin id htwo hlt
    exact ⟨r, ((h.given r id hr).2.symm.trans hkind), hr⟩
  · rintro ⟨r, hkind, hr⟩
    exact (h.given r id hr).2.trans hkind

theorem Logged.consistent (h : Logged endText errorText log t) :
    Consistent endText errorText log t := by
  have hv := h.toValid
  have hle := h.terminals_le
  have htwo := h.two_terminals
  constructor
  case distinct => exact hv.nodup_texts
  case inverse => exact h.id_iff_text
  case numbered => exact fun id => ⟨fun ⟨_, ht⟩ => hv.text_lt ht, hv.text_of_lt⟩
  case size_le => exact h.size_le
  case sentinels => exact ⟨h.end_text, h.error_text⟩
  case given => exact fun r id hr => (h.given r id hr).1
  case terminal_iff => exact isTerminal_iff
  case terminal_given =>
    intro id
    rw [isTerminal_iff]
    constructor
    · intro hlt
      by_cases hfirst : id < 2
      · omega
      · have hgiven := h.kind_given (Nat.le_of_not_lt hfirst) (Nat.lt_of_lt_of_le hlt hle) .terminal
        exact Or.inr (Or.inr (hgiven.mp (kindOf_eq_terminal.mpr hlt)))
    · rintro (rfl | rfl | ⟨r, hkind, hr⟩)
      · omega
      · omega
      · exact kindOf_eq_terminal.mp ((h.given r id hr).2.trans hkind)
  case nonterminal_given =>
    intro id
    rw [isNonterminal_iff]
    constructor
    · rintro ⟨hge, hlt⟩
      exact (h.kind_given (Nat.le_trans htwo hge) hlt .nonterminal).mp
        (kindOf_eq_nonterminal.mpr hge)
    · rintro ⟨r, hkind, hr⟩
      obtain ⟨htext, hkind'⟩ := h.given r id hr
      exact ⟨kindOf_eq_nonterminal.mp (hkind'.trans hkind), hv.text_lt htext⟩
  case one_kind =>
    intro id hlt
    rw [← Bool.not_eq_true, isTerminal_iff, isNonterminal_iff]
    omega
  case in_order =>
    unfold terminals nonterminals
    rw [← List.range_add, Nat.add_sub_cancel' hle]
  case start_given => exact h.start_iff
  case start_first =>
    intro id hid
    obtain ⟨rfl, hlt⟩ := h.start_first id hid
    have hne : t.size - t.terminalCount ≠ 0 := by omega
    simp [nonterminals, List.head?_range, hne]

/-- Whatever is registered in whatever order, the table is consistent, numbers keep their texts
whatever is registered afterwards, registrations succeed exactly when they are admitted, and those
that are refused change nothing. -/
theorem registrations_consistent (hne : endText ≠ errorText) (rs : List Registration) :
    let t := (new endText errorText).after rs
    Consistent endText errorText ((new endText errorText).answers rs) t ∧
    (∀ more, Extends t (t.after more)) ∧
    (∀ (r : Registration) id t', r.on t = (.ok id, t') ↔ r.Admitted t id t') ∧
    ∀ (r : Registration) e t', r.on t = (.error e, t') → t' = t := by
  intro t
  have hlogged := (logged_new hne).after rs
  exact ⟨hlogged.consistent, extends_after hlogged.toValid,
    fun _ _ _ => Registration.on_ok_iff hlogged.toValid,
    fun _ _ _ => Registration.refused_unchanged⟩

def mixedCalls : List Registration :=
  [.terminal "a", .start "a", .start "s'", .terminal "b", .terminal "a", .nonterminal "a",
    .nonterminal "s", .start "t", .nonterminal "s'", .nonterminal "s"]

theorem mixed_calls_consistent : "END_" ≠ "%error" ∧
    (new "END_" "%error").answers mixedCalls = mixedCalls.zip
      [.ok 2, .error (.otherKind "a" .terminal), .ok 3, .error (.lateTerminal "b"), .ok 2,
        .error (.otherKind "a" .terminal), .ok 4, .error (.secondStart "s'"), .ok 3, .ok 4] ∧
    Consistent "END_" "%error" ((new "END_" "%error").answers mixedCalls)
      ((new "END_" "%error").after mixedCalls) :=
  ⟨by decide, by decide +kernel, (registrations_consistent (by decide) mixedCalls).1⟩

end SymbolTable

end ParserTables

import ParserTables.Proofs.Execution

/-!
Recovery from syntax errors. A trap puts a run into recovery, and the shifts of tokens take it out
again: `recoveryShifts` of them are counted, and the one behind these ends the recovery. In
recovery a token that the state on top has nothing to do on is discarded without a report; out of
it the token is recorded as a new syntax error.
-/

namespace ParserTables

namespace Event

variable {past : List Event}

def isTrap : Event → Bool
  | .trap _ _ => true
  | _ => false

/-- The tokens shifted behind the last trap, where the events are given last first. -/
def shiftsSinceTrap : List Event → Nat
  | [] => 0
  | .trap _ _ :: _ => 0
  | .shift _ _ :: past => shiftsSinceTrap past + 1
  | _ :: past => shiftsSinceTrap past

end Event

def Outcome.errors : Outcome → List SyntaxError
  | .next c _ => c.errors
  | .stop c _ _ => c.errors

namespace Table

variable {t : Table} {s : Stream} {c c' : Config} {event event' : Option Event} {state : Int}
  {token : Token} {past past' : List Event}

/-- How a step that the run goes on after changes the flag and the counter of a recovery. -/
inductive Counted (c : Config) : Option Event → Config → Prop
  | shift {token : Token} {flag : Bool} {c' : Config} :
      c'.recovering = (countShift c).recovering → c'.shifts = (countShift c).shifts →
      Counted c (some (.shift token flag)) c'
  | reduce {rule : Int} {flag : Bool} {c' : Config} : c'.recovering = c.recovering →
      c'.shifts = c.shifts → Counted c (some (.reduce rule flag)) c'
  | discard {c' : Config} : c'.recovering = c.recovering → c'.shifts = c.shifts →
      Counted c none c'
  | trap {token : Token} {popped : Nat} {c' : Config} : c'.recovering = true → c'.shifts = 0 →
      Counted c (some (.trap token popped)) c'

theorem advance_next (h : c.advance event = .ok (.next c' event')) :
    event' = event ∧ c'.recovering = c.recovering ∧ c'.shifts = c.shifts := by
  unfold Config.advance at h
  split at h
  · cases h
    exact ⟨rfl, rfl, rfl⟩
  · cases h
  · cases h

theorem shiftStep_counted (h : shiftStep c state = .ok (.next c' event)) : Counted c event c' := by
  unfold shiftStep at h
  split at h
  · cases h
  · dsimp only at h
    split at h
    · cases h
      exact .shift rfl rfl
    · obtain ⟨rfl, hflag, hcount⟩ := advance_next h
      exact .shift hflag hcount

theorem reduceStep_counted {rule : Int} (h : t.reduceStep c rule = .ok (.next c' event)) :
    Counted c event c' := by
  unfold reduceStep at h
  obtain ⟨count, -, h⟩ := bind_eq_ok.mp h
  obtain ⟨popped, hpop, h⟩ := bind_eq_ok.mp h
  obtain ⟨lhs, -, h⟩ := bind_eq_ok.mp h
  obtain ⟨top, -, h⟩ := bind_eq_ok.mp h
  obtain ⟨next, -, h⟩ := bind_eq_ok.mp h
  obtain ⟨stack, -, hstack⟩ := bind_eq_ok.mp hpop
  cases hstack
  split at h
  · cases h
    exact .reduce rfl rfl
  · obtain ⟨name, -, h⟩ := bind_eq_ok.mp h
    cases h

theorem acceptStep_stops {rule : Int} : t.acceptStep c rule ≠ .ok (.next c' event) := by
  intro h
  unfold acceptStep at h
  obtain ⟨count, -, h⟩ := bind_eq_ok.mp h
  obtain ⟨popped, -, h⟩ := bind_eq_ok.mp h
  cases h

theorem trapStep_counted (h : t.trapStep c token = .ok (.next c' event)) : Counted c event c' := by
  unfold trapStep at h
  obtain ⟨top, -, h⟩ := bind_eq_ok.mp h
  obtain ⟨expected, -, h⟩ := bind_eq_ok.mp h
  obtain ⟨depth, -, h⟩ := bind_eq_ok.mp h
  cases depth with
  | none => cases h
  | some popped =>
    obtain ⟨state, -, h⟩ := bind_eq_ok.mp h
    obtain ⟨⟨kind, next⟩, -, h⟩ := bind_eq_ok.mp h
    cases kind with
    | shift =>
      cases h
      exact .trap rfl rfl
    | _ => cases h

theorem errorStep_counted (h : t.errorStep c state = .ok (.next c' event)) :
    Counted c event c' := by
  unfold errorStep at h
  split at h
  · cases h
  · next token _ =>
    have hdone : ∀ discards : Bool, (if (!discards) = true then t.trapStep c token
        else if token.isEnd = true then .ok (.stop c none .abandoned) else c.advance none) =
          .ok (.next c' event) → Counted c event c' := by
      intro discards h
      split at h
      · exact trapStep_counted h
      · split at h
        · cases h
        · obtain ⟨rfl, hflag, hcount⟩ := advance_next h
          exact .discard hflag hcount
    cases hr : c.recovering with
    | true =>
      rw [hr] at h
      exact hdone true h
    | false =>
      rw [hr] at h
      obtain ⟨discards, -, h⟩ := bind_eq_ok.mp h
      exact hdone discards h

theorem step_counted (h : t.step c = .ok (.next c' event)) : Counted c event c' := by
  unfold step at h
  obtain ⟨state, -, h⟩ := bind_eq_ok.mp h
  obtain ⟨⟨kind, data⟩, -, h⟩ := bind_eq_ok.mp h
  cases kind with
  | shift => exact shiftStep_counted h
  | reduce => exact reduceStep_counted h
  | accept => exact absurd h acceptStep_stops
  | _ => exact errorStep_counted h

/-- The flag and the counter of a configuration, by the events that led to it. -/
structure Recovery (past : List Event) (c : Config) : Prop where
  flag : c.recovering = true ↔
    past.any Event.isTrap = true ∧ Event.shiftsSinceTrap past ≤ recoveryShifts
  count : c.recovering = true → c.shifts = Event.shiftsSinceTrap past

theorem Recovery.shift {flag : Bool} (h : Recovery past c)
    (hflag : c'.recovering = (countShift c).recovering)
    (hcount : c'.shifts = (countShift c).shifts) : Recovery (.shift token flag :: past) c' := by
  have hsince : Event.shiftsSinceTrap (.shift token flag :: past) =
      Event.shiftsSinceTrap past + 1 := rfl
  have htrap : (Event.shift token flag :: past).any Event.isTrap = past.any Event.isTrap := rfl
  unfold countShift at hflag hcount
  by_cases hr : c.recovering = true
  · obtain ⟨htrapped, hle⟩ := h.flag.mp hr
    have heq := h.count hr
    by_cases hlt : c.shifts < recoveryShifts
    · simp only [hr, hlt, if_true] at hflag hcount
      refine ⟨iff_of_true hflag ⟨htrap ▸ htrapped, ?_⟩, fun _ => ?_⟩ <;> omega
    · simp only [hr, hlt, if_true, if_false] at hflag hcount
      constructor
      · rw [hflag, hsince]
        refine iff_of_false (by simp) ?_
        rintro ⟨-, hle'⟩
        omega
      · intro hr'
        cases hflag.symm.trans hr'
  · simp only [hr, Bool.false_eq_true, if_false] at hflag hcount
    constructor
    · rw [hflag, htrap, hsince]
      refine iff_of_false (by simp) ?_
      rintro ⟨htrapped, hle'⟩
      exact hr (h.flag.mpr ⟨htrapped, by omega⟩)
    · intro hr'
      cases hflag.symm.trans hr'

theorem Recovery.step (h : Recovery past c) (hc : Counted c event c')
    (hafter : Observer.recorder.after past event = .ok past') : Recovery past' c' := by
  cases hc with
  | shift hflag hcount =>
    cases hafter
    exact h.shift hflag hcount
  | reduce hflag hcount =>
    cases hafter
    exact ⟨hflag ▸ h.flag, fun hr => hcount.trans (h.count (hflag ▸ hr))⟩
  | discard hflag hcount =>
    cases hafter
    exact ⟨hflag ▸ h.flag, fun hr => hcount.trans (h.count (hflag ▸ hr))⟩
  | trap hflag hcount =>
    cases hafter
    exact ⟨iff_of_true hflag ⟨rfl, Nat.zero_le _⟩, fun _ => hcount⟩

theorem Reaches.recovery (h : t.Reaches Observer.recorder [] s past c) : Recovery past c := by
  induction h with
  | start _ => exact ⟨iff_of_false (by simp) (by simp), by simp⟩
  | step _ hstep hafter ih => exact ih.step (step_counted hstep) hafter

/-- The state on top has nothing to do on the token ahead, and throws no tokens away. -/
def Unexpected (t : Table) (c : Config) (token : Token) (state : Int) : Prop :=
  c.ahead = some token ∧ c.top = .ok state ∧ t.throwsAway state = .ok false ∧
    ∃ data, t.action state (t.terminalOf (some token)) = .ok (.nothing, data)

def Reports (t : Table) (c : Config) (token : Token) (state : Int) : Prop :=
  ∃ outcome names, t.step c = .ok outcome ∧ t.expectedNames state = .ok names ∧
    outcome.errors = c.errors ++ [⟨token, names⟩]

/-- The next step only reads on, or gives up at the end of input. -/
def Discards (t : Table) (c : Config) (token : Token) : Prop :=
  t.step c = if token.isEnd = true then .ok (.stop c none .abandoned) else c.advance none

theorem Unexpected.step_eq (h : t.Unexpected c token state) : t.step c =
    if c.recovering = true then
      if token.isEnd = true then .ok (.stop c none .abandoned) else c.advance none
    else t.trapStep c token := by
  obtain ⟨hahead, htop, hthrows, data, haction⟩ := h
  have herror := Automaton.error_step_eq hahead hthrows
  rw [Bool.or_false] at herror
  rw [← herror]
  unfold step
  rw [htop, hahead]
  simp only [bind, Except.bind]
  rw [haction]

theorem Unexpected.discards (h : t.Unexpected c token state) (hr : c.recovering = true) :
    t.Discards c token := by
  unfold Discards
  rw [h.step_eq, if_pos hr]

theorem advance_errors {outcome : Outcome} (h : c.advance event = .ok outcome) :
    outcome.errors = c.errors := by
  unfold Config.advance at h
  split at h
  · cases h
    rfl
  · cases h
    rfl
  · cases h

theorem Discards.silent (h : t.Discards c token) : ¬t.Reports c token state := by
  rintro ⟨outcome, names, hstep, -, herrors⟩
  have hsame : outcome.errors = c.errors := by
    rw [h] at hstep
    split at hstep
    · cases hstep
      rfl
    · exact advance_errors hstep
  simp [hsame] at herrors

theorem trapStep_errors {outcome : Outcome} {names : List String} (htop : c.top = .ok state)
    (hnames : t.expectedNames state = .ok names) (h : t.trapStep c token = .ok outcome) :
    outcome.errors = c.errors ++ [⟨token, names⟩] := by
  unfold trapStep at h
  obtain ⟨state', htop', h⟩ := bind_eq_ok.mp h
  cases htop.symm.trans htop'
  obtain ⟨names', hnames', h⟩ := bind_eq_ok.mp h
  cases hnames.symm.trans hnames'
  obtain ⟨depth, -, h⟩ := bind_eq_ok.mp h
  cases depth with
  | none =>
    cases h
    rfl
  | some popped =>
    obtain ⟨state, -, h⟩ := bind_eq_ok.mp h
    obtain ⟨⟨kind, next⟩, -, h⟩ := bind_eq_ok.mp h
    cases kind <;> cases h <;> rfl

end Table

namespace Table

variable {σ : Type} {t : Table} {o : Observer σ} {start seen : σ} {s : Stream} {c : Config}
  {n shifts : Nat} {token : Token} {state : Int}

/-- What a run comes to in the given number of steps, if it goes on for so long. -/
def point? (t : Table) (o : Observer σ) (start : σ) (s : Stream) : Nat → Option (σ × Config)
  | 0 =>
    match s.next with
    | .ok (token, stream) => some (start,
      ⟨StateStack.empty.push t.initialState, some token, stream, false, 0, []⟩)
    | .error _ => none
  | n + 1 =>
    match t.point? o start s n with
    | none => none
    | some (seen, c) =>
      match t.step c with
      | .ok (.next c' event) => (o.after seen event).toOption.map fun seen' => (seen', c')
      | _ => none

theorem reaches_of_point (h : t.point? o start s n = some (seen, c)) :
    t.Reaches o start s seen c := by
  induction n generalizing seen c with
  | zero =>
    unfold point? at h
    split at h
    · next hnext =>
      cases h
      exact .start hnext
    · cases h
  | succ n ih =>
    unfold point? at h
    split at h
    · cases h
    · next hpoint =>
      split at h
      · next hstep =>
        obtain ⟨seen', hafter, hsome⟩ := Option.map_eq_some_iff.mp h
        cases hsome
        refine (ih hpoint).step hstep ?_
        revert hafter
        cases o.after _ _ <;> simp [Except.toOption]
      · cases h

/-- Whether a run comes in `n` steps to an unexpected token, `shifts` tokens behind a trap. -/
def surprisedAfter (t : Table) (s : Stream) (n shifts : Nat) (token : Token) (state : Int) : Bool :=
  match t.point? Observer.recorder [] s n with
  | none => false
  | some (past, c) =>
    past.any Event.isTrap && Event.shiftsSinceTrap past = shifts && c.ahead = some token &&
      c.top.toOption = some state && (t.throwsAway state).toOption = some false &&
      (t.action state (t.terminalOf (some token))).toOption.any (·.1 = .nothing)

theorem eq_ok_of_toOption {α ε : Type} {x : Except ε α} {a : α} (h : x.toOption = some a) :
    x = .ok a := by
  cases x with
  | error e => cases h
  | ok b => exact congrArg Except.ok (Option.some.inj h)

theorem exists_surprise (h : t.surprisedAfter s n shifts token state = true) : ∃ past c,
    t.Reaches Observer.recorder [] s past c ∧ past.any Event.isTrap = true ∧
      Event.shiftsSinceTrap past = shifts ∧ t.Unexpected c token state := by
  unfold surprisedAfter at h
  split at h
  · cases h
  · next past c hpoint =>
    simp only [Bool.and_eq_true, decide_eq_true_eq, Option.any_eq_true] at h
    obtain ⟨⟨⟨⟨⟨htrap, hshifts⟩, hahead⟩, htop⟩, hthrows⟩, ⟨kind, data⟩, haction, hkind⟩ := h
    cases hkind
    exact ⟨past, c, reaches_of_point hpoint, htrap, hshifts, hahead, eq_ok_of_toOption htop,
      eq_ok_of_toOption hthrows, data, eq_ok_of_toOption haction⟩

end Table

namespace Automaton

variable {g : Grammar} {m : Automaton} {t : Table} {s : Stream} {c : Config} {ks : List ItemSet}
  {xs : List Nat} {token : Token} {state : Int} {past : List Event}

theorem Generated.exists_trap (h : Generated g m t) (hs : m.Stands ks c.stack.states)
    (hne : ks ≠ []) (token : Token) : ∃ outcome, t.trapStep c token = .ok outcome := by
  obtain ⟨k, ks₀, rfl⟩ := List.exists_cons_of_ne_nil hne
  obtain ⟨n, htop, hn⟩ := hs.top
  obtain ⟨names, hnames⟩ := h.expected_names hn
  unfold Table.trapStep
  rw [htop]
  simp only [bind, Except.bind]
  rw [hnames]
  dsimp only
  rcases h.trap_depth hs hne with hnone | ⟨popped, k', ks', hsome, hdrop, -⟩
  · rw [hnone]
    exact ⟨_, rfl⟩
  · have hs' : m.Stands (k' :: ks') (c.stack.drop popped).states := hdrop ▸ hs.drop popped
    obtain ⟨n', htop', hn'⟩ := Stands.top (c := ⟨c.stack.drop popped, c.ahead, c.stream, true, 0,
      c.errors ++ [⟨token, names⟩]⟩) hs'
    rw [hsome]
    dsimp only
    rw [htop']
    dsimp only
    rw [h.shows.action_eq hn' (h.searchable k')]
    dsimp only
    split <;> exact ⟨_, rfl⟩

/-- Outside of recovery an unexpected token is recorded, whether its error is trapped or not. -/
theorem Generated.reports (h : Generated g m t) (hc : m.Follows c xs)
    (hu : t.Unexpected c token state) (hr : c.recovering = false) : t.Reports c token state := by
  obtain ⟨ks₀, hp, hs⟩ := hc.stack
  obtain ⟨k, ks, rfl⟩ := hp.exists_cons
  obtain ⟨n, htop, hn⟩ := hs.top
  cases hu.2.1.symm.trans htop
  obtain ⟨names, hnames⟩ := h.expected_names hn
  obtain ⟨outcome, htrap⟩ := h.exists_trap hs (by simp) token
  refine ⟨outcome, names, ?_, hnames, Table.trapStep_errors htop hnames htrap⟩
  rw [hu.step_eq]
  simpa [hr] using htrap

theorem Generated.follows_of_reaches (h : Generated g m t)
    (hr : t.Reaches Observer.recorder [] s past c) : ∃ xs, m.Follows c xs := by
  obtain ⟨xs, -, hc, -, -⟩ := h.reaches_invariant (P := fun _ _ _ _ => True)
    (fun _ _ _ => trivial) (fun _ _ _ => trivial) hr
  exact ⟨xs, hc⟩

/-- After a trap an unexpected token is recorded as a new error if and only if more than
`recoveryShifts` tokens have been shifted since the last trap. Up to that many the parser reads on
without a report, or gives up where the input ends. -/
theorem reported_iff_recovered {options : CompileOptions} {cg : CompiledGrammar}
    (h : (g.compile options).result = .ok cg) (ht : cg.table = some t)
    (hr : t.Reaches Observer.recorder [] s past c) (htrap : past.any Event.isTrap = true)
    (hu : t.Unexpected c token state) :
    (t.Reports c token state ↔ Table.recoveryShifts < Event.shiftsSinceTrap past) ∧
      (Event.shiftsSinceTrap past ≤ Table.recoveryShifts → t.Discards c token) := by
  have hg := generated_of_compile h ht
  obtain ⟨xs, hc⟩ := hg.follows_of_reaches hr
  have hflag := hr.recovery.flag
  have hdiscards : Event.shiftsSinceTrap past ≤ Table.recoveryShifts → t.Discards c token :=
    fun hle => hu.discards (hflag.mpr ⟨htrap, hle⟩)
  refine ⟨⟨?_, ?_⟩, hdiscards⟩
  · intro hreports
    by_contra hle
    exact (hdiscards (Nat.le_of_not_lt hle)).silent hreports
  · intro hlt
    refine hg.reports hc hu (Bool.eq_false_iff.mpr ?_)
    intro hrecovering
    exact absurd (hflag.mp hrecovering).2 (Nat.not_le_of_lt hlt)

/-- Four tokens behind a trap have ended the recovery, and the stop that follows is recorded. -/
theorem letters_reports_after_four : ∃ cg t past c token state,
    (Grammar.letters.compile ⟨false, none⟩).result = .ok cg ∧ cg.table = some t ∧
      t.Reaches Observer.recorder [] (Stream.ofTerminals [3, 3, 2, 2, 2, 3]) past c ∧
      past.any Event.isTrap = true ∧ Event.shiftsSinceTrap past = 4 ∧
      t.Unexpected c token state ∧ t.Reports c token state := by
  obtain ⟨cg, t, h, ht, hpoint⟩ := @Grammar.exists_table Grammar.letters ⟨false, none⟩
    (fun t => t.surprisedAfter (Stream.ofTerminals [3, 3, 2, 2, 2, 3]) 10 4
      ⟨.ordinary, 3, [], 1, 1⟩ 3) (by decide +kernel)
  obtain ⟨past, c, hr, htrap, hshifts, hu⟩ := Table.exists_surprise hpoint
  refine ⟨cg, t, past, c, _, _, h, ht, hr, htrap, hshifts, hu, ?_⟩
  refine (reported_iff_recovered h ht hr htrap hu).1.mpr ?_
  rw [hshifts]
  decide

/-- Behind `recoveryShifts` tokens the parser is still in recovery, and the stop that follows is not
recorded. -/
theorem letters_silent_after_three : ∃ cg t past c token state,
    (Grammar.letters.compile ⟨false, none⟩).result = .ok cg ∧ cg.table = some t ∧
      t.Reaches Observer.recorder [] (Stream.ofTerminals [3, 3, 2, 2, 3]) past c ∧
      past.any Event.isTrap = true ∧ Table.recoveryShifts ≤ Event.shiftsSinceTrap past ∧
      t.Unexpected c token state ∧ ¬t.Reports c token state := by
  obtain ⟨cg, t, h, ht, hpoint⟩ := @Grammar.exists_table Grammar.letters ⟨false, none⟩
    (fun t => t.surprisedAfter (Stream.ofTerminals [3, 3, 2, 2, 3]) 8 Table.recoveryShifts
      ⟨.ordinary, 3, [], 1, 1⟩ 3) (by decide +kernel)
  obtain ⟨past, c, hr, htrap, hshifts, hu⟩ := Table.exists_surprise hpoint
  refine ⟨cg, t, past, c, _, _, h, ht, hr, htrap, hshifts.ge, hu, ?_⟩
  exact (hu.discards (hr.recovery.flag.mpr ⟨htrap, hshifts.le⟩)).silent

end Automaton

end ParserTables

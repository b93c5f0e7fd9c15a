import ParserTables.Proofs.Kinds
import ParserTables.Session

/-!
What becomes of the lexemes of a source. A lexer gives a lexeme no other kinds than its own, and
joining invalid lexemes gives none a kind; so the lexemes of a grammar are invalid or of the kind of
one of its entries. An invalid lexeme becomes a token without a terminal, and any other becomes a
token with the terminal of its entry unless the entry is to be skipped.
-/

namespace ParserTables

def Lexeme.KindIn (P : Int → Prop) (x : Lexeme) : Prop := ∀ kind, x.kind = some kind → P kind

namespace Lexer

variable {l : Lexer} {P : Int → Prop} {mode : Int} {m : Machine}

/-- Lexemes get their kinds from the modes of the lexer; they all have the property. -/
def KindsIn (l : Lexer) (P : Int → Prop) : Prop :=
  ∀ mode kind id, kind ≠ 0 → l.kindId mode kind = .ok id → P id

def MatchIn (P : Int → Prop) (best : Option Match) : Prop := ∀ b, best = some b → P b.id

theorem better_in (hl : l.KindsIn P) {state : Int} {read rest : Bytes} {best best' : Option Match}
    (h : l.better mode m state read rest best = .ok best') (hbest : MatchIn P best) :
    MatchIn P best' := by
  obtain ⟨kind, -, h⟩ := bind_eq_ok.mp h
  by_cases hzero : kind = 0
  · rw [if_pos hzero] at h
    cases h
    exact hbest
  · rw [if_neg hzero] at h
    obtain ⟨id, hid, h⟩ := bind_eq_ok.mp h
    cases h
    rintro b ⟨⟩
    exact hl mode kind id hzero hid

theorem finish_in {row col : Nat} {read : Bytes} {best : Option Match} {c c' : Cursor} {f : Found}
    (h : finish row col read best c = (some f, c')) (hbest : MatchIn P best) :
    f.lexeme.KindIn P := by
  unfold finish at h
  split at h
  · next b =>
    cases h
    rintro kind ⟨⟩
    exact hbest b rfl
  · split at h
    · cases h
    · cases h
      rintro kind ⟨⟩

theorem scanFrom_in (hl : l.KindsIn P) {row col : Nat} {bs : Bytes} {state : Int} {read : Bytes}
    {best : Option Match} {c c' : Cursor} {f : Found}
    (h : l.scanFrom mode m row col bs state read best c = .ok (some f, c'))
    (hbest : MatchIn P best) : f.lexeme.KindIn P := by
  induction bs generalizing state read best c with
  | nil => exact finish_in (Except.ok.inj h) hbest
  | cons b bs ih =>
    unfold scanFrom at h
    split at h
    · cases h
    · exact finish_in (Except.ok.inj h) hbest
    · split at h
      · cases h
      · next hbetter => exact ih h (better_in hl hbetter hbest)

theorem next_in (hl : l.KindsIn P) {c c' : Cursor} {f : Found}
    (h : l.next? mode c = .ok (some f, c')) : f.lexeme.KindIn P := by
  obtain ⟨_, -, h⟩ := bind_eq_ok.mp h
  obtain ⟨m, -, h⟩ := bind_eq_ok.mp h
  exact scanFrom_in hl h (by rintro b ⟨⟩)

theorem scanAll_in (hl : l.KindsIn P) {n : Nat} {outer : List Int} {c : Cursor}
    {found : List Lexed} (hfound : ∀ x, .ok x ∈ found → x.KindIn P) :
    ∀ x, .ok x ∈ l.scanAll n mode outer c found → x.KindIn P := by
  induction n generalizing mode outer c found with
  | zero => simpa [scanAll] using hfound
  | succ n ih =>
    intro x hx
    unfold scanAll at hx
    split at hx
    · exact hfound x (by simpa using hx)
    · exact hfound x (by simpa using hx)
    · next f c' hnext =>
      split at hx
      · exact hfound x (by simpa using hx)
      · exact hfound x (by simpa using hx)
      · refine ih ?_ x hx
        intro y hy
        rcases List.mem_cons.mp hy with heq | hy
        · cases heq
          exact next_in hl hnext
        · exact hfound y hy

end Lexer

/-- Joining lexemes takes kinds from none and gives kinds to none. -/
theorem Lexeme.mem_joinInvalid {ls : List Lexed} {x : Lexeme} (h : .ok x ∈ joinInvalid ls) :
    ∃ y, .ok y ∈ ls ∧ x.kind = y.kind := by
  induction ls generalizing x with
  | nil => cases h
  | cons y ls ih =>
    have hrest : ∀ z, .ok z ∈ joinInvalid ls → ∃ y', .ok y' ∈ y :: ls ∧ z.kind = y'.kind := by
      intro z hz
      obtain ⟨y', hy', hkind⟩ := ih hz
      exact ⟨y', List.mem_cons_of_mem y hy', hkind⟩
    cases y with
    | error fault =>
      unfold joinInvalid at h
      rcases List.mem_cons.mp h with heq | h
      · cases heq
      · exact hrest x h
    | ok y =>
      unfold joinInvalid at h
      split at h
      · next hjoined =>
        rw [hjoined] at hrest
        rcases List.mem_cons.mp h with heq | h
        · cases heq
          exact ⟨y, List.mem_cons_self, rfl⟩
        · exact hrest x (List.mem_cons_of_mem _ h)
      · next hjoined =>
        rw [hjoined] at hrest
        exact hrest x h
      · rcases List.mem_cons.mp h with heq | h
        · cases heq
          exact ⟨x, List.mem_cons_self, rfl⟩
        · exact hrest x h

theorem Lexer.lexemes_in {l : Lexer} {P : Int → Prop} (hl : l.KindsIn P) {source : Bytes}
    {x : Lexeme} (h : .ok x ∈ l.lexemes source) : x.KindIn P := by
  obtain ⟨y, hy, hkind⟩ := Lexeme.mem_joinInvalid h
  have hscanned := Lexer.scanAll_in hl (by simp) y hy
  intro kind hx
  exact hscanned kind (hkind ▸ hx)

theorem Lexer.single_kindsIn (name : String) (kindNames : List String) (machine : Machine) :
    (Lexer.single name kindNames machine).KindsIn fun kind =>
      ∃ i : Nat, kind = i + 1 ∧ i < kindNames.length := by
  intro mode kind id hzero h
  obtain ⟨slots, hslots, h⟩ := bind_eq_ok.mp h
  obtain ⟨id', hid, h⟩ := bind_eq_ok.mp h
  obtain ⟨-, -, h⟩ := bind_eq_ok.mp h
  cases h
  obtain ⟨-, hmode⟩ := Slots.get_eq_ok.mp hslots
  obtain hslots | hslots : slots = .empty ∨ slots = numbersBelow (kindNames.length + 1) := by
    rcases hm : mode.toNat with _ | _ | k
    all_goals simp_all
  · rw [hslots] at hid
    obtain ⟨-, hnone⟩ := Slots.get_eq_ok.mp hid
    simp at hnone
  · rw [hslots] at hid
    obtain ⟨hnonneg, hsome⟩ := Slots.get_eq_ok.mp hid
    simp only [List.getElem?_toArray, List.getElem?_map, Option.map_eq_some_iff,
      List.getElem?_eq_some_iff, List.getElem_range, List.length_range] at hsome
    obtain ⟨_, ⟨hlt, rfl⟩, rfl⟩ := hsome
    rw [Int.ofNat_eq_natCast]
    exact ⟨kind.toNat - 1, by omega, by omega⟩

/-- The kinds of a lexer are those of the entries, in their order, behind that of invalid lexemes,
and it gives lexemes no others. -/
structure Lexer.Knows (l : Lexer) (es : List LexEntry) : Prop where
  kind_names : l.kindNames.elements = ("" :: es.map fun e => kindName e.terminal).toArray
  lexeme_kinds : ∀ source x, .ok x ∈ l.lexemes source →
    x.KindIn fun kind => ∃ i : Nat, kind = i + 1 ∧ i < es.length

theorem Lexer.single_knows (name : String) (es : List LexEntry) (machine : Machine) :
    (Lexer.single name (es.map fun e => kindName e.terminal) machine).Knows es := by
  constructor
  case kind_names => exact LexicalSpec.kindNames_single _ _ _
  case lexeme_kinds =>
    intro source x hx
    have hkinds := Lexer.single_kindsIn name (es.map fun e => kindName e.terminal) machine
    rw [List.length_map] at hkinds
    exact Lexer.lexemes_in hkinds hx

namespace LexicalSpec

variable {s : LexicalSpec} {terminalCount : Nat} {es : List LexEntry} {x : Lexeme}

theorem Lists.token_invalid (h : s.Lists terminalCount es) (hx : x.kind = none) :
    s.token? x = .ok (some ⟨.invalid, -1, x.bytes, x.row, x.col⟩) := by
  simp [token?, kindOfLexeme, hx, h.invalid, h.invalid_kept]
  rfl

theorem Lists.token_entry (h : s.Lists terminalCount es) {i : Nat} {e : LexEntry}
    (he : es[i]? = some e) (hx : x.kind = some (i + 1 : Int)) : s.token? x =
      .ok (if e.skip then none else some ⟨.ordinary, e.terminal, x.bytes, x.row, x.col⟩) := by
  cases hskip : e.skip
  all_goals
    simp [token?, kindOfLexeme, hx, h.terminal i e he, h.skip i e he, KindTables.skipOf, hskip]
    rfl

theorem mem_streamed {ls : List Lexed} {token : Token} :
    .ok token ∈ ls.filterMap s.streamed? ↔ ∃ x, .ok x ∈ ls ∧ s.token? x = .ok (some token) := by
  rw [List.mem_filterMap]
  constructor
  · rintro ⟨lexed, hmem, hstreamed⟩
    unfold streamed? at hstreamed
    split at hstreamed
    · cases hstreamed
    · cases hstreamed
    · next x =>
      split at hstreamed
      · cases hstreamed
      · next token' htoken =>
        obtain ⟨token'', rfl, heq⟩ := Option.map_eq_some_iff.mp hstreamed
        cases heq
        exact ⟨x, hmem, htoken⟩
  · rintro ⟨x, hmem, htoken⟩
    exact ⟨.ok x, hmem, by simp [streamed?, htoken]⟩

end LexicalSpec

namespace Automaton

variable {g : Grammar} {options : CompileOptions} {cg : CompiledGrammar} {t : Table}
  {s : LexicalSpec}

structure Specified (m : Automaton) (s : LexicalSpec) (lexer : Lexer) : Prop where
  lexer_eq : s.lexer = some lexer
  lists : s.Lists m.symbols.terminalCount (LexicalSpec.entries m)
  knows : lexer.Knows (LexicalSpec.entries m)

theorem specified_of_knows {m : Automaton} {lexer : Lexer}
    (h : lexer.Knows (LexicalSpec.entries m)) : ∃ s,
      LexicalSpec.ofLexer m.symbols.terminalCount (LexicalSpec.entries m) lexer = .ok s ∧
        Specified m s lexer := by
  obtain ⟨s, hs, hlexer, hlists⟩ := LexicalSpec.ofLexer_lists m.symbols.terminalCount
    (LexicalSpec.distinct_entries m) h.kind_names
  exact ⟨s, hs, hlexer, hlists, h⟩

theorem specified_of_compile (h : (g.compile options).result = .ok cg) :
    (LexicalSpec.entries (generate g) = [] ∧ cg.lexical = none) ∨
      (LexicalSpec.entries (generate g) ≠ [] ∧
        ∃ s lexer, cg.lexical = some s ∧ Specified (generate g) s lexer) := by
  obtain ⟨-, hfinish⟩ := finish_of_compile h
  have hlexical : LexicalSpec.compile g.name (generate g) = .ok cg.lexical := by
    unfold Compilation.finish at hfinish
    split at hfinish
    · cases hfinish
    · split at hfinish
      · cases hfinish
      · next hspec =>
        split at hfinish
        · cases hfinish
        · cases hfinish
          exact hspec
  rcases LexicalSpec.compile_cases hlexical with hnone | ⟨hne, s, machine, hs, hlexer, hlists⟩
  · exact Or.inl hnone
  · exact Or.inr ⟨hne, s, _, hs, hlexer, hlists, Lexer.single_knows _ _ machine⟩

theorem specified_of_some (h : (g.compile options).result = .ok cg) (hs : cg.lexical = some s) :
    ∃ lexer, Specified (generate g) s lexer := by
  rcases specified_of_compile h with ⟨-, hnone⟩ | ⟨-, s', lexer, hs', hspec⟩
  · cases hnone.symm.trans hs
  · cases hs'.symm.trans hs
    exact ⟨lexer, hspec⟩

theorem Specified.stream_eq {m : Automaton} {lexer : Lexer} (hspec : Specified m s lexer)
    (hs : cg.lexical = some s) (ht : cg.table = some t) (source : Bytes) :
    cg.stream (.ok source) =
      .ok ⟨(lexer.lexemes source).filterMap s.streamed?, Stream.endToken t.endSymbol⟩ := by
  simp [CompiledGrammar.stream, hs, ht, LexicalSpec.stream, hspec.lexer_eq, present]

/-- A lexeme is invalid, or it is of the kind of an entry and goes by what the entry says. -/
theorem Specified.lexeme_cases {m : Automaton} {lexer : Lexer} (hspec : Specified m s lexer)
    {source : Bytes} {x : Lexeme} (hx : .ok x ∈ lexer.lexemes source) :
    (x.kind = none ∧ s.token? x = .ok (some ⟨.invalid, -1, x.bytes, x.row, x.col⟩)) ∨
    ∃ kind e, x.kind = some kind ∧ e ∈ LexicalSpec.entries m ∧
      s.kindToTerminal.get kind = .ok (e.terminal : Int) ∧ s.token? x =
        .ok (if e.skip then none else some ⟨.ordinary, e.terminal, x.bytes, x.row, x.col⟩) := by
  cases hkind : x.kind with
  | none => exact Or.inl ⟨rfl, hspec.lists.token_invalid hkind⟩
  | some kind =>
    obtain ⟨i, rfl, hi⟩ := hspec.knows.lexeme_kinds source x hx kind hkind
    have he := List.getElem?_eq_getElem hi
    exact Or.inr ⟨_, _, rfl, List.mem_of_getElem? he, hspec.lists.terminal i _ he,
      hspec.lists.token_entry he hkind⟩

/-- What is not skipped becomes a token without a terminal or with that of an entry. -/
theorem Specified.token_cases {m : Automaton} {lexer : Lexer} (hspec : Specified m s lexer)
    {source : Bytes} {token : Token}
    (htoken : .ok token ∈ (lexer.lexemes source).filterMap s.streamed?) :
    (token.cls = .invalid ∧ token.terminal = -1) ∨
    ∃ e ∈ LexicalSpec.entries m, token.cls = .ordinary ∧ token.terminal = e.terminal ∧
      e.skip = false := by
  obtain ⟨x, hx, htoken⟩ := LexicalSpec.mem_streamed.mp htoken
  rcases hspec.lexeme_cases hx with ⟨-, heq⟩ | ⟨kind, e, -, he, -, heq⟩
  · cases htoken.symm.trans heq
    exact Or.inl ⟨rfl, rfl⟩
  · rw [heq] at htoken
    cases hskip : e.skip
    · simp only [hskip, Bool.false_eq_true, if_false] at htoken
      cases htoken
      exact Or.inr ⟨e, he, rfl, rfl, hskip⟩
    · simp [hskip] at htoken

/-- Every source has a stream. It ends with the end of input, and of the tokens before it the
invalid ones have no terminal, and the others have one that is not a sentinel. -/
def Streams (cg : CompiledGrammar) (t : Table) : Prop :=
  ∀ source, ∃ stream, cg.stream (.ok source) = .ok stream ∧
    stream.last = Stream.endToken t.endSymbol ∧
    ∀ token, .ok token ∈ stream.upcoming → token.isEnd = false ∧
      (token.terminal = -1 ↔ token.cls = .invalid) ∧
      token.terminal ≠ t.endSymbol ∧ token.terminal ≠ t.errorSymbol

theorem Specified.streams (hissues : (generate g).hasIssues = false)
    (htable : (generate g).table = .ok t) {lexer : Lexer} (hspec : Specified (generate g) s lexer)
    (hs : cg.lexical = some s) (ht : cg.table = some t) : Streams cg t := by
  have hshows := shows_of_table htable
  have hend : t.endSymbol = 0 := hshows.end_symbol
  have herror : t.errorSymbol = 1 := hshows.error_symbol
  intro source
  refine ⟨_, hspec.stream_eq hs ht source, rfl, fun token htoken => ?_⟩
  rcases hspec.token_cases htoken with ⟨hcls, hterminal⟩ | ⟨e, he, hcls, hterminal, -⟩
  · rw [hterminal, hend, herror, Token.isEnd, hcls]
    simp
  · have hrecognized : g.Recognizes t e.terminal :=
      (recognizes_iff hissues htable).mpr ⟨_, LexicalSpec.terminal_mem he, rfl⟩
    rw [hterminal, Token.isEnd, hcls]
    refine ⟨by simp, iff_of_false (by omega) (by simp), hrecognized.ne_end, hrecognized.ne_error⟩

/-- The kinds of a compiled grammar and its terminals belong together, and the streams of sources
have the terminals of the kinds. So it is with any lexer that knows the entries of the grammar. -/
theorem kinds_correspond (h : (g.compile options).result = .ok cg) (ht : cg.table = some t) :
    (cg.lexical = none ↔ ∀ x, ¬ g.Recognizes t x) ∧
    (∀ s, cg.lexical = some s → s.Corresponds g t ∧ Streams cg t) ∧
    ∀ lexer : Lexer, lexer.Knows (LexicalSpec.entries (generate g)) → ∃ s,
      LexicalSpec.ofLexer (generate g).symbols.terminalCount (LexicalSpec.entries (generate g))
        lexer = .ok s ∧ s.lexer = some lexer ∧ s.Corresponds g t ∧
      Streams { cg with lexical := some s } t := by
  obtain ⟨hissues, t', htable, ht'⟩ := compile_eq_ok h
  cases ht'.symm.trans ht
  refine ⟨?_, ?_, ?_⟩
  · have hempty : LexicalSpec.entries (generate g) = [] ↔ ∀ x, ¬ g.Recognizes t x := by
      rw [← List.map_eq_nil_iff (f := LexEntry.terminal), List.eq_nil_iff_forall_not_mem]
      simp only [recognizes_iff hissues htable]
      constructor
      · rintro hall x ⟨id, hid, rfl⟩
        exact hall id hid
      · intro hall id hid
        exact hall id ⟨id, hid, rfl⟩
    rw [← hempty]
    rcases specified_of_compile h with ⟨hnil, hnone⟩ | ⟨hne, s, lexer, hs, -⟩
    · exact iff_of_true hnone hnil
    · exact iff_of_false (by simp [hs]) hne
  · intro s hs
    obtain ⟨lexer, hspec⟩ := specified_of_some h hs
    exact ⟨corresponds_of_lists hissues htable hspec.lists, hspec.streams hissues htable hs ht⟩
  · intro lexer hknows
    obtain ⟨s, hs, hspec⟩ := specified_of_knows hknows
    exact ⟨s, hs, hspec.lexer_eq, corresponds_of_lists hissues htable hspec.lists,
      hspec.streams hissues htable rfl ht⟩

/-- A grammar of sums. The space is declared to be skipped but has no pattern of its own, and
nothing matches the last token. -/
def spacedSums : Grammar where
  name := "spaced sums"
  start := some ⟨"s", .unknown⟩
  tokens := [some ⟨"n", "", "[0-9]+", false, .unknown⟩, some ⟨"' '", "", "", true, .unknown⟩,
    some ⟨"gap", "", "_+", true, .unknown⟩, some ⟨"none", "", "", false, .unknown⟩]
  precedences := []
  nonterminals := [⟨"s", [["n"], ["s", "'+'", "n"]].map fun names =>
    ⟨names.map fun name => ⟨name, "", .unknown⟩, "", .left, "", .unknown⟩, .unknown⟩]

theorem exists_compiled {p : CompiledGrammar → Table → LexicalSpec → Bool}
    (h : (match (g.compile options).result with
      | .ok cg => cg.table.any fun t => cg.lexical.any fun s => p cg t s
      | .error _ => false) = true) : ∃ cg t s, (g.compile options).result = .ok cg ∧
      cg.table = some t ∧ cg.lexical = some s ∧ p cg t s = true := by
  split at h
  · next cg hresult =>
    obtain ⟨t, ht, h⟩ := (Option.any_eq_true _ _).mp h
    obtain ⟨s, hs, hp⟩ := (Option.any_eq_true _ _).mp h
    exact ⟨cg, t, s, hresult, ht, hs, hp⟩
  · cases h

set_option maxRecDepth 100000 in
theorem spaced_sums_correspond : ∃ cg t s, (spacedSums.compile ⟨true, none⟩).result = .ok cg ∧
    cg.table = some t ∧ cg.lexical = some s ∧ t.tokens.elements =
      #["END_", "%error", "n", "' '", "gap", "none", "'+'", "s'", "s"] ∧
    s.kindToTerminal.elements = #[-1, 3, 6, 2, 4] ∧
    s.terminalToKind.elements = #[0, 0, 3, 1, 4, 0, 2] ∧ s.Corresponds spacedSums t ∧
    Streams cg t ∧ ∃ lexer : Lexer, s.lexer = some lexer ∧
      lexer.Knows (LexicalSpec.entries (generate spacedSums)) := by
  obtain ⟨cg, t, s, h, ht, hs, hp⟩ := @exists_compiled spacedSums ⟨true, none⟩
    (p := fun _ t s => decide (t.tokens.elements =
        #["END_", "%error", "n", "' '", "gap", "none", "'+'", "s'", "s"] ∧
      s.kindToTerminal.elements = #[-1, 3, 6, 2, 4] ∧
      s.terminalToKind.elements = #[0, 0, 3, 1, 4, 0, 2])) (by decide +kernel)
  obtain ⟨htokens, hterminals, hkinds⟩ := of_decide_eq_true hp
  obtain ⟨-, hall, -⟩ := kinds_correspond h ht
  obtain ⟨hcorresponds, hstreams⟩ := hall s hs
  obtain ⟨lexer, hspec⟩ := specified_of_some h hs
  exact ⟨cg, t, s, h, ht, hs, htokens, hterminals, hkinds, hcorresponds, hstreams, lexer,
    hspec.lexer_eq, hspec.knows⟩

end Automaton

/-! ### What is skipped -/

/-- Whether the symbol is declared to be skipped, with a pattern. -/
def Grammar.Skips (g : Grammar) (t : Table) (x : Int) : Prop :=
  ∃ d, some d ∈ g.tokens ∧ t.tokenName x = .ok d.name ∧ d.skip = true ∧ d.pattern ≠ ""

namespace Automaton

variable {g : Grammar} {options : CompileOptions} {cg : CompiledGrammar} {t : Table}
  {s : LexicalSpec}

theorem skip_iff (h : (generate g).hasIssues = false) (ht : (generate g).table = .ok t)
    {e : LexEntry} (he : e ∈ LexicalSpec.entries (generate g)) :
    e.skip = true ↔ g.Skips t e.terminal := by
  have hshows := shows_of_table ht
  obtain ⟨id, hid⟩ : ∃ id, LexicalSpec.entryOf? (generate g) id = some e := by
    unfold LexicalSpec.entries at he
    dsimp only at he
    rcases List.mem_append.mp he with he | he
    all_goals
      obtain ⟨id, -, hid⟩ := List.mem_filterMap.mp he
      exact ⟨id, hid⟩
  obtain ⟨rfl, hskip⟩ := LexicalSpec.skip_entry hid
  obtain ⟨-, -, -, -, name, hname, -⟩ :=
    (recognizes_iff h ht).mpr ⟨_, LexicalSpec.terminal_mem he, rfl⟩
  obtain ⟨id, heq, htext⟩ := hshows.text_of_name hname
  cases Int.natCast_inj.mp heq
  rw [hskip]
  simp only [tokenDecl_iff h htext]
  constructor
  · rintro ⟨d, ⟨hd, rfl⟩, hpattern, hflag⟩
    exact ⟨d, hd, hname, hflag, hpattern⟩
  · rintro ⟨d, hd, hname', hflag, hpattern⟩
    cases hname.symm.trans hname'
    exact ⟨d, ⟨hd, rfl⟩, hpattern, hflag⟩

/-- A lexeme is skipped if its terminal is declared to be skipped, with a pattern. So a token of a
stream whose terminal is declared to be skipped is a character literal without a pattern. -/
theorem skipped_iff_declared (h : (g.compile options).result = .ok cg) (ht : cg.table = some t)
    (hs : cg.lexical = some s) (source : Bytes) : ∃ lexer stream, s.lexer = some lexer ∧
      cg.stream (.ok source) = .ok stream ∧
      (∀ x, .ok x ∈ lexer.lexemes source → (s.token? x = .ok none ↔
        ∃ kind terminal, x.kind = some kind ∧ s.kindToTerminal.get kind = .ok terminal ∧
          g.Skips t terminal)) ∧
      ∀ token, .ok token ∈ stream.upcoming → ∀ d, some d ∈ g.tokens → d.skip = true →
        t.tokenName token.terminal = .ok d.name → d.pattern = "" ∧ isLiteral d.name = true := by
  obtain ⟨hissues, t', htable, ht'⟩ := compile_eq_ok h
  cases ht'.symm.trans ht
  obtain ⟨lexer, hspec⟩ := specified_of_some h hs
  refine ⟨lexer, _, hspec.lexer_eq, hspec.stream_eq hs ht source, ?_, ?_⟩
  · intro x hx
    rcases hspec.lexeme_cases hx with ⟨hkind, heq⟩ | ⟨kind, e, hkind, he, hterminal, heq⟩
    · simp [heq, hkind]
    · rw [heq]
      constructor
      · intro hnone
        have hskip : e.skip = true := by
          by_contra hkept
          simp [hkept] at hnone
        exact ⟨kind, _, hkind, hterminal, (skip_iff hissues htable he).mp hskip⟩
      · rintro ⟨kind', terminal, hkind', hterminal', hskips⟩
        cases hkind.symm.trans hkind'
        cases hterminal.symm.trans hterminal'
        simp [(skip_iff hissues htable he).mpr hskips]
  · intro token htoken d hd hflag hname
    rcases hspec.token_cases htoken with ⟨-, hterminal⟩ | ⟨e, he, -, hterminal, hkept⟩
    · rw [hterminal] at hname
      obtain ⟨id, heq, -⟩ := (shows_of_table htable).text_of_name hname
      omega
    · rw [hterminal] at hname
      have hempty : d.pattern = "" := by
        by_contra hpattern
        have hskip := (skip_iff hissues htable he).mpr ⟨d, hd, hname, hflag, hpattern⟩
        rw [hkept] at hskip
        cases hskip
      refine ⟨hempty, ?_⟩
      obtain ⟨-, -, -, -, name, hname', hmatched⟩ :=
        (recognizes_iff hissues htable).mpr ⟨_, LexicalSpec.terminal_mem he, rfl⟩
      cases hname'.symm.trans hname
      refine hmatched.resolve_left ?_
      rintro ⟨d', hd', hsame, hpattern⟩
      obtain ⟨id, -, htext⟩ := (shows_of_table htable).text_of_name hname
      have hfirst := (tokenDecl_iff hissues htext).mpr ⟨hd, rfl⟩
      cases hfirst.symm.trans ((tokenDecl_iff hissues htext).mpr ⟨hd', hsame⟩)
      exact hpattern hempty

def streamHas (cg : CompiledGrammar) (source : Bytes) (p : Stream → Bool) : Bool :=
  match cg.stream (.ok source) with
  | .ok stream => p stream
  | .error _ => false

theorem exists_stream {source : Bytes} {p : Stream → Bool} (h : streamHas cg source p = true) :
    ∃ stream, cg.stream (.ok source) = .ok stream ∧ p stream = true := by
  unfold streamHas at h
  split at h
  · next stream hstream => exact ⟨stream, hstream, h⟩
  · cases h

set_option maxRecDepth 100000 in
theorem spaced_sums_skip_gap : ∃ cg t s, (spacedSums.compile ⟨true, none⟩).result = .ok cg ∧
    cg.table = some t ∧ cg.lexical = some s ∧ ∃ lexer stream, s.lexer = some lexer ∧
      cg.stream (.ok (Bytes.ofString "1_ 2")) = .ok stream ∧
      (∀ x, .ok x ∈ lexer.lexemes (Bytes.ofString "1_ 2") → (s.token? x = .ok none ↔
        ∃ kind terminal, x.kind = some kind ∧ s.kindToTerminal.get kind = .ok terminal ∧
          spacedSums.Skips t terminal)) ∧
      stream.upcoming.map (fun token => token.toOption.map (·.terminal)) =
        [some 2, some 3, some 2] := by
  obtain ⟨cg, t, s, h, ht, hs, hp⟩ := @exists_compiled spacedSums ⟨true, none⟩
    (p := fun cg _ _ => streamHas cg (Bytes.ofString "1_ 2") fun stream => decide
      (stream.upcoming.map (fun token => token.toOption.map (·.terminal)) =
        [some 2, some 3, some 2])) (by decide +kernel)
  obtain ⟨stream', hstream', hterminals⟩ := exists_stream hp
  obtain ⟨lexer, stream, hlexer, hstream, hskipped, -⟩ :=
    skipped_iff_declared h ht hs (Bytes.ofString "1_ 2")
  cases hstream'.symm.trans hstream
  exact ⟨cg, t, s, h, ht, hs, lexer, _, hlexer, hstream, hskipped,
    of_decide_eq_true hterminals⟩

set_option maxRecDepth 100000 in
/-- The space is declared to be skipped, and it is a token of the stream nevertheless. -/
theorem spaced_sums_yield_space : ∃ cg t stream token d,
    (spacedSums.compile ⟨true, none⟩).result = .ok cg ∧ cg.table = some t ∧
    cg.stream (.ok (Bytes.ofString "1 + 2")) = .ok stream ∧ .ok token ∈ stream.upcoming ∧
    token.isEnd = false ∧ some d ∈ spacedSums.tokens ∧ d.skip = true ∧
    t.tokenName token.terminal = .ok d.name := by
  obtain ⟨cg, t, s, h, ht, -, hp⟩ := @exists_compiled spacedSums ⟨true, none⟩
    (p := fun cg t _ => streamHas cg (Bytes.ofString "1 + 2") fun stream => decide
      (.ok ⟨.ordinary, 3, [0x20], 0, 1⟩ ∈ stream.upcoming ∧ t.tokenName 3 = .ok "' '"))
    (by decide +kernel)
  obtain ⟨stream, hstream, hyields⟩ := exists_stream hp
  obtain ⟨htoken, hname⟩ := of_decide_eq_true hyields
  exact ⟨cg, t, stream, _, ⟨"' '", "", "", true, .unknown⟩, h, ht, hstream, htoken, rfl,
    by decide, rfl, hname⟩

end Automaton

end ParserTables

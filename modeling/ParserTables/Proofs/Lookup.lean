import Mathlib.Data.List.Basic
import ParserTables.Table.Basic

/-!
Looking a token up by halving. Among entries with ascending tokens that fit a word, halving finds
the entry with the given token if there is one. It never fails, also not for tokens that lie so
far from those of the entries that their difference does not fit a word.
-/

namespace ParserTables.Table

variable {es : List Entry} {token : Int}

def parts (es : List Entry) : Array (Option Entry) := (es.map some).toArray

@[simp] theorem size_parts : (parts es).size = es.length := by
  simp [parts]

theorem getElem_parts (i : Nat) : (parts es)[i]? = (es[i]?).map some := by
  simp [parts]

theorem elementAt_parts {i : Nat} {e : Entry} (h : es[i]? = some e) :
    elementAt (parts es) (i : Int) = .ok (some e) := by
  unfold elementAt
  rw [if_neg (by omega), Int.toNat_natCast, getElem_parts, h]
  rfl

def Before (es : List Entry) (token : Int) (i : Nat) : Prop :=
  ∃ e, es[i]? = some e ∧ precedes e.token token = true

/-- Halving ends between the entries before the token and the others, if these do not mix. -/
theorem lowerBound_ok (es : List Entry) (token : Int) (n low high : Nat) (hlow : low ≤ high)
    (hhigh : high ≤ es.length) :
    ∃ r, lowerBound (parts es) token n low high = .ok r ∧
      ((∀ i j, i ≤ j → Before es token j → Before es token i) → high - low ≤ n →
        (∀ i < low, Before es token i) → (∀ i, high ≤ i → ¬ Before es token i) →
        (∀ i < r, Before es token i) ∧ ∀ i, r ≤ i → ¬ Before es token i) := by
  induction n generalizing low high with
  | zero =>
    refine ⟨low, rfl, ?_⟩
    intro _ hn hbelow habove
    obtain rfl : low = high := by omega
    exact ⟨hbelow, habove⟩
  | succ n ih =>
    unfold lowerBound
    by_cases hlt : low < high
    · have hmid : (low + high) / 2 < es.length := by omega
      have hget : es[(low + high) / 2]? = some es[(low + high) / 2] :=
        List.getElem?_eq_getElem hmid
      rw [if_pos hlt]
      simp only [elementAt_parts hget, present, bind, Except.bind]
      by_cases hp : precedes es[(low + high) / 2].token token = true
      · rw [if_pos hp]
        obtain ⟨r, hr, hspec⟩ := ih ((low + high) / 2 + 1) high (by omega) hhigh
        refine ⟨r, hr, ?_⟩
        intro mono hn hbelow habove
        refine hspec mono (by omega) ?_ habove
        intro i hi
        exact mono i ((low + high) / 2) (by omega) ⟨_, hget, hp⟩
      · rw [if_neg hp]
        obtain ⟨r, hr, hspec⟩ := ih low ((low + high) / 2) (by omega) (by omega)
        refine ⟨r, hr, ?_⟩
        intro mono hn hbelow habove
        refine hspec mono (by omega) hbelow ?_
        intro i hi hb
        obtain ⟨e, he, hpe⟩ := mono _ i hi hb
        cases hget.symm.trans he
        exact hp hpe
    · rw [if_neg hlt]
      refine ⟨low, rfl, ?_⟩
      intro _ hn hbelow habove
      obtain rfl : low = high := by omega
      exact ⟨hbelow, habove⟩

/-- Entries in ascending order of tokens that fit a word. -/
structure Ordered (es : List Entry) : Prop where
  ascending : es.Pairwise fun d e => d.token < e.token
  token_nonneg : ∀ e ∈ es, 0 ≤ e.token
  token_lt : ∀ e ∈ es, e.token < Word.limit

theorem precedes_iff {a b : Int} (ha : 0 ≤ a) (ha' : a < Word.limit) (hb : 0 ≤ b)
    (hb' : b < Word.limit) : precedes a b = true ↔ a < b := by
  unfold precedes
  rw [Word.wrap_of_small (a - b) (by omega) (by omega)]
  simp only [decide_eq_true_eq]
  omega

theorem Ordered.lt_iff (h : Ordered es) {i j : Nat} {d e : Entry} (hd : es[i]? = some d)
    (he : es[j]? = some e) : d.token < e.token ↔ i < j := by
  obtain ⟨hi, rfl⟩ := List.getElem?_eq_some_iff.mp hd
  obtain ⟨hj, rfl⟩ := List.getElem?_eq_some_iff.mp he
  have hasc := List.pairwise_iff_getElem.mp h.ascending
  constructor
  · intro hlt
    by_contra hge
    rcases Nat.lt_or_eq_of_le (Nat.le_of_not_lt hge) with hji | rfl
    · have := hasc j i hj hi hji
      omega
    · omega
  · exact hasc i j hi hj

theorem Ordered.before_iff (h : Ordered es) (ht : 0 ≤ token) (ht' : token < Word.limit) {i : Nat} :
    Before es token i ↔ ∃ e, es[i]? = some e ∧ e.token < token := by
  constructor
  · rintro ⟨e, he, hp⟩
    have hmem := List.mem_of_getElem? he
    exact ⟨e, he, (precedes_iff (h.token_nonneg e hmem) (h.token_lt e hmem) ht ht').mp hp⟩
  · rintro ⟨e, he, hlt⟩
    have hmem := List.mem_of_getElem? he
    exact ⟨e, he, (precedes_iff (h.token_nonneg e hmem) (h.token_lt e hmem) ht ht').mpr hlt⟩

theorem Ordered.before_mono (h : Ordered es) (ht : 0 ≤ token) (ht' : token < Word.limit) :
    ∀ i j, i ≤ j → Before es token j → Before es token i := by
  intro i j hij hb
  obtain ⟨e, he, hlt⟩ := (h.before_iff ht ht').mp hb
  have hi : i < es.length := by
    have := (List.getElem?_eq_some_iff.mp he).1
    omega
  refine (h.before_iff ht ht').mpr ⟨es[i], List.getElem?_eq_getElem hi, ?_⟩
  rcases Nat.lt_or_eq_of_le hij with hlt' | rfl
  · have := (h.lt_iff (List.getElem?_eq_getElem hi) he).mpr hlt'
    omega
  · cases (List.getElem?_eq_getElem hi).symm.trans he
    exact hlt

theorem Ordered.find_eq_some (h : Ordered es) {e : Entry} (he : e ∈ es) (ht : e.token = token) :
    es.find? (fun e => e.token = token) = some e := by
  obtain ⟨d, hd⟩ : ∃ d, es.find? (fun e => decide (e.token = token)) = some d := by
    cases hf : es.find? (fun e => decide (e.token = token)) with
    | some d => exact ⟨d, rfl⟩
    | none => simpa [ht] using List.find?_eq_none.mp hf e he
  have hdt : d.token = token := by simpa using List.find?_some hd
  obtain ⟨i, hi⟩ := List.getElem?_of_mem (List.mem_of_find?_eq_some hd)
  obtain ⟨j, hj⟩ := List.getElem?_of_mem he
  have hij := h.lt_iff hi hj
  have hji := h.lt_iff hj hi
  obtain rfl : i = j := by omega
  cases hi.symm.trans hj
  exact hd

theorem Ordered.find_eq_none (h : Ordered es) (hout : token < 0 ∨ Word.limit ≤ token) :
    es.find? (fun e => e.token = token) = none := by
  apply List.find?_eq_none.mpr
  intro e he heq
  have hnonneg := h.token_nonneg e he
  have hlt := h.token_lt e he
  have : e.token = token := by simpa using heq
  omega

theorem Ordered.lowerBound_splits (h : Ordered es) (ht : 0 ≤ token) (ht' : token < Word.limit)
    {r : Nat} (hr : lowerBound (parts es) token es.length 0 es.length = .ok r) {i : Nat}
    {e : Entry} (he : es[i]? = some e) : e.token < token ↔ i < r := by
  obtain ⟨r', hr', hspec⟩ := lowerBound_ok es token es.length 0 es.length (Nat.zero_le _)
    (Nat.le_refl _)
  cases hr.symm.trans hr'
  obtain ⟨hbelow, habove⟩ := hspec (h.before_mono ht ht') (Nat.le_refl _)
    (fun i hi => absurd hi (Nat.not_lt_zero i)) (by
      rintro i hi ⟨d, hd, -⟩
      simp [List.getElem?_eq_none hi] at hd)
  constructor
  · intro hlt
    by_contra hge
    exact habove i (Nat.le_of_not_lt hge) ((h.before_iff ht ht').mpr ⟨e, he, hlt⟩)
  · intro hlt
    obtain ⟨d, hd, hdlt⟩ := (h.before_iff ht ht').mp (hbelow i hlt)
    cases he.symm.trans hd
    exact hdlt

/-- Halving finds what a search from the front finds. -/
theorem Ordered.find_eq (h : Ordered es) (token : Int) :
    find? (parts es) token = .ok (es.find? fun e => e.token = token) := by
  obtain ⟨r, hr, -⟩ := lowerBound_ok es token es.length 0 es.length (Nat.zero_le _)
    (Nat.le_refl _)
  have hfound : find? (parts es) token = .ok ((es[r]?).filter fun e => e.token = token) := by
    unfold find?
    simp only [size_parts, hr, bind, Except.bind, getElem_parts]
    cases hget : es[r]? with
    | none => rfl
    | some e => rfl
  rw [hfound]
  congr 1
  by_cases hin : 0 ≤ token ∧ token < Word.limit
  · by_cases hmem : ∃ e ∈ es, e.token = token
    · obtain ⟨e, he, heq⟩ := hmem
      obtain ⟨i, hi⟩ := List.getElem?_of_mem he
      have hri : r = i := by
        have hsplit := h.lowerBound_splits hin.1 hin.2 hr hi
        rcases Nat.lt_trichotomy r i with hlt | heq' | hgt
        · have hlen : r < es.length := Nat.lt_trans hlt (List.getElem?_eq_some_iff.mp hi).1
          have hget : es[r]? = some es[r] := List.getElem?_eq_getElem hlen
          have hbefore := (h.lt_iff hget hi).mpr hlt
          have := (h.lowerBound_splits hin.1 hin.2 hr hget).mp (by omega)
          omega
        · exact heq'
        · have := hsplit.mpr hgt
          omega
      rw [h.find_eq_some he heq, hri, hi]
      simp [heq]
    · have hnone : es.find? (fun e => decide (e.token = token)) = none := by
        apply List.find?_eq_none.mpr
        intro e he heq
        exact hmem ⟨e, he, by simpa using heq⟩
      rw [hnone]
      apply Option.filter_eq_none_iff.mpr
      intro e he heq
      exact hmem ⟨e, List.mem_of_getElem? he, by simpa using heq⟩
  · rw [h.find_eq_none (by omega)]
    apply Option.filter_eq_none_iff.mpr
    intro e he heq
    have hmem := List.mem_of_getElem? he
    have hnonneg := h.token_nonneg e hmem
    have hlt := h.token_lt e hmem
    have : e.token = token := by simpa using heq
    omega

end ParserTables.Table

import ParserTables.Lexer.Spec

/-!
The names of lexical specifications are well formed, whatever the name of the grammar: groups of
lower-case letters and digits, joined by single underscores, the first of which begins with a
letter. A name that has this form already is kept, so naming once more changes nothing.
-/

namespace ParserTables

theorem Text.lowerChar_of_not_capital {c : Char} (hascii : c.toNat < 0x80)
    (hcapital : ¬('A' ≤ c ∧ c ≤ 'Z')) : lowerChar c = c := by
  unfold lowerChar
  rw [if_pos hascii]
  exact dif_neg hcapital

namespace LexicalSpec

variable {name : String} {c : Char} {cs word : List Char} {groups : List (List Char)}

/-- The form of the names that the lexer generator takes. -/
def IsName (name : String) : Prop :=
  ∃ groups : List (List Char), name.toList = ['_'].intercalate groups ∧
    (∀ group ∈ groups, group ≠ [] ∧
      ∀ c ∈ group, ('a' ≤ c ∧ c ≤ 'z') ∨ ('0' ≤ c ∧ c ≤ '9')) ∧
    ∃ c ∈ name.toList.head?, 'a' ≤ c ∧ c ≤ 'z'

def behind (groups : List (List Char)) : List Char := groups.flatMap fun group => '_' :: group

def IsGroup (group : List Char) : Prop := group ≠ [] ∧ ∀ c ∈ group, isNameChar c = true

theorem isLower_iff : c.isLower = true ↔ 'a' ≤ c ∧ c ≤ 'z' := by
  change (decide ('a' ≤ c) && decide (c ≤ 'z')) = true ↔ _
  rw [Bool.and_eq_true, decide_eq_true_eq, decide_eq_true_eq]

theorem isDigit_iff : c.isDigit = true ↔ '0' ≤ c ∧ c ≤ '9' := by
  simp [Char.isDigit, Char.le_def]

theorem isNameChar_iff :
    isNameChar c = true ↔ ('a' ≤ c ∧ c ≤ 'z') ∨ ('0' ≤ c ∧ c ≤ '9') := by
  rw [isNameChar, Bool.or_eq_true, isLower_iff, isDigit_iff]

theorem isDigit_of_lower (h : c.isLower = true) : c.isDigit = false := by
  have hcode : 97 ≤ c.toNat ∧ c.toNat ≤ 122 := isLower_iff.mp h
  refine Bool.eq_false_iff.mpr ?_
  intro hdigit
  have hcode' : 48 ≤ c.toNat ∧ c.toNat ≤ 57 := isDigit_iff.mp hdigit
  omega

theorem lowerChar_of_nameChar (h : isNameChar c = true ∨ c = '_') : Text.lowerChar c = c := by
  have hcode : (97 ≤ c.toNat ∧ c.toNat ≤ 122) ∨ (48 ≤ c.toNat ∧ c.toNat ≤ 57) ∨ c.toNat = 95 := by
    rcases h with h | rfl
    · rcases isNameChar_iff.mp h with hletter | hdigit
      · exact Or.inl hletter
      · exact Or.inr (Or.inl hdigit)
    · exact Or.inr (Or.inr rfl)
  refine Text.lowerChar_of_not_capital (by omega) ?_
  intro hcapital
  have hcode' : 65 ≤ c.toNat ∧ c.toNat ≤ 90 := hcapital
  omega

theorem intercalate_eq (word : List Char) (groups : List (List Char)) :
    ['_'].intercalate (word :: groups) = word ++ behind groups := by
  induction groups generalizing word with
  | nil => simp [behind]
  | cons group groups ih =>
    rw [List.intercalate_cons_cons, ih, behind, behind, List.flatMap_cons]
    simp

theorem isName_iff : IsName name ↔ ∃ c word groups, name.toList = c :: (word ++ behind groups) ∧
    c.isLower = true ∧ (∀ d ∈ word, isNameChar d = true) ∧ ∀ group ∈ groups, IsGroup group := by
  simp only [IsName, IsGroup, isLower_iff, isNameChar_iff]
  constructor
  · rintro ⟨groups, hjoined, hgroups, c, hc, hlower⟩
    cases groups with
    | nil => simp [hjoined] at hc
    | cons group groups =>
      obtain ⟨⟨hne, hchars⟩, hothers⟩ := List.forall_mem_cons.mp hgroups
      obtain ⟨d, word, rfl⟩ := List.exists_cons_of_ne_nil hne
      rw [intercalate_eq] at hjoined
      obtain rfl : d = c := by simpa [hjoined] using hc
      exact ⟨d, word, groups, hjoined, hlower, (List.forall_mem_cons.mp hchars).2, hothers⟩
  · rintro ⟨c, word, groups, hjoined, hlower, hword, hgroups⟩
    refine ⟨(c :: word) :: groups, ?_, ?_, c, by simp [hjoined], hlower⟩
    · rw [intercalate_eq, hjoined, List.cons_append]
    · refine List.forall_mem_cons.mpr ⟨⟨by simp, ?_⟩, hgroups⟩
      exact List.forall_mem_cons.mpr ⟨Or.inl hlower, hword⟩

/-! ### Joining groups -/

/-- What is joined begins with the rest of a group, unless an underscore is due, and goes on with
whole groups. -/
theorem exists_groups (gap : Bool) (cs : List Char) : ∃ word groups,
    joinGroups gap cs = word ++ behind groups ∧ (∀ c ∈ word, isNameChar c = true) ∧
    (∀ group ∈ groups, IsGroup group) ∧ (gap = true → word = []) := by
  induction cs generalizing gap with
  | nil => exact ⟨[], [], by simp [joinGroups, behind], by simp, by simp, fun _ => rfl⟩
  | cons c cs ih =>
    unfold joinGroups
    by_cases hc : isNameChar c = true
    · obtain ⟨word, groups, hjoined, hword, hgroups, -⟩ := ih false
      have hlonger : ∀ d ∈ c :: word, isNameChar d = true := List.forall_mem_cons.mpr ⟨hc, hword⟩
      rw [if_pos hc, hjoined]
      cases gap with
      | false => exact ⟨c :: word, groups, by simp, hlonger, hgroups, by simp⟩
      | true =>
        refine ⟨[], (c :: word) :: groups, by simp [behind], by simp, ?_, fun _ => rfl⟩
        exact List.forall_mem_cons.mpr ⟨⟨by simp, hlonger⟩, hgroups⟩
    · obtain ⟨word, groups, hjoined, -, hgroups, hnone⟩ := ih true
      rw [if_neg hc, hjoined, hnone rfl]
      exact ⟨[], groups, rfl, by simp, hgroups, fun _ => rfl⟩

theorem joinGroups_word (hword : ∀ c ∈ word, isNameChar c = true) (cs : List Char) :
    joinGroups false (word ++ cs) = word ++ joinGroups false cs := by
  induction word with
  | nil => rfl
  | cons c word ih =>
    obtain ⟨hc, hrest⟩ := List.forall_mem_cons.mp hword
    rw [List.cons_append, joinGroups, if_pos hc, ih hrest]
    rfl

theorem joinGroups_behind (hgroups : ∀ group ∈ groups, IsGroup group) :
    joinGroups false (behind groups) = behind groups := by
  induction groups with
  | nil => rfl
  | cons group groups ih =>
    obtain ⟨⟨hne, hchars⟩, hothers⟩ := List.forall_mem_cons.mp hgroups
    obtain ⟨c, word, rfl⟩ := List.exists_cons_of_ne_nil hne
    obtain ⟨hc, hword⟩ := List.forall_mem_cons.mp hchars
    have hsplit : behind ((c :: word) :: groups) = '_' :: c :: (word ++ behind groups) := by
      simp [behind]
    have hjoined := joinGroups_word hword (behind groups)
    rw [ih hothers] at hjoined
    rw [hsplit, joinGroups, if_neg (by decide), joinGroups, if_pos hc, hjoined]
    rfl

/-! ### Names -/

theorem isName_grammar : IsName "grammar" := by
  have hword : ['r', 'a', 'm', 'm', 'a', 'r'].all isNameChar = true := by decide
  exact isName_iff.mpr ⟨'g', _, [], by decide, by decide, List.all_eq_true.mp hword, by simp⟩

theorem isName_nameOf (name : String) : IsName (nameOf name) := by
  unfold nameOf
  dsimp only
  cases hcs : (Text.lower name).toList.dropWhile fun c => !isNameChar c with
  | nil => exact isName_grammar
  | cons c cs =>
    have hc : isNameChar c = true := by
      have hhead := List.head?_dropWhile_not (fun c => !isNameChar c) (Text.lower name).toList
      rw [hcs] at hhead
      simpa using hhead
    obtain ⟨word, groups, hjoined, hword, hgroups, -⟩ := exists_groups false cs
    have hkept : joinGroups false (c :: cs) = c :: (word ++ behind groups) := by
      rw [joinGroups, if_pos hc, hjoined]
      rfl
    rw [hkept]
    dsimp only
    by_cases hdigit : c.isDigit = true
    · refine isName_iff.mpr ⟨'g', [], (c :: word) :: groups, ?_, by decide, by simp, ?_⟩
      · rw [if_pos hdigit, String.toList_ofList]
        simp [behind]
      · refine List.forall_mem_cons.mpr ⟨⟨by simp, ?_⟩, hgroups⟩
        exact List.forall_mem_cons.mpr ⟨hc, hword⟩
    · refine isName_iff.mpr ⟨c, word, groups, ?_, ?_, hword, hgroups⟩
      · rw [if_neg hdigit, String.toList_ofList]
      · simpa [isNameChar, hdigit] using hc

theorem lower_of_isName (h : IsName name) : Text.lower name = name := by
  obtain ⟨c, word, groups, hname, hlower, hword, hgroups⟩ := isName_iff.mp h
  have hchars : ∀ d ∈ name.toList, Text.lowerChar d = d := by
    intro d hd
    apply lowerChar_of_nameChar
    simp only [hname, behind, List.mem_cons, List.mem_append, List.mem_flatMap] at hd
    rcases hd with rfl | hd | ⟨group, hgroup, rfl | hd⟩
    · exact Or.inl (by simp [isNameChar, hlower])
    · exact Or.inl (hword d hd)
    · exact Or.inr rfl
    · exact Or.inl ((hgroups group hgroup).2 d hd)
  rw [Text.lower, List.map_congr_left hchars, List.map_id', String.ofList_toList]

theorem nameOf_of_isName (h : IsName name) : nameOf name = name := by
  obtain ⟨c, word, groups, hname, hlower, hword, hgroups⟩ := isName_iff.mp h
  have hc : isNameChar c = true := by simp [isNameChar, hlower]
  have hkept : joinGroups false name.toList = name.toList := by
    rw [hname, joinGroups, if_pos hc, joinGroups_word hword, joinGroups_behind hgroups]
    rfl
  have hstart : (name.toList.dropWhile fun c => !isNameChar c) = name.toList := by
    simp [hname, hc]
  unfold nameOf
  dsimp only
  rw [lower_of_isName h, hstart, hkept, hname]
  dsimp only
  rw [isDigit_of_lower hlower, ← hname]
  simp

/-- The name of a specification has the form of a name, and it is the name of the grammar just if
that has this form; so the name of a specification is kept. -/
theorem nameOf_proper (name : String) : IsName (nameOf name) ∧
    (nameOf name = name ↔ IsName name) ∧ nameOf (nameOf name) = nameOf name := by
  refine ⟨isName_nameOf name, ⟨fun h => h ▸ isName_nameOf name, nameOf_of_isName⟩, ?_⟩
  exact nameOf_of_isName (isName_nameOf name)

end LexicalSpec

end ParserTables

import ParserTables.Proofs.Exploration

/-!
The worklist of kernels, without any bound on its steps. A kernel is requested unless its key is
known, and every kernel that waits is built in its turn, which may request more. Whatever the keys
are, kernels with different keys are different, and there are only finitely many sets of items; so
the worklist becomes empty. If different kernels have different keys, the states that it has built
then are those of the exploration.
-/

namespace ParserTables

/-- The states built, the keys of the kernels requested so far, and the kernels that wait. -/
structure Worklist (κ : Type) where
  built : List State
  known : List κ
  waiting : List ItemSet

namespace Worklist

variable {κ : Type}

def kernels (w : Worklist κ) : List ItemSet := w.built.map (·.kernel) ++ w.waiting

def add (key : ItemSet → κ) (w : Worklist κ) (k : ItemSet) : Worklist κ :=
  { w with known := w.known ++ [key k], waiting := w.waiting ++ [k] }

def request [DecidableEq κ] (key : ItemSet → κ) (w : Worklist κ) (k : ItemSet) : Worklist κ :=
  if key k ∈ w.known then w else w.add key k

/-- Builds the state of a kernel and leaves `rest` to wait. -/
def take (g : NumberedGrammar) (w : Worklist κ) (k : ItemSet) (rest : List ItemSet) :
    Worklist κ :=
  { w with built := w.built ++ [g.state k], waiting := rest }

def build [DecidableEq κ] (key : ItemSet → κ) (g : NumberedGrammar) (w : Worklist κ)
    (k : ItemSet) (rest : List ItemSet) : Worklist κ :=
  (g.state k).successors.foldl (request key) (w.take g k rest)

def initial [DecidableEq κ] (key : ItemSet → κ) : Worklist κ :=
  request key ⟨[], [], []⟩ NumberedGrammar.initialKernel

variable {g : NumberedGrammar} {key : ItemSet → κ} {w : Worklist κ} {k : ItemSet}
  {rest : List ItemSet}

theorem kernels_add (key : ItemSet → κ) (w : Worklist κ) (k : ItemSet) :
    (w.add key k).kernels = w.kernels ++ [k] :=
  (List.append_assoc _ _ _).symm

theorem kernels_take (hw : w.waiting = k :: rest) : (w.take g k rest).kernels = w.kernels := by
  have happend : w.built.map (·.kernel) ++ [k] ++ rest = w.kernels := by
    rw [kernels, hw, List.append_assoc]
    rfl
  rw [← happend, kernels, take, List.map_append]
  rfl

theorem known_add (h : w.known = w.kernels.map key) (k : ItemSet) :
    (w.add key k).known = (w.add key k).kernels.map key := by
  rw [kernels_add, List.map_append, ← h]
  rfl

variable [DecidableEq κ]

theorem built_requestAll (w : Worklist κ) (ks : List ItemSet) :
    (ks.foldl (request key) w).built = w.built := by
  induction ks generalizing w with
  | nil => rfl
  | cons k ks ih =>
    rw [List.foldl_cons, ih, request]
    by_cases hk : key k ∈ w.known
    · rw [if_pos hk]
    · rw [if_neg hk]
      rfl

theorem built_build (w : Worklist κ) (k : ItemSet) (rest : List ItemSet) :
    (w.build key g k rest).built = w.built ++ [g.state k] :=
  built_requestAll _ _

end Worklist

namespace NumberedGrammar

/-- Working off a worklist until nothing waits leads from the one worklist to the other. -/
inductive Explores {κ : Type} [DecidableEq κ] (g : NumberedGrammar) (key : ItemSet → κ) :
    Worklist κ → Worklist κ → Prop
  | done {w : Worklist κ} : w.waiting = [] → Explores g key w w
  | next {w w' : Worklist κ} {k : ItemSet} {rest : List ItemSet} : w.waiting = k :: rest →
      Explores g key (w.build key g k rest) w' → Explores g key w w'

variable {κ : Type} {g : NumberedGrammar} {key : ItemSet → κ} {w w' w'' : Worklist κ}
  {k : ItemSet} {ks rest : List ItemSet} {n : Nat}

structure Requested (g : NumberedGrammar) (key : ItemSet → κ) (w : Worklist κ) : Prop where
  known_eq : w.known = w.kernels.map key
  nodup : w.known.Nodup
  valid : ∀ k ∈ w.kernels, g.IsKernel k

theorem Requested.length_le (h : g.Requested key w) : w.kernels.length ≤ g.kernelBound := by
  have hnodup : w.kernels.Nodup := List.Nodup.of_map key (h.known_eq ▸ h.nodup)
  exact length_le_kernelBound hnodup fun k hk => (h.valid k hk).items

theorem Requested.add (h : g.Requested key w) (hk : g.IsKernel k) (hnew : key k ∉ w.known) :
    g.Requested key (w.add key k) := by
  constructor
  case known_eq => exact Worklist.known_add h.known_eq k
  case nodup =>
    refine List.nodup_append.mpr ⟨h.nodup, List.nodup_singleton _, ?_⟩
    rintro c hc d hd rfl
    exact hnew (List.mem_singleton.mp hd ▸ hc)
  case valid =>
    intro k' hk'
    rw [Worklist.kernels_add] at hk'
    rcases List.mem_append.mp hk' with hk' | hk'
    · exact h.valid k' hk'
    · rwa [List.mem_singleton.mp hk']

theorem Requested.take (h : g.Requested key w) (hw : w.waiting = k :: rest) :
    g.Requested key (w.take g k rest) := by
  have hkernels : (w.take g k rest).kernels = w.kernels := Worklist.kernels_take hw
  constructor
  case known_eq =>
    rw [hkernels]
    exact h.known_eq
  case nodup => exact h.nodup
  case valid =>
    rw [hkernels]
    exact h.valid

variable [DecidableEq κ]

theorem Explores.unique (h : g.Explores key w w') (h' : g.Explores key w w'') : w' = w'' := by
  induction h with
  | done hw =>
    cases h' with
    | done _ => rfl
    | next hw' _ => cases hw.symm.trans hw'
  | next hw _ ih =>
    cases h' with
    | done hw' => cases hw.symm.trans hw'
    | next hw' h' =>
      cases hw.symm.trans hw'
      exact ih h'

theorem Requested.request (h : g.Requested key w) (hk : g.IsKernel k) :
    g.Requested key (w.request key k) := by
  rw [Worklist.request]
  by_cases hknown : key k ∈ w.known
  · rw [if_pos hknown]
    exact h
  · rw [if_neg hknown]
    exact h.add hk hknown

theorem Requested.requestAll (h : g.Requested key w) (hks : ∀ k ∈ ks, g.IsKernel k) :
    g.Requested key (ks.foldl (Worklist.request key) w) := by
  induction ks generalizing w with
  | nil => exact h
  | cons k ks ih =>
    obtain ⟨hk, hrest⟩ := List.forall_mem_cons.mp hks
    exact ih (h.request hk) hrest

theorem Requested.build (h : g.Requested key w) (hw : w.waiting = k :: rest) :
    g.Requested key (w.build key g k rest) := by
  apply (h.take hw).requestAll
  intro k' hk'
  obtain ⟨tr, hmoves, rfl⟩ := mem_successors.mp hk'
  exact moves_isKernel hmoves

theorem requested_initial {r : Production} (key : ItemSet → κ) (hr : g.rules[0]? = some r) :
    g.Requested key (Worklist.initial key) := by
  have hnone : g.Requested key ⟨[], [], []⟩ := by
    constructor
    case known_eq => rfl
    case nodup => exact List.nodup_nil
    case valid => exact fun _ hk => absurd hk List.not_mem_nil
  exact hnone.request (initial_isKernel hr)

theorem waiting_requestAll (hkey : Function.Injective key) (h : w.known = w.kernels.map key)
    (ks : List ItemSet) : (ks.foldl (Worklist.request key) w).waiting =
      w.waiting ++ newKernels w.kernels ks := by
  induction ks generalizing w with
  | nil => exact (List.append_nil _).symm
  | cons k ks ih =>
    have hmem : key k ∈ w.known ↔ k ∈ w.kernels := by
      rw [h, List.mem_map_of_injective hkey]
    rw [List.foldl_cons, Worklist.request, newKernels]
    by_cases hk : k ∈ w.kernels
    · rw [if_pos (hmem.mpr hk), if_pos hk]
      exact ih h
    · rw [if_neg (fun hknown => hk (hmem.mp hknown)), if_neg hk, ih (Worklist.known_add h k),
        Worklist.kernels_add]
      exact List.append_assoc _ _ _

theorem Requested.waiting_build (h : g.Requested key w) (hkey : Function.Injective key)
    (hw : w.waiting = k :: rest) : (w.build key g k rest).waiting =
      rest ++ newKernels (w.built.map (·.kernel) ++ k :: rest) (g.state k).successors := by
  have hkernels : (w.take g k rest).kernels = w.built.map (·.kernel) ++ k :: rest := by
    rw [Worklist.kernels_take hw, Worklist.kernels, hw]
  rw [← hkernels]
  exact waiting_requestAll hkey (h.take hw).known_eq _

/-- With as many steps as there can be kernels nothing waits any more, and with different keys for
different kernels these are the steps of the exploration. -/
theorem Requested.explores (h : g.Requested key w) (enough : g.kernelBound ≤ n + w.built.length) :
    ∃ w', g.Explores key w w' ∧
      (Function.Injective key → w'.built = g.explore n w.built w.waiting) := by
  induction n generalizing w with
  | zero =>
    have hbound := h.length_le
    rw [Worklist.kernels, List.length_append, List.length_map] at hbound
    have hempty : w.waiting = [] := List.eq_nil_of_length_eq_zero (by omega)
    exact ⟨w, .done hempty, fun _ => rfl⟩
  | succ n ih =>
    cases hw : w.waiting with
    | nil => exact ⟨w, .done hw, fun _ => rfl⟩
    | cons k rest =>
      have hlength : (w.build key g k rest).built.length = w.built.length + 1 := by
        rw [Worklist.built_build, List.length_append, List.length_singleton]
      obtain ⟨w', hw', hbuilt⟩ := ih (h.build hw) (by omega)
      refine ⟨w', .next hw hw', ?_⟩
      intro hkey
      rw [hbuilt hkey, Worklist.built_build, h.waiting_build hkey hw]
      rfl

theorem explores_once {r : Production} (hr : g.rules[0]? = some r) (key : ItemSet → κ) :
    ∃! w, g.Explores key (.initial key) w := by
  obtain ⟨w, hw, -⟩ := (requested_initial key hr).explores (Nat.le_add_right _ _)
  exact ⟨w, hw, fun _ hw' => hw'.unique hw⟩

theorem Explores.built_eq {r : Production} (h : g.Explores key (.initial key) w)
    (hr : g.rules[0]? = some r) (hkey : Function.Injective key) : w.built = g.states := by
  obtain ⟨w', hw', hbuilt⟩ := (requested_initial key hr).explores (Nat.le_add_right _ _)
  obtain rfl := h.unique hw'
  exact hbuilt hkey

end NumberedGrammar

end ParserTables

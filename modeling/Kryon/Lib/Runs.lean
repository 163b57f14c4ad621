import Kryon.Lib.Transaction
import Mathlib.Algebra.Order.Group.Abs
import Mathlib.Algebra.Order.Ring.Abs
import Mathlib.Data.List.Basic

/-! # Runs of a labelled transition system

A run from `s` is the list of its labels, each with the state it leads to. An
invariant of the steps is an invariant of the runs; the restricted forms take a
condition on each step, which may look at the label and at the state before it. -/

namespace Runs

variable {σ ι : Type}

/-- `IsRun Step s t`: `t` lists the steps of a run from `s`, label and state after. -/
def IsRun (Step : σ → ι → σ → Prop) : σ → List (ι × σ) → Prop
  | _, [] => True
  | s, (i, s') :: t => Step s i s' ∧ IsRun Step s' t

/-- The state a run ends in. -/
def final (s : σ) : List (ι × σ) → σ
  | [] => s
  | (_, s') :: t => final s' t

/-- Every step's label and state before it meet `C`. -/
def AllSteps (C : σ → ι → Prop) : σ → List (ι × σ) → Prop
  | _, [] => True
  | s, (i, s') :: t => C s i ∧ AllSteps C s' t

/-- Every state of the run, the first included, meets `P`. -/
def AllStates (P : σ → Prop) (s : σ) (t : List (ι × σ)) : Prop := P s ∧ ∀ e ∈ t, P e.2

variable {Step : σ → ι → σ → Prop} {C : σ → ι → Prop} {P I : σ → Prop}

@[simp] theorem isRun_nil (s : σ) : IsRun Step s [] := trivial

@[simp] theorem isRun_cons {s s' : σ} {i : ι} {t : List (ι × σ)} :
    IsRun Step s ((i, s') :: t) ↔ Step s i s' ∧ IsRun Step s' t := Iff.rfl

@[simp] theorem final_nil (s : σ) : final s ([] : List (ι × σ)) = s := rfl

@[simp] theorem final_cons {s s' : σ} {i : ι} {t : List (ι × σ)} :
    final s ((i, s') :: t) = final s' t := rfl

@[simp] theorem allSteps_nil (s : σ) : AllSteps C s [] := trivial

@[simp] theorem allSteps_cons {s s' : σ} {i : ι} {t : List (ι × σ)} :
    AllSteps C s ((i, s') :: t) ↔ C s i ∧ AllSteps C s' t := Iff.rfl

instance [∀ s i, Decidable (C s i)] : (s : σ) → (t : List (ι × σ)) → Decidable (AllSteps C s t)
  | _, [] => .isTrue trivial
  | s, (i, s') :: t =>
    have : Decidable (AllSteps C s' t) := instDecidableAllSteps s' t
    inferInstanceAs (Decidable (C s i ∧ AllSteps C s' t))

theorem IsRun.mono {Weaker : σ → ι → σ → Prop} {s : σ} {t : List (ι × σ)} (hr : IsRun Step s t)
    (h : ∀ s i s', Step s i s' → Weaker s i s') : IsRun Weaker s t := by
  induction t generalizing s with
  | nil => trivial
  | cons e t ih => exact ⟨h _ _ _ hr.1, ih hr.2⟩

theorem AllSteps.mono {D : σ → ι → Prop} {s : σ} {t : List (ι × σ)} (hc : AllSteps C s t)
    (h : ∀ s i, C s i → D s i) : AllSteps D s t := by
  induction t generalizing s with
  | nil => trivial
  | cons e rest ih => exact ⟨h _ _ hc.1, ih hc.2⟩

theorem allSteps_of_forall (h : ∀ s i, C s i) (s : σ) (t : List (ι × σ)) : AllSteps C s t := by
  induction t generalizing s with
  | nil => trivial
  | cons e t ih => exact ⟨h _ _, ih _⟩

/-- A condition that only looks at the labels. -/
theorem allSteps_labels {Q : ι → Prop} {s : σ} {t : List (ι × σ)} :
    AllSteps (fun _ i => Q i) s t ↔ ∀ e ∈ t, Q e.1 := by
  induction t generalizing s with
  | nil => simp
  | cons e t ih =>
    obtain ⟨i, s'⟩ := e
    rw [allSteps_cons, List.forall_mem_cons, ih]

/-- A run whose steps meet `C` is a run of the steps that do. -/
theorem IsRun.and {s : σ} {t : List (ι × σ)} (hr : IsRun Step s t) (hc : AllSteps C s t) :
    IsRun (fun s i s' => Step s i s' ∧ C s i) s t := by
  induction t generalizing s with
  | nil => trivial
  | cons e t ih => exact ⟨⟨hr.1, hc.1⟩, ih hr.2 hc.2⟩

theorem allStates_cons {s s' : σ} {i : ι} {t : List (ι × σ)} :
    AllStates P s ((i, s') :: t) ↔ P s ∧ AllStates P s' t := by
  simp [AllStates]

theorem AllStates.head {s : σ} {t : List (ι × σ)} (h : AllStates P s t) : P s := h.1

theorem AllStates.at_final {s : σ} {t : List (ι × σ)} (h : AllStates P s t) : P (final s t) := by
  induction t generalizing s with
  | nil => exact h.1
  | cons e t ih => exact ih (allStates_cons.mp h).2

theorem AllStates.mono {Q : σ → Prop} {s : σ} {t : List (ι × σ)} (h : AllStates P s t)
    (hPQ : ∀ s, P s → Q s) : AllStates Q s t :=
  ⟨hPQ _ h.1, fun e he => hPQ _ (h.2 e he)⟩

/-- What holds of every step from a `P`-state holds of every step of a run through
`P`-states. -/
theorem AllStates.allSteps (hstep : ∀ s i s', P s → Step s i s' → C s i) {s : σ}
    {t : List (ι × σ)} (h : AllStates P s t) (hr : IsRun Step s t) : AllSteps C s t := by
  induction t generalizing s with
  | nil => trivial
  | cons e t ih => exact ⟨hstep _ _ _ h.head hr.1, ih (allStates_cons.mp h).2 hr.2⟩

/-- Conditions that agree in `P`-states agree on a run through such states. -/
theorem AllStates.allSteps_iff {D : σ → ι → Prop} (hiff : ∀ s i, P s → (C s i ↔ D s i)) {s : σ}
    {t : List (ι × σ)} (h : AllStates P s t) : AllSteps C s t ↔ AllSteps D s t := by
  induction t generalizing s with
  | nil => exact Iff.rfl
  | cons e t ih => exact and_congr (hiff s e.1 h.head) (ih (allStates_cons.mp h).2)

/-- An invariant that steps meeting `C` keep holds in every state of a run of such steps. -/
theorem invariant (hstep : ∀ s i s', I s → C s i → Step s i s' → I s') :
    ∀ {s : σ} {t : List (ι × σ)}, I s → IsRun Step s t → AllSteps C s t → AllStates I s t
  | _, [], h, _, _ => ⟨h, by simp⟩
  | _, (_, _) :: _, h, hr, hc =>
    allStates_cons.mpr ⟨h, invariant hstep (hstep _ _ _ h hc.1 hr.1) hr.2 hc.2⟩

/-- An invariant of every step holds in every state of a run. -/
theorem invariant_of_step (hstep : ∀ s i s', I s → Step s i s' → I s') {s : σ}
    {t : List (ι × σ)} (h : I s) (hr : IsRun Step s t) : AllStates I s t := by
  induction t generalizing s with
  | nil => exact ⟨h, by simp⟩
  | cons e t ih => exact allStates_cons.mpr ⟨h, ih (hstep _ _ _ h hr.1) hr.2⟩

/-- The labels of a run, in order. -/
def labels (t : List (ι × σ)) : List ι := t.map Prod.fst

/-- An invariant that relates the state to the labels so far. -/
theorem history_invariant {J : List ι → σ → Prop}
    (hstep : ∀ past s i s', J past s → Step s i s' → J (past ++ [i]) s') {past : List ι} {s : σ}
    {t : List (ι × σ)} (h : J past s) (hr : IsRun Step s t) : J (past ++ labels t) (final s t) := by
  induction t generalizing past s with
  | nil => simpa [labels] using h
  | cons e t ih =>
    have htail := ih (hstep past s e.1 e.2 h hr.1) hr.2
    rw [List.append_assoc] at htail
    exact htail

/-- A run through `P`-states is a run of what the steps do from `P`-states. -/
theorem AllStates.isRun {Effect : σ → ι → σ → Prop} {s : σ} {t : List (ι × σ)}
    (h : AllStates P s t) (hr : IsRun Step s t)
    (hstep : ∀ s i s', P s → Step s i s' → Effect s i s') : IsRun Effect s t := by
  induction t generalizing s with
  | nil => trivial
  | cons e t ih => exact ⟨hstep _ _ _ h.head hr.1, ih (allStates_cons.mp h).2 hr.2⟩

/-- Steps that meet `C` from `I`-states keep `I`; a run of them is a run of their effects. -/
theorem isRun_of_invariant {Effect : σ → ι → σ → Prop}
    (hstep : ∀ s i s', I s → C s i → Step s i s' → I s' ∧ Effect s i s') {s : σ}
    {t : List (ι × σ)} (h : I s) (hr : IsRun Step s t) (hc : AllSteps C s t) : IsRun Effect s t := by
  induction t generalizing s with
  | nil => trivial
  | cons e t ih =>
    obtain ⟨hi, he⟩ := hstep _ _ _ h hc.1 hr.1
    exact ⟨he, ih hi hr.2 hc.2⟩

/-- When each step keeps `I` and, from `I`-states, `C` decides whether `P` holds
after the step, then a run stays in `P` exactly when all its steps meet `C`. -/
theorem allStates_iff_allSteps (hI : ∀ s i s', I s → Step s i s' → I s')
    (hP : ∀ s i s', I s → P s → Step s i s' → (P s' ↔ C s i)) {s : σ} {t : List (ι × σ)}
    (h : I s) (hp : P s) (hr : IsRun Step s t) : AllStates P s t ↔ AllSteps C s t := by
  induction t generalizing s with
  | nil => simp [AllStates, hp]
  | cons e t ih =>
    obtain ⟨i, s'⟩ := e
    have hs := hP s i s' h hp hr.1
    have hi := hI s i s' h hr.1
    rw [allStates_cons, allSteps_cons]
    constructor
    · rintro ⟨_, ht⟩
      exact ⟨hs.mp ht.head, (ih hi ht.head hr.2).mp ht⟩
    · rintro ⟨hc, ht⟩
      exact ⟨hp, (ih hi (hs.mpr hc) hr.2).mpr ht⟩

/-- What each step moves by at most its bound, a run moves by at most their sum. -/
theorem abs_final_sub_le {R : Type} [AddCommGroup R] [LinearOrder R] [IsOrderedAddMonoid R]
    (F : σ → R) (bound : ι → σ → R) {s : σ} {t : List (ι × σ)}
    (h : IsRun (fun s i s' => |F s' - F s| ≤ bound i s') s t) :
    |F (final s t) - F s| ≤ (t.map fun e => bound e.1 e.2).sum := by
  induction t generalizing s with
  | nil => simp
  | cons e t ih =>
    obtain ⟨hstep, hrest⟩ := h
    have htail := ih hrest
    calc |F (final e.2 t) - F s|
        = |(F (final e.2 t) - F e.2) + (F e.2 - F s)| := by rw [sub_add_sub_cancel]
      _ ≤ |F (final e.2 t) - F e.2| + |F e.2 - F s| := abs_add_le _ _
      _ ≤ (t.map fun e => bound e.1 e.2).sum + bound e.1 e.2 := add_le_add htail hstep
      _ = ((e :: t).map fun e => bound e.1 e.2).sum := by
        rw [List.map_cons, List.sum_cons, add_comm]

/-- The sum over the steps of a quantity of each step and the state before it. -/
def total {M : Type} [AddMonoid M] (f : σ → ι → M) : σ → List (ι × σ) → M
  | _, [] => 0
  | s, (i, s') :: t => f s i + total f s' t

/-- The same with a bound that each step reads off the state before it. -/
theorem abs_final_sub_le_total {R : Type} [AddCommGroup R] [LinearOrder R] [IsOrderedAddMonoid R]
    (F : σ → R) (bound : σ → ι → R) {s : σ} {t : List (ι × σ)}
    (h : IsRun (fun s i s' => |F s' - F s| ≤ bound s i) s t) :
    |F (final s t) - F s| ≤ total bound s t := by
  induction t generalizing s with
  | nil => simp [total]
  | cons e t ih =>
    obtain ⟨hstep, hrest⟩ := h
    have htail := ih hrest
    calc |F (final e.2 t) - F s|
        = |(F (final e.2 t) - F e.2) + (F e.2 - F s)| := by rw [sub_add_sub_cancel]
      _ ≤ |F (final e.2 t) - F e.2| + |F e.2 - F s| := abs_add_le _ _
      _ ≤ total bound e.2 t + bound s e.1 := add_le_add htail hstep
      _ = total bound s (e :: t) := add_comm _ _

/-- How far a quantity moves in a run, back and forth. -/
def variation (F : σ → Int) : σ → List (ι × σ) → Int
  | _, [] => 0
  | s, (_, s') :: t => |F s' - F s| + variation F s' t

theorem abs_final_sub_le_variation (F : σ → Int) (s : σ) (t : List (ι × σ)) :
    |F (final s t) - F s| ≤ variation F s t := by
  induction t generalizing s with
  | nil => simp [variation]
  | cons e t ih =>
    have htail := ih e.2
    calc |F (final e.2 t) - F s|
        = |(F (final e.2 t) - F e.2) + (F e.2 - F s)| := by rw [sub_add_sub_cancel]
      _ ≤ |F (final e.2 t) - F e.2| + |F e.2 - F s| := abs_add_le _ _
      _ ≤ |F e.2 - F s| + variation F e.2 t := by omega

/-- What moves at a bounded rate in each step varies at that rate in a run. -/
theorem variation_mul_le {F T : σ → Int} {k rate : Int} {s : σ} {t : List (ι × σ)}
    (h : IsRun (fun s _ s' => |F s' - F s| * k ≤ rate * (T s' - T s)) s t) :
    variation F s t * k ≤ rate * (T (final s t) - T s) := by
  induction t generalizing s with
  | nil => simp [variation]
  | cons e t ih =>
    obtain ⟨hstep, hrest⟩ := h
    calc variation F s (e :: t) * k
        = |F e.2 - F s| * k + variation F e.2 t * k := add_mul _ _ _
      _ ≤ rate * (T e.2 - T s) + rate * (T (final e.2 t) - T e.2) := add_le_add hstep (ih hrest)
      _ = rate * (T (final s (e :: t)) - T s) := by
        rw [← mul_add, sub_add_sub_cancel', final_cons]

/-- What drifts by less than one in each step drifts by less than their number. -/
theorem abs_final_sub_lt_length {R : Type} [Ring R] [LinearOrder R] [IsStrictOrderedRing R]
    (F : σ → R) {s : σ} {t : List (ι × σ)} (h : IsRun (fun s _ s' => |F s' - F s| < 1) s t)
    (hne : t ≠ []) : |F (final s t) - F s| < t.length := by
  induction t generalizing s with
  | nil => exact absurd rfl hne
  | cons e t ih =>
    obtain ⟨hstep, hrest⟩ := h
    have htail : |F (final e.2 t) - F e.2| ≤ t.length := by
      cases t with
      | nil => simp
      | cons e' t => exact (ih hrest (List.cons_ne_nil _ _)).le
    calc |F (final e.2 t) - F s|
        = |(F (final e.2 t) - F e.2) + (F e.2 - F s)| := by rw [sub_add_sub_cancel]
      _ ≤ |F (final e.2 t) - F e.2| + |F e.2 - F s| := abs_add_le _ _
      _ < t.length + 1 := add_lt_add_of_le_of_lt htail hstep
      _ = ((e :: t).length : R) := by rw [List.length_cons, Nat.cast_succ]

/-! ## What the steps put out -/

section Outputs

variable {α : Type} {f : σ → ι → Option α} {v : σ → Option α}

/-- What each step puts out, read off the state before it. -/
def outputs (f : σ → ι → Option α) : σ → List (ι × σ) → List α
  | _, [] => []
  | s, (i, s') :: t => (f s i).toList ++ outputs f s' t

/-- A register that each output overwrites holds the last one. -/
theorem last_output {s : σ} {t : List (ι × σ)}
    (h : IsRun (fun s i s' => v s' = (f s i).or (v s)) s t) :
    v (final s t) = (outputs f s t).getLast?.or (v s) := by
  induction t generalizing s with
  | nil => rfl
  | cons e t ih =>
    obtain ⟨i, s'⟩ := e
    rw [final_cons, ih h.2, h.1, outputs, List.getLast?_append, Option.or_assoc]
    cases f s i <;> rfl

/-- When every output is in relation to the one in the register, all of them are in a chain. -/
theorem outputs_isChain {R : α → α → Prop} {s : σ} {t : List (ι × σ)}
    (h : IsRun (fun s i s' => v s' = (f s i).or (v s) ∧
      ∀ a, f s i = some a → ∀ b, v s = some b → R b a) s t) :
    List.IsChain R ((v s).toList ++ outputs f s t) := by
  induction t generalizing s with
  | nil =>
    cases hv : v s with
    | none => exact .nil
    | some b => exact .singleton b
  | cons e t ih =>
    obtain ⟨i, s'⟩ := e
    obtain ⟨⟨hv, hR⟩, hrest⟩ := h
    have htail := ih hrest
    rw [hv] at htail
    cases hf : f s i with
    | none => simpa [outputs, hf] using htail
    | some a =>
      have hchain : List.IsChain R (a :: outputs f s' t) := by simpa [hf] using htail
      cases hb : v s with
      | none => simpa [outputs, hf] using hchain
      | some b =>
        rw [outputs, hf]
        exact List.isChain_cons_cons.mpr ⟨hR a hf b hb, hchain⟩

/-- Every output is that of one of the labels. -/
theorem exists_label_of_output {P : ι → α → Prop} {s : σ} {t : List (ι × σ)}
    (h : IsRun (fun s i _ => ∀ a, f s i = some a → P i a) s t) {a : α} (ha : a ∈ outputs f s t) :
    ∃ i ∈ labels t, P i a := by
  induction t generalizing s with
  | nil => cases ha
  | cons e t ih =>
    rcases List.mem_append.mp ha with ha | ha
    · exact ⟨e.1, List.mem_cons_self, h.1 a (Option.mem_toList.mp ha)⟩
    · obtain ⟨i, hi, hP⟩ := ih h.2 ha
      exact ⟨i, List.mem_cons_of_mem _ hi, hP⟩

end Outputs

/-! ## Runs of a step function -/

/-- The labels one after the other, each with the state it leads to. -/
def play (step : σ → ι → Option σ) (s : σ) : List ι → Option (List (ι × σ))
  | [] => some []
  | i :: is => do
    let s' ← step s i
    let run ← play step s' is
    return (i, s') :: run

theorem isRun_play {step : σ → ι → Option σ} {s : σ} {is : List ι} {run : List (ι × σ)}
    (h : play step s is = some run) : IsRun (fun s i s' => step s i = some s') s run := by
  induction is generalizing s run with
  | nil =>
    obtain rfl := Option.some.inj h
    trivial
  | cons i is ih =>
    obtain ⟨s', hstep, hrest⟩ := Option.bind_eq_some_iff.mp h
    obtain ⟨tail, htail, hrun⟩ := Option.bind_eq_some_iff.mp hrest
    obtain rfl := Option.some.inj hrun
    exact ⟨hstep, ih htail⟩

/-- What was read off the played labels is read off a run. -/
theorem exists_isRun_of_play {τ : Type} (step : σ → ι → Option σ) (s : σ) (is : List ι)
    (f : List (ι × σ) → τ) {v : τ} (h : (play step s is).map f = some v) :
    ∃ run, IsRun (fun s i s' => step s i = some s') s run ∧ f run = v := by
  obtain ⟨run, hrun, hv⟩ := Option.map_eq_some_iff.mp h
  exact ⟨run, isRun_play hrun, hv⟩

/-- The labels one after the other, where every step can be made. -/
def follow (next : σ → ι → σ) (s : σ) : List ι → List (ι × σ)
  | [] => []
  | i :: is => (i, next s i) :: follow next (next s i) is

theorem isRun_follow {next : σ → ι → σ} (s : σ) (is : List ι) :
    IsRun (fun s i s' => s' = next s i) s (follow next s is) := by
  induction is generalizing s with
  | nil => trivial
  | cons i is ih => exact ⟨rfl, ih (next s i)⟩

theorem allSteps_follow_cons {C : σ → ι → Prop} {next : σ → ι → σ} {s : σ} {i : ι} {is : List ι} :
    AllSteps C s (follow next s (i :: is)) ↔ C s i ∧ AllSteps C (next s i) (follow next (next s i) is) :=
  Iff.rfl

theorem final_follow_cons {next : σ → ι → σ} {s : σ} {i : ι} {is : List ι} :
    final s (follow next s (i :: is)) = final (next s i) (follow next (next s i) is) := rfl

/-! ## Runs of transactions -/

section Calls

open Transaction

variable {ε τ : Type} {call : ι → Transaction σ ε Unit} {view : σ → τ}

/-- One successful call, seen through `view`: what the view leaves out may change
freely between calls. -/
def CallStep (call : ι → Transaction σ ε Unit) (view : σ → τ) (s : τ) (i : ι) (s' : τ) : Prop :=
  ∃ w w', view w = s ∧ view w' = s' ∧ Returns (call i) w () w'

/-- One call, accepted or not, seen through `view`. -/
def AttemptStep (call : ι → Transaction σ ε Unit) (view : σ → τ) (s : τ) (i : ι) (s' : τ) : Prop :=
  ∃ w, view w = s ∧ view (commit (call i) w) = s'

/-- Make the calls one after the other. -/
def execute (call : ι → Transaction σ ε Unit) (w : σ) : List ι → List (ι × σ)
  | [] => []
  | i :: is => (i, commit (call i) w) :: execute call (commit (call i) w) is

def allSucceed (call : ι → Transaction σ ε Unit) (w : σ) : List ι → Bool
  | [] => true
  | i :: is => (call i).succeeds w && allSucceed call (commit (call i) w) is

/-- The same run, its states seen through `view`. -/
def viewed (view : σ → τ) (t : List (ι × σ)) : List (ι × τ) := t.map fun e => (e.1, view e.2)

theorem final_viewed (w : σ) (t : List (ι × σ)) :
    final (view w) (viewed view t) = view (final w t) := by
  induction t generalizing w with
  | nil => rfl
  | cons e t ih => exact ih e.2

theorem labels_viewed_execute (w : σ) (is : List ι) : labels (viewed view (execute call w is)) = is := by
  induction is generalizing w with
  | nil => rfl
  | cons i is ih => exact congrArg (i :: ·) (ih _)

/-- One call, whether it succeeds or not. -/
def CommitStep (call : ι → Transaction σ ε Unit) (s : σ) (i : ι) (s' : σ) : Prop :=
  s' = commit (call i) s

theorem isRun_commit (s : σ) (is : List ι) : IsRun (CommitStep call) s (execute call s is) := by
  induction is generalizing s with
  | nil => trivial
  | cons i is ih => exact ⟨rfl, ih _⟩

/-- Calls that all succeed make a run. -/
theorem isRun_execute {w : σ} {is : List ι} (h : allSucceed call w is = true) :
    IsRun (CallStep call view) (view w) (viewed view (execute call w is)) := by
  induction is generalizing w with
  | nil => trivial
  | cons i is ih =>
    simp only [allSucceed, Bool.and_eq_true] at h
    obtain ⟨u, hu⟩ := returns_commit h.1
    exact ⟨⟨w, _, rfl, rfl, hu⟩, ih h.2⟩

/-- What the accepted calls keep, all calls keep. -/
theorem invariant_of_attempts {I : τ → Prop}
    (hstep : ∀ s i s', I s → CallStep call view s i s' → I s') {s : τ} {t : List (ι × τ)}
    (h : I s) (hr : IsRun (AttemptStep call view) s t) : AllStates I s t := by
  refine invariant_of_step (fun s i s' hs hcall => ?_) h hr
  obtain ⟨w, rfl, rfl⟩ := hcall
  rcases commit_cases (call i) w with ⟨_, h⟩ | ⟨_, h⟩
  · exact hstep _ i _ hs ⟨w, _, rfl, rfl, h⟩
  · rwa [h]

theorem isRun_attempts (w : σ) (is : List ι) :
    IsRun (AttemptStep call view) (view w) (viewed view (execute call w is)) := by
  induction is generalizing w with
  | nil => trivial
  | cons i is ih => exact ⟨⟨w, rfl, rfl⟩, ih _⟩

/-! ## Calls with what they return -/

variable {α : Type} {query : ι → Transaction σ ε α}

/-- One successful call and what it returned, seen through `view`. -/
def ReturnStep (query : ι → Transaction σ ε α) (view : σ → τ) (s : τ) (e : ι × α) (s' : τ) : Prop :=
  ∃ w w', view w = s ∧ view w' = s' ∧ Returns (query e.1) w e.2 w'

/-- Make the calls one after the other, up to the first that aborts. -/
def perform (query : ι → Transaction σ ε α) (w : σ) : List ι → List ((ι × α) × σ)
  | [] => []
  | i :: is =>
    match (query i).value w with
    | none => []
    | some a => ((i, a), commit (query i) w) :: perform query (commit (query i) w) is

theorem isRun_perform (w : σ) (is : List ι) :
    IsRun (ReturnStep query view) (view w) (viewed view (perform query w is)) := by
  induction is generalizing w with
  | nil => trivial
  | cons i is ih =>
    rw [perform]
    split
    · trivial
    · rename_i a ha
      exact ⟨⟨w, _, rfl, rfl, returns_of_value ha⟩, ih _⟩

end Calls

end Runs

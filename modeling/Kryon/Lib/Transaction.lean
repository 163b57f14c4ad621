import Mathlib.Logic.Basic

/-! # Transactions that may abort

A transaction reads and writes a state and may abort; an aborted transaction
has no resulting state, so whatever it wrote is rolled back. `Returns x s a s'`
says that `x`, started in `s`, succeeds with value `a` in state `s'`. The
inversion lemmas below take a successful run of a `do` block apart step by
step, without unfolding the monad. -/

abbrev Transaction (σ ε : Type) := StateT σ (Except ε)

namespace Transaction

variable {σ ε α β : Type}

def Returns (x : Transaction σ ε α) (s : σ) (a : α) (s' : σ) : Prop := x.run s = .ok (a, s')

/-- Run for the effect alone. -/
def void (x : Transaction σ ε α) : Transaction σ ε Unit := do
  let _ ← x

/-- Whether the transaction succeeds from `s`. -/
def succeeds (x : Transaction σ ε α) (s : σ) : Bool := match x.run s with
  | .ok _ => true
  | .error _ => false

/-- Abort with `e` when `c` holds. -/
def failIf (c : Prop) [Decidable c] (e : ε) : Except ε Unit := if c then .error e else .ok ()

/-- The value, or abort with `e` when there is none. -/
def someOr (o : Option α) (e : ε) : Except ε α := match o with
  | some a => .ok a
  | none => .error e

/-- Run a computation that only reads the state. -/
def readWith (f : σ → Except ε α) : Transaction σ ε α := fun s => (f s).map (·, s)

/-- The state a transaction leaves: its own on success, the old one when it aborts. -/
def commit (x : Transaction σ ε α) (s : σ) : σ := match x.run s with
  | .ok (_, s') => s'
  | .error _ => s

/-- What the transaction returns from `s`, if it succeeds. -/
def value (x : Transaction σ ε α) (s : σ) : Option α := match x.run s with
  | .ok (a, _) => some a
  | .error _ => none

/-! ## Inversion of plain fallible computations -/

@[simp] theorem except_bind_ok {x : Except ε α} {f : α → Except ε β} {b : β} :
    (x >>= f) = .ok b ↔ ∃ a, x = .ok a ∧ f a = .ok b := by
  cases x with
  | error e => simp [bind, Except.bind]
  | ok a => simp [bind, Except.bind]

theorem except_bind_of_ok {x : Except ε α} {f : α → Except ε β} {a : α} (h : x = .ok a) :
    (x >>= f) = f a := by rw [h]; rfl

theorem except_bind_of_error {x : Except ε α} {f : α → Except ε β} {e : ε} (h : x = .error e) :
    (x >>= f) = .error e := by rw [h]; rfl

@[simp] theorem except_pure_ok {a b : α} : (pure a : Except ε α) = .ok b ↔ a = b := by
  simp [pure, Except.pure]

@[simp] theorem except_map_ok {x : Except ε α} {f : α → β} {b : β} :
    x.map f = .ok b ↔ ∃ a, x = .ok a ∧ f a = b := by
  cases x <;> simp [Except.map]

theorem except_map_error {x : Except ε α} {f : α → β} {e : ε} : x.map f = .error e ↔ x = .error e := by
  cases x <;> simp [Except.map]

@[simp] theorem failIf_ok {c : Prop} [Decidable c] {e : ε} {u : Unit} :
    failIf c e = .ok u ↔ ¬ c := by
  unfold failIf
  split <;> simp_all

@[simp] theorem someOr_ok {o : Option α} {e : ε} {a : α} : someOr o e = .ok a ↔ o = some a := by
  cases o <;> simp [someOr]

theorem except_bind_error {x : Except ε α} {f : α → Except ε β} {e : ε} :
    (x >>= f) = .error e ↔ x = .error e ∨ ∃ a, x = .ok a ∧ f a = .error e := by
  cases x with
  | error e => simp [bind, Except.bind]
  | ok a => simp [bind, Except.bind]

theorem failIf_error {c : Prop} [Decidable c] {e e' : ε} : failIf c e = .error e' ↔ c ∧ e = e' := by
  unfold failIf
  split <;> simp_all

theorem someOr_error {o : Option α} {e e' : ε} : someOr o e = .error e' ↔ o = none ∧ e = e' := by
  cases o <;> simp [someOr]

theorem exists_ok {x : Except ε α} (h : x.isOk = true) : ∃ a, x = .ok a := by
  cases x with
  | error e => cases h
  | ok a => exact ⟨a, rfl⟩

/-- The computation succeeds or fails with `e`. -/
def FailsOnly (x : Except ε α) (e : ε) : Prop := ∀ e', x = .error e' → e' = e

theorem FailsOnly.of_ok {x : Except ε α} {e : ε} {a : α} (h : x = .ok a) : FailsOnly x e := by
  intro e' he
  rw [h] at he
  cases he

theorem FailsOnly.bind {x : Except ε α} {f : α → Except ε β} {e : ε} (hx : FailsOnly x e)
    (hf : ∀ a, x = .ok a → FailsOnly (f a) e) : FailsOnly (x >>= f) e := by
  intro e' he
  cases x with
  | error e₁ => exact hx e' (congrArg Except.error (Except.error.inj he))
  | ok a => exact hf a rfl e' he

theorem FailsOnly.cases {x : Except ε α} {e : ε} (h : FailsOnly x e) :
    x = .error e ∨ ∃ a, x = .ok a := by
  cases x with
  | error e' => exact .inl (congrArg Except.error (h e' rfl))
  | ok a => exact .inr ⟨a, rfl⟩

theorem failIf_failsOnly (c : Prop) [Decidable c] (e : ε) : FailsOnly (failIf c e) e := by
  intro e' he
  unfold failIf at he
  split at he
  · exact (Except.error.inj he).symm
  · cases he

/-! ## Inversion of transactions -/

@[simp] theorem returns_pure {a b : α} {s s' : σ} :
    Returns (pure a : Transaction σ ε α) s b s' ↔ a = b ∧ s' = s := by
  constructor
  · intro h
    have h := Except.ok.inj h
    exact ⟨congrArg Prod.fst h, (congrArg Prod.snd h).symm⟩
  · rintro ⟨rfl, rfl⟩; rfl

@[simp] theorem returns_bind {x : Transaction σ ε α} {f : α → Transaction σ ε β} {s s'' : σ}
    {b : β} : Returns (x >>= f) s b s'' ↔ ∃ a s', Returns x s a s' ∧ Returns (f a) s' b s'' := by
  unfold Returns
  rw [StateT.run_bind]
  cases hx : x.run s with
  | error e => simp [bind, Except.bind]
  | ok p => simp [bind, Except.bind, Prod.ext_iff, and_assoc]

@[simp] theorem returns_lift {x : Except ε α} {s s' : σ} {a : α} :
    Returns (liftM x : Transaction σ ε α) s a s' ↔ x = .ok a ∧ s' = s := by
  unfold Returns
  cases x with
  | error e => simp [liftM, monadLift, MonadLift.monadLift, StateT.lift, StateT.run, bind, Except.bind]
  | ok b =>
    simp [liftM, monadLift, MonadLift.monadLift, StateT.lift, StateT.run, bind, Except.bind,
      pure, Except.pure, eq_comm]

@[simp] theorem returns_get {s a s' : σ} :
    Returns (get : Transaction σ ε σ) s a s' ↔ a = s ∧ s' = s := by
  constructor
  · intro h
    have h := Except.ok.inj h
    exact ⟨(congrArg Prod.fst h).symm, (congrArg Prod.snd h).symm⟩
  · rintro ⟨rfl, rfl⟩; rfl

@[simp] theorem returns_modify {f : σ → σ} {s s' : σ} {u : Unit} :
    Returns (modify f : Transaction σ ε Unit) s u s' ↔ s' = f s := by
  constructor
  · intro h
    exact (congrArg Prod.snd (Except.ok.inj h)).symm
  · rintro rfl; rfl

@[simp] theorem returns_readWith {f : σ → Except ε α} {s s' : σ} {a : α} :
    Returns (readWith f : Transaction σ ε α) s a s' ↔ f s = .ok a ∧ s' = s := by
  unfold Returns readWith StateT.run
  rw [except_map_ok]
  constructor
  · rintro ⟨b, hb, he⟩
    obtain ⟨rfl, rfl⟩ := Prod.mk.inj he
    exact ⟨hb, rfl⟩
  · rintro ⟨h, rfl⟩; exact ⟨a, h, rfl⟩

@[simp] theorem returns_ite {c : Prop} [Decidable c] {x y : Transaction σ ε α} {s s' : σ} {a : α} :
    Returns (if c then x else y) s a s' ↔
      (c ∧ Returns x s a s') ∨ (¬ c ∧ Returns y s a s') := by
  split <;> simp_all

/-! A step that only reads, or only writes, needs no name for the state it leaves. -/

theorem returns_lift_bind {x : Except ε α} {f : α → Transaction σ ε β} {s s' : σ} {b : β} :
    Returns ((liftM x : Transaction σ ε α) >>= f) s b s' ↔
      ∃ a, x = .ok a ∧ Returns (f a) s b s' := by
  simp only [returns_bind, returns_lift]
  constructor
  · rintro ⟨a, _, ⟨hx, rfl⟩, h⟩; exact ⟨a, hx, h⟩
  · rintro ⟨a, hx, h⟩; exact ⟨a, s, ⟨hx, rfl⟩, h⟩

theorem returns_readWith_bind {g : σ → Except ε α} {f : α → Transaction σ ε β} {s s' : σ} {b : β} :
    Returns (readWith g >>= f) s b s' ↔ ∃ a, g s = .ok a ∧ Returns (f a) s b s' := by
  simp only [returns_bind, returns_readWith]
  constructor
  · rintro ⟨a, _, ⟨hx, rfl⟩, h⟩; exact ⟨a, hx, h⟩
  · rintro ⟨a, hx, h⟩; exact ⟨a, s, ⟨hx, rfl⟩, h⟩

theorem returns_get_bind {f : σ → Transaction σ ε β} {s s' : σ} {b : β} :
    Returns (get >>= f) s b s' ↔ Returns (f s) s b s' := by
  simp only [returns_bind, returns_get]
  constructor
  · rintro ⟨_, _, ⟨rfl, rfl⟩, h⟩; exact h
  · exact fun h => ⟨s, s, ⟨rfl, rfl⟩, h⟩

theorem returns_modify_bind {g : σ → σ} {f : Unit → Transaction σ ε β} {s s' : σ} {b : β} :
    Returns (modify g >>= f) s b s' ↔ Returns (f ()) (g s) b s' := by
  simp only [returns_bind, returns_modify]
  constructor
  · rintro ⟨_, _, rfl, h⟩; exact h
  · exact fun h => ⟨(), g s, rfl, h⟩

@[simp] theorem returns_void {x : Transaction σ ε α} {s s' : σ} {u : Unit} :
    Returns x.void s u s' ↔ ∃ a, Returns x s a s' := by
  simp only [void, returns_bind, returns_pure]
  constructor
  · rintro ⟨a, _, h, _, rfl⟩; exact ⟨a, h⟩
  · rintro ⟨a, h⟩; exact ⟨a, s', h, trivial, rfl⟩

@[simp] theorem not_returns_lift_error {e : ε} {s s' : σ} {a : α} :
    ¬ Returns (liftM (.error e : Except ε α) : Transaction σ ε α) s a s' := by
  simp

/-- Past a step that succeeds a run goes on from where it leaves off. -/
theorem Returns.run_bind {x : Transaction σ ε α} {f : α → Transaction σ ε β} {s s' : σ} {a : α}
    (h : Returns x s a s') : (x >>= f).run s = (f a).run s' := by
  rw [StateT.run_bind, show x.run s = .ok (a, s') from h]
  rfl

theorem run_lift_bind {x : Except ε α} {f : α → Transaction σ ε β} {s : σ} {a : α} (h : x = .ok a) :
    ((liftM x : Transaction σ ε α) >>= f).run s = (f a).run s :=
  Returns.run_bind (returns_lift.mpr ⟨h, rfl⟩)

theorem run_readWith_bind {g : σ → Except ε α} {f : α → Transaction σ ε β} {s : σ} {a : α}
    (h : g s = .ok a) : (readWith g >>= f).run s = (f a).run s :=
  Returns.run_bind (returns_readWith.mpr ⟨h, rfl⟩)

theorem run_get_bind {f : σ → Transaction σ ε β} {s : σ} :
    ((get : Transaction σ ε σ) >>= f).run s = (f s).run s :=
  Returns.run_bind (returns_get.mpr ⟨rfl, rfl⟩)

theorem run_lift_error {x : Except ε α} {s : σ} {e : ε} (h : x = .error e) :
    (liftM x : Transaction σ ε α).run s = .error e := by rw [h]; rfl

theorem run_bind_of_error {x : Transaction σ ε α} {f : α → Transaction σ ε β} {s : σ} {e : ε}
    (h : x.run s = .error e) : (x >>= f).run s = .error e := by
  rw [StateT.run_bind, h]
  rfl

/-- A transaction has one outcome. -/
theorem Returns.det {x : Transaction σ ε α} {s s₁ s₂ : σ} {a b : α}
    (h : Returns x s a s₁) (h' : Returns x s b s₂) : a = b ∧ s₁ = s₂ := by
  have he := Except.ok.inj (h.symm.trans h')
  exact ⟨congrArg Prod.fst he, congrArg Prod.snd he⟩

theorem commit_of_returns {x : Transaction σ ε α} {s s' : σ} {a : α} (h : Returns x s a s') :
    commit x s = s' := by
  unfold commit
  rw [show x.run s = .ok (a, s') from h]

/-- Either the transaction succeeded, or the state is the old one. -/
theorem commit_cases (x : Transaction σ ε α) (s : σ) :
    (∃ a, Returns x s a (commit x s)) ∨ ((∀ a s', ¬ Returns x s a s') ∧ commit x s = s) := by
  cases hx : x.run s with
  | ok p => exact .inl ⟨p.1, by rw [commit_of_returns hx]; exact hx⟩
  | error e =>
    refine .inr ⟨fun a s' h => ?_, by simp [commit, hx]⟩
    rw [Returns, hx] at h
    cases h

theorem returns_of_value {x : Transaction σ ε α} {s : σ} {a : α} (h : x.value s = some a) :
    Returns x s a (commit x s) := by
  unfold value at h
  unfold Returns commit
  cases hx : x.run s with
  | ok p =>
    rw [hx] at h
    rw [← Option.some.inj h]
  | error e =>
    rw [hx] at h
    cases h

theorem commit_of_value {x : Transaction σ ε α} {s : σ} (h : x.value s = none) :
    commit x s = s := by
  unfold value at h
  unfold commit
  cases hx : x.run s with
  | ok p =>
    rw [hx] at h
    cases h
  | error e => rfl

theorem commit_void (x : Transaction σ ε α) (s : σ) : commit x.void s = commit x s := by
  cases hx : x.value s with
  | some a => exact commit_of_returns (a := ()) (returns_void.mpr ⟨a, returns_of_value hx⟩)
  | none =>
    rcases commit_cases x.void s with ⟨u, h⟩ | ⟨_, h⟩
    · obtain ⟨a, ha⟩ := returns_void.mp h
      exact (commit_of_returns ha).symm
    · rw [h, commit_of_value hx]

theorem succeeds_of_returns {x : Transaction σ ε α} {s s' : σ} {a : α} (h : Returns x s a s') :
    x.succeeds s = true := by
  unfold succeeds
  rw [show x.run s = .ok (a, s') from h]

theorem returns_commit {x : Transaction σ ε α} {s : σ} (h : x.succeeds s = true) :
    ∃ a, Returns x s a (commit x s) := by
  rcases commit_cases x s with hx | ⟨hx, _⟩
  · exact hx
  · unfold succeeds at h
    split at h
    · exact absurd ‹_› (hx _ _)
    · cases h

end Transaction

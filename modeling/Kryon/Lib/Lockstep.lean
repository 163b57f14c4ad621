import Kryon.Lib.Transaction

/-! # Two transactions in lockstep

The same transaction, or two that are alike, run from two related states. `Follows` says that
the second keeps up with the first: where the first succeeds the second does, with a related
value in a related state, or it fails in one of the ways `E` allows. A step that both take has
one rule here, and a whole transaction follows by `Follows.bind`. -/
namespace Transaction

variable {σ ε α β γ δ : Type} {E : ε → Prop} {R : σ → σ → Prop}

/-- Where `x` has a value, `y` has a related one or fails as `E` allows. -/
def Tracks (E : ε → Prop) (V : α → β → Prop) (x : Except ε α) (y : Except ε β) : Prop :=
  ∀ a, x = .ok a → (∃ e, y = .error e ∧ E e) ∨ ∃ b, y = .ok b ∧ V a b

def Follows (E : ε → Prop) (R : σ → σ → Prop) (V : α → β → Prop) (x : Transaction σ ε α)
    (y : Transaction σ ε β) : Prop :=
  ∀ s s', R s s' → ∀ a t, Returns x s a t →
    (∃ e, y.run s' = .error e ∧ E e) ∨ ∃ b t', Returns y s' b t' ∧ V a b ∧ R t t'

/-! ## Plain fallible computations -/

theorem related_of_some {V : α → β → Prop} {o : Option α} {o' : Option β} {a : α}
    (h : Option.Rel V o o') (ho : o = some a) : ∃ b, o' = some b ∧ V a b := by
  cases h with
  | some hab =>
    obtain rfl := Option.some.inj ho
    exact ⟨_, rfl, hab⟩
  | none => cases ho

theorem related_eq {V : α → α → Prop} {o o' : Option α} (h : Option.Rel V o o')
    (hV : ∀ a b, V a b → b = a) : o' = o := by
  cases h with
  | some hab => rw [hV _ _ hab]
  | none => rfl

theorem related_none {V : α → β → Prop} {o : Option α} {o' : Option β} (h : Option.Rel V o o') :
    o' = none ↔ o = none := by
  cases h <;> simp

namespace Tracks

variable {V : α → β → Prop} {W : γ → δ → Prop}

theorem refl (x : Except ε α) : Tracks E Eq x x := fun a h => .inr ⟨a, h, rfl⟩

theorem of_ok {x : Except ε α} {y : Except ε β} {b : β} (hy : y = .ok b) (h : ∀ a, x = .ok a → V a b) :
    Tracks E V x y := fun a hx => .inr ⟨b, hy, h a hx⟩

theorem of_rel {V : α → β → Prop} {o : Option α} {o' : Option β} (h : Option.Rel V o o') (e : ε) :
    Tracks E V (someOr o e) (someOr o' e) := by
  intro a ha
  obtain ⟨b, hb, hV⟩ := related_of_some h (someOr_ok.mp ha)
  exact .inr ⟨b, someOr_ok.mpr hb, hV⟩

/-- The second computation fails in one allowed way only, and its values are related. -/
theorem of_failsOnly {x : Except ε α} {y : Except ε β} {e : ε} (he : E e) (hy : FailsOnly y e)
    (h : ∀ a b, x = .ok a → y = .ok b → V a b) : Tracks E V x y := by
  intro a hx
  cases hy.cases with
  | inl herror => exact .inl ⟨e, herror, he⟩
  | inr hok =>
    obtain ⟨b, hb⟩ := hok
    exact .inr ⟨b, hb, h a b hx hb⟩

theorem bind {x : Except ε α} {y : Except ε β} {f : α → Except ε γ} {g : β → Except ε δ}
    (hx : Tracks E V x y) (hf : ∀ a b, x = .ok a → y = .ok b → V a b → Tracks E W (f a) (g b)) :
    Tracks E W (x >>= f) (y >>= g) := by
  intro c hc
  obtain ⟨a, ha, hfa⟩ := except_bind_ok.mp hc
  rcases hx a ha with ⟨e, hy, he⟩ | ⟨b, hy, hV⟩
  · exact .inl ⟨e, except_bind_of_error hy, he⟩
  · rw [except_bind_of_ok hy]
    exact hf a b ha hy hV c hfa

theorem mono {E' : ε → Prop} {V' : α → β → Prop} {x : Except ε α} {y : Except ε β}
    (h : Tracks E V x y) (hE : ∀ e, E e → E' e) (hV : ∀ a b, V a b → V' a b) : Tracks E' V' x y := by
  intro a hx
  rcases h a hx with ⟨e, hy, he⟩ | ⟨b, hy, hb⟩
  · exact .inl ⟨e, hy, hE e he⟩
  · exact .inr ⟨b, hy, hV a b hb⟩

/-- The allowed failures are the only ones. -/
theorem fails {x : Except ε α} {y : Except ε β} {a : α} {e : ε} (h : Tracks E V x y) (hx : x = .ok a)
    (hy : y = .error e) : E e := by
  rcases h a hx with ⟨e', he', hE⟩ | ⟨b, hb, _⟩
  · rwa [Except.error.inj (hy.symm.trans he')]
  · rw [hy] at hb
    cases hb

end Tracks

/-! ## Transactions -/

theorem follows_pure {V : α → β → Prop} {a : α} {b : β} (h : V a b) :
    Follows E R V (pure a) (pure b) := by
  intro s s' hR a' t ht
  obtain ⟨rfl, rfl⟩ := returns_pure.mp ht
  exact .inr ⟨b, s', returns_pure.mpr ⟨rfl, rfl⟩, h, hR⟩

theorem follows_lift {V : α → β → Prop} {x : Except ε α} {y : Except ε β} (h : Tracks E V x y) :
    Follows E R V (liftM x) (liftM y) := by
  intro s s' hR a t ht
  obtain ⟨hx, rfl⟩ := returns_lift.mp ht
  rcases h a hx with ⟨e, hy, he⟩ | ⟨b, hy, hV⟩
  · exact .inl ⟨e, run_lift_error hy, he⟩
  · exact .inr ⟨b, s', returns_lift.mpr ⟨hy, rfl⟩, hV, hR⟩

theorem follows_readWith {V : α → β → Prop} {f : σ → Except ε α} {g : σ → Except ε β}
    (h : ∀ s s', R s s' → Tracks E V (f s) (g s')) : Follows E R V (readWith f) (readWith g) := by
  intro s s' hR a t ht
  obtain ⟨hx, rfl⟩ := returns_readWith.mp ht
  rcases h _ s' hR a hx with ⟨e, hy, he⟩ | ⟨b, hy, hV⟩
  · refine .inl ⟨e, ?_, he⟩
    show (g s').map _ = _
    rw [hy]
    rfl
  · exact .inr ⟨b, s', returns_readWith.mpr ⟨hy, rfl⟩, hV, hR⟩

/-- A transaction follows itself from the same state. -/
theorem follows_refl (x : Transaction σ ε α) : Follows E Eq Eq x x := by
  rintro s _ rfl a t ht
  exact .inr ⟨a, t, ht, rfl, rfl⟩

theorem follows_get : Follows E R R (get : Transaction σ ε σ) get := by
  intro s s' hR a t ht
  obtain ⟨rfl, rfl⟩ := returns_get.mp ht
  exact .inr ⟨s', s', returns_get.mpr ⟨rfl, rfl⟩, hR, hR⟩

theorem follows_modify {f g : σ → σ} (h : ∀ s s', R s s' → R (f s) (g s')) :
    Follows E R Eq (modify f : Transaction σ ε Unit) (modify g) := by
  intro s s' hR a t ht
  obtain rfl := returns_modify.mp ht
  exact .inr ⟨(), g s', returns_modify.mpr rfl, rfl, h s s' hR⟩

namespace Follows

variable {V : α → β → Prop} {W : γ → δ → Prop}

theorem bind {x : Transaction σ ε α} {y : Transaction σ ε β} {f : α → Transaction σ ε γ}
    {g : β → Transaction σ ε δ} (hx : Follows E R V x y)
    (hf : ∀ a b, V a b → Follows E R W (f a) (g b)) : Follows E R W (x >>= f) (y >>= g) := by
  intro s s' hR c t ht
  obtain ⟨a, s₁, ha, hfa⟩ := returns_bind.mp ht
  rcases hx s s' hR a s₁ ha with ⟨e, hy, he⟩ | ⟨b, s₁', hy, hV, hR₁⟩
  · exact .inl ⟨e, run_bind_of_error hy, he⟩
  · rcases hf a b hV s₁ s₁' hR₁ c t hfa with ⟨e, hg, he⟩ | ⟨d, t', hg, hW⟩
    · exact .inl ⟨e, hy.run_bind.trans hg, he⟩
    · exact .inr ⟨d, t', returns_bind.mpr ⟨b, s₁', hy, hg⟩, hW⟩

/-- Both sides read the same value and go on with it. -/
theorem seq {x : Transaction σ ε α} {y : Transaction σ ε α} {f : α → Transaction σ ε γ}
    {g : α → Transaction σ ε δ} (hx : Follows E R Eq x y) (hf : ∀ a, Follows E R W (f a) (g a)) :
    Follows E R W (x >>= f) (y >>= g) :=
  hx.bind fun a _ hab => hab ▸ hf a

/-- A check that both sides make. -/
theorem check {x : Except ε α} {f : α → Transaction σ ε γ} {g : α → Transaction σ ε δ}
    (hf : ∀ a, Follows E R W (f a) (g a)) : Follows E R W (liftM x >>= f) (liftM x >>= g) :=
  (follows_lift (.refl x)).seq hf

/-- A check that the second side alone makes, with a failure that is allowed. -/
theorem gate {x : Transaction σ ε γ} {y : Except ε Unit} {g : Unit → Transaction σ ε δ} {e : ε} (he : E e)
    (hy : FailsOnly y e) (hg : Follows E R W x (g ())) : Follows E R W x (liftM y >>= g) := by
  intro s s' hR c t ht
  cases hy.cases with
  | inl herror => exact .inl ⟨e, run_bind_of_error (run_lift_error herror), he⟩
  | inr hok =>
    obtain ⟨_, rfl⟩ := hok
    exact hg s s' hR c t ht

/-- A check that the first side alone makes. -/
theorem skip {x : Except ε α} {f : α → Transaction σ ε γ} {y : Transaction σ ε δ}
    (hf : ∀ a, Follows E R W (f a) y) : Follows E R W (liftM x >>= f) y := by
  intro s s' hR c t ht
  obtain ⟨a, _, hfa⟩ := returns_lift_bind.mp ht
  exact hf a s s' hR c t hfa

theorem ite {c d : Prop} [Decidable c] [Decidable d] {x x' : Transaction σ ε α}
    {y y' : Transaction σ ε β} (hc : c ↔ d) (hx : Follows E R V x y) (hx' : Follows E R V x' y') :
    Follows E R V (if c then x else x') (if d then y else y') := by
  by_cases h : c
  · rwa [if_pos h, if_pos (hc.mp h)]
  · rwa [if_neg h, if_neg (mt hc.mpr h)]

/-- Where no failure is allowed the second side succeeds. -/
theorem returns {x : Transaction σ ε α} {y : Transaction σ ε β} {s s' t : σ} {a : α}
    (h : Follows (fun _ => False) R V x y) (hR : R s s') (hx : Returns x s a t) :
    ∃ b t', Returns y s' b t' ∧ V a b ∧ R t t' := by
  rcases h s s' hR a t hx with ⟨_, _, hfalse⟩ | hy
  · exact hfalse.elim
  · exact hy

/-- The second side never fails in a way that is not allowed. -/
theorem never {x : Transaction σ ε α} {y : Transaction σ ε β} {s s' t : σ} {a : α} {e : ε}
    (h : Follows E R V x y) (hR : R s s') (hx : Returns x s a t) (he : ¬ E e) : y.run s' ≠ .error e := by
  intro hy
  rcases h s s' hR a t hx with ⟨e', hy', he'⟩ | ⟨b, t', hb, _⟩
  · exact he (Except.error.inj (hy.symm.trans hy') ▸ he')
  · cases hy.symm.trans hb

end Follows
end Transaction

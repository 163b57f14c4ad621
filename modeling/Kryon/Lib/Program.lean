import Mathlib.Data.List.Basic

/-! # Programs of indivisible steps

A program is a tree of operations on a shared state: each is carried out in one step,
answers with a value or an error, and the program goes on with the answer. `exec` gives
the operations their meaning; a reply `ω` stands for everything that the state does not
decide. `Ends` is a run from start to end that nothing interrupts, and `Wp` what has to
hold before a program so that all its runs end well, others changing the state between
its steps. -/

/-- Operations `Op` with answers `Ans`, errors `ε` and a result in `α`. -/
inductive Program (Op : Type) (Ans : Op → Type) (ε α : Type) : Type
  | done (a : α)
  | fail (e : ε)
  | call (op : Op) (next : Except ε (Ans op) → Program Op Ans ε α)

namespace Program

variable {Op : Type} {Ans : Op → Type} {ε ω σ α β : Type}

protected def bind : Program Op Ans ε α → (α → Program Op Ans ε β) → Program Op Ans ε β
  | done a, f => f a
  | fail e, _ => fail e
  | call op next, f => call op fun r => (next r).bind f

protected def tryCatch : Program Op Ans ε α → (ε → Program Op Ans ε α) → Program Op Ans ε α
  | done a, _ => done a
  | fail e, handler => handler e
  | call op next, handler => call op fun r => (next r).tryCatch handler

instance : Monad (Program Op Ans ε) where
  pure := done
  bind := Program.bind

instance : MonadExcept ε (Program Op Ans ε) where
  throw := fail
  tryCatch := Program.tryCatch

/-- What an answer is worth to a program that does not catch errors. -/
def ofExcept : Except ε α → Program Op Ans ε α
  | .ok a => done a
  | .error e => fail e

def perform (op : Op) : Program Op Ans ε (Ans op) := call op ofExcept

/-- The body for each entry in turn. -/
def forEach (l : List α) (body : α → Program Op Ans ε Unit) : Program Op Ans ε Unit :=
  match l with
  | [] => done ()
  | a :: rest => (body a).bind fun _ => forEach rest body

theorem bind_done (p : Program Op Ans ε α) : p.bind done = p := by
  induction p with
  | done a => rfl
  | fail e => rfl
  | call op next ih => exact congrArg (call op) (funext ih)

theorem bind_bind {γ : Type} (p : Program Op Ans ε α) (f : α → Program Op Ans ε β)
    (g : β → Program Op Ans ε γ) : (p.bind f).bind g = p.bind fun a => (f a).bind g := by
  induction p with
  | done a => rfl
  | fail e => rfl
  | call op next ih => exact congrArg (call op) (funext ih)

instance : LawfulMonad (Program Op Ans ε) :=
  LawfulMonad.mk' _ bind_done (fun _ _ => rfl) bind_bind

theorem forEach_append {l l' : List α} {body : α → Program Op Ans ε Unit} :
    forEach (l ++ l') body = forEach l body >>= fun _ => forEach l' body := by
  induction l with
  | nil => rfl
  | cons a rest ih =>
    show (body a).bind (fun _ => forEach (rest ++ l') body) = _
    rw [ih]
    exact (bind_bind _ _ _).symm

theorem forEach_map {f : β → α} {l : List β} {body : α → Program Op Ans ε Unit} :
    forEach (l.map f) body = forEach l fun b => body (f b) := by
  induction l with
  | nil => rfl
  | cons b rest ih => exact congrArg ((body (f b)).bind ·) (funext fun _ => ih)

theorem forEach_filter {p : α → Bool} {l : List α} {body : α → Program Op Ans ε Unit} :
    forEach (l.filter p) body = forEach l fun a => if p a then body a else pure () := by
  induction l with
  | nil => rfl
  | cons a rest ih =>
    rw [List.filter_cons]
    cases hp : p a with
    | true =>
      show (body a).bind _ = (if p a then body a else pure ()).bind _
      rw [hp, if_pos rfl]
      exact congrArg ((body a).bind ·) (funext fun _ => ih)
    | false =>
      show forEach (rest.filter p) body = (if p a then body a else pure ()).bind _
      rw [hp, if_neg Bool.false_ne_true]
      exact ih

/-! ## The operations of a program -/

section Issues

variable (A : (op : Op) → Except ε (Ans op) → Prop) (S : Op → Prop)

/-- While the answers meet `A`, every operation that `p` issues meets `S`. -/
def Issues : Program Op Ans ε α → Prop
  | done _ => True
  | fail _ => True
  | call op next => S op ∧ ∀ r, A op r → Issues (next r)

variable {A S}

@[simp] theorem issues_pure {a : α} : Issues A S (pure a : Program Op Ans ε α) := trivial

@[simp] theorem issues_throw {e : ε} : Issues A S (throw e : Program Op Ans ε α) := trivial

theorem issues_ofExcept {r : Except ε α} : Issues A S (ofExcept r : Program Op Ans ε α) := by
  cases r with
  | ok a => trivial
  | error e => trivial

theorem issues_perform {op : Op} : Issues A S (perform op : Program Op Ans ε (Ans op)) ↔ S op :=
  ⟨fun h => h.1, fun h => ⟨h, fun _ _ => issues_ofExcept⟩⟩

theorem Issues.bind {p : Program Op Ans ε α} {f : α → Program Op Ans ε β} (h : Issues A S p)
    (hf : ∀ a, Issues A S (f a)) : Issues A S (p >>= f) := by
  show Issues A S (p.bind f)
  induction p with
  | done a => exact hf a
  | fail e => trivial
  | call op next ih => exact ⟨h.1, fun r hr => ih r (h.2 r hr)⟩

/-- The rest of the program may rely on what is known of the answer. -/
theorem Issues.perform {op : Op} {f : Ans op → Program Op Ans ε α} (h : S op)
    (hf : ∀ a, A op (.ok a) → Issues A S (f a)) : Issues A S (perform op >>= f) := by
  refine ⟨h, fun r hr => ?_⟩
  cases r with
  | ok a => exact hf a hr
  | error e => trivial

theorem Issues.tryCatch {p : Program Op Ans ε α} {handler : ε → Program Op Ans ε α}
    (h : Issues A S p) (hh : ∀ e, Issues A S (handler e)) : Issues A S (tryCatch p handler) := by
  show Issues A S (p.tryCatch handler)
  induction p with
  | done a => trivial
  | fail e => exact hh e
  | call op next ih => exact ⟨h.1, fun r hr => ih r (h.2 r hr)⟩

theorem Issues.mono {S' : Op → Prop} {p : Program Op Ans ε α} (h : Issues A S p)
    (hS : ∀ op, S op → S' op) : Issues A S' p := by
  induction p with
  | done a => trivial
  | fail e => trivial
  | call op next ih => exact ⟨hS op h.1, fun r hr => ih r (h.2 r hr)⟩

theorem Issues.forEach {l : List α} {body : α → Program Op Ans ε Unit}
    (h : ∀ a ∈ l, Issues A S (body a)) : Issues A S (forEach l body) := by
  induction l with
  | nil => trivial
  | cons a rest ih =>
    exact Issues.bind (h a List.mem_cons_self) fun _ =>
      ih fun b hb => h b (List.mem_cons_of_mem a hb)

end Issues

/-! ## Runs from start to end -/

section Ends

variable (exec : (op : Op) → ω → σ → Except ε (Ans op) × σ) (C : Op → ω → σ → Prop)

/-- Run alone from `s`, `p` can end in `s'` with `r`, each of its steps meeting `C`. -/
def Ends : Program Op Ans ε α → σ → Except ε α → σ → Prop
  | done a, s, r, s' => r = .ok a ∧ s' = s
  | fail e, s, r, s' => r = .error e ∧ s' = s
  | call op next, s, r, s' => ∃ w, C op w s ∧ Ends (next (exec op w s).1) (exec op w s).2 r s'

/-- Whatever the first reply of each step, the program ends. -/
theorem exists_ends [Nonempty ω] (p : Program Op Ans ε α) (s : σ) :
    ∃ r s', Ends exec (fun _ _ _ => True) p s r s' := by
  induction p generalizing s with
  | done a => exact ⟨_, _, rfl, rfl⟩
  | fail e => exact ⟨_, _, rfl, rfl⟩
  | call op next ih =>
    obtain ⟨w⟩ := ‹Nonempty ω›
    obtain ⟨r, s', h⟩ := ih _ (exec op w s).2
    exact ⟨r, s', w, trivial, h⟩

/-- The run that the replies describe; `none` when they do not match its length. -/
def runWith : Program Op Ans ε α → List ω → σ → Option (Except ε α × σ)
  | done a, [], s => some (.ok a, s)
  | fail e, [], s => some (.error e, s)
  | call op next, w :: ws, s => runWith (next (exec op w s).1) ws (exec op w s).2
  | _, _, _ => none

/-- Every step of that run meets `C`. -/
def MeetsWith : Program Op Ans ε α → List ω → σ → Prop
  | call op next, w :: ws, s => C op w s ∧ MeetsWith (next (exec op w s).1) ws (exec op w s).2
  | _, _, _ => True

instance decidableMeetsWith [∀ op w s, Decidable (C op w s)] :
    (p : Program Op Ans ε α) → (ws : List ω) → (s : σ) → Decidable (MeetsWith exec C p ws s)
  | done _, _, _ => .isTrue trivial
  | fail _, _, _ => .isTrue trivial
  | call _ _, [], _ => .isTrue trivial
  | call op next, w :: ws, s =>
    have : Decidable (MeetsWith exec C (next (exec op w s).1) ws (exec op w s).2) :=
      decidableMeetsWith _ ws _
    inferInstanceAs (Decidable (C op w s ∧ MeetsWith exec C (next (exec op w s).1) ws (exec op w s).2))

end Ends

/-! ## Weakest preconditions -/

section Wp

variable (exec : (op : Op) → ω → σ → Except ε (Ans op) × σ) (R : σ → σ → Prop)
  (C : Op → ω → σ → Prop) (S : Op → σ → Prop)

/-- From `s`, whatever others do within `R` before each of its steps and whatever the
replies within `C`, `p` makes only steps that meet `S` and ends with `Q`. -/
def Wp : Program Op Ans ε α → (Except ε α → σ → Prop) → σ → Prop
  | done a, Q, s => Q (.ok a) s
  | fail e, Q, s => Q (.error e) s
  | call op next, Q, s => ∀ t, R s t →
      S op t ∧ ∀ w, C op w t → Wp (next (exec op w t).1) Q (exec op w t).2

/-- What a bind's first part has to end with. -/
def thenWp (f : α → Program Op Ans ε β) (Q : Except ε β → σ → Prop) : Except ε α → σ → Prop
  | .ok a, s => Wp exec R C S (f a) Q s
  | .error e, s => Q (.error e) s

/-- What a guarded part has to end with. -/
def orElseWp (handler : ε → Program Op Ans ε α) (Q : Except ε α → σ → Prop) :
    Except ε α → σ → Prop
  | .ok a, s => Q (.ok a) s
  | .error e, s => Wp exec R C S (handler e) Q s

variable {exec R C S} {Q Q' : Except ε α → σ → Prop} {s t : σ}

@[simp] theorem wp_done {a : α} : Wp exec R C S (done a) Q s ↔ Q (.ok a) s := Iff.rfl

@[simp] theorem wp_pure {a : α} : Wp exec R C S (pure a) Q s ↔ Q (.ok a) s := Iff.rfl

@[simp] theorem wp_fail {e : ε} : Wp exec R C S (fail e) Q s ↔ Q (.error e) s := Iff.rfl

@[simp] theorem wp_throw {e : ε} : Wp exec R C S (throw e : Program Op Ans ε α) Q s ↔ Q (.error e) s :=
  Iff.rfl

theorem wp_call {op : Op} {next : Except ε (Ans op) → Program Op Ans ε α} :
    Wp exec R C S (call op next) Q s ↔ ∀ t, R s t →
      S op t ∧ ∀ w, C op w t → Wp exec R C S (next (exec op w t).1) Q (exec op w t).2 := Iff.rfl

theorem wp_ofExcept {r : Except ε α} : Wp exec R C S (ofExcept r) Q s ↔ Q r s := by
  cases r with
  | ok a => exact Iff.rfl
  | error e => exact Iff.rfl

theorem wp_perform {op : Op} {Q : Except ε (Ans op) → σ → Prop} :
    Wp exec R C S (perform op) Q s ↔ ∀ t, R s t →
      S op t ∧ ∀ w, C op w t → Q (exec op w t).1 (exec op w t).2 := by
  simp only [perform, wp_call, wp_ofExcept]

theorem Wp.bind {p : Program Op Ans ε α} {f : α → Program Op Ans ε β} {Q : Except ε β → σ → Prop}
    (h : Wp exec R C S p (thenWp exec R C S f Q) s) : Wp exec R C S (p >>= f) Q s := by
  show Wp exec R C S (p.bind f) Q s
  induction p generalizing s with
  | done a => exact h
  | fail e => exact h
  | call op next ih =>
    intro t ht
    obtain ⟨hsafe, hnext⟩ := h t ht
    exact ⟨hsafe, fun w hw => ih _ (hnext w hw)⟩

theorem Wp.tryCatch {p : Program Op Ans ε α} {handler : ε → Program Op Ans ε α}
    (h : Wp exec R C S p (orElseWp exec R C S handler Q) s) :
    Wp exec R C S (tryCatch p handler) Q s := by
  show Wp exec R C S (p.tryCatch handler) Q s
  induction p generalizing s with
  | done a => exact h
  | fail e => exact h
  | call op next ih =>
    intro t ht
    obtain ⟨hsafe, hnext⟩ := h t ht
    exact ⟨hsafe, fun w hw => ih _ (hnext w hw)⟩

theorem Wp.mono {p : Program Op Ans ε α} (h : Wp exec R C S p Q s) (hQ : ∀ r s, Q r s → Q' r s) :
    Wp exec R C S p Q' s := by
  induction p generalizing s with
  | done a => exact hQ _ _ h
  | fail e => exact hQ _ _ h
  | call op next ih =>
    intro t ht
    obtain ⟨hsafe, hnext⟩ := h t ht
    exact ⟨hsafe, fun w hw => ih _ (hnext w hw)⟩

/-- A first operation and the rest. -/
theorem Wp.perform {op : Op} {f : Ans op → Program Op Ans ε α}
    (h : ∀ t, R s t → S op t ∧ ∀ w, C op w t →
      thenWp exec R C S f Q (exec op w t).1 (exec op w t).2) :
    Wp exec R C S (perform op >>= f) Q s :=
  Wp.bind (wp_perform.mpr h)

/-- A loop keeps what its body keeps. -/
theorem Wp.forEach {I : σ → Prop} {Q : Except ε Unit → σ → Prop}
    {body : α → Program Op Ans ε Unit} {l : List α} (hQ : ∀ s, I s → Q (.ok ()) s)
    (hbody : ∀ a ∈ l, ∀ s, I s →
      Wp exec R C S (body a) (fun | .ok _, s => I s | .error e, s => Q (.error e) s) s) (hI : I s) :
    Wp exec R C S (forEach l body) Q s := by
  induction l generalizing s with
  | nil => exact hQ s hI
  | cons a rest ih =>
    refine Wp.bind ((hbody a List.mem_cons_self s hI).mono fun r t h => ?_)
    cases r with
    | ok _ => exact ih (fun b hb => hbody b (List.mem_cons_of_mem a hb)) h
    | error e => exact h

/-- A loop that leaves every entry done, when its body keeps what was done before. -/
theorem Wp.forEach_done {I : σ → Prop} {D : α → σ → Prop} {Q : Except ε Unit → σ → Prop}
    {body : α → Program Op Ans ε Unit} {l : List α}
    (hbody : ∀ a ∈ l, ∀ s, I s → Wp exec R C S (body a)
      (fun | .ok _, t => I t ∧ D a t ∧ ∀ b, D b s → D b t | .error e, t => Q (.error e) t) s)
    (hQ : ∀ s, I s → (∀ a ∈ l, D a s) → Q (.ok ()) s) (hI : I s) :
    Wp exec R C S (Program.forEach l body) Q s := by
  -- what is left to do, beside what is done
  have hrest : ∀ rest, (∀ a ∈ rest, a ∈ l) → ∀ s, I s → (∀ a ∈ l, a ∈ rest ∨ D a s) →
      Wp exec R C S (Program.forEach rest body) Q s := by
    intro rest
    induction rest with
    | nil =>
      intro _ s hI hdone
      exact hQ s hI fun a ha => (hdone a ha).resolve_left (List.not_mem_nil)
    | cons a rest ih =>
      intro hsub s hI hdone
      refine Wp.bind ((hbody a (hsub a List.mem_cons_self) s hI).mono fun r t h => ?_)
      cases r with
      | error e => exact h
      | ok _ =>
        obtain ⟨hI, ha, hkeep⟩ := h
        refine ih (fun b hb => hsub b (List.mem_cons_of_mem a hb)) t hI fun b hb => ?_
        rcases hdone b hb with hleft | hD
        · rcases List.mem_cons.mp hleft with rfl | hleft
          · exact .inr ha
          · exact .inl hleft
        · exact .inr (hkeep b hD)
  exact hrest l (fun _ h => h) s hI fun a ha => .inl ha

/-- Others may act before the program's first step. -/
theorem Wp.of_rely (hR : ∀ a b c, R a b → R b c → R a c) {p : Program Op Ans ε α}
    (h : Wp exec R C S p Q s) (hQ : ∀ r, Q r s → Q r t) (hst : R s t) : Wp exec R C S p Q t := by
  cases p with
  | done a => exact hQ _ h
  | fail e => exact hQ _ h
  | call op next => exact fun u hu => h u (hR _ _ _ hst hu)

/-- Alone, `p` ends as its precondition says. -/
theorem Wp.ends {p : Program Op Ans ε α} {r : Except ε α} {s' : σ} (hR : ∀ s, R s s)
    (h : Wp exec R C S p Q s) (he : Ends exec C p s r s') : Q r s' := by
  induction p generalizing s with
  | done a =>
    obtain ⟨rfl, rfl⟩ := he
    exact h
  | fail e =>
    obtain ⟨rfl, rfl⟩ := he
    exact h
  | call op next ih =>
    obtain ⟨w, hw, hrest⟩ := he
    exact ih _ ((h s (hR s)).2 w hw) hrest

/-- A program keeps what each of its operations and the others keep, and is safe when that
makes each of its operations safe. -/
theorem Issues.wp {A : (op : Op) → Except ε (Ans op) → Prop} {S' : Op → Prop} {I : σ → Prop}
    {p : Program Op Ans ε α} (h : Issues A S' p) (hR : ∀ s t, R s t → I s → I t)
    (hS : ∀ op s, I s → S' op → S op s)
    (hI : ∀ op w s, I s → S' op → C op w s → A op (exec op w s).1 ∧ I (exec op w s).2) (hs : I s) :
    Wp exec R C S p (fun _ s => I s) s := by
  induction p generalizing s with
  | done a => exact hs
  | fail e => exact hs
  | call op next ih =>
    intro t ht
    have ht' := hR s t ht hs
    refine ⟨hS op t ht' h.1, fun w hw => ?_⟩
    obtain ⟨hA, hI'⟩ := hI op w t ht' h.1 hw
    exact ih _ (h.2 _ hA) hI'

variable (exec R C S) in
/-- From every state, `p` makes only steps that meet `S`. -/
def Safe (p : Program Op Ans ε α) : Prop := ∀ s, Wp exec R C S p (fun _ _ => True) s

theorem Safe.bind {p : Program Op Ans ε α} {f : α → Program Op Ans ε β} (h : Safe exec R C S p)
    (hf : ∀ a, Safe exec R C S (f a)) : Safe exec R C S (p >>= f) := by
  intro s
  refine Wp.bind ((h s).mono fun r t _ => ?_)
  cases r with
  | ok a => exact hf a t
  | error e => trivial

theorem Safe.forEach {body : α → Program Op Ans ε Unit} {l : List α}
    (h : ∀ a ∈ l, Safe exec R C S (body a)) : Safe exec R C S (forEach l body) := by
  intro s
  refine Wp.forEach (I := fun _ => True) (fun _ _ => trivial) (fun a ha t _ => ?_) trivial
  refine (h a ha t).mono fun r _ _ => ?_
  cases r with
  | ok _ => trivial
  | error e => trivial

theorem Issues.safe {S' : Op → Prop} {p : Program Op Ans ε α} (h : Issues (fun _ _ => True) S' p)
    (hS : ∀ op s, S' op → S op s) : Safe exec R C S p := by
  intro s
  exact (h.wp (I := fun _ => True) (fun _ _ _ _ => trivial) (fun op t _ hop => hS op t hop)
    (fun _ _ _ _ _ _ => ⟨trivial, trivial⟩) trivial).mono fun _ _ _ => trivial

end Wp

section

variable {exec : (op : Op) → ω → σ → Except ε (Ans op) × σ} {C : Op → ω → σ → Prop}
  {p : Program Op Ans ε α} {ws : List ω} {s s' : σ} {r : Except ε α}

theorem ends_of_meetsWith (h : runWith exec p ws s = some (r, s')) (hC : MeetsWith exec C p ws s) :
    Ends exec C p s r s' := by
  induction p generalizing ws s with
  | done a =>
    cases ws with
    | nil =>
      obtain ⟨rfl, rfl⟩ := Prod.mk.inj (Option.some.inj h)
      exact ⟨rfl, rfl⟩
    | cons w ws => cases h
  | fail e =>
    cases ws with
    | nil =>
      obtain ⟨rfl, rfl⟩ := Prod.mk.inj (Option.some.inj h)
      exact ⟨rfl, rfl⟩
    | cons w ws => cases h
  | call op next ih =>
    cases ws with
    | nil => cases h
    | cons w ws => exact ⟨w, hC.1, ih _ h hC.2⟩

theorem meetsWith_of_forall (hC : ∀ op w s, C op w s) : MeetsWith exec C p ws s := by
  induction p generalizing ws s with
  | done a => trivial
  | fail e => trivial
  | call op next ih =>
    cases ws with
    | nil => trivial
    | cons w ws => exact ⟨hC op w s, ih _⟩

theorem ends_of_runWith (ws : List ω) (h : runWith exec p ws s = some (r, s')) :
    Ends exec (fun _ _ _ => True) p s r s' :=
  ends_of_meetsWith h (meetsWith_of_forall fun _ _ _ => trivial)

end

/-! ## Runs against a schedule -/

section Play

variable (exec : (op : Op) → ω → σ → Except ε (Ans op) × σ) (env : Nat → ω)

/-- The run whose steps get their replies from a schedule, the first one from place `n`:
how it ends, in which state, and the place after its last step. -/
def play : Program Op Ans ε α → Nat → σ → Except ε α × σ × Nat
  | done a, n, s => (.ok a, s, n)
  | fail e, n, s => (.error e, s, n)
  | call op next, n, s => play (next (exec op (env n) s).1) (n + 1) (exec op (env n) s).2

variable {exec env} {n : Nat} {s : σ}

@[simp] theorem play_pure {a : α} : play exec env (pure a : Program Op Ans ε α) n s = (.ok a, s, n) := rfl

theorem play_bind {p : Program Op Ans ε α} {f : α → Program Op Ans ε β} {a : α} {s' : σ} {n' : Nat}
    (h : play exec env p n s = (.ok a, s', n')) :
    play exec env (p >>= f) n s = play exec env (f a) n' s' := by
  show play exec env (p.bind f) n s = _
  induction p generalizing n s with
  | done b =>
    obtain ⟨hb, rfl, rfl⟩ := Prod.mk.inj h |>.imp_right Prod.mk.inj
    obtain rfl := Except.ok.inj hb
    rfl
  | fail e => cases h
  | call op next ih => exact ih _ h

theorem play_bind_error {p : Program Op Ans ε α} {f : α → Program Op Ans ε β} {e : ε} {s' : σ} {n' : Nat}
    (h : play exec env p n s = (.error e, s', n')) :
    play exec env (p >>= f) n s = (.error e, s', n') := by
  show play exec env (p.bind f) n s = _
  induction p generalizing n s with
  | done b => cases h
  | fail e' =>
    obtain ⟨he, rfl, rfl⟩ := Prod.mk.inj h |>.imp_right Prod.mk.inj
    obtain rfl := Except.error.inj he
    rfl
  | call op next ih => exact ih _ h

theorem play_tryCatch_ok {p : Program Op Ans ε α} {handler : ε → Program Op Ans ε α} {a : α} {s' : σ}
    {n' : Nat} (h : play exec env p n s = (.ok a, s', n')) :
    play exec env (tryCatch p handler) n s = (.ok a, s', n') := by
  show play exec env (p.tryCatch handler) n s = _
  induction p generalizing n s with
  | done b => exact h
  | fail e => cases h
  | call op next ih => exact ih _ h

theorem play_tryCatch_error {p : Program Op Ans ε α} {handler : ε → Program Op Ans ε α} {e : ε}
    {s' : σ} {n' : Nat} (h : play exec env p n s = (.error e, s', n')) :
    play exec env (tryCatch p handler) n s = play exec env (handler e) n' s' := by
  show play exec env (p.tryCatch handler) n s = _
  induction p generalizing n s with
  | done b => cases h
  | fail e' =>
    obtain ⟨he, rfl, rfl⟩ := Prod.mk.inj h |>.imp_right Prod.mk.inj
    obtain rfl := Except.error.inj he
    rfl
  | call op next ih => exact ih _ h

/-- One operation, as it answers. -/
theorem play_perform {op : Op} : play exec env (perform op : Program Op Ans ε (Ans op)) n s =
    ((exec op (env n) s).1, (exec op (env n) s).2, n + 1) := by
  show play exec env (ofExcept (exec op (env n) s).1) _ _ = _
  cases (exec op (env n) s).1 <;> rfl

/-- A guarded program whose first operation answers. -/
theorem play_guarded_ok {op : Op} {f : Ans op → Program Op Ans ε α} {handler : ε → Program Op Ans ε α}
    {a : Ans op} (h : (exec op (env n) s).1 = .ok a) :
    play exec env (tryCatch (perform op >>= f) handler) n s =
      play exec env (tryCatch (f a) handler) (n + 1) (exec op (env n) s).2 := by
  show play exec env (((ofExcept (exec op (env n) s).1).bind f).tryCatch handler) _ _ = _
  rw [h]
  rfl

/-- A guarded program whose first operation throws. -/
theorem play_guarded_error {op : Op} {f : Ans op → Program Op Ans ε α}
    {handler : ε → Program Op Ans ε α} {e : ε} (h : (exec op (env n) s).1 = .error e) :
    play exec env (tryCatch (perform op >>= f) handler) n s =
      play exec env (handler e) (n + 1) (exec op (env n) s).2 := by
  show play exec env (((ofExcept (exec op (env n) s).1).bind f).tryCatch handler) _ _ = _
  rw [h]
  rfl

end Play

end Program

import Kryon.Lib.Program
import Kryon.Lib.Runs

/-! # Programs side by side

A pool is a shared state and any number of parties, each with the rest of its program and
the record of what it did. One move is one operation of one party, a new party, a party
that stops for good, or a step of the outside world. A party whose program is safe against
all that the others can do is safe in every run of the pool. -/

/-- What a party did: the operation, the reply and the state it met. -/
structure Event (Op ω σ : Type) where
  op : Op
  reply : ω
  before : σ

structure Party (Op : Type) (Ans : Op → Type) (ε ω σ : Type) where
  rest : Program Op Ans ε Unit
  /-- The newest event first. -/
  past : List (Event Op ω σ)

structure Pool (Op : Type) (Ans : Op → Type) (ε ω σ : Type) where
  shared : σ
  parties : List (Party Op Ans ε ω σ)

/-- `κ` names the programs that can start and `η` what the world can do. -/
inductive Move (ω κ η : Type)
  | act (i : Nat) (w : ω)
  | start (k : κ)
  | stop (i : Nat)
  | world (e : η)

namespace Pool

variable {Op : Type} {Ans : Op → Type} {ε ω σ κ η : Type}

section Step

variable (exec : (op : Op) → ω → σ → Except ε (Ans op) × σ) (body : κ → Program Op Ans ε Unit)
  (env : η → σ → Option σ)

def step (pool : Pool Op Ans ε ω σ) : Move ω κ η → Option (Pool Op Ans ε ω σ)
  | .act i w =>
    match pool.parties[i]? with
    | some ⟨.call op next, past⟩ =>
      let out := exec op w pool.shared
      some ⟨out.2, pool.parties.set i ⟨next out.1, ⟨op, w, pool.shared⟩ :: past⟩⟩
    | _ => none
  | .start k => some { pool with parties := pool.parties ++ [⟨body k, []⟩] }
  | .stop i =>
    match pool.parties[i]? with
    | some party => some { pool with parties := pool.parties.set i { party with rest := .done () } }
    | none => none
  | .world e => (env e pool.shared).map fun s => { pool with shared := s }

def Step (pool : Pool Op Ans ε ω σ) (m : Move ω κ η) (pool' : Pool Op Ans ε ω σ) : Prop :=
  pool.step exec body env m = some pool'

/-- The moves one after the other, each with the pool it leads to. -/
def play (pool : Pool Op Ans ε ω σ) (ms : List (Move ω κ η)) :
    Option (List (Move ω κ η × Pool Op Ans ε ω σ)) :=
  Runs.play (step exec body env) pool ms

end Step

/-- The reply a move brings meets `C` of its operation, the state and the party's past. -/
def Meets (C : Op → ω → σ × List (Event Op ω σ) → Prop) (pool : Pool Op Ans ε ω σ) :
    Move ω κ η → Prop
  | .act i w =>
    match pool.parties[i]? with
    | some ⟨.call op _, past⟩ => C op w (pool.shared, past)
    | _ => True
  | _ => True

theorem Meets.of_party {C : Op → ω → σ × List (Event Op ω σ) → Prop} {pool : Pool Op Ans ε ω σ} {i : Nat}
    {w : ω} {op : Op} {next : Except ε (Ans op) → Program Op Ans ε Unit}
    {past : List (Event Op ω σ)} (h : Meets (κ := κ) (η := η) C pool (.act i w))
    (hparty : pool.parties[i]? = some ⟨.call op next, past⟩) : C op w (pool.shared, past) := by
  simpa only [Meets, hparty] using h

theorem meets_of_forall {C : Op → ω → σ × List (Event Op ω σ) → Prop} (h : ∀ op w s, C op w s)
    (pool : Pool Op Ans ε ω σ) (m : Move ω κ η) : Meets C pool m := by
  cases m with
  | act i w =>
    simp only [Meets]
    split
    · exact h _ _ _
    · trivial
  | start | stop | world => trivial

instance (C : Op → ω → σ × List (Event Op ω σ) → Prop) [∀ op w s, Decidable (C op w s)]
    (pool : Pool Op Ans ε ω σ) : DecidablePred (Meets (κ := κ) (η := η) C pool)
  | .act i w =>
    match h : pool.parties[i]? with
    | some ⟨.call op _, past⟩ =>
      decidable_of_iff (C op w (pool.shared, past)) (by simp only [Meets, h])
    | some ⟨.done _, _⟩ => .isTrue (by simp only [Meets, h])
    | some ⟨.fail _, _⟩ => .isTrue (by simp only [Meets, h])
    | none => .isTrue (by simp only [Meets, h])
  | .start _ => .isTrue trivial
  | .stop _ => .isTrue trivial
  | .world _ => .isTrue trivial

variable {exec : (op : Op) → ω → σ → Except ε (Ans op) × σ} {body : κ → Program Op Ans ε Unit}
  {env : η → σ → Option σ} {pool pool' : Pool Op Ans ε ω σ}

/-- What a move does: to the state, and to the one party it is about. -/
theorem step_cases {m : Move ω κ η} (h : Step exec body env pool m pool') :
    (∃ i w op next past, m = .act i w ∧ pool.parties[i]? = some ⟨.call op next, past⟩ ∧
      pool' = ⟨(exec op w pool.shared).2, pool.parties.set i
        ⟨next (exec op w pool.shared).1, ⟨op, w, pool.shared⟩ :: past⟩⟩) ∨
    (∃ k, m = .start k ∧ pool' = { pool with parties := pool.parties ++ [⟨body k, []⟩] }) ∨
    (∃ i party, m = .stop i ∧ pool.parties[i]? = some party ∧
      pool' = { pool with parties := pool.parties.set i { party with rest := .done () } }) ∨
    (∃ e s, m = .world e ∧ env e pool.shared = some s ∧ pool' = { pool with shared := s }) := by
  cases m with
  | act i w =>
    left
    simp only [Step, step] at h
    split at h
    · rename_i op next past hparty
      exact ⟨i, w, op, next, past, rfl, hparty, (Option.some.inj h).symm⟩
    · cases h
  | start k => exact .inr (.inl ⟨k, rfl, (Option.some.inj h).symm⟩)
  | stop i =>
    right; right; left
    simp only [Step, step] at h
    split at h
    · rename_i party hparty
      exact ⟨i, party, rfl, hparty, (Option.some.inj h).symm⟩
    · cases h
  | world e =>
    right; right; right
    obtain ⟨s, hs, rfl⟩ := Option.map_eq_some_iff.mp h
    exact ⟨e, s, rfl, hs, rfl⟩

/-- The record of a party after a move: a new party's, the one it had, or one event more. -/
theorem past_step {m : Move ω κ η} {i : Nat} {party : Party Op Ans ε ω σ}
    (h : Step exec body env pool m pool') (hp : pool'.parties[i]? = some party) :
    party.past = [] ∨ (∃ before, pool.parties[i]? = some before ∧ party.past = before.past) ∨
      ∃ op next past w, m = .act i w ∧ pool.parties[i]? = some ⟨.call op next, past⟩ ∧
        party.past = ⟨op, w, pool.shared⟩ :: past := by
  rcases step_cases h with hmove | hmove | hmove | hmove
  · obtain ⟨k, w, op, next, past, rfl, hparty, rfl⟩ := hmove
    rw [List.getElem?_set] at hp
    split at hp
    · rename_i hki
      subst hki
      split at hp
      · obtain rfl := Option.some.inj hp
        exact .inr (.inr ⟨op, next, past, w, rfl, hparty, rfl⟩)
      · cases hp
    · exact .inr (.inl ⟨party, hp, rfl⟩)
  · obtain ⟨k, _, rfl⟩ := hmove
    rw [List.getElem?_append] at hp
    split at hp
    · exact .inr (.inl ⟨party, hp, rfl⟩)
    · rw [List.getElem?_singleton] at hp
      split at hp
      · obtain rfl := Option.some.inj hp
        exact .inl rfl
      · cases hp
  · obtain ⟨k, stopped, _, hparty, rfl⟩ := hmove
    rw [List.getElem?_set] at hp
    split at hp
    · rename_i hki
      subst hki
      split at hp
      · obtain rfl := Option.some.inj hp
        exact .inr (.inl ⟨stopped, hparty, rfl⟩)
      · cases hp
    · exact .inr (.inl ⟨party, hp, rfl⟩)
  · obtain ⟨e, s, _, _, rfl⟩ := hmove
    exact .inr (.inl ⟨party, hp, rfl⟩)

theorem isRun_play {ms : List (Move ω κ η)} {run : List (Move ω κ η × Pool Op Ans ε ω σ)}
    (h : pool.play exec body env ms = some run) : Runs.IsRun (Step exec body env) pool run :=
  Runs.isRun_play h

/-! ## Facts about the parties of a run -/

/-- Every party has `P`. -/
def Every (P : σ → Party Op Ans ε ω σ → Prop) (pool : Pool Op Ans ε ω σ) : Prop :=
  ∀ party ∈ pool.parties, P pool.shared party

instance (P : σ → Party Op Ans ε ω σ → Prop) [∀ s party, Decidable (P s party)] :
    DecidablePred (Every P) :=
  fun pool => inferInstanceAs (Decidable (∀ party ∈ pool.parties, P pool.shared party))

/-- A fact about each party and the state is kept by every move when the party's own
operations keep it and the changes of the state by others do. What the others' operations
change may depend on the same fact about them, and all may rely on a fact `I` of the state
alone. -/
theorem every_step_mutual {I : σ → Prop} {P : σ → Party Op Ans ε ω σ → Prop} {G : σ → σ → Prop}
    {C : Op → ω → σ × List (Event Op ω σ) → Prop}
    (hexec : ∀ op next w s past, I s → C op w (s, past) → P s ⟨.call op next, past⟩ → G s (exec op w s).2)
    (henv : ∀ e s s', I s → env e s = some s' → G s s')
    (hact : ∀ op next past w s, I s → C op w (s, past) → P s ⟨.call op next, past⟩ →
      P (exec op w s).2 ⟨next (exec op w s).1, ⟨op, w, s⟩ :: past⟩)
    (hothers : ∀ s s' party, G s s' → P s party → P s' party)
    (hstart : ∀ k s, I s → P s ⟨body k, []⟩)
    (hstop : ∀ s party, P s party → P s { party with rest := .done () })
    {m : Move ω κ η} (h : Step exec body env pool m pool') (hm : Meets C pool m)
    (hI : I pool.shared) (hP : Every P pool) : Every P pool' := by
  rcases step_cases h with hmove | hmove | hmove | hmove
  · obtain ⟨i, w, op, next, past, rfl, hparty, rfl⟩ := hmove
    have hC := hm.of_party hparty
    have hown := hP _ (List.mem_of_getElem? hparty)
    intro party hmem
    rcases List.mem_or_eq_of_mem_set hmem with hold | hnew
    · exact hothers _ _ _ (hexec op next w _ _ hI hC hown) (hP party hold)
    · rw [hnew]
      exact hact op next past w _ hI hC hown
  · obtain ⟨k, _, rfl⟩ := hmove
    intro party hmem
    rcases List.mem_append.mp hmem with hold | hnew
    · exact hP party hold
    · rw [List.mem_singleton.mp hnew]
      exact hstart k _ hI
  · obtain ⟨i, party, _, hparty, rfl⟩ := hmove
    intro other hmem
    rcases List.mem_or_eq_of_mem_set hmem with hold | hnew
    · exact hP other hold
    · rw [hnew]
      exact hstop _ _ (hP _ (List.mem_of_getElem? hparty))
  · obtain ⟨e, s, _, he, rfl⟩ := hmove
    intro party hmem
    exact hothers _ _ _ (henv e _ _ hI he) (hP party hmem)

/-- The same where the operations change the state alike whoever issues them. -/
theorem every_step {I : σ → Prop} {P : σ → Party Op Ans ε ω σ → Prop} {G : σ → σ → Prop}
    {C : Op → ω → σ × List (Event Op ω σ) → Prop}
    (hexec : ∀ op w s past, C op w (s, past) → G s (exec op w s).2)
    (henv : ∀ e s s', env e s = some s' → G s s')
    (hact : ∀ op next past w s, I s → C op w (s, past) → P s ⟨.call op next, past⟩ →
      P (exec op w s).2 ⟨next (exec op w s).1, ⟨op, w, s⟩ :: past⟩)
    (hothers : ∀ s s' party, G s s' → P s party → P s' party)
    (hstart : ∀ k s, P s ⟨body k, []⟩)
    (hstop : ∀ s party, P s party → P s { party with rest := .done () })
    {m : Move ω κ η} (h : Step exec body env pool m pool') (hm : Meets C pool m)
    (hI : I pool.shared) (hP : Every P pool) : Every P pool' :=
  every_step_mutual (fun op _ w s past _ hC _ => hexec op w s past hC) (fun e s s' _ => henv e s s') hact
    hothers (fun k s _ => hstart k s) hstop h hm hI hP

/-- The shared state moves only as the operations and the world move it. -/
theorem shared_step {G : σ → σ → Prop} (hrefl : ∀ s, G s s) (hexec : ∀ op w s, G s (exec op w s).2)
    (henv : ∀ e s s', env e s = some s' → G s s') {m : Move ω κ η}
    (h : Step exec body env pool m pool') : G pool.shared pool'.shared := by
  rcases step_cases h with hmove | hmove | hmove | hmove
  · obtain ⟨i, w, op, next, past, _, _, rfl⟩ := hmove
    exact hexec op w _
  · obtain ⟨k, _, rfl⟩ := hmove
    exact hrefl _
  · obtain ⟨i, party, _, _, rfl⟩ := hmove
    exact hrefl _
  · obtain ⟨e, s, _, he, rfl⟩ := hmove
    exact henv e _ _ he

/-! ## Programs that are safe on their own -/

section Safe

open Program

/-- An operation of a party, with its record. -/
def recorded (exec : (op : Op) → ω → σ → Except ε (Ans op) × σ) (op : Op) (w : ω)
    (s : σ × List (Event Op ω σ)) : Except ε (Ans op) × (σ × List (Event Op ω σ)) :=
  ((exec op w s.1).1, ((exec op w s.1).2, ⟨op, w, s.1⟩ :: s.2))

/-- Others change the state as `G` allows and leave the party's record alone. -/
def Others (G : σ → σ → Prop) (s t : σ × List (Event Op ω σ)) : Prop := G s.1 t.1 ∧ t.2 = s.2

/-- Every recorded step met `S`, and the state has gone from there within `G`. -/
def Accounted (G : σ → σ → Prop) (S : Op → σ × List (Event Op ω σ) → Prop) (s : σ) :
    List (Event Op ω σ) → Prop
  | [] => True
  | e :: older => S e.op (e.before, older) ∧ G e.before s ∧ Accounted G S s older

variable {G : σ → σ → Prop} {S : Op → σ × List (Event Op ω σ) → Prop}
  {C : Op → ω → σ × List (Event Op ω σ) → Prop}

theorem Accounted.step {s s' : σ} {past : List (Event Op ω σ)} (hG : ∀ a b c, G a b → G b c → G a c)
    (h : Accounted G S s past) (hs : G s s') : Accounted G S s' past := by
  induction past with
  | nil => trivial
  | cons e older ih => exact ⟨h.1, hG _ _ _ h.2.1 hs, ih h.2.2⟩

/-- A party that is safe from here on and has been so far. -/
def SafeParty (exec : (op : Op) → ω → σ → Except ε (Ans op) × σ) (G : σ → σ → Prop)
    (C : Op → ω → σ × List (Event Op ω σ) → Prop) (S : Op → σ × List (Event Op ω σ) → Prop)
    (s : σ) (party : Party Op Ans ε ω σ) : Prop :=
  Wp (recorded exec) (Others G) C S party.rest (fun _ _ => True) (s, party.past) ∧
    Accounted G S s party.past

/-- The parties' bargain: in states that have `I` the world acts within `G`, so does every
operation that meets `S`, and a program that can start makes only such steps as long as the
others act within `G`, which keeps `I`. -/
structure RelyGuarantee (exec : (op : Op) → ω → σ → Except ε (Ans op) × σ)
    (body : κ → Program Op Ans ε Unit) (env : η → σ → Option σ) (I : σ → Prop) (G : σ → σ → Prop)
    (C : Op → ω → σ × List (Event Op ω σ) → Prop) (S : Op → σ × List (Event Op ω σ) → Prop) : Prop where
  refl : ∀ s, G s s
  trans : ∀ a b c, G a b → G b c → G a c
  keep : ∀ s s', G s s' → I s → I s'
  acts : ∀ op w s past, I s → C op w (s, past) → S op (s, past) → G s (exec op w s).2
  happens : ∀ e s s', I s → env e s = some s' → G s s'
  starts : ∀ k s, I s → Wp (recorded exec) (Others G) C S (body k) (fun _ _ => True) (s, [])

variable {I : σ → Prop}

theorem RelyGuarantee.own (h : RelyGuarantee exec body env I G C S) {op : Op}
    {next : Except ε (Ans op) → Program Op Ans ε Unit} {w : ω} {s : σ} {past : List (Event Op ω σ)}
    (hI : I s) (hC : C op w (s, past)) (hparty : SafeParty exec G C S s ⟨.call op next, past⟩) :
    G s (exec op w s).2 :=
  h.acts op w s past hI hC (hparty.1 _ ⟨h.refl s, rfl⟩).1

theorem RelyGuarantee.step (h : RelyGuarantee exec body env I G C S) {m : Move ω κ η}
    (hstep : Step exec body env pool m pool') (hm : Meets C pool m) (hI : I pool.shared)
    (hP : Every (SafeParty exec G C S) pool) :
    Every (SafeParty exec G C S) pool' ∧ G pool.shared pool'.shared := by
  constructor
  · refine every_step_mutual (G := G) (C := C) (fun _ _ _ _ _ => h.own) h.happens ?_ ?_ ?_ ?_ hstep hm hI hP
    · intro op next past w s hI hC hparty
      obtain ⟨hsafe, hnext⟩ := hparty.1 (s, past) ⟨h.refl s, rfl⟩
      exact ⟨hnext w hC, hsafe, h.own hI hC hparty, hparty.2.step h.trans (h.own hI hC hparty)⟩
    · intro s s' party hs hparty
      refine ⟨hparty.1.of_rely ?_ (fun _ h => h) ⟨hs, rfl⟩, hparty.2.step h.trans hs⟩
      intro a b c hab hbc
      exact ⟨h.trans _ _ _ hab.1 hbc.1, hbc.2.trans hab.2⟩
    · intro k s hI
      exact ⟨h.starts k s hI, trivial⟩
    · intro s party hparty
      exact ⟨trivial, hparty.2⟩
  · rcases step_cases hstep with hmove | hmove | hmove | hmove
    · obtain ⟨i, w, op, next, past, rfl, hparty, rfl⟩ := hmove
      exact h.own hI (hm.of_party hparty) (hP _ (List.mem_of_getElem? hparty))
    · obtain ⟨_, _, rfl⟩ := hmove
      exact h.refl _
    · obtain ⟨_, _, _, _, rfl⟩ := hmove
      exact h.refl _
    · obtain ⟨e, s, _, he, rfl⟩ := hmove
      exact h.happens e _ _ hI he

variable {run : List (Move ω κ η × Pool Op Ans ε ω σ)}

/-- All parties of a run are safe throughout, and `I` holds throughout. -/
theorem RelyGuarantee.allStates (h : RelyGuarantee exec body env I G C S)
    (hr : Runs.IsRun (Step exec body env) pool run) (hc : Runs.AllSteps (Meets C) pool run)
    (hI : I pool.shared) (hinit : Every (SafeParty exec G C S) pool) :
    Runs.AllStates (fun pool => I pool.shared ∧ Every (SafeParty exec G C S) pool) pool run := by
  refine Runs.invariant (fun s m s' hs hm hstep => ?_) ⟨hI, hinit⟩ hr hc
  obtain ⟨hsafe, hG⟩ := h.step hstep hm hs.1 hs.2
  exact ⟨h.keep _ _ hG hs.1, hsafe⟩

/-- Every move of a run is within `G`. -/
theorem RelyGuarantee.isRun (h : RelyGuarantee exec body env I G C S)
    (hr : Runs.IsRun (Step exec body env) pool run) (hc : Runs.AllSteps (Meets C) pool run)
    (hI : I pool.shared) (hinit : Every (SafeParty exec G C S) pool) :
    Runs.IsRun (fun pool _ pool' => G pool.shared pool'.shared) pool run := by
  refine Runs.isRun_of_invariant (I := fun pool => I pool.shared ∧ Every (SafeParty exec G C S) pool)
    (fun s m s' hs hm hstep => ?_) ⟨hI, hinit⟩ hr hc
  obtain ⟨hsafe, hG⟩ := h.step hstep hm hs.1 hs.2
  exact ⟨⟨h.keep _ _ hG hs.1, hsafe⟩, hG⟩

/-- When every operation and the world act within `G`, and every program that can start is
safe under that alone, all parties of a run are safe throughout. -/
theorem allStates_safe (hrefl : ∀ s, G s s) (htrans : ∀ a b c, G a b → G b c → G a c)
    (hexec : ∀ op w s past, C op w (s, past) → G s (exec op w s).2)
    (henv : ∀ e s s', env e s = some s' → G s s')
    (hbody : ∀ k s, Wp (recorded exec) (Others G) C S (body k) (fun _ _ => True) (s, []))
    (hr : Runs.IsRun (Step exec body env) pool run)
    (hc : Runs.AllSteps (Meets C) pool run) (hinit : Every (SafeParty exec G C S) pool) :
    Runs.AllStates (Every (SafeParty exec G C S)) pool run := by
  have h : RelyGuarantee exec body env (fun _ => True) G C S :=
    ⟨hrefl, htrans, fun _ _ _ _ => trivial, fun op w s past _ hC _ => hexec op w s past hC,
      fun e s s' _ => henv e s s', fun k s _ => hbody k s⟩
  exact (h.allStates hr hc trivial hinit).mono fun _ hpool => hpool.2

end Safe

end Pool

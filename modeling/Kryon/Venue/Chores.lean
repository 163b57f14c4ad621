import Kryon.Venue.Jobs

/-! # One job at a time

The venue's programs cut into the jobs they work through: a match of the matcher's tick, a
row of the reconciler's, a request. A job runs to its end before another begins; between
two jobs of one program any number of others may run, so a job works on what its program
read earlier. -/
namespace Kryon.Venue

open Program

inductive Chore
  -- the matcher
  | openMarkets
  | market (marketId : Nat)
  | fill (oracle : Option Int) (m : MatchResult)
  -- the reconciler
  | readSubmitted
  | submitted (job : JobRow)
  | readReady
  | ready (job : JobRow)
  | readStale
  | stale (job : JobRow)
  -- the routes
  | sign (req : SignRequest)
  | cancelOrder (owner : String) (nonce : Int)
  | cancelAll (owner : String) (marketId : Option Nat)
  | placeOrder (order : RestingOrder)
  deriving DecidableEq, Repr

/-- Nothing follows. -/
def last (p : Async Unit) : Async (List Chore) := do
  p
  return []

/-- The chore, and the chores that follow from it. -/
def Chore.run (cfg : Config) : Chore → Async (List Chore)
  | .openMarkets => do
    let active ← await (.marketsWithOpenOrders cfg.markets)
    return (cfg.markets.filter active.contains).map .market
  | .market marketId => do
    let limitOrders ← await (.loadRestingOrders marketId)
    let marketOrders ← await (.loadMarketOrders marketId)
    if limitOrders.isEmpty && marketOrders.isEmpty then return []
    let oracle ← await (.loadOraclePrice marketId)
    return (matchAll (inBand cfg oracle limitOrders) marketOrders).map (.fill oracle)
  | .fill oracle m => last (processMatch cfg oracle m)
  | .readSubmitted => do
    let submitted ← await .submittedJobs
    return submitted.map .submitted ++ [.readReady]
  | .submitted job => last (reconcileSubmitted cfg job)
  | .readReady => do
    let readyQueued ← await .readyQueuedJobs
    return readyQueued.map .ready ++ [.readStale]
  | .ready job => last (resubmitJob cfg job)
  | .readStale => do
    let stale ← await (.staleQueuedJobs cfg.staleQueuedMinutes)
    return stale.map .stale
  | .stale job => last (expireJob job)
  | .sign req => last (answered (Venue.sign cfg req))
  | .cancelOrder owner nonce => last (answered (Venue.cancelOrder owner nonce))
  | .cancelAll owner marketId => last (answered (cancelAllOrders owner marketId))
  | .placeOrder order => last (answered (Venue.placeOrder order))

def Task.chore : Task → Chore
  | .matcherTick => .openMarkets
  | .reconcilerTick => .readSubmitted
  | .sign req => .sign req
  | .cancelOrder owner nonce => .cancelOrder owner nonce
  | .cancelAll owner marketId => .cancelAll owner marketId
  | .placeOrder order => .placeOrder order

/-! ## A program is its chores -/

/-- A chore with all that follows from it, one after the other, down to a depth. -/
def workOff (cfg : Config) : Nat → Chore → Async Unit
  | 0, _ => return ()
  | depth + 1, chore => do forEach (← chore.run cfg) (workOff cfg depth)

variable {cfg : Config}

theorem workOff_succ (depth : Nat) (chore : Chore) :
    workOff cfg (depth + 1) chore = chore.run cfg >>= fun follow => forEach follow (workOff cfg depth) := rfl

theorem workOff_last {chore : Chore} {p : Async Unit} (h : chore.run cfg = last p) (depth : Nat) :
    workOff cfg (depth + 1) chore = p := by
  rw [workOff_succ, h, last, bind_assoc]
  exact bind_done p

theorem workOff_market (marketId depth : Nat) :
    workOff cfg (depth + 2) (.market marketId) = matchMarket cfg marketId := by
  simp only [workOff_succ (depth + 1), Chore.run, matchMarket, bind_assoc]
  refine bind_congr fun limitOrders => bind_congr fun marketOrders => ?_
  split
  · rfl
  · simp only [bind_assoc, pure_bind, forEach_map]
    refine bind_congr fun oracle => congrArg (forEach _) (funext fun m => ?_)
    exact workOff_last rfl depth

theorem workOff_matcherTick : workOff cfg 4 Task.matcherTick.chore = matcherTick cfg := by
  simp only [workOff_succ 3, Task.chore, Chore.run, matcherTick, bind_assoc, pure_bind, forEach_map,
    forEach_filter]
  refine bind_congr fun active => congrArg (forEach _) (funext fun marketId => ?_)
  rw [workOff_market marketId 1]

theorem workOff_reconcilerTick : workOff cfg 4 Task.reconcilerTick.chore = reconcilerTick cfg := by
  have hrows : ∀ {rows : List JobRow} {chore : JobRow → Chore} {p : JobRow → Async Unit} (depth : Nat),
      (∀ job, (chore job).run cfg = last (p job)) →
        forEach (rows.map chore) (workOff cfg (depth + 1)) = forEach rows p := by
    intro rows chore p depth h
    rw [forEach_map]
    exact congrArg (forEach rows) (funext fun job => workOff_last (h job) depth)
  have hone : ∀ (chore : Chore) (depth : Nat), forEach [chore] (workOff cfg depth) = workOff cfg depth chore :=
    fun chore depth => bind_done _
  simp only [workOff_succ 3, Task.chore, Chore.run, reconcilerTick, bind_assoc, pure_bind, forEach_append,
    hone]
  refine bind_congr fun submitted => ?_
  rw [hrows 2 fun _ => rfl]
  refine bind_congr fun _ => ?_
  simp only [workOff_succ 2, Chore.run, bind_assoc, pure_bind, forEach_append, hone]
  refine bind_congr fun readyQueued => ?_
  rw [hrows 1 fun _ => rfl]
  refine bind_congr fun _ => ?_
  simp only [workOff_succ 1, Chore.run, bind_assoc, pure_bind]
  refine bind_congr fun stale => ?_
  exact hrows 0 fun _ => rfl

/-- Every program of the venue is its chores, one after the other. -/
theorem workOff_chore (task : Task) : workOff cfg 4 task.chore = task.program cfg := by
  cases task with
  | matcherTick => exact workOff_matcherTick
  | reconcilerTick => exact workOff_reconcilerTick
  | sign | cancelOrder | cancelAll | placeOrder => exact workOff_last rfl 3

/-! ## Chores side by side -/

/-- The venue between two jobs: what each running program has still to do. -/
structure Shift where
  world : World
  duties : List (List Chore)

inductive ShiftMove
  | start (task : Task)
  /-- A program's next chore, from its first reply to its last. -/
  | work (i : Nat) (replies : List Reply)
  | stop (i : Nat)
  | world (e : Happening)
  deriving DecidableEq, Repr

/-- What a program has to do after a chore; an error ends it. -/
def following (r : Except String (List Chore)) (rest : List Chore) : List Chore :=
  match r with
  | .ok next => next ++ rest
  | .error _ => []

namespace Shift

def step (cfg : Config) (s : Shift) : ShiftMove → Option Shift
  | .start task => some { s with duties := s.duties ++ [[task.chore]] }
  | .work i replies =>
    match s.duties[i]? with
    | some (chore :: rest) =>
      (runWith exec (chore.run cfg) replies s.world).map fun (r, world) =>
        ⟨world, s.duties.set i (following r rest)⟩
    | _ => none
  | .stop i => some { s with duties := s.duties.set i [] }
  | .world e => (happen e s.world).map fun world => { s with world := world }

def Step (cfg : Config) (s : Shift) (m : ShiftMove) (s' : Shift) : Prop := s.step cfg m = some s'

/-- Every operation of the move meets `C`. -/
def Meets (cfg : Config) (C : Op → Reply → World → Prop) (s : Shift) : ShiftMove → Prop
  | .work i replies =>
    match s.duties[i]? with
    | some (chore :: _) => MeetsWith exec C (chore.run cfg) replies s.world
    | _ => True
  | _ => True

instance (cfg : Config) (C : Op → Reply → World → Prop) [∀ op r w, Decidable (C op r w)] (s : Shift) :
    DecidablePred (Meets cfg C s)
  | .work i replies =>
    match h : s.duties[i]? with
    | some (chore :: _) =>
      decidable_of_iff (MeetsWith exec C (chore.run cfg) replies s.world) (by simp only [Meets, h])
    | some [] => .isTrue (by simp only [Meets, h])
    | none => .isTrue (by simp only [Meets, h])
  | .start _ => .isTrue trivial
  | .stop _ => .isTrue trivial
  | .world _ => .isTrue trivial

/-- No program is running. -/
def idle (w : World) : Shift := ⟨w, []⟩

/-- A fact of the world and one of each duty are kept by every move when every chore that
meets `C` keeps them and the world's changes keep the duties' fact. -/
theorem invariant_step {C : Op → Reply → World → Prop} {I : World → Prop} {Due : Chore → World → Prop}
    (hstart : ∀ (task : Task) w, Due task.chore w)
    (hchore : ∀ chore w, I w → Due chore w → ∀ r w', Ends exec C (chore.run cfg) w r w' →
      I w' ∧ (∀ due, Due due w → Due due w') ∧ ∀ next, r = .ok next → ∀ due ∈ next, Due due w')
    (hworld : ∀ e w w', happen e w = some w' → I w → I w' ∧ ∀ due, Due due w → Due due w')
    {s s' : Shift} {m : ShiftMove} (h : I s.world ∧ ∀ duty ∈ s.duties, ∀ due ∈ duty, Due due s.world)
    (hm : Meets cfg C s m) (hs : Step cfg s m s') :
    I s'.world ∧ ∀ duty ∈ s'.duties, ∀ due ∈ duty, Due due s'.world := by
  obtain ⟨hI, hdue⟩ := h
  cases m with
  | start task =>
    obtain rfl := Option.some.inj hs
    refine ⟨hI, fun duty hduty due hmem => ?_⟩
    cases List.mem_append.mp hduty with
    | inl hold => exact hdue duty hold due hmem
    | inr hnew =>
      rw [List.mem_singleton.mp hnew] at hmem
      rw [List.mem_singleton.mp hmem]
      exact hstart task _
  | work i replies =>
    simp only [Step, step] at hs
    simp only [Meets] at hm
    split at hs
    · rename_i chore rest hi
      rw [hi] at hm
      obtain ⟨⟨r, w'⟩, hrun, rfl⟩ := Option.map_eq_some_iff.mp hs
      have hrest := hdue _ (List.mem_of_getElem? hi)
      obtain ⟨hI', hkeep, hnext⟩ := hchore chore s.world hI (hrest chore List.mem_cons_self) r w'
        (ends_of_meetsWith hrun hm)
      refine ⟨hI', fun duty hduty due hmem => ?_⟩
      cases List.mem_or_eq_of_mem_set hduty with
      | inl hold => exact hkeep due (hdue duty hold due hmem)
      | inr hnew =>
        rw [hnew] at hmem
        cases r with
        | error message => cases hmem
        | ok next =>
          cases List.mem_append.mp hmem with
          | inl hfollows => exact hnext next rfl due hfollows
          | inr hlater => exact hkeep due (hrest due (List.mem_cons_of_mem _ hlater))
    · cases hs
  | stop i =>
    obtain rfl := Option.some.inj hs
    refine ⟨hI, fun duty hduty due hmem => ?_⟩
    cases List.mem_or_eq_of_mem_set hduty with
    | inl hold => exact hdue duty hold due hmem
    | inr hnew =>
      rw [hnew] at hmem
      cases hmem
  | world e =>
    obtain ⟨w', he, rfl⟩ := Option.map_eq_some_iff.mp hs
    obtain ⟨hI', hkeep⟩ := hworld e _ _ he hI
    exact ⟨hI', fun duty hduty due hmem => hkeep due (hdue duty hduty due hmem)⟩

end Shift

end Kryon.Venue

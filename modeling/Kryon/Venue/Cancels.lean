import Kryon.Venue.Jobs

/-! # Cancels

A cancel marks the order's row. The matcher looks at that mark when it loads a market's
orders and not again, so a cancel holds from the next load on: a match that the running
tick already has in hand is still persisted and submitted. -/
namespace Kryon.Venue

open Program Pool

/-! ## Recording a fill against an order -/

def MatchResult.involves (id : String) (m : MatchResult) : Bool := m.maker.id == id || m.taker.id == id

/-- The operation records a fill against the order, raises its `filledSize`, or submits or
queues a settlement for it. -/
def touches (id : String) : Op → Bool
  | .insertFill _ m => m.involves id
  | .addFilled i _ => i == id
  | .queueJob _ m _ => m.involves id
  | .sendTransaction (.settleFillSigned m _ _) _ => m.involves id
  | .returnFilled i fillSize => i == id && fillSize < 0
  | .returnFilledOf _ _ fillSize => fillSize < 0
  | _ => false

/-- The order is on the table, cancelled, and filled up to `F` at most. -/
def CancelledOrder (id : String) (F : Int) (w : World) : Prop :=
  (∃ o ∈ w.db.orders, o.id = id) ∧
    ∀ o ∈ w.db.orders, o.id = id → o.cancelled = true ∧ o.filledSize ≤ F

/-- What a cancelled order's absence means for the answers: no load returns it. -/
def NotLoaded (id : String) : (op : Op) → Except String op.Ans → Prop
  | .loadRestingOrders _, .ok rows => ∀ o ∈ rows, o.id ≠ id
  | .loadMarketOrders _, .ok rows => ∀ o ∈ rows, o.id ≠ id
  | _, _ => True

variable {id : String} {F : Int} {w : World} {cfg : Config}

/-! ## The cancelled row -/

theorem CancelledOrder.of_orders {w' : World} (h : CancelledOrder id F w)
    (horders : w'.db.orders = w.db.orders) : CancelledOrder id F w' := by
  unfold CancelledOrder
  rw [horders]
  exact h

theorem CancelledOrder.update (h : CancelledOrder id F w) {p : OrderRow → Bool} {f : OrderRow → OrderRow}
    (hid : ∀ o, (f o).id = o.id) (hcancelled : ∀ o, o.cancelled = true → (f o).cancelled = true)
    (hfilled : ∀ o, p o = true → o.id = id → o.filledSize ≤ F → (f o).filledSize ≤ F) :
    CancelledOrder id F { w with db := w.db.updateOrders p f } := by
  obtain ⟨⟨o, ho, hoid⟩, hrows⟩ := h
  constructor
  · refine ⟨_, Table.mem_update_of_mem (p := p) (f := f) ho, ?_⟩
    split
    · exact (hid o).trans hoid
    · exact hoid
  · refine Table.forall_mem_update hrows fun o' ho' hp hold hoid' => ?_
    rw [hid] at hoid'
    obtain ⟨hmark, hsize⟩ := hold hoid'
    exact ⟨hcancelled o' hmark, hfilled o' hp hoid' hsize⟩

/-- An operation that does not touch a cancelled order leaves it so. -/
theorem CancelledOrder.exec (h : CancelledOrder id F w) (hF : 0 ≤ F) {op : Op} (r : Reply)
    (hop : touches id op = false) : CancelledOrder id F (exec op r w).2 := by
  have hgive : ∀ {p : OrderRow → Bool} {fillSize : Int}, (∀ o, p o = true → o.id = id → 0 ≤ fillSize) →
      CancelledOrder id F { w with db := w.db.updateOrders p (Db.giveBack fillSize) } := by
    intro p fillSize hsize
    refine h.update (fun _ => rfl) (fun _ hmark => hmark) fun o hp hoid hfilled => ?_
    have hnonneg := hsize o hp hoid
    show max 0 (o.filledSize - fillSize) ≤ F
    omega
  cases op with
  | addFilled i fillSize =>
    refine sql_world h (h.update (fun _ => rfl) (fun _ hmark => hmark) fun o hp hoid _ => ?_)
    have hne : i ≠ id := by simpa [touches] using hop
    simp only [Bool.and_eq_true, beq_iff_eq] at hp
    exact absurd (hp.1.symm.trans hoid) hne
  | returnFilled i fillSize =>
    refine sql_world h (hgive fun o hp hoid => ?_)
    have hi : i = id := (beq_iff_eq.mp hp).symm.trans hoid
    simpa [touches, hi] using hop
  | returnFilledOf owner nonce fillSize =>
    refine sql_world h (hgive fun o _ _ => ?_)
    simpa [touches] using hop
  | cancelPoisonOrder | cancelOrder | cancelAll =>
    exact sql_world h (h.update (fun _ => rfl) (fun _ _ => rfl) fun _ _ _ hfilled => hfilled)
  | insertOrder order =>
    refine sql_world h ?_
    show CancelledOrder id F { w with db := w.db.insertOrder order w.now }
    rw [Db.insertOrder_eq]
    obtain ⟨⟨o, ho, hoid⟩, hrows⟩ := h
    refine ⟨⟨o, Table.mem_insertNew.mpr (.inl ho), hoid⟩,
      Table.forall_mem_insertNew hrows fun hnew hoid' => ?_⟩
    have hsame : w.db.orders.any (·.id == order.id) = true :=
      List.any_eq_true.mpr ⟨o, ho, beq_iff_eq.mpr (hoid.trans hoid'.symm)⟩
    rw [hnew] at hsame
    cases hsame
  | insertFill network m =>
    refine sql_world h ?_
    show CancelledOrder id F { w with db := (w.db.insertFill network m).2 }
    unfold Db.insertFill
    split
    · exact h
    · exact h.of_orders rfl
  | getAccount | getLatestLedger | simulateTransaction | sendTransaction | getTransaction | sleep =>
    cases r <;> exact h.of_orders rfl
  | dateNow => exact h.of_orders rfl
  | _ => exact sql_world h (h.of_orders rfl)

theorem CancelledOrder.happen {w' : World} {e : Happening} (h : CancelledOrder id F w)
    (he : happen e w = some w') : CancelledOrder id F w' := by
  rcases happen_cases he with hlater | htaken | hprice
  · obtain ⟨ms, rfl⟩ := hlater
    exact h.of_orders rfl
  · obtain ⟨_, _, _, _, _, _, _, rfl⟩ := htaken
    exact h.of_orders rfl
  · obtain ⟨_, rfl⟩ := hprice
    exact h.of_orders rfl

/-- A load does not return a cancelled order. -/
theorem CancelledOrder.notLoaded (h : CancelledOrder id F w) (op : Op) (r : Reply) :
    NotLoaded id op (Venue.exec op r w).1 := by
  have hclosed : ∀ {o : RestingOrder},
      (∃ row ∈ w.db.orders, Db.isOpen w.nowSec row = true ∧ row.toRestingOrder = o) → o.id ≠ id := by
    intro o hrow hid
    obtain ⟨row, hmem, hopen, rfl⟩ := hrow
    simp [Db.isOpen, (h.2 row hmem hid).1] at hopen
  cases op with
  | loadRestingOrders marketId =>
    cases hanswer : (Venue.exec (.loadRestingOrders marketId) r w).1 with
    | error message => trivial
    | ok rows =>
      intro o ho
      rw [sqlRows_ok hanswer] at ho
      exact hclosed (Db.mem_loadRestingOrders ho)
  | loadMarketOrders marketId =>
    cases hanswer : (Venue.exec (.loadMarketOrders marketId) r w).1 with
    | error message => trivial
    | ok rows =>
      intro o ho
      rw [sqlRows_ok hanswer] at ho
      exact hclosed (Db.mem_loadMarketOrders ho)
  | _ => trivial

/-! ## Programs that keep away from an order -/

section Programs

variable {m : MatchResult}

/-- No order of the match is this one, and what it gives back is not negative. -/
structure Apart (id : String) (m : MatchResult) : Prop where
  maker : m.maker.id ≠ id
  taker : m.taker.id ≠ id
  size : 0 < m.fillSize

theorem Apart.involves (h : Apart id m) : m.involves id = false := by
  simp [MatchResult.involves, h.maker, h.taker]

/-- The program issues nothing that touches the order while no load returns it. -/
abbrev KeepsAway {α : Type} (id : String) (p : Async α) : Prop :=
  Issues (NotLoaded id) (fun op => touches id op = false) p

/-- A match of other orders touches only them. -/
theorem Apart.untouched {network : String} {op : Op} (h : Apart id m) (hop : op.ofMatch network m) :
    touches id op = false := by
  cases op with
  | insertFill | queueJob =>
    obtain ⟨_, rfl⟩ := hop
    exact h.involves
  | sendTransaction body maxTime =>
    obtain ⟨makerSig, takerSig, rfl⟩ := hop
    exact h.involves
  | addFilled i fillSize =>
    cases hop.1 with
    | inl hmaker => simp [touches, hmaker, h.maker]
    | inr htaker => simp [touches, htaker, h.taker]
  | returnFilled i fillSize =>
    cases hop.1 with
    | inl hmaker => simp [touches, hmaker, h.maker]
    | inr htaker => simp [touches, htaker, h.taker]
  | returnFilledOf => cases hop
  | _ => rfl

theorem processMatch_keepsAway {oracle : Option Int} (h : Apart id m) :
    KeepsAway id (processMatch cfg oracle m) :=
  processMatch_issues.mono fun _ => h.untouched

/-- The order routes do not fill orders. -/
theorem untouched_of_ofOrders {op : Op} (hop : op.ofOrders) : touches id op = false := by
  cases op with
  | insertFill | addFilled | queueJob | sendTransaction | returnFilled | returnFilledOf => cases hop
  | _ => rfl

/-- A tick that starts now matches what it loads, and no load returns the order. -/
theorem matcherTick_keepsAway : KeepsAway id (matcherTick cfg) := by
  refine Issues.perform rfl fun active _ => Issues.forEach fun marketId _ => ?_
  split
  · refine Issues.perform rfl fun limitOrders hlimit => Issues.perform rfl fun marketOrders hmarket => ?_
    split
    · trivial
    refine Issues.perform rfl fun oracle _ => Issues.forEach fun m hm => ?_
    have hin : ∀ o ∈ inBand cfg oracle limitOrders, o.id ≠ id :=
      fun o ho => hlimit o ((inBand_sublist cfg oracle limitOrders).subset ho)
    obtain ⟨hmaker, htaker, hsize⟩ := matchAll_within hin hmarket m hm
    exact processMatch_keepsAway ⟨hmaker, htaker, hsize⟩
  · trivial

end Programs

/-! ## Ticks, cancels and new orders side by side -/

/-- What can start next to a tick. -/
inductive TradingTask
  | matcherTick
  | cancelOrder (owner : String) (nonce : Int)
  | cancelAll (owner : String) (marketId : Option Nat)
  | placeOrder (order : RestingOrder)
  deriving DecidableEq, Repr

def TradingTask.program (cfg : Config) : TradingTask → Async Unit
  | .matcherTick => Task.matcherTick.program cfg
  | .cancelOrder owner nonce => (Task.cancelOrder owner nonce).program cfg
  | .cancelAll owner marketId => (Task.cancelAll owner marketId).program cfg
  | .placeOrder order => (Task.placeOrder order).program cfg

theorem TradingTask.keepsAway (task : TradingTask) : KeepsAway id (task.program cfg) := by
  cases task with
  | matcherTick => exact matcherTick_keepsAway
  | cancelOrder owner nonce =>
    exact issues_answered (cancelOrder_issues.mono fun _ => untouched_of_ofOrders)
  | cancelAll owner marketId =>
    exact issues_answered (cancelAllOrders_issues.mono fun _ => untouched_of_ofOrders)
  | placeOrder order => exact issues_answered (placeOrder_issues.mono fun _ => untouched_of_ofOrders)

abbrev TradingMove : Type := Move Reply TradingTask Happening

abbrev TradingStep (cfg : Config) : VenuePool → TradingMove → VenuePool → Prop :=
  Pool.Step exec (TradingTask.program cfg) happen

/-- The cancel statement's WHERE. -/
def Op.cancelsRow (o : OrderRow) : Op → Bool
  | .cancelOrder owner nonce => o.owner == owner && o.nonce == nonce
  | .cancelAll owner marketId nowSec => Db.liveOf owner marketId nowSec o
  | _ => false

/-- The move commits a cancel or a cancel-all that reaches the order; `id` is the key. -/
def cancels (id : String) (pool : VenuePool) : TradingMove → Bool
  | .act i r =>
    match pool.parties[i]? with
    | some ⟨.call op _, _⟩ =>
      tookEffect r && pool.shared.db.orders.any (·.id == id) &&
        pool.shared.db.orders.all fun o => o.id != id || op.cancelsRow o
    | _ => false
  | _ => false

/-- The move does not touch the order. -/
def LeavesAlone (id : String) (pool : VenuePool) (m : TradingMove) : Prop :=
  Meets (fun op _ _ => touches id op = false) pool m

instance (pool : VenuePool) (m : TradingMove) : Decidable (LeavesAlone id pool m) :=
  inferInstanceAs (Decidable (Meets (fun op _ _ => touches id op = false) pool m))

def FilledUpTo (id : String) (F : Int) (pool : VenuePool) : Prop :=
  ∀ o ∈ pool.shared.db.orders, o.id = id → o.filledSize ≤ F

/-- From each cancel on, no move touches the order, and its `filledSize` does not rise. -/
def Honoured (pool : VenuePool) : List (TradingMove × VenuePool) → Prop
  | [] => True
  | (m, pool') :: rest =>
    (∀ id, cancels id pool m = true → Runs.AllSteps (LeavesAlone id) pool' rest ∧
      ∀ F, 0 ≤ F → FilledUpTo id F pool' → Runs.AllStates (FilledUpTo id F) pool' rest) ∧
    Honoured pool' rest

/-- When a cancel commits, no running program still has the order in hand: until a load
returns it again, none of them touches it. -/
def NotInHand (pool : VenuePool) (m : TradingMove) : Prop := ∀ id, cancels id pool m = true →
  ∀ party ∈ pool.parties, KeepsAway id party.rest

/-! ## Runs -/

/-- The order is cancelled and no running program has it in hand. -/
structure Settled (id : String) (F : Int) (pool : VenuePool) : Prop where
  row : CancelledOrder id F pool.shared
  away : ∀ party ∈ pool.parties, KeepsAway id party.rest

theorem settled_step {pool pool' : VenuePool} {m : TradingMove} (hF : 0 ≤ F) (h : Settled id F pool)
    (hs : TradingStep cfg pool m pool') : Settled id F pool' := by
  rcases step_cases hs with hmove | hmove | hmove | hmove
  · obtain ⟨i, r, op, next, past, _, hparty, rfl⟩ := hmove
    have haway := h.away _ (List.mem_of_getElem? hparty)
    refine ⟨h.row.exec hF r haway.1, fun party hmem => ?_⟩
    rcases List.mem_or_eq_of_mem_set hmem with hold | hnew
    · exact h.away party hold
    · rw [hnew]
      exact haway.2 _ (h.row.notLoaded op r)
  · obtain ⟨task, _, rfl⟩ := hmove
    refine ⟨h.row, fun party hmem => ?_⟩
    rcases List.mem_append.mp hmem with hold | hnew
    · exact h.away party hold
    · rw [List.mem_singleton.mp hnew]
      exact task.keepsAway
  · obtain ⟨i, stopped, _, _, rfl⟩ := hmove
    refine ⟨h.row, fun party hmem => ?_⟩
    rcases List.mem_or_eq_of_mem_set hmem with hold | hnew
    · exact h.away party hold
    · rw [hnew]
      trivial
  · obtain ⟨e, w, _, he, rfl⟩ := hmove
    exact ⟨h.row.happen he, h.away⟩

/-- A committed cancel marks every row it reaches. -/
theorem cancelled_of_cancelsRow {op : Op} {r : Reply} (hr : tookEffect r = true)
    (hexists : ∃ o ∈ w.db.orders, o.id = id)
    (hrows : ∀ o ∈ w.db.orders, o.id = id → op.cancelsRow o = true) :
    (∃ o ∈ (exec op r w).2.db.orders, o.id = id) ∧
      ∀ o ∈ (exec op r w).2.db.orders, o.id = id → o.cancelled = true := by
  have hmarked : ∀ {p : OrderRow → Bool}, (∀ o ∈ w.db.orders, o.id = id → p o = true) →
      (∃ o ∈ (w.db.cancelMatching p).orders, o.id = id) ∧
        ∀ o ∈ (w.db.cancelMatching p).orders, o.id = id → o.cancelled = true := by
    intro p hp
    obtain ⟨o, ho, hoid⟩ := hexists
    refine ⟨⟨_, Table.mem_update_of_mem ho, by rw [if_pos (hp o ho hoid)]; exact hoid⟩, fun o' ho' hid => ?_⟩
    cases Table.mem_update.mp ho' with
    | inl hsame =>
      rw [hp o' hsame.1 hid] at hsame
      cases hsame.2
    | inr hchanged =>
      obtain ⟨_, _, _, rfl⟩ := hchanged
      rfl
  obtain ⟨o, ho, hoid⟩ := hexists
  cases op with
  | cancelOrder owner nonce =>
    cases r with
    | fails => cases hr
    | _ => exact hmarked hrows
  | cancelAll owner marketId nowSec =>
    cases r with
    | fails => cases hr
    | _ => exact hmarked hrows
  | _ => cases hrows o ho hoid

/-- When no program has the order in hand, the cancel settles it. -/
theorem settled_of_cancels {pool pool' : VenuePool} {m : TradingMove} (hcancel : cancels id pool m = true)
    (hquiet : NotInHand pool m) (hs : TradingStep cfg pool m pool') (hfilled : FilledUpTo id F pool') :
    Settled id F pool' := by
  rcases step_cases hs with hmove | hmove | hmove | hmove
  · obtain ⟨i, r, op, next, past, rfl, hparty, rfl⟩ := hmove
    have haway := hquiet id hcancel
    simp only [cancels, hparty, Bool.and_eq_true] at hcancel
    obtain ⟨⟨hr, hany⟩, hall⟩ := hcancel
    obtain ⟨o, ho, hoid⟩ := List.any_eq_true.mp hany
    have hrows : ∀ o ∈ pool.shared.db.orders, o.id = id → op.cancelsRow o = true := by
      intro o ho hoid
      simpa [hoid] using List.all_eq_true.mp hall o ho
    obtain ⟨hexists, hmarked⟩ := cancelled_of_cancelsRow hr ⟨o, ho, beq_iff_eq.mp hoid⟩ hrows
    refine ⟨⟨hexists, fun o ho hid => ⟨hmarked o ho hid, hfilled o ho hid⟩⟩, fun party hmem => ?_⟩
    rcases List.mem_or_eq_of_mem_set hmem with hold | hnew
    · exact haway party hold
    · rw [hnew]
      refine (haway _ (List.mem_of_getElem? hparty)).2 _ ?_
      cases op with
      | loadRestingOrders | loadMarketOrders => cases hrows o ho (beq_iff_eq.mp hoid)
      | _ => trivial
  · obtain ⟨_, rfl, _⟩ := hmove
    cases hcancel
  · obtain ⟨_, _, rfl, _⟩ := hmove
    cases hcancel
  · obtain ⟨_, _, rfl, _⟩ := hmove
    cases hcancel

/-- From a state in which the order is settled, nothing touches it any more. -/
theorem leavesAlone_of_settled {pool : VenuePool} (hF : 0 ≤ F) (h : Settled id F pool)
    {run : List (TradingMove × VenuePool)} (hr : Runs.IsRun (TradingStep cfg) pool run) :
    Runs.AllSteps (LeavesAlone id) pool run ∧ Runs.AllStates (FilledUpTo id F) pool run := by
  have hall := Runs.invariant_of_step (I := Settled id F) (fun _ _ _ h hs => settled_step hF h hs) h hr
  refine ⟨hall.allSteps (fun s m s' hs hstep => ?_) hr, hall.mono fun s hs o ho hid => (hs.row.2 o ho hid).2⟩
  rcases step_cases hstep with hmove | hmove | hmove | hmove
  · obtain ⟨i, r, op, next, past, rfl, hparty, _⟩ := hmove
    simpa only [LeavesAlone, Meets, hparty] using (hs.away _ (List.mem_of_getElem? hparty)).1
  · obtain ⟨_, rfl, _⟩ := hmove
    trivial
  · obtain ⟨_, _, rfl, _⟩ := hmove
    trivial
  · obtain ⟨_, _, rfl, _⟩ := hmove
    trivial

theorem exists_filledUpTo (pool : VenuePool) : ∃ F, 0 ≤ F ∧ FilledUpTo id F pool := by
  unfold FilledUpTo
  induction pool.shared.db.orders with
  | nil => exact ⟨0, le_refl 0, by simp⟩
  | cons o rest ih =>
    obtain ⟨F, hF, hrest⟩ := ih
    refine ⟨max F o.filledSize, by omega, fun o' ho' hid => ?_⟩
    cases List.mem_cons.mp ho' with
    | inl hhead =>
      rw [hhead]
      omega
    | inr htail =>
      have hle := hrest o' htail hid
      omega

/-- Cancels are honoured in every run in which none of them commits while a running tick
still has the order in hand. -/
theorem cancels_honoured (cfg : Config) (pool : VenuePool) (run : List (TradingMove × VenuePool))
    (hr : Runs.IsRun (TradingStep cfg) pool run) (hc : Runs.AllSteps NotInHand pool run) :
    Honoured pool run := by
  induction run generalizing pool with
  | nil => trivial
  | cons e rest ih =>
    obtain ⟨m, pool'⟩ := e
    refine ⟨fun id hcancel => ?_, ih pool' hr.2 hc.2⟩
    -- Any bound that holds now shows that nothing touches the order.
    have hsettled : ∀ F, 0 ≤ F → FilledUpTo id F pool' → Runs.AllSteps (LeavesAlone id) pool' rest ∧
        Runs.AllStates (FilledUpTo id F) pool' rest := by
      intro F hF hfilled
      exact leavesAlone_of_settled hF (settled_of_cancels hcancel hc.1 hr.1 hfilled) hr.2
    obtain ⟨F, hF, hfilled⟩ : ∃ F, 0 ≤ F ∧ FilledUpTo id F pool' := exists_filledUpTo pool'
    exact ⟨(hsettled F hF hfilled).1, fun F hF hfilled => (hsettled F hF hfilled).2⟩

/-! ## A cancel that comes too late -/

/-- The check of one order along a run. -/
def leftAlone (id : String) (pool : VenuePool) : List (TradingMove × VenuePool) → Bool
  | [] => true
  | (m, pool') :: rest =>
    (!cancels id pool m || decide (Runs.AllSteps (LeavesAlone id) pool' rest)) && leftAlone id pool' rest

theorem leftAlone_of_honoured {pool : VenuePool} {run : List (TradingMove × VenuePool)}
    (h : Honoured pool run) : leftAlone id pool run = true := by
  induction run generalizing pool with
  | nil => rfl
  | cons e rest ih =>
    obtain ⟨m, pool'⟩ := e
    rw [leftAlone, ih h.2, Bool.and_true]
    cases hcancel : cancels id pool m with
    | false => rfl
    | true => simpa using (h.1 id hcancel).1

namespace Sample

/-- A tick has matched the two orders when the maker's cancel commits. -/
def lateCancel : List TradingMove :=
  [.start (.placeOrder bid), .act 0 .ok, .start (.placeOrder ask), .act 1 .ok, .start .matcherTick,
    -- the tick reads the open markets, both sides and the price
    .act 2 .ok, .act 2 .ok, .act 2 .ok, .act 2 .ok,
    .start (.cancelOrder "GMAKER" 1), .act 3 .ok,
    -- the tick inserts the fill
    .act 2 .ok]

/-- A second bid is on the table. The first maker's cancel is about to commit, and no tick is
running. -/
def cancelling : VenuePool :=
  ⟨⟨⟨[⟨{ bid with id := "GMAKER:1" }, false⟩, ⟨{ bid with id := "GOTHER:1", owner := "GOTHER" }, false⟩,
      ⟨{ ask with id := "GTAKER:1" }, false⟩],
    [], [⟨1, 0, 0, 2000000000000000000⟩], [], 1⟩, [], 1000⟩,
    [⟨TradingTask.program venue (.cancelOrder "GMAKER" 1), []⟩]⟩

def cancelledPool : VenuePool :=
  ((cancelling.step exec (TradingTask.program venue) happen (.act 0 .ok)).getD cancelling)

/-- A whole tick after the cancel. -/
def tickAfterCancel : List TradingMove :=
  .start .matcherTick :: List.replicate 9 (.act 1 .ok) ++ [.act 1 (.simulated "AAAA" 2)] ++
    List.replicate 2 (.act 1 .ok)

end Sample

/-- The running tick persists a fill against an order whose cancel has committed. -/
theorem fill_after_cancel : ∃ run,
    Runs.IsRun (TradingStep Sample.venue) (idlePool Sample.listed) run ∧
      ¬ Honoured (idlePool Sample.listed) run := by
  have hplay : ((idlePool Sample.listed).play exec (TradingTask.program Sample.venue) happen
      Sample.lateCancel).map (leftAlone "GMAKER:1" (idlePool Sample.listed)) = some false := by
    decide +kernel
  obtain ⟨run, hrun, hfalse⟩ := Option.map_eq_some_iff.mp hplay
  refine ⟨run, isRun_play hrun, fun h => ?_⟩
  rw [leftAlone_of_honoured h] at hfalse
  cases hfalse

/-- The statement that is about to run is no cancel. -/
def noCancel (pool : VenuePool) : TradingMove → Bool
  | .act i _ =>
    match pool.parties[i]? with
    | some ⟨.call (.cancelOrder ..) _, _⟩ | some ⟨.call (.cancelAll ..) _, _⟩ => false
    | _ => true
  | _ => true

theorem notInHand_of_noCancel {pool : VenuePool} {m : TradingMove} (h : noCancel pool m = true) :
    NotInHand pool m := by
  intro id hcancel
  cases m with
  | act i r =>
    simp only [cancels] at hcancel
    split at hcancel
    · rename_i op next past hparty
      simp only [Bool.and_eq_true] at hcancel
      obtain ⟨⟨_, hany⟩, hall⟩ := hcancel
      obtain ⟨o, ho, hoid⟩ := List.any_eq_true.mp hany
      have hrow : op.cancelsRow o = true := by
        simpa [beq_iff_eq.mp hoid] using List.all_eq_true.mp hall o ho
      simp only [noCancel, hparty] at h
      cases op with
      | cancelOrder | cancelAll => cases h
      | _ => cases hrow
    · cases hcancel
  | start | stop | world => cases hcancel

/-- The tick fills the second bid, and leaves the cancelled one alone. -/
theorem cancels_honoured_before_tick : ∃ run,
    cancels "GMAKER:1" Sample.cancelling (.act 0 .ok) = true ∧
      (Runs.final Sample.cancelledPool run).shared.db.fills.map (·.maker) = ["GOTHER"] ∧
      Honoured Sample.cancelling ((.act 0 .ok, Sample.cancelledPool) :: run) := by
  obtain ⟨run, hrun, hboth⟩ := Runs.exists_isRun_of_play
    (Pool.step exec (TradingTask.program Sample.venue) happen) Sample.cancelledPool Sample.tickAfterCancel
    (fun run => (decide (Runs.AllSteps (fun pool m => noCancel pool m = true) Sample.cancelledPool run),
      (Runs.final Sample.cancelledPool run).shared.db.fills.map (·.maker)))
    (show _ = some (true, ["GOTHER"]) by decide +kernel)
  obtain ⟨hnone, hfills⟩ := Prod.mk.inj hboth
  refine ⟨run, by decide +kernel, hfills, cancels_honoured Sample.venue _ _ ⟨rfl, hrun⟩ ⟨?_, ?_⟩⟩
  · intro id _ party hparty
    obtain rfl := List.mem_singleton.mp hparty
    have haway : KeepsAway id (TradingTask.program Sample.venue (.cancelOrder "GMAKER" 1)) :=
      TradingTask.keepsAway _
    exact haway
  · exact (of_decide_eq_true hnone).mono fun _ _ => notInHand_of_noCancel

end Kryon.Venue

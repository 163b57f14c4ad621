import Kryon.Engine.Import
import Kryon.Engine.Mirror
import Kryon.Engine.Worth

/-! # Funding and the time it is charged for

An update moves a market's indexes by the funding of the seconds since the update
before it. A position pays the move of its index between its open and its close, so
what it pays is bounded by the seconds that the updates in between charge for, and
these may lie before the open. -/
namespace Kryon
open Transaction Runs

/-! ## Calls -/

/-- The positions, the funding configuration and the indexes. -/
def EngineStorage.fundingBook (s : EngineStorage) : EngineStorage :=
  { positions := s.positions, fundingConfig := s.fundingConfig, fundingState := s.fundingState }

def EngineOp.now : EngineOp → Nat
  | openPosition env .. => env.timestamp
  | increasePosition env .. => env.timestamp
  | reducePosition env .. => env.timestamp
  | closePosition env .. => env.timestamp
  | liquidateReduce env .. => env.timestamp

namespace EngineCall

/-- One successful call, on positions and funding; prices, marks and everything else may
be in any state. -/
abbrev FundingStep : EngineStorage → EngineCall → EngineStorage → Prop :=
  CallStep EngineCall.call fun w => w.engine.fundingBook

/-- The ledger time of a call. -/
def now : EngineCall → Nat
  | trade op => op.now
  | chargeTradeFee env .. => env.timestamp
  | updateFunding env _ => env.timestamp
  | setFundingConfig env .. => env.timestamp
  | setFeeConfig env .. => env.timestamp
  | setMarket env _ => env.timestamp
  | migrateImportPositions env _ => env.timestamp

/-- The seconds a call charges the market for. -/
def accruedSeconds (marketId : Nat) (s : EngineStorage) : EngineCall → Nat
  | updateFunding env m =>
    if m = marketId then (s.fundingStateOf env.timestamp m).elapsedAt env.timestamp else 0
  | _ => 0

end EngineCall

/-- The user's id still names the position as it was opened. -/
def Holds (user : Address) (p : Position) (s : EngineStorage) : Prop :=
  ∃ index, Engine.findPosition (s.loadPositions user) p.positionId = .ok (index, p)

/-- The calls that close a position in full. -/
def closings (env : Env) (user : Address) (p : Position) (price : Int) : List (Tx TradeResult) :=
  [Engine.closePosition env user p.positionId price,
    Engine.reducePosition env user p.positionId p.size price,
    Engine.liquidateReduce env user p.positionId p.size price]

/-! ## What a call does to an index -/

namespace Engine

variable {env : Env} {w w' : World} {user : Address} {marketId positionId : Nat} {size price : Int}

/-- An update reads the mark once and charges at the premium it makes of it. -/
theorem updateFunding_accrues {next : FundingState}
    (h : Returns (updateFunding env marketId) w next w') :
    ∃ cfg market mark w₁ premium, w.engine.fundingConfig.get marketId = some cfg ∧
      w.engine.loadMarket marketId = .ok market ∧
      Returns (consumeMarkTwap env marketId) w mark w₁ ∧
      fundingPremium env w₁ market mark = .ok premium ∧
      w'.engine.markState = w₁.engine.markState ∧
      updateFromPremium cfg (w.engine.fundingStateOf env.timestamp marketId) premium env.timestamp =
        .ok next := by
  obtain ⟨cfg, market, mark, w₁, premium, hcfg, hmarket, hmark, hpremium, hnext, hroute⟩ :=
    updateFunding_steps h
  obtain ⟨vault, rfl, _⟩ := routeFundingSurplus_effect hroute
  exact ⟨cfg, market, mark, w₁, premium, hcfg, hmarket, hmark, hpremium, rfl, hnext⟩

/-- A reduction reports the funding pnl it applied and the size that is left. -/
theorem reducePositionInternal_result {requireInitialMargin : Bool} {r : TradeResult}
    (h : Returns (reducePositionInternal env user positionId size price requireInitialMargin) w r w') :
    ∃ index position, findPosition (w.engine.loadPositions user) positionId = .ok (index, position) ∧
      fundingPnl position (currentFundingIndex env w.engine position) = .ok r.fundingPnl := by
  obtain ⟨_, _, index, position, settled, _, _, _, _, _, hsettled, _, _, _, _, hfind, _, _, rfl⟩ :=
    reducePositionInternal_spec h
  exact ⟨index, position, hfind, hsettled⟩

theorem closings_internal {p : Position} {call : Tx TradeResult} {r : TradeResult}
    (hc : call ∈ closings env user p price) (h : Returns call w r w') :
    ∃ size requireInitialMargin, Returns
      (reducePositionInternal env user p.positionId size price requireInitialMargin) w r w' := by
  simp only [closings, List.mem_cons, List.not_mem_nil, or_false] at hc
  cases hc with
  | inl hclose =>
    subst hclose
    obtain ⟨size, h⟩ := closePosition_internal h
    exact ⟨size, true, h⟩
  | inr hc =>
    cases hc with
    | inl hreduce =>
      subst hreduce
      exact ⟨_, true, reducePosition_internal h⟩
    | inr hliquidate =>
      subst hliquidate
      exact ⟨_, false, liquidateReduce_internal h⟩

end Engine

variable {marketId : Nat} {isLong : Bool} {s s' : EngineStorage}

theorem fundingIndexOf_set_self (s : EngineStorage) (marketId : Nat) (isLong : Bool)
    (next : FundingState) :
    { s with fundingState := s.fundingState.set marketId next }.fundingIndexOf marketId isLong =
      if isLong then next.longIndex else next.shortIndex := by
  simp only [EngineStorage.fundingIndexOf, Store.get_set_self, Option.elim_some]

theorem fundingIndexOf_set_ne {m : Nat} (h : marketId ≠ m) (s : EngineStorage) (isLong : Bool)
    (next : FundingState) :
    { s with fundingState := s.fundingState.set m next }.fundingIndexOf marketId isLong =
      s.fundingIndexOf marketId isLong := by
  simp only [EngineStorage.fundingIndexOf, Store.get_set_ne h]

theorem fundingStateOf_index (s : EngineStorage) (now marketId : Nat) (isLong : Bool) :
    (if isLong then (s.fundingStateOf now marketId).longIndex
      else (s.fundingStateOf now marketId).shortIndex) = s.fundingIndexOf marketId isLong := by
  unfold EngineStorage.fundingStateOf EngineStorage.fundingIndexOf
  cases s.fundingState.get marketId with
  | none => cases isLong <;> rfl
  | some f => rfl

/-- Only an update and a new configuration write a market's funding state, and the
configuration keeps the indexes. -/
theorem fundingState_kept {w w' : World} {op : EngineCall} (h : Returns op.call w () w')
    (hop : ∀ env m, op ≠ .updateFunding env m) (marketId : Nat) :
    w'.engine.fundingState.get marketId = w.engine.fundingState.get marketId ∨
      w'.engine.fundingState.get marketId =
        some { w.engine.fundingStateOf op.now marketId with lastUpdate := op.now } := by
  cases op with
  | trade op =>
    obtain ⟨_, _, _, _, _, _, _, ht⟩ := EngineOp.trade h
    obtain ⟨_, ht, _⟩ := ht.traded
    obtain ⟨_, _, he⟩ := ht.engine
    rw [he]
    exact .inl rfl
  | chargeTradeFee env user marketId size executionPrice isMaker =>
    obtain ⟨_, h⟩ := returns_void.mp h
    cases Engine.chargeTradeFee_effect h with
    | inl hfree =>
      rw [hfree]
      exact .inl rfl
    | inr hpaid =>
      obtain ⟨_, _, _, _, _, _, _, _, _, rfl⟩ := hpaid
      exact .inl rfl
  | updateFunding env m => exact absurd rfl (hop env m)
  | setFundingConfig env m config =>
    obtain rfl := Engine.setFundingConfig_effect h
    by_cases hm : marketId = m
    · subst hm
      exact .inr (Store.get_set_self _ _ _)
    · exact .inl (Store.get_set_ne hm)
  | setFeeConfig env m config =>
    obtain ⟨_, rfl⟩ := Engine.setFeeConfig_effect h
    exact .inl rfl
  | setMarket env config =>
    obtain rfl := Engine.setMarket_effect h
    exact .inl rfl
  | migrateImportPositions env entries =>
    obtain ⟨_, h⟩ := returns_void.mp h
    obtain rfl := Engine.migrateImportPositions_imported h
    exact .inl rfl

theorem fundingIndexOf_kept {w w' : World} {op : EngineCall} (h : Returns op.call w () w')
    (hop : ∀ env m, op ≠ .updateFunding env m) (marketId : Nat) (isLong : Bool) :
    w'.engine.fundingIndexOf marketId isLong = w.engine.fundingIndexOf marketId isLong := by
  cases fundingState_kept h hop marketId with
  | inl hsame => simp only [EngineStorage.fundingIndexOf, hsame]
  | inr hset =>
    rw [← fundingStateOf_index w.engine op.now marketId isLong]
    simp only [EngineStorage.fundingIndexOf, hset, Option.elim_some]

/-- An update moves the index of its market by the seconds it charges for. -/
theorem updateFunding_moves {env : Env} {w w' : World} {m : Nat} {next : FundingState}
    {cfg : FundingConfig} (h : Returns (Engine.updateFunding env m) w next w')
    (hcfg : w.engine.fundingConfig.get marketId = some cfg) (isLong : Bool) :
    |w'.engine.fundingIndexOf marketId isLong - w.engine.fundingIndexOf marketId isLong| * secsPerHour ≤
      cfg.maxRatePerHour *
        ((EngineCall.updateFunding env m).accruedSeconds marketId w.engine : Int) := by
  obtain ⟨cfg', _, _, _, premium, hcfg', _, _, _, _, hnext⟩ := Engine.updateFunding_accrues h
  obtain ⟨_, _, _, rfl, _⟩ := Engine.updateFunding_effect h
  by_cases hm : marketId = m
  · subst hm
    obtain rfl := Option.some.inj (hcfg.symm.trans hcfg')
    obtain ⟨hlong, hshort⟩ := updateFromPremium_bound hnext
    have hafter := fundingIndexOf_set_self w.engine marketId isLong next
    have hbefore := fundingStateOf_index w.engine env.timestamp marketId isLong
    simp only [EngineCall.accruedSeconds, if_true]
    show |{ w.engine with fundingState := w.engine.fundingState.set marketId next }.fundingIndexOf
      marketId isLong - _| * _ ≤ _
    rw [hafter, ← hbefore]
    cases isLong with
    | true => exact hlong
    | false => exact hshort
  · have hafter := fundingIndexOf_set_ne hm w.engine isLong next
    simp only [EngineCall.accruedSeconds, if_neg (Ne.symm hm), Nat.cast_zero, mul_zero]
    show |{ w.engine with fundingState := w.engine.fundingState.set m next }.fundingIndexOf
      marketId isLong - _| * _ ≤ _
    rw [hafter, sub_self, abs_zero, zero_mul]

theorem EngineCall.FundingStep.moves {op : EngineCall} {cfg : FundingConfig}
    (hcfg : s.fundingConfig.get marketId = some cfg) (h : op.FundingStep s s') :
    |s'.fundingIndexOf marketId isLong - s.fundingIndexOf marketId isLong| * secsPerHour ≤
      cfg.maxRatePerHour * (op.accruedSeconds marketId s : Int) := by
  obtain ⟨w, w', rfl, rfl, h⟩ := h
  by_cases hop : ∃ env m, op = .updateFunding env m
  · obtain ⟨env, m, rfl⟩ := hop
    obtain ⟨next, h⟩ := returns_void.mp h
    exact updateFunding_moves h hcfg isLong
  · have hkept := fundingIndexOf_kept h (fun env m heq => hop ⟨env, m, heq⟩) marketId isLong
    have hbook : ∀ v : World, v.engine.fundingBook.fundingIndexOf marketId isLong =
        v.engine.fundingIndexOf marketId isLong := fun _ => rfl
    have hzero : op.accruedSeconds marketId w.engine.fundingBook = 0 := by
      cases op with
      | updateFunding env m => exact absurd ⟨env, m, rfl⟩ hop
      | trade op => rfl
      | chargeTradeFee => rfl
      | setFundingConfig => rfl
      | setFeeConfig => rfl
      | setMarket => rfl
      | migrateImportPositions => rfl
    rw [hbook, hbook, hkept, hzero, sub_self, abs_zero, zero_mul, Nat.cast_zero, mul_zero]

/-! ## A position held -/

/-- The seconds that the updates of a run charge the market for. -/
def accruedIn (marketId : Nat) (s : EngineStorage) (t : List (EngineCall × EngineStorage)) : Nat :=
  total (fun s op => op.accruedSeconds marketId s) s t

/-- The calls come in the order of their ledger times, from `start` up to `finish`. -/
def InOrder (finish start : Nat) : List (EngineCall × EngineStorage) → Prop
  | [] => start ≤ finish
  | (op, _) :: t => start ≤ op.now ∧ InOrder finish op.now t

theorem inOrder_iff {finish start : Nat} {t : List (EngineCall × EngineStorage)} :
    InOrder finish start t ↔
      List.IsChain (· ≤ ·) (start :: ((labels t).map EngineCall.now ++ [finish])) := by
  induction t generalizing start with
  | nil => simp [InOrder, labels]
  | cons e t ih =>
    obtain ⟨op, s'⟩ := e
    simp only [InOrder, ih, labels, List.map_cons, List.cons_append, List.isChain_cons_cons]

/-- Funding is up to date at `since`: nothing before it is left to charge for. -/
def FundedSince (marketId since : Nat) (s : EngineStorage) : Prop :=
  ∀ state, s.fundingState.get marketId = some state → since ≤ state.lastUpdate

/-- A call charges for no more than the time since `since`, and afterwards funding is up
to date at `since`, or at the call itself if it charged. -/
theorem EngineCall.FundingStep.since {op : EngineCall} {since : Nat} (hs : FundedSince marketId since s)
    (hnow : since ≤ op.now) (h : op.FundingStep s s') :
    ∃ since', since' ≤ op.now ∧ since + op.accruedSeconds marketId s ≤ since' ∧
      FundedSince marketId since' s' := by
  obtain ⟨w, w', rfl, rfl, h⟩ := h
  by_cases hop : ∃ env, op = .updateFunding env marketId
  · obtain ⟨env, rfl⟩ := hop
    obtain ⟨next, h⟩ := returns_void.mp h
    obtain ⟨_, _, _, _, _, _, _, _, _, _, hnext⟩ := Engine.updateFunding_accrues h
    obtain ⟨_, _, _, rfl, _⟩ := Engine.updateFunding_effect h
    have hlast : env.timestamp ≤ next.lastUpdate := updateFromPremium_lastUpdate hnext
    refine ⟨env.timestamp, le_rfl, ?_, ?_⟩
    · have hcharged : (w.engine.fundingStateOf env.timestamp marketId).elapsedAt env.timestamp ≤
          env.timestamp - since := by
        refine (min_le_left _ _).trans ?_
        unfold EngineStorage.fundingStateOf
        cases hget : w.engine.fundingState.get marketId with
        | none =>
          simp only [Option.getD_none]
          omega
        | some state =>
          have := hs state hget
          simp only [Option.getD_some]
          omega
      show since + (if marketId = marketId then _ else 0) ≤ _
      rw [if_pos rfl]
      have hle : since ≤ env.timestamp := hnow
      have hsame : w.engine.fundingBook.fundingStateOf env.timestamp marketId =
        w.engine.fundingStateOf env.timestamp marketId := rfl
      rw [hsame]
      omega
    · intro state hget
      have hset : (w.engine.fundingState.set marketId next).get marketId = some state := hget
      rw [Store.get_set_self] at hset
      rw [← Option.some.inj hset]
      exact hlast
  · have hzero : op.accruedSeconds marketId w.engine.fundingBook = 0 := by
      cases op with
      | updateFunding env m => exact if_neg fun hm => hop ⟨env, by rw [hm]⟩
      | trade op => rfl
      | chargeTradeFee => rfl
      | setFundingConfig => rfl
      | setFeeConfig => rfl
      | setMarket => rfl
      | migrateImportPositions => rfl
    refine ⟨since, hnow, by rw [hzero, add_zero], fun state hget => ?_⟩
    have hget' : w'.engine.fundingState.get marketId = some state := hget
    by_cases hany : ∃ env m, op = .updateFunding env m
    · obtain ⟨env, m, rfl⟩ := hany
      obtain ⟨next, h⟩ := returns_void.mp h
      obtain ⟨_, _, _, rfl, _⟩ := Engine.updateFunding_effect h
      have hm : marketId ≠ m := fun hm => hop ⟨env, by rw [hm]⟩
      have hset : (w.engine.fundingState.set m next).get marketId = some state := hget
      rw [Store.get_set_ne hm] at hset
      exact hs state hset
    · cases fundingState_kept h (fun env m heq => hany ⟨env, m, heq⟩) marketId with
      | inl hsame => exact hs state (hsame ▸ hget')
      | inr hset =>
        obtain rfl := Option.some.inj (hset.symm.trans hget')
        exact hnow

/-- A market whose funding is up to date at the open is charged, up to the close, for the
time in between at most. -/
theorem accruedIn_le {since start finish : Nat} {t : List (EngineCall × EngineStorage)}
    (hs : FundedSince marketId since s) (hstart : since ≤ start)
    (hr : IsRun EngineCall.FundingStep s t) (ho : InOrder finish start t) :
    accruedIn marketId s t ≤ finish - since := by
  have hsum : since + accruedIn marketId s t ≤ finish := by
    induction t generalizing s since start with
    | nil => exact hstart.trans ho
    | cons e t ih =>
      obtain ⟨since', hnow, hcharged, hs'⟩ := hr.1.since hs (hstart.trans ho.1)
      have hrest := ih hs' hnow hr.2 ho.2
      have hcons : accruedIn marketId s (e :: t) =
        e.1.accruedSeconds marketId s + accruedIn marketId e.2 t := rfl
      omega
  omega

theorem total_mul_cast {σ ι : Type} (c : Int) (f : σ → ι → Nat) (s : σ) (t : List (ι × σ)) :
    total (fun s i => c * (f s i : Int)) s t = c * (total f s t : Nat) := by
  induction t generalizing s with
  | nil => exact (mul_zero c).symm
  | cons e t ih => rw [total, total, ih, Nat.cast_add, mul_add]

/-- Over a run an index moves by at most the maximal rate over the seconds charged for. -/
theorem index_moves {s : EngineStorage} {t : List (EngineCall × EngineStorage)} {cfg : FundingConfig}
    (hr : IsRun EngineCall.FundingStep s t)
    (hcfg : AllStates (fun s => s.fundingConfig.get marketId = some cfg) s t) (isLong : Bool) :
    |(final s t).fundingIndexOf marketId isLong - s.fundingIndexOf marketId isLong| * secsPerHour ≤
      cfg.maxRatePerHour * (accruedIn marketId s t : Int) := by
  have hsecs : (0 : Int) ≤ secsPerHour := by decide
  have hstep : IsRun (fun s op s' => |s'.fundingIndexOf marketId isLong * (secsPerHour : Int) -
      s.fundingIndexOf marketId isLong * secsPerHour| ≤
        cfg.maxRatePerHour * (EngineCall.accruedSeconds marketId s op : Int)) s t := by
    refine hcfg.isRun hr fun s op s' hcfg h => ?_
    rw [← sub_mul, abs_mul, abs_of_nonneg hsecs]
    exact EngineCall.FundingStep.moves hcfg h
  have hrun := abs_final_sub_le_total (fun s => s.fundingIndexOf marketId isLong * (secsPerHour : Int))
    (fun s op => cfg.maxRatePerHour * (EngineCall.accruedSeconds marketId s op : Int)) hstep
  rw [total_mul_cast] at hrun
  rw [← abs_of_nonneg hsecs, ← abs_mul, sub_mul]
  exact hrun

/-- Opening stamps the position with the index its market has afterwards. -/
theorem opened_index {env : Env} {w w' : World} {user : Address} {size price : Int} {mode : MarginMode}
    {r : TradeResult} {p : Position}
    (h : Returns (Engine.openPosition env user marketId size isLong price mode) w r w')
    (hp : w'.engine.loadPositions user = w.engine.loadPositions user ++ [p]) :
    0 < p.size ∧ p.size = size ∧ p.marketId = marketId ∧ p.isLong = isLong ∧
      p.lastFundingIndex = w'.engine.fundingIndexOf marketId isLong := by
  obtain ⟨_, _, hsize, _, position, hm, hside, hs, _, _, hindex, _, _, ht, _⟩ :=
    Engine.openPosition_effect h
  have hlist := ht.loadPositions user
  rw [if_pos rfl, hp] at hlist
  obtain rfl : p = position := List.singleton_inj.mp (List.append_cancel_left hlist)
  obtain ⟨_, _, he⟩ := ht.engine
  refine ⟨hs ▸ hsize, hs, hm, hside, ?_⟩
  rw [hindex, currentFundingIndex_eq, hm, hside, he]
  rfl

/-- What a full close pays: the move of the index since the open, truncated. -/
theorem closed_pnl {env : Env} {w w' : World} {user : Address} {p : Position} {price : Int}
    {call : Tx TradeResult} {r : TradeResult} (hcall : call ∈ closings env user p price)
    (h : Returns call w r w') (hheld : Holds user p w.engine) :
    |r.fundingPnl| * precision ≤
      |p.size * (w.engine.fundingIndexOf p.marketId p.isLong - p.lastFundingIndex)| := by
  obtain ⟨_, _, h⟩ := Engine.closings_internal hcall h
  obtain ⟨_, position, hfind, hpnl⟩ := Engine.reducePositionInternal_result h
  obtain ⟨_, hheld⟩ := hheld
  obtain rfl : position = p := (Prod.mk.inj (Except.ok.inj (hfind.symm.trans hheld))).2
  rw [fundingPnl_ok hpnl, abs_neg, currentFundingIndex_eq]
  exact Truncation.abs_tdiv_mul_le _ precision_pos

/-- **Funding is paid for the time held as long as no update charges for more.** A position
opened at `a` and closed in full at `b`, untouched in between, under a fixed funding
configuration: when the seconds that the updates in between charge for are at most
`b - a`, the funding it pays is at most that of the maximal rate over `b - a`, and none
when it was open for no time. -/
theorem funding_for_time_held {envA envB : Env} {w₀ w₁ w₂ w₃ : World} {r₀ r : TradeResult}
    {user : Address} {marketId : Nat} {size openPrice closePrice : Int} {isLong : Bool}
    {mode : MarginMode} {p : Position} {cfg : FundingConfig} {call : Tx TradeResult}
    {t : List (EngineCall × EngineStorage)}
    (hopen : Returns (Engine.openPosition envA user marketId size isLong openPrice mode) w₀ r₀ w₁)
    (hp : w₁.engine.loadPositions user = w₀.engine.loadPositions user ++ [p])
    (hr : IsRun EngineCall.FundingStep w₁.engine.fundingBook t) (hrate : 0 < cfg.maxRatePerHour)
    (hcfg : AllStates (fun s => s.fundingConfig.get marketId = some cfg) w₁.engine.fundingBook t)
    (hheld : AllStates (Holds user p) w₁.engine.fundingBook t)
    (hw₂ : w₂.engine.fundingBook = final w₁.engine.fundingBook t)
    (hcall : call ∈ closings envB user p closePrice) (hclose : Returns call w₂ r w₃)
    (haccrued : accruedIn marketId w₁.engine.fundingBook t ≤ envB.timestamp - envA.timestamp) :
    |r.fundingPnl| * (secsPerHour * precision) ≤
        size * cfg.maxRatePerHour * (envB.timestamp - envA.timestamp : Nat) ∧
      (envB.timestamp ≤ envA.timestamp → r.fundingPnl = 0) := by
  obtain ⟨hpos, rfl, rfl, rfl, hindex⟩ := opened_index hopen hp
  have hheld₂ : Holds user p w₂.engine := by
    have hfinal := hheld.at_final
    rw [← hw₂] at hfinal
    exact hfinal
  have hpaid := closed_pnl hcall hclose hheld₂
  have hmoved := index_moves hr hcfg p.isLong
  rw [← hw₂] at hmoved
  have hbook : ∀ v : World, v.engine.fundingBook.fundingIndexOf p.marketId p.isLong =
      v.engine.fundingIndexOf p.marketId p.isLong := fun _ => rfl
  rw [hbook, hbook, ← hindex] at hmoved
  rw [abs_mul, abs_of_pos hpos] at hpaid
  have hsecs : (0 : Int) < secsPerHour := by decide
  have hbound : |r.fundingPnl| * (secsPerHour * precision) ≤
      p.size * cfg.maxRatePerHour * (envB.timestamp - envA.timestamp : Nat) := by
    calc |r.fundingPnl| * (secsPerHour * precision)
        = |r.fundingPnl| * precision * secsPerHour := by ring
      _ ≤ p.size * |w₂.engine.fundingIndexOf p.marketId p.isLong - p.lastFundingIndex| *
            secsPerHour := mul_le_mul_of_nonneg_right hpaid hsecs.le
      _ ≤ p.size * (cfg.maxRatePerHour * accruedIn p.marketId w₁.engine.fundingBook t) := by
          rw [mul_assoc]
          exact mul_le_mul_of_nonneg_left hmoved hpos.le
      _ ≤ p.size * (cfg.maxRatePerHour * (envB.timestamp - envA.timestamp : Nat)) := by
          have hcast : (accruedIn p.marketId w₁.engine.fundingBook t : Int) ≤
              (envB.timestamp - envA.timestamp : Nat) := by exact_mod_cast haccrued
          exact mul_le_mul_of_nonneg_left (mul_le_mul_of_nonneg_left hcast hrate.le) hpos.le
      _ = p.size * cfg.maxRatePerHour * (envB.timestamp - envA.timestamp : Nat) := by ring
  refine ⟨hbound, fun hzero => ?_⟩
  rw [Nat.sub_eq_zero_of_le hzero, Nat.cast_zero, mul_zero] at hbound
  have hscale : 0 < (secsPerHour : Int) * precision := by decide
  have habs : |r.fundingPnl| ≤ 0 := by
    by_contra hlt
    have := mul_pos (not_le.mp hlt) hscale
    omega
  exact abs_eq_zero.mp (le_antisymm habs (abs_nonneg _))

namespace Sample

def hourly : FundingConfig where
  imbalanceCoeff := precision
  maxRatePerHour := precision

/-- Alice and bob can trade, and funding was configured at 1000, an hour before. -/
def unfunded : World := (Engine.setFundingConfig (host 1000) 1 hourly).commit (trading 4600)

/-- The same with an update at 4600. -/
def upToDate : World := (Engine.updateFunding (host 4600) 1).commit unfunded

/-- Alice buys at 4600, one percent above the oracle. -/
def buy : Tx TradeResult := Engine.openPosition (host 4600) alice 1 precision true (101 * precision) .cross

def boughtPosition : Position where
  positionId := 1
  owner := alice
  marketId := 1
  size := precision
  entryPrice := 101 * precision
  margin := 0
  isLong := true
  lastFundingIndex := 0
  mode := .cross

def poked (w : World) (now : Nat) : World :=
  (EngineCall.updateFunding (host now) 1).call.commit w

/-- One update and nothing else. -/
def pokedRun (w : World) (now : Nat) : List (EngineCall × EngineStorage) :=
  [(.updateFunding (host now) 1, (poked w now).engine.fundingBook)]

theorem isRun_poked {w : World} {now : Nat}
    (h : (EngineCall.updateFunding (host now) 1).call.succeeds w = true) :
    IsRun EngineCall.FundingStep w.engine.fundingBook (pokedRun w now) := by
  obtain ⟨_, hcall⟩ := returns_commit h
  exact ⟨⟨w, _, rfl, rfl, hcall⟩, trivial⟩

def closeAt (now : Nat) : Tx TradeResult := Engine.closePosition (host now) alice 1 (101 * precision)

end Sample

open Sample in
/-- Opened, poked and closed within one second, alice's position pays for the hour before it. -/
theorem funding_before_open :
    buy.succeeds unfunded = true ∧
    IsRun EngineCall.FundingStep (buy.commit unfunded).engine.fundingBook (pokedRun (buy.commit unfunded) 4600) ∧
    ((closeAt 4600).run (poked (buy.commit unfunded) 4600)).toOption.map (fun r => r.1.fundingPnl) =
      some (-10000000000000000) := by
  have hpoke : (EngineCall.updateFunding (host 4600) 1).call.succeeds (buy.commit unfunded) = true := by
    decide +kernel
  exact ⟨by decide +kernel, isRun_poked hpoke, by decide +kernel⟩

open Sample in
/-- With the funding up to date at the open, forty seconds cost at most forty seconds. -/
theorem funding_for_time_held_fresh :
    ∃ r, ((closeAt 4640).run (poked (buy.commit upToDate) 4630)).toOption.map Prod.fst = some r ∧
      |r.fundingPnl| * (secsPerHour * precision) ≤ precision * precision * (4640 - 4600 : Nat) := by
  obtain ⟨r₀, hopen⟩ := returns_commit (x := buy) (s := upToDate) (by decide +kernel)
  obtain ⟨r, hclose⟩ := returns_commit (x := closeAt 4640) (s := poked (buy.commit upToDate) 4630)
    (by decide +kernel)
  have hp : (buy.commit upToDate).engine.loadPositions alice =
      upToDate.engine.loadPositions alice ++ [boughtPosition] := by decide +kernel
  have hpoke : (EngineCall.updateFunding (host 4630) 1).call.succeeds (buy.commit upToDate) = true := by
    decide +kernel
  have hcfg : AllStates (fun s => s.fundingConfig.get 1 = some hourly)
      (buy.commit upToDate).engine.fundingBook (pokedRun (buy.commit upToDate) 4630) :=
    ⟨by decide +kernel, List.forall_mem_singleton.mpr (by decide +kernel)⟩
  have hheld : AllStates (Holds alice boughtPosition) (buy.commit upToDate).engine.fundingBook
      (pokedRun (buy.commit upToDate) 4630) :=
    ⟨⟨0, by decide +kernel⟩, List.forall_mem_singleton.mpr ⟨0, by decide +kernel⟩⟩
  have haccrued : accruedIn 1 (buy.commit upToDate).engine.fundingBook
      (pokedRun (buy.commit upToDate) 4630) ≤ (host 4640).timestamp - (host 4600).timestamp := by
    decide +kernel
  have hw₂ : (poked (buy.commit upToDate) 4630).engine.fundingBook =
    final (buy.commit upToDate).engine.fundingBook (pokedRun (buy.commit upToDate) 4630) := rfl
  have hcall : closeAt 4640 ∈ closings (host 4640) alice boughtPosition (101 * precision) :=
    List.mem_cons_self
  have hrate : 0 < hourly.maxRatePerHour := by decide
  have hbound := (funding_for_time_held hopen hp (isRun_poked hpoke) hrate hcfg hheld hw₂ hcall hclose haccrued).1
  have hrun : (closeAt 4640).run (poked (buy.commit upToDate) 4630) =
    .ok (r, (closeAt 4640).commit (poked (buy.commit upToDate) 4630)) := hclose
  rw [hrun]
  exact ⟨r, rfl, hbound⟩

end Kryon

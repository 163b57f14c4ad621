import Kryon.Risk.Margin

/-! # Health of a cross-margined account

The engine opens no isolated position. Without one, health is made of two sums, the
collateral value and the unrealised pnl, and of requirements that depend on the
markets' configuration and prices alone. -/
namespace Kryon
open Transaction

/-- The funding a position has not settled, measured against `index`. -/
def Position.unsettledFunding (p : Position) (index : Int) : Int :=
  -(p.size * (index - p.lastFundingIndex)).tdiv precision

def MarketSnapshot.fundingIndex (m : MarketSnapshot) (p : Position) : Int :=
  if p.isLong then m.fundingIndexLong else m.fundingIndexShort

/-- The unsettled funding at the position's market in the table. -/
def fundingAt (markets : Store Nat MarketSnapshot) (p : Position) : Int :=
  (markets.get p.marketId).elim 0 fun m => p.unsettledFunding (m.fundingIndex p)

variable {markets : Store Nat MarketSnapshot} {acc next : PositionPass}
  {p : Position} {positions : List Position}

/-! ## The first pass -/

/-- One turn of the first pass over a cross position. -/
theorem positionStep_cross (hp : p.mode = .cross) (h : positionStep markets acc p = .ok next) :
    ∃ m tradePnl n initialReq maintenanceReq, markets.get p.marketId = some m ∧
      signedPositionPnl p m.oraclePrice = .ok tradePnl ∧ notional p.size m.oraclePrice = .ok n ∧
      applyBps n m.config.initialMarginBps = .ok initialReq ∧
      applyBps n m.config.maintenanceMarginBps = .ok maintenanceReq ∧
      next = { acc with
        pnls := acc.pnls ++ [tradePnl + p.unsettledFunding (m.fundingIndex p)]
        initial := acc.initial + initialReq
        maintenance := acc.maintenance + maintenanceReq } := by
  have hcross : ¬ p.mode = .isolated := by rw [hp]; nofun
  simp only [positionStep, except_bind_ok, reject_ok, exists_const, okOr_ok, checkedAdd_ok, hcross,
    if_false, except_pure_ok, and_assoc, exists_and_left, exists_eq_left'] at h
  obtain ⟨_, m, hm, _, tradePnl, htrade, fPnl, hf, _, n, hn, initialReq, hi, _, maintenanceReq, hmr,
    _, rfl⟩ := h
  have hfunding : fPnl = p.unsettledFunding (m.fundingIndex p) := fundingPnl_ok hf
  exact ⟨m, tradePnl, n, initialReq, maintenanceReq, hm, htrade, hn, hi, hmr, by rw [hfunding]⟩

/-- Cross positions leave the isolated accumulators alone, and each adds one pnl. -/
theorem positionPass_cross (hp : ∀ p ∈ positions, p.mode = .cross)
    (h : positionPass markets acc positions = .ok next) :
    next.lockedIsolatedMargin = acc.lockedIsolatedMargin ∧
      next.anyIsolatedLiquidatable = acc.anyIsolatedLiquidatable ∧
      next.pnls.length = acc.pnls.length + positions.length := by
  induction positions generalizing acc with
  | nil =>
    obtain rfl := Except.ok.inj h
    exact ⟨rfl, rfl, rfl⟩
  | cons p rest ih =>
    simp only [positionPass, except_bind_ok] at h
    obtain ⟨mid, hstep, hrest⟩ := h
    obtain ⟨hmode, hmodes⟩ := List.forall_mem_cons.mp hp
    obtain ⟨_, _, _, _, _, _, _, _, _, _, rfl⟩ := positionStep_cross hmode hstep
    obtain ⟨hl, ha, hlen⟩ := ih hmodes hrest
    refine ⟨hl, ha, ?_⟩
    rw [hlen, List.length_append, List.length_singleton, List.length_cons]
    omega

/-! ## The second pass -/

/-- Without isolated positions the second pass is the sum of the pnls. -/
theorem splitPass_cross {pnls : List Int} {isolated cross : Int} {result : Int × Int}
    (hp : ∀ p ∈ positions, p.mode = .cross) (hlen : pnls.length = positions.length)
    (h : splitPass isolated cross (positions.zip pnls) = .ok result) :
    result = (isolated, cross + pnls.sum) := by
  induction positions generalizing pnls cross with
  | nil =>
    obtain rfl := List.eq_nil_of_length_eq_zero hlen
    rw [← Except.ok.inj h, List.sum_nil, add_zero]
  | cons p rest ih =>
    cases pnls with
    | nil => cases hlen
    | cons upnl pnls =>
      obtain ⟨hmode, hmodes⟩ := List.forall_mem_cons.mp hp
      have hcross : ¬ p.mode = .isolated := by rw [hmode]; nofun
      simp only [List.zip_cons_cons, splitPass, hcross, if_false, except_bind_ok, checkedAdd_ok,
        and_assoc, exists_and_left, exists_eq_left'] at h
      obtain ⟨_, hrest⟩ := h
      rw [ih hmodes (Nat.succ.inj hlen) hrest, List.sum_cons, add_assoc]

/-! ## The whole account -/

/-- The health of a cross-margined account, from its two sums and its requirements. -/
def crossHealth (collateralValue unrealizedPnl initial maintenance crossMaintenance marginRatio : Int) :
    AccountHealth where
  collateralValue
  unrealizedPnl
  equity := collateralValue + unrealizedPnl
  initialMarginRequired := initial
  maintenanceMarginRequired := maintenance
  freeCollateral := collateralValue + unrealizedPnl - initial
  marginRatio
  liquidatable := decide (0 < crossMaintenance) &&
    decide (collateralValue + unrealizedPnl < crossMaintenance)

variable {account : AccountSnapshot} {health : AccountHealth}

theorem accountHealth_cross (hp : ∀ p ∈ account.positions, p.mode = .cross)
    (h : accountHealth account markets = .ok health) :
    ∃ value pass crossMaintenance marginRatio,
      positionPass markets .start account.positions = .ok pass ∧
      crossMaintenancePass markets 0 account.positions = .ok crossMaintenance ∧
      marginRatioOf (value + pass.pnls.sum) pass.maintenance = .ok marginRatio ∧
      health = crossHealth value pass.pnls.sum pass.initial pass.maintenance crossMaintenance
        marginRatio := by
  simp only [accountHealth, except_bind_ok, except_pure_ok, checkedSub_ok, checkedAdd_ok, and_assoc,
    exists_and_left, exists_eq_left'] at h
  obtain ⟨value, _, pass, hpass, _, ⟨isolated, cross⟩, hsplit, unrealized, hsum, _, _, _, ratio,
    hratio, crossMaintenance, hmaintenance, _, rfl⟩ := h
  obtain ⟨hlocked, hany, hlen⟩ := positionPass_cross hp hpass
  obtain ⟨rfl, rfl⟩ := Prod.mk.inj (splitPass_cross hp (by simpa [PositionPass.start] using hlen) hsplit)
  have hunrealized := addSignedFrom_ok hsum
  rw [zero_add] at hunrealized
  subst hunrealized
  simp only [hlocked, hany, PositionPass.start, sub_zero, zero_add, add_zero, Bool.or_false] at hratio ⊢
  exact ⟨value, pass, crossMaintenance, ratio, hpass, hmaintenance, hratio, rfl⟩

end Kryon

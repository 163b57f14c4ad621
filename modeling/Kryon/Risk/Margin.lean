import Kryon.Core.Accounting

/-! # Account health (`risk_engine::margin`)

The three loops of `account_health` are recursive functions over the position
list with the loop's accumulators as arguments. -/
namespace Kryon
open Transaction

structure AccountHealth where
  collateralValue : Int
  unrealizedPnl : Int
  equity : Int
  initialMarginRequired : Int
  maintenanceMarginRequired : Int
  freeCollateral : Int
  marginRatio : Int
  liquidatable : Bool
  deriving DecidableEq, Repr

/-- The first loop's running total of collateral value. -/
def collateralTotal (total : Int) : List CollateralBalance → Res Int
  | [] => .ok total
  | c :: rest => do
    let value ← collateralValueAfterHaircut c.value c.haircutBps
    let total ← checkedAdd total value
    collateralTotal total rest

/-- The accumulators of the first pass over the positions. `pnls` is the part of
the 64-entry buffer filled so far. -/
structure PositionPass where
  pnls : List Int
  initial : Int
  maintenance : Int
  lockedIsolatedMargin : Int
  anyIsolatedLiquidatable : Bool
  deriving DecidableEq, Repr

def PositionPass.start : PositionPass := ⟨[], 0, 0, 0, false⟩

def pnlBufLen : Nat := 64

/-- One turn of the first pass. -/
def positionStep (markets : Store Nat MarketSnapshot) (acc : PositionPass) (p : Position) :
    Res PositionPass := do
  reject (acc.pnls.length ≥ pnlBufLen) .invalidConfig
  let market ← okOr (markets.get p.marketId) .invalidConfig
  reject (market.config.active = false) .invalidConfig
  let currentFunding := if p.isLong then market.fundingIndexLong else market.fundingIndexShort
  let tradePnl ← signedPositionPnl p market.oraclePrice
  let fPnl ← fundingPnl p currentFunding
  let upnl ← checkedAdd tradePnl fPnl
  let n ← notional p.size market.oraclePrice
  let initialReq ← applyBps n market.config.initialMarginBps
  let initial ← checkedAdd acc.initial initialReq
  let maintenanceReq ← applyBps n market.config.maintenanceMarginBps
  let maintenance ← checkedAdd acc.maintenance maintenanceReq
  if p.mode = .isolated then do
    let locked ← checkedAdd acc.lockedIsolatedMargin p.margin
    -- an isolated position is liquidatable on its own margin and its own pnl
    let isoMaintenance ← applyBps n market.config.maintenanceMarginBps
    let isoEquity ← checkedAdd p.margin upnl
    return {
      pnls := acc.pnls ++ [upnl], initial, maintenance, lockedIsolatedMargin := locked
      anyIsolatedLiquidatable := acc.anyIsolatedLiquidatable ||
        (decide (0 < isoMaintenance) && decide (isoEquity < isoMaintenance)) }
  else
    return { acc with pnls := acc.pnls ++ [upnl], initial, maintenance }

def positionPass (markets : Store Nat MarketSnapshot) (acc : PositionPass) :
    List Position → Res PositionPass
  | [] => .ok acc
  | p :: rest => do
    let acc ← positionStep markets acc p
    positionPass markets acc rest

/-- The second pass: unrealised pnl split into its isolated and cross halves. -/
def splitPass (isolatedEquity crossUnrealized : Int) : List (Position × Int) → Res (Int × Int)
  | [] => .ok (isolatedEquity, crossUnrealized)
  | (p, upnl) :: rest =>
    if p.mode = .isolated then do
      let own ← checkedAdd p.margin upnl
      let isolatedEquity ← checkedAdd isolatedEquity own
      splitPass isolatedEquity crossUnrealized rest
    else do
      let crossUnrealized ← checkedAdd crossUnrealized upnl
      splitPass isolatedEquity crossUnrealized rest

/-- The third pass: maintenance margin of the cross positions alone. -/
def crossMaintenancePass (markets : Store Nat MarketSnapshot) (total : Int) :
    List Position → Res Int
  | [] => .ok total
  | p :: rest =>
    if p.mode = .cross then do
      let market ← okOr (markets.get p.marketId) .invalidConfig
      let n ← notional p.size market.oraclePrice
      let req ← applyBps n market.config.maintenanceMarginBps
      let total ← checkedAdd total req
      crossMaintenancePass markets total rest
    else crossMaintenancePass markets total rest

def marginRatioOf (equity maintenance : Int) : Res Int :=
  if maintenance > 0 then divPrecision equity maintenance else .ok i128Max

def accountHealth (account : AccountSnapshot) (markets : Store Nat MarketSnapshot) :
    Res AccountHealth := do
  let totalCollateralValue ← collateralTotal 0 account.collateral
  let pass ← positionPass markets .start account.positions
  -- may be negative: that is the underwater signal
  let crossCollateral ← checkedSub totalCollateralValue pass.lockedIsolatedMargin
  let (isolatedEquity, crossUnrealized) ← splitPass 0 0 (account.positions.zip pass.pnls)
  let unrealizedPnl ← addSigned pass.pnls
  let crossEquity ← checkedAdd crossCollateral crossUnrealized
  let equity ← checkedAdd crossEquity isolatedEquity
  let freeCollateral ← checkedSub equity pass.initial
  let marginRatio ← marginRatioOf equity pass.maintenance
  let crossMaintenance ← crossMaintenancePass markets 0 account.positions
  let crossEquity ← checkedAdd crossCollateral crossUnrealized
  let crossLiquidatable := decide (0 < crossMaintenance) && decide (crossEquity < crossMaintenance)
  return {
    collateralValue := totalCollateralValue
    unrealizedPnl
    equity
    initialMarginRequired := pass.initial
    maintenanceMarginRequired := pass.maintenance
    freeCollateral
    marginRatio
    liquidatable := crossLiquidatable || pass.anyIsolatedLiquidatable }

def validateWithdrawal (account : AccountSnapshot) (markets : Store Nat MarketSnapshot)
    (withdrawalValue : Int) : Res AccountHealth := do
  reject (withdrawalValue < 0) .invalidAmount
  let health ← accountHealth account markets
  let collateralValue ← checkedSub health.collateralValue withdrawalValue
  let equity ← checkedSub health.equity withdrawalValue
  let freeCollateral ← checkedSub equity health.initialMarginRequired
  let marginRatio ← marginRatioOf equity health.maintenanceMarginRequired
  let liquidatable := decide (0 < health.maintenanceMarginRequired) &&
    decide (equity < health.maintenanceMarginRequired)
  reject (equity < health.initialMarginRequired) .insufficientCollateral
  return { health with collateralValue, equity, freeCollateral, marginRatio, liquidatable }

/-! ## Equity -/

/-- What the first loop adds up: the parts of the collateral, each after its haircut. -/
theorem collateralTotal_cons {total result : Int} {c : CollateralBalance} {rest : List CollateralBalance} :
    collateralTotal total (c :: rest) = .ok result ↔
      ∃ value, collateralValueAfterHaircut c.value c.haircutBps = .ok value ∧
        InI128 (total + value) ∧ collateralTotal (total + value) rest = .ok result := by
  simp only [collateralTotal, except_bind_ok, checkedAdd_ok]
  constructor
  · rintro ⟨value, hv, _, ⟨hb, rfl⟩, h⟩; exact ⟨value, hv, hb, h⟩
  · rintro ⟨value, hv, hb, h⟩; exact ⟨value, hv, _, ⟨hb, rfl⟩, h⟩

theorem accountHealth_collateralValue {account : AccountSnapshot} {markets : Store Nat MarketSnapshot}
    {health : AccountHealth} (h : accountHealth account markets = .ok health) :
    collateralTotal 0 account.collateral = .ok health.collateralValue := by
  simp only [accountHealth, except_bind_ok, except_pure_ok] at h
  obtain ⟨_, ht, _, _, _, _, ⟨_, _⟩, _, _, _, _, _, _, _, _, _, _, _, _, _, _, _, rfl⟩ := h
  exact ht

/-- The requirements are those of the positions. -/
theorem accountHealth_requirements {owner owner' : Address} {collateral collateral' : List CollateralBalance}
    {positions : List Position} {markets : Store Nat MarketSnapshot} {health health' : AccountHealth}
    (h : accountHealth ⟨owner, collateral, positions⟩ markets = .ok health)
    (h' : accountHealth ⟨owner', collateral', positions⟩ markets = .ok health') :
    health'.initialMarginRequired = health.initialMarginRequired ∧
      health'.maintenanceMarginRequired = health.maintenanceMarginRequired := by
  simp only [accountHealth, except_bind_ok, except_pure_ok] at h h'
  obtain ⟨_, _, pass, hp, _, _, ⟨_, _⟩, _, _, _, _, _, _, _, _, _, _, _, _, _, _, _, rfl⟩ := h
  obtain ⟨_, _, pass', hp', _, _, ⟨_, _⟩, _, _, _, _, _, _, _, _, _, _, _, _, _, _, _, rfl⟩ := h'
  obtain rfl := Except.ok.inj (hp.symm.trans hp')
  exact ⟨rfl, rfl⟩

theorem marginRatioOf_failsOnly (equity maintenance : Int) :
    FailsOnly (marginRatioOf equity maintenance) (.code .mathOverflow) := by
  unfold marginRatioOf
  split
  · exact divPrecision_failsOnly _ (by omega)
  · exact .of_ok rfl

/-- Other collateral behind positions that have a health: nothing but an overflow is in the way
of their health. -/
theorem accountHealth_failsOnly {owner owner' : Address} {collateral collateral' : List CollateralBalance}
    {positions : List Position} {markets : Store Nat MarketSnapshot} {health : AccountHealth}
    (h : accountHealth ⟨owner, collateral, positions⟩ markets = .ok health)
    (ht : FailsOnly (collateralTotal 0 collateral') (.code .mathOverflow)) :
    FailsOnly (accountHealth ⟨owner', collateral', positions⟩ markets) (.code .mathOverflow) := by
  simp only [accountHealth, except_bind_ok, except_pure_ok] at h
  obtain ⟨_, _, pass, hp, _, _, split, hs, _, hsum, _, _, _, _, _, _, _, _, _, hcm, _, _, _⟩ := h
  refine ht.bind fun total _ => (FailsOnly.of_ok hp).bind fun p hpass => ?_
  obtain rfl := Except.ok.inj (hp.symm.trans hpass)
  refine (checkedSub_failsOnly _ _).bind fun cross _ => (FailsOnly.of_ok hs).bind fun parts _ => ?_
  refine (FailsOnly.of_ok hsum).bind fun _ _ => (checkedAdd_failsOnly _ _).bind fun _ _ => ?_
  refine (checkedAdd_failsOnly _ _).bind fun _ _ => (checkedSub_failsOnly _ _).bind fun _ _ => ?_
  refine (marginRatioOf_failsOnly _ _).bind fun _ _ => (FailsOnly.of_ok hcm).bind fun _ _ => ?_
  exact (checkedAdd_failsOnly _ _).bind fun _ _ => .of_ok rfl

/-- With the same positions at the same prices, equity moves with the collateral. -/
theorem accountHealth_equity_change {owner owner' : Address} {collateral collateral' : List CollateralBalance}
    {positions : List Position} {markets : Store Nat MarketSnapshot} {health health' : AccountHealth}
    (h : accountHealth ⟨owner, collateral, positions⟩ markets = .ok health)
    (h' : accountHealth ⟨owner', collateral', positions⟩ markets = .ok health') :
    health'.equity - health.equity = health'.collateralValue - health.collateralValue := by
  simp only [accountHealth, except_bind_ok, except_pure_ok, checkedSub_ok, checkedAdd_ok] at h h'
  obtain ⟨_, _, pass, hp, _, ⟨_, rfl⟩, ⟨iso, cross⟩, hs, _, _, _, ⟨_, rfl⟩, _, ⟨_, rfl⟩, _, _, _, _,
    _, _, _, _, rfl⟩ := h
  obtain ⟨_, _, pass', hp', _, ⟨_, rfl⟩, ⟨iso', cross'⟩, hs', _, _, _, ⟨_, rfl⟩, _, ⟨_, rfl⟩, _, _, _, _,
    _, _, _, _, rfl⟩ := h'
  obtain rfl := Except.ok.inj (hp.symm.trans hp')
  obtain ⟨rfl, rfl⟩ := Prod.mk.inj (Except.ok.inj (hs.symm.trans hs'))
  dsimp only
  ring

end Kryon

import Kryon.Vault

/-! # The perpetuals engine (`perp-engine`) -/
namespace Kryon

namespace EngineStorage

variable (s : EngineStorage)

def loadPositions (user : Address) : List Position := (s.positions.get user).getD []

def openInterestOf (marketId : Nat) : Int := (s.openInterest.get marketId).getD 0

def sideOpenInterest (marketId : Nat) (isLong : Bool) : Int :=
  ((if isLong then s.longOpenInterest else s.shortOpenInterest).get marketId).getD 0

def loadMarket (marketId : Nat) : Res EngineMarketConfig :=
  okOr (s.market.get marketId) .invalidConfig

def fundingStateOf (now marketId : Nat) : FundingState :=
  (s.fundingState.get marketId).getD
    { longIndex := 0, shortIndex := 0, ratePerHour := 0, lastUpdate := now }

def markStateOf (now marketId : Nat) : MarkState :=
  (s.markState.get marketId).getD
    { lastPrice := 0, lastTs := now, cumulative := 0, windowStart := now }

def feeConfigOf (marketId : Nat) : FeeConfig :=
  (s.feeConfig.get marketId).getD { makerFeeBps := 0, takerFeeBps := 0 }

def storePositions (user : Address) (positions : List Position) : EngineStorage :=
  { s with positions := s.positions.set user positions }

def storeOpenInterest (marketId : Nat) (value : Int) : EngineStorage :=
  { s with openInterest := s.openInterest.set marketId value }

def storeSideOpenInterest (marketId : Nat) (isLong : Bool) (value : Int) : EngineStorage :=
  { s with
    longOpenInterest :=
      if isLong then s.longOpenInterest.set marketId value else s.longOpenInterest
    shortOpenInterest :=
      if isLong then s.shortOpenInterest else s.shortOpenInterest.set marketId value }

end EngineStorage

namespace Engine
open Transaction

def maxPositionsPerUser : Nat := 16

/-! ## Authorization and wiring -/

def requireAdmin (env : Env) (s : EngineStorage) : Res Address := do
  let admin ← okOr s.admin .invalidConfig
  requireAuth env admin
  return admin

def requireLiquidation (env : Env) (s : EngineStorage) : Res Address := do
  let liquidation ← okOr s.liquidation .invalidConfig
  requireAuth env liquidation
  return liquidation

def requireFeeCollector (env : Env) (s : EngineStorage) : Res Address := do
  let collector ← okOr s.feeCollector .invalidConfig
  requireAuth env collector
  return collector

def requireOrderGateway (env : Env) (s : EngineStorage) : Res Address := do
  let gateway ← okOr s.orderGateway .invalidConfig
  requireAuth env gateway
  return gateway

/-- Write this contract's own storage. -/
def store (f : EngineStorage → EngineStorage) : Tx Unit :=
  modify fun w => { w with engine := f w.engine }

def settlementAsset (w : World) : Res Address := okOr w.engine.settlementAsset .invalidConfig

def feeRecipient (w : World) : Res Address := okOr w.engine.feeRecipient .invalidConfig

def vaultAddress (w : World) : Res Address := okOr w.engine.vault .invalidConfig

def oracleGetPrice (env : Env) (w : World) (asset : Symbol) (guard : Option OracleGuard) :
    Res OracleSnapshot := do
  let oracle ← okOr w.engine.oracle .invalidConfig
  reach oracle w.deployed.oracle
  OracleAdapter.getPrice (env.callFrom w.deployed.engine) w.oracle asset guard

/-- A call into the vault the engine is wired to. -/
def callVault {α : Type} (env : Env) (call : Env → Tx α) : Tx α := do
  let vault ← readWith vaultAddress
  let w ← get
  invoke vault w.deployed.vault (call (env.callFrom w.deployed.engine))

def vaultApplyPnl (env : Env) (user asset : Address) (pnl : Int) : Tx Int :=
  callVault env fun env => Vault.applyPnl env user asset pnl

def vaultSyncPositions (env : Env) (user : Address) (positions : List Position) : Tx Unit :=
  callVault env fun env => Vault.syncPositions env user positions

def vaultSetMarketConfig (env : Env) (market : MarketConfig) : Tx Unit :=
  callVault env fun env => Vault.setMarketConfig env market

def vaultSetFundingIndexes (env : Env) (marketId : Nat) (longIndex shortIndex : Int) : Tx Unit :=
  callVault env fun env => Vault.setFundingIndexes env marketId longIndex shortIndex

def vaultAccountHealth (env : Env) (w : World) (user asset : Address) : Res AccountHealth := do
  let vault ← vaultAddress w
  reach vault w.deployed.vault
  Vault.accountHealth (env.callFrom w.deployed.engine) w user asset

def vaultHealth (env : Env) (w : World) (user : Address) : Res AccountHealth := do
  let asset ← settlementAsset w
  vaultAccountHealth env w user asset

/-! ## Checks -/

def marketGuard (market : EngineMarketConfig) : OracleGuard :=
  { maxAgeSecs := market.market.maxOracleAgeSecs
    maxConfidenceBps := market.market.maxOracleConfidenceBps }

def validateEngineMarket (config : EngineMarketConfig) : Res Unit := do
  reject (config.market.marketId = 0 ∨ config.market.active = false ∨
    config.market.initialMarginBps = 0 ∨ config.market.maintenanceMarginBps = 0 ∨
    config.market.maintenanceMarginBps > config.market.initialMarginBps ∨
    config.market.maxOpenInterest ≤ 0 ∨ config.market.maxOracleAgeSecs = 0 ∨
    config.market.maxOracleConfidenceBps > 10000 ∨
    config.maxExecutionDeviationBps > 10000) .invalidConfig
  let implied ← impliedMaxLeverageBps config.market.initialMarginBps
  reject (config.market.maxLeverageBps > implied) .invalidConfig

def validateExecutionPrice (env : Env) (w : World) (market : EngineMarketConfig)
    (executionPrice : Int) : Res Unit := do
  let snapshot ← oracleGetPrice env w market.market.baseAsset (some (marketGuard market))
  let oracle := snapshot.price
  let maxDelta ← applyBps oracle market.maxExecutionDeviationBps
  let lower ← checkedSub oracle maxDelta
  let upper ← checkedAdd oracle maxDelta
  reject (executionPrice < lower ∨ executionPrice > upper) .priceOutsideBand

/-- The fund's balance net of the bad debt it has recorded, never negative. -/
def effectiveInsurance (w : World) : Res Int :=
  match w.engine.insurance with
  | none => .ok 0
  | some insurance => do
    let asset ← settlementAsset w
    reach insurance w.deployed.insurance
    let balance := w.insurance.balanceOf asset
    let badDebt := w.insurance.badDebtOf asset
    let net ← checkedSub balance badDebt
    return max 0 net

def requireInsuranceHeadroom (w : World) (marketId : Nat) (nextOi price : Int) : Res Unit :=
  match w.engine.oiPolicy.get marketId with
  | none => .ok ()
  | some maxBps => do
    let insurance ← effectiveInsurance w
    let cap ← mulDiv insurance maxBps 10000
    let oiNotional ← notional nextOi price
    reject (oiNotional > cap) .insuranceFundInsufficient

def requireAccountAboveInitialMargin (env : Env) (w : World) (user : Address) : Res Unit := do
  let health ← vaultHealth env w user
  reject (health.equity < health.initialMarginRequired) .insufficientCollateral

def syncAndRequireInitialMargin (env : Env) (user : Address) (positions : List Position) :
    Tx Unit := do
  vaultSyncPositions env user positions
  readWith fun w => requireAccountAboveInitialMargin env w user

/-! ## The time-weighted mark -/

def accrueMark (state : MarkState) (now : Nat) : Res MarkState := do
  if now > state.lastTs ∧ state.lastPrice > 0 then do
    let standing ← mulDiv state.lastPrice (now - state.lastTs) 1
    let cumulative ← checkedAdd state.cumulative standing
    return { state with cumulative, lastTs := now }
  else
    return { state with lastTs := now }

def recordMark (env : Env) (marketId : Nat) (executionPrice : Int) : Tx Unit := do
  let now := env.timestamp
  let state ← readWith fun w => accrueMark (w.engine.markStateOf now marketId) now
  -- the first ever trade starts the window
  let state := if state.lastPrice = 0 then { state with windowStart := now, cumulative := 0 }
    else state
  store fun s => { s with
    markState := s.markState.set marketId { state with lastPrice := executionPrice } }

/-- A zero-length window has no time to average over: the standing price is used. -/
def windowAverage (state : MarkState) (elapsed : Int) : Res Int :=
  if elapsed > 0 then mulDiv state.cumulative 1 elapsed else .ok state.lastPrice

def consumeMarkTwap (env : Env) (marketId : Nat) : Tx Int := do
  let now := env.timestamp
  let w ← get
  let state := w.engine.markStateOf now marketId
  if state.lastPrice ≤ 0 then
    return 0
  else do
    let state ← accrueMark state now
    -- `u64::saturating_sub`
    let elapsed : Int := (now - state.windowStart : Nat)
    let twap ← windowAverage state elapsed
    store fun s => { s with
      markState := s.markState.set marketId { state with cumulative := 0, windowStart := now } }
    return twap

/-! ## Positions -/

def nextPositionId : Tx Nat := do
  let current ← readWith fun w => okOr w.engine.nextPositionId .invalidConfig
  -- `u64::checked_add`
  reject (current + 1 > u64Max) .mathOverflow
  store fun s => { s with nextPositionId := some (current + 1) }
  return current

def findPositionIndex (positions : List Position) (positionId : Nat) : Res Nat :=
  okOr (positions.findIdx? fun p => p.positionId = positionId) .positionNotFound

/-- The index of the position with this id, and the position there. -/
def findPosition (positions : List Position) (positionId : Nat) : Res (Nat × Position) := do
  let index ← findPositionIndex positions positionId
  let position ← okOr positions[index]? .positionNotFound
  return (index, position)

def realizedPnl (position : Position) (sizeDelta executionPrice : Int) : Res Int := do
  let priceDelta ← if position.isLong then checkedSub executionPrice position.entryPrice
    else checkedSub position.entryPrice executionPrice
  mulPrecision sizeDelta priceDelta

def currentFundingIndex (env : Env) (s : EngineStorage) (position : Position) : Int :=
  let state := s.fundingStateOf env.timestamp position.marketId
  if position.isLong then state.longIndex else state.shortIndex

def applyFundingPnl (env : Env) (user : Address) (pnl : Int) : Tx Unit :=
  if pnl ≠ 0 then do
    let asset ← readWith settlementAsset
    let _ ← vaultApplyPnl env user asset pnl
  else
    return ()

/-- Settle the funding accrued since the position's last index; the second
component is the position with the index brought up to date. -/
def settlePositionFunding (env : Env) (user : Address) (position : Position) :
    Tx (Int × Position) := do
  let w ← get
  let index := currentFundingIndex env w.engine position
  let pnl ← fundingPnl position index
  applyFundingPnl env user pnl
  return (pnl, { position with lastFundingIndex := index })

/-- The margin locked for a new position: only an isolated one locks any. -/
def lockedMargin (market : EngineMarketConfig) (mode : MarginMode) (positionNotional : Int) :
    Res Int :=
  if mode = .isolated then applyBps positionNotional market.market.initialMarginBps else .ok 0

def openPosition (env : Env) (user : Address) (marketId : Nat) (size : Int) (isLong : Bool)
    (executionPrice : Int) (mode : MarginMode) : Tx TradeResult := do
  let _ ← readWith fun w => requireOrderGateway env w.engine
  reject (size ≤ 0 ∨ executionPrice ≤ 0) .invalidAmount
  reject (mode = .isolated) .isolatedMarginDisabled
  let market ← readWith fun w => w.engine.loadMarket marketId
  readWith fun w => validateExecutionPrice env w market executionPrice
  recordMark env marketId executionPrice
  let w ← get
  let nextOi ← checkedAdd (w.engine.openInterestOf marketId) size
  reject (nextOi > market.market.maxOpenInterest) .openInterestExceeded
  requireInsuranceHeadroom w marketId nextOi executionPrice
  let positions := w.engine.loadPositions user
  reject (positions.length ≥ maxPositionsPerUser) .tooManyPositions
  let funding := w.engine.fundingStateOf env.timestamp marketId
  let positionNotional ← mulPrecision size executionPrice
  let margin ← lockedMargin market mode positionNotional
  let positionId ← nextPositionId
  let position : Position := {
    positionId, owner := user, marketId, size, entryPrice := executionPrice, margin, isLong
    lastFundingIndex := if isLong then funding.longIndex else funding.shortIndex
    mode }
  let positions := positions ++ [position]
  store fun s => (s.storePositions user positions).storeOpenInterest marketId nextOi
  let sideOi ← readWith fun w => checkedAdd (w.engine.sideOpenInterest marketId isLong) size
  store fun s => s.storeSideOpenInterest marketId isLong sideOi
  syncAndRequireInitialMargin env user positions
  let health ← readWith fun w => vaultHealth env w user
  return {
    positionId, remainingSize := position.size, entryPrice := position.entryPrice
    realizedPnl := 0, fundingPnl := 0, executionPrice, accountEquity := health.equity }

/-- The entry price of a position grown by `sizeDelta` at `executionPrice`: the
truncated average of the two truncated notionals. -/
def averagedEntry (position : Position) (sizeDelta executionPrice newSize : Int) : Res Int := do
  let oldNotional ← mulPrecision position.size position.entryPrice
  let addedNotional ← mulPrecision sizeDelta executionPrice
  let total ← checkedAdd oldNotional addedNotional
  divPrecision total newSize

def increasePosition (env : Env) (user : Address) (positionId : Nat)
    (sizeDelta executionPrice : Int) : Tx TradeResult := do
  let _ ← readWith fun w => requireOrderGateway env w.engine
  reject (sizeDelta ≤ 0 ∨ executionPrice ≤ 0) .invalidAmount
  let w ← get
  let positions := w.engine.loadPositions user
  let (index, position) ← findPosition positions positionId
  let market ← readWith fun w => w.engine.loadMarket position.marketId
  readWith fun w => validateExecutionPrice env w market executionPrice
  recordMark env position.marketId executionPrice
  let (settledFunding, position) ← settlePositionFunding env user position
  let w ← get
  let nextOi ← checkedAdd (w.engine.openInterestOf position.marketId) sizeDelta
  reject (nextOi > market.market.maxOpenInterest) .openInterestExceeded
  requireInsuranceHeadroom w position.marketId nextOi executionPrice
  let newSize ← checkedAdd position.size sizeDelta
  let entryPrice ← averagedEntry position sizeDelta executionPrice newSize
  let position := { position with entryPrice, size := newSize }
  let positions := positions.set index position
  store fun s => (s.storePositions user positions).storeOpenInterest position.marketId nextOi
  let sideOi ← readWith fun w =>
    checkedAdd (w.engine.sideOpenInterest position.marketId position.isLong) sizeDelta
  store fun s => s.storeSideOpenInterest position.marketId position.isLong sideOi
  syncAndRequireInitialMargin env user positions
  let health ← readWith fun w => vaultHealth env w user
  return {
    positionId := position.positionId, remainingSize := position.size
    entryPrice := position.entryPrice, realizedPnl := 0, fundingPnl := settledFunding
    executionPrice, accountEquity := health.equity }

/-- The margin an isolated position keeps when `sizeDelta` of it is closed. -/
def releasedMargin (position : Position) (sizeDelta : Int) : Res Int :=
  if position.mode = .isolated ∧ position.margin > 0 then do
    let release ← mulDiv position.margin sizeDelta position.size
    checkedSub position.margin release
  else .ok position.margin

/-- A position list after the entry at `index` was reduced: dropped at size zero. -/
def replaceOrRemove (positions : List Position) (index : Nat) (position : Position) :
    List Position :=
  if position.size = 0 then positions.eraseIdx index else positions.set index position

def recordReduceMark (env : Env) (marketId : Nat) (executionPrice : Int)
    (requireInitialMargin : Bool) : Tx Unit :=
  -- liquidation fills must not move the mark
  if requireInitialMargin then recordMark env marketId executionPrice else return ()

def syncReduced (env : Env) (user : Address) (positions : List Position)
    (requireInitialMargin : Bool) : Tx Unit :=
  if requireInitialMargin then syncAndRequireInitialMargin env user positions
  else vaultSyncPositions env user positions

def reducePositionInternal (env : Env) (user : Address) (positionId : Nat)
    (sizeDelta executionPrice : Int) (requireInitialMargin : Bool) : Tx TradeResult := do
  reject (sizeDelta ≤ 0 ∨ executionPrice ≤ 0) .invalidAmount
  let w ← get
  let positions := w.engine.loadPositions user
  let (index, position) ← findPosition positions positionId
  reject (sizeDelta > position.size) .invalidAmount
  let market ← readWith fun w => w.engine.loadMarket position.marketId
  readWith fun w => validateExecutionPrice env w market executionPrice
  recordReduceMark env position.marketId executionPrice requireInitialMargin
  let (settledFunding, position) ← settlePositionFunding env user position
  let pnl ← realizedPnl position sizeDelta executionPrice
  let margin ← releasedMargin position sizeDelta
  let size ← checkedSub position.size sizeDelta
  let position := { position with margin, size }
  let positions := replaceOrRemove positions index position
  store fun s => s.storePositions user positions
  let oi ← readWith fun w => checkedSub (w.engine.openInterestOf market.market.marketId) sizeDelta
  store fun s => s.storeOpenInterest market.market.marketId oi
  let sideOi ← readWith fun w =>
    checkedSub (w.engine.sideOpenInterest market.market.marketId position.isLong) sizeDelta
  store fun s => s.storeSideOpenInterest market.market.marketId position.isLong sideOi
  let asset ← readWith settlementAsset
  let _ ← vaultApplyPnl env user asset pnl
  syncReduced env user positions requireInitialMargin
  let health ← readWith fun w => vaultHealth env w user
  return {
    positionId, remainingSize := position.size, entryPrice := position.entryPrice
    realizedPnl := pnl, fundingPnl := settledFunding, executionPrice
    accountEquity := health.equity }

def reducePosition (env : Env) (user : Address) (positionId : Nat)
    (sizeDelta executionPrice : Int) : Tx TradeResult := do
  let _ ← readWith fun w => requireOrderGateway env w.engine
  reducePositionInternal env user positionId sizeDelta executionPrice true

def liquidateReduce (env : Env) (user : Address) (positionId : Nat)
    (sizeDelta executionPrice : Int) : Tx TradeResult := do
  let _ ← readWith fun w => requireLiquidation env w.engine
  reducePositionInternal env user positionId sizeDelta executionPrice false

def closePosition (env : Env) (user : Address) (positionId : Nat) (executionPrice : Int) :
    Tx TradeResult := do
  let w ← get
  let (_, position) ← findPosition (w.engine.loadPositions user) positionId
  reducePosition env user positionId position.size executionPrice

/-! ## Fees and funding -/

def chargeTradeFee (env : Env) (user : Address) (marketId : Nat) (size executionPrice : Int)
    (isMaker : Bool) : Tx Int := do
  reject (size ≤ 0 ∨ executionPrice ≤ 0) .invalidAmount
  let w ← get
  let config := w.engine.feeConfigOf marketId
  let feeBps := if isMaker then config.makerFeeBps else config.takerFeeBps
  if feeBps = 0 then
    return 0
  else do
    let _ ← readWith fun w => requireFeeCollector env w.engine
    let n ← notional size executionPrice
    let fee ← applyBps n feeBps
    let asset ← readWith settlementAsset
    let recipient ← readWith feeRecipient
    let debit ← checkedSub 0 fee
    let _ ← vaultApplyPnl env user asset debit
    readWith fun w => requireAccountAboveInitialMargin env w user
    let _ ← vaultApplyPnl env recipient asset fee
    return fee

/-- The premium of the mark over the index: zero before the market has traded. -/
def fundingPremium (env : Env) (w : World) (market : EngineMarketConfig) (mark : Int) : Res Int :=
  if mark > 0 then do
    let index ← oracleGetPrice env w market.market.baseAsset (some (marketGuard market))
    premiumFromMark mark index.price
  else .ok 0

/-- Route what longs and shorts do not owe each other to the insurance account. -/
def routeFundingSurplus (env : Env) (marketId : Nat) (delta : Int) : Tx Unit :=
  if delta = 0 then
    return ()
  else do
    let w ← get
    let oiImbalance ← checkedSub (w.engine.sideOpenInterest marketId true)
      (w.engine.sideOpenInterest marketId false)
    if oiImbalance = 0 then
      return ()
    else do
      let netSurplus ← mulDiv delta oiImbalance precision
      if netSurplus = 0 then
        return ()
      else match w.engine.insurance with
        | none => return ()
        | some insurance => do
          let asset ← readWith settlementAsset
          let _ ← vaultApplyPnl env insurance asset netSurplus

def updateFunding (env : Env) (marketId : Nat) : Tx FundingState := do
  let cfg ← readWith fun w => okOr (w.engine.fundingConfig.get marketId) .invalidConfig
  let market ← readWith fun w => w.engine.loadMarket marketId
  let w ← get
  let current := w.engine.fundingStateOf env.timestamp marketId
  let mark ← consumeMarkTwap env marketId
  let premium ← readWith fun w => fundingPremium env w market mark
  let next ← updateFromPremium cfg current premium env.timestamp
  store fun s => { s with fundingState := s.fundingState.set marketId next }
  vaultSetFundingIndexes env marketId next.longIndex next.shortIndex
  let delta ← checkedSub next.longIndex current.longIndex
  routeFundingSurplus env marketId delta
  return next

/-! ## Configuration and migration -/

def setMarket (env : Env) (config : EngineMarketConfig) : Tx Unit := do
  let _ ← readWith fun w => requireAdmin env w.engine
  validateEngineMarket config
  store fun s => { s with market := s.market.set config }
  vaultSetMarketConfig env config.market

def setFeeConfig (env : Env) (marketId : Nat) (config : FeeConfig) : Tx Unit := do
  let _ ← readWith fun w => requireAdmin env w.engine
  reject (marketId = 0 ∨ config.makerFeeBps > 10000 ∨ config.takerFeeBps > 10000) .invalidConfig
  store fun s => { s with feeConfig := s.feeConfig.set marketId config }

def setFundingConfig (env : Env) (marketId : Nat) (config : FundingConfig) : Tx Unit := do
  let _ ← readWith fun w => requireAdmin env w.engine
  reject (marketId = 0 ∨ config.imbalanceCoeff < 0 ∨ config.maxRatePerHour ≤ 0) .invalidConfig
  store fun s => { s with
    fundingConfig := s.fundingConfig.set marketId config
    fundingState := s.fundingState.set marketId
      { s.fundingStateOf env.timestamp marketId with lastUpdate := env.timestamp } }

/-- The next free id once `position` is imported. -/
def nextIdAfter (position : Position) (nextId : Nat) : Res Nat :=
  if position.positionId ≥ nextId then toU64OrTrap (position.positionId + 1) else .ok nextId

/-- Seed one exported position's open interest; the result is the next free id. -/
def importPosition (position : Position) (nextId : Nat) : Tx Nat := do
  let oi ← readWith fun w => checkedAdd (w.engine.openInterestOf position.marketId) position.size
  store fun s => s.storeOpenInterest position.marketId oi
  let sideOi ← readWith fun w =>
    checkedAdd (w.engine.sideOpenInterest position.marketId position.isLong) position.size
  store fun s => s.storeSideOpenInterest position.marketId position.isLong sideOi
  nextIdAfter position nextId

def importPositions (nextId : Nat) : List Position → Tx Nat
  | [] => return nextId
  | position :: rest => do
    let nextId ← importPosition position nextId
    importPositions nextId rest

/-- The counters of the import loop: the next free id and the users imported. -/
def importEntries (env : Env) (nextId imported : Nat) : List MigratedPositions → Tx (Nat × Nat)
  | [] => return (nextId, imported)
  | entry :: rest => do
    store fun s => s.storePositions entry.user entry.positions
    vaultSyncPositions env entry.user entry.positions
    let nextId ← importPositions nextId entry.positions
    let imported ← toU32OrTrap (imported + 1)
    importEntries env nextId imported rest

def migrateImportPositions (env : Env) (entries : List MigratedPositions) : Tx Nat := do
  let _ ← readWith fun w => requireAdmin env w.engine
  let w ← get
  reject (w.engine.migrationSealed = true) .alreadyInitialized
  let (nextId, imported) ← importEntries env (w.engine.nextPositionId.getD 1) 0 entries
  store fun s => { s with nextPositionId := some nextId }
  return imported

end Engine
end Kryon

import Kryon.Insurance
import Kryon.OracleAdapter

/-! # The collateral vault (`perp-vault`) -/
namespace Kryon

namespace VaultStorage

variable (s : VaultStorage)

def balanceOf (user asset : Address) : Int := (s.balance.get (user, asset)).getD 0

def loadPositions (user : Address) : List Position := (s.positions.get user).getD []

def loadCollateral (asset : Address) : Res CollateralConfig :=
  okOr (s.collateral.get asset) .invalidConfig

def totalDepositedOf (asset : Address) : Int := (s.totalDeposited.get asset).getD 0

def fundingLongOf (marketId : Nat) : Int := (s.fundingLong.get marketId).getD 0

def fundingShortOf (marketId : Nat) : Int := (s.fundingShort.get marketId).getD 0

/-- The recorded assets; none when the user has no list. -/
def recordedAssets (user : Address) : List Address := (s.userAssets.get user).getD []

/-- Append `asset` to the user's list unless it is there. -/
def recordAsset (user asset : Address) : VaultStorage :=
  if asset ∈ s.recordedAssets user then s
  else { s with userAssets := s.userAssets.set user (s.recordedAssets user ++ [asset]) }

def setBalance (user asset : Address) (amount : Int) : VaultStorage :=
  { s with balance := s.balance.set (user, asset) amount }

end VaultStorage

namespace Vault
open Transaction

/-! ## Authorization -/

def requireAdmin (env : Env) (s : VaultStorage) : Res Address := do
  let admin ← okOr s.admin .invalidConfig
  requireAuth env admin
  return admin

def requireEngine (env : Env) (s : VaultStorage) : Res Address := do
  let engine ← okOr s.engine .invalidConfig
  requireAuth env engine
  return engine

def requireLiquidation (env : Env) (s : VaultStorage) : Res Address := do
  let liquidation ← okOr s.liquidation .invalidConfig
  requireAuth env liquidation
  return liquidation

def requireNotPaused (s : VaultStorage) : Res Unit := reject (s.paused = true) .unauthorized

/-! ## Balances and the asset index -/

/-- Write this contract's own storage. -/
def store (f : VaultStorage → VaultStorage) : Tx Unit :=
  modify fun w => { w with vault := f w.vault }

def increaseBalance (user asset : Address) (amount : Int) : Tx Int := do
  let next ← readWith fun w => checkedAdd (w.vault.balanceOf user asset) amount
  store fun s => s.setBalance user asset next
  return next

def decreaseBalance (user asset : Address) (amount : Int) : Tx Int := do
  let next ← readWith fun w => checkedSub (w.vault.balanceOf user asset) amount
  store fun s => s.setBalance user asset next
  return next

def creditPositive (user asset : Address) (amount : Int) : Tx Unit :=
  if amount > 0 then do
    let _ ← increaseBalance user asset amount
  else
    return ()

def recordUserAsset (user asset : Address) : Tx Unit := store fun s => s.recordAsset user asset

/-! ## Prices and snapshots -/

def oracleAddress (w : World) : Res Address := okOr w.vault.oracle .invalidConfig

def oracleGetPrice (env : Env) (w : World) (oracle : Address) (asset : Symbol)
    (guard : Option OracleGuard) : Res OracleSnapshot := do
  reach oracle w.deployed.oracle
  OracleAdapter.getPrice (env.callFrom w.deployed.vault) w.oracle asset guard

def collateralPrice (env : Env) (w : World) (asset : Address) : Res OracleSnapshot := do
  let config ← w.vault.loadCollateral asset
  let oracle ← oracleAddress w
  oracleGetPrice env w oracle config.oracleAsset none

def requireOwner (user : Address) (positions : List Position) : Res Unit :=
  reject (¬ ∀ position ∈ positions, position.owner = user) .unauthorized

def accountSnapshotForAsset (env : Env) (w : World) (user asset : Address) (amount : Int)
    (config : CollateralConfig) (positions : List Position) : Res AccountSnapshot := do
  let oracle ← oracleAddress w
  let price ← oracleGetPrice env w oracle config.oracleAsset none
  let value ← mulPrecision amount price.price
  requireOwner user positions
  return {
    owner := user
    collateral := [{ asset, amount, value, haircutBps := config.haircutBps }]
    positions }

/-- The entry of one recorded asset: none for a zero balance, an unlisted or an
inactive asset. A negative balance is a debt and has an entry. -/
def collateralEntry (env : Env) (w : World) (user asset : Address) : Res (Option CollateralBalance) :=
  let amount := w.vault.balanceOf user asset
  if amount = 0 then .ok none
  else match w.vault.collateral.get asset with
    | none => .ok none
    | some config =>
      if config.active = false then .ok none
      else do
        let oracle ← oracleAddress w
        let price ← oracleGetPrice env w oracle config.oracleAsset none
        let value ← mulPrecision amount price.price
        return some { asset, amount, value, haircutBps := config.haircutBps }

def collateralEntries (env : Env) (w : World) (user : Address) :
    List Address → Res (List CollateralBalance)
  | [] => .ok []
  | asset :: rest => do
    let entry ← collateralEntry env w user asset
    let entries ← collateralEntries env w user rest
    return entry.toList ++ entries

def accountSnapshotAllAssets (env : Env) (w : World) (user : Address) (positions : List Position) :
    Res AccountSnapshot := do
  let collateral ← collateralEntries env w user (w.vault.recordedAssets user)
  requireOwner user positions
  return { owner := user, collateral, positions }

def marketSnapshot (env : Env) (w : World) (config : MarketConfig) : Res MarketSnapshot := do
  let guard : OracleGuard := {
    maxAgeSecs := config.maxOracleAgeSecs, maxConfidenceBps := config.maxOracleConfidenceBps }
  let oracle ← oracleAddress w
  let price ← oracleGetPrice env w oracle config.baseAsset (some guard)
  return {
    config
    oraclePrice := price.price
    fundingIndexLong := w.vault.fundingLongOf config.marketId
    fundingIndexShort := w.vault.fundingShortOf config.marketId }

def loadMarketsFrom (env : Env) (w : World) (markets : Store Nat MarketSnapshot) :
    List Position → Res (Store Nat MarketSnapshot)
  | [] => .ok markets
  | position :: rest =>
    if (markets.get position.marketId).isSome then loadMarketsFrom env w markets rest
    else do
      let config ← okOr (w.vault.marketConfig.get position.marketId) .invalidConfig
      let snapshot ← marketSnapshot env w config
      loadMarketsFrom env w (markets.set config.marketId snapshot) rest

def loadMarketsForPositions (env : Env) (w : World) (positions : List Position) :
    Res (Store Nat MarketSnapshot) := loadMarketsFrom env w ∅ positions

/-- The account as health sees it: every recorded asset when the user has a list,
else the one asset asked about. -/
def accountSnapshot (env : Env) (w : World) (user asset : Address) : Res AccountSnapshot :=
  let positions := w.vault.loadPositions user
  if (w.vault.userAssets.get user).isSome then accountSnapshotAllAssets env w user positions
  else do
    let config ← w.vault.loadCollateral asset
    accountSnapshotForAsset env w user asset (w.vault.balanceOf user asset) config positions

def accountHealth (env : Env) (w : World) (user asset : Address) : Res AccountHealth := do
  let account ← accountSnapshot env w user asset
  let markets ← loadMarketsForPositions env w account.positions
  Kryon.accountHealth account markets

/-! ## Deposits and withdrawals -/

def deposit (env : Env) (user asset : Address) (amount : Int) : Tx Int := do
  readWith fun w => requireNotPaused w.vault
  requireAuth env user
  reject (amount ≤ 0) .invalidAmount
  let config ← readWith fun w => w.vault.loadCollateral asset
  reject (config.active = false) .assetDisabled
  let w ← get
  let nextTotal ← checkedAdd (w.vault.totalDepositedOf asset) amount
  reject (∃ cap ∈ w.vault.depositCap.get asset, nextTotal > cap) .depositCapExceeded
  tokenTransfer env asset user w.deployed.vault amount
  store fun s => { s with totalDeposited := s.totalDeposited.set asset nextTotal }
  let newBalance ← increaseBalance user asset amount
  recordUserAsset user asset
  return newBalance

def withdraw (env : Env) (user asset : Address) (amount : Int) : Tx AccountHealth := do
  readWith fun w => requireNotPaused w.vault
  requireAuth env user
  reject (amount ≤ 0) .invalidAmount
  let config ← readWith fun w => w.vault.loadCollateral asset
  reject (config.active = false) .assetDisabled
  let w ← get
  reject (w.vault.balanceOf user asset < amount) .insufficientCollateral
  let account ← accountSnapshot env w user asset
  let markets ← loadMarketsForPositions env w account.positions
  let price ← collateralPrice env w asset
  let withdrawalValue ← mulPrecision amount price.price
  let health ← validateWithdrawal account markets withdrawalValue
  let _ ← decreaseBalance user asset amount
  let total ← toI128OrTrap (w.vault.totalDepositedOf asset - amount)
  store fun s => { s with totalDeposited := s.totalDeposited.set asset (max 0 total) }
  tokenTransfer env asset w.deployed.vault user amount
  return health

/-! ## Engine-only writes -/

def setFundingIndexes (env : Env) (marketId : Nat) (fundingIndexLong fundingIndexShort : Int) :
    Tx Unit := do
  let _ ← readWith fun w => requireEngine env w.vault
  store fun s => { s with
    fundingLong := s.fundingLong.set marketId fundingIndexLong
    fundingShort := s.fundingShort.set marketId fundingIndexShort }

def syncPositions (env : Env) (user : Address) (positions : List Position) : Tx Unit := do
  let _ ← readWith fun w => requireEngine env w.vault
  requireOwner user positions
  store fun s => { s with positions := s.positions.set user positions }

def applyPnl (env : Env) (user asset : Address) (pnl : Int) : Tx Int := do
  let _ ← readWith fun w => requireEngine env w.vault
  readWith fun w => requireNotPaused w.vault
  if pnl ≥ 0 then
    increaseBalance user asset pnl
  else do
    let loss ← checkedSub 0 pnl
    decreaseBalance user asset loss

/-! ## Configuration and migration -/

def setCollateral (env : Env) (asset : Address) (oracleAsset : Symbol) (haircutBps : Nat)
    (active : Bool) : Tx Unit := do
  let _ ← readWith fun w => requireAdmin env w.vault
  reject (haircutBps > 10000) .invalidConfig
  store fun s => { s with collateral := s.collateral.set { asset, oracleAsset, haircutBps, active } }

def validateMarketConfig (config : MarketConfig) : Res Unit := do
  reject (config.marketId = 0 ∨ config.initialMarginBps = 0 ∨ config.maintenanceMarginBps = 0 ∨
    config.maintenanceMarginBps > config.initialMarginBps ∨ config.maxLeverageBps = 0 ∨
    config.maxOracleAgeSecs = 0 ∨ config.maxOracleConfidenceBps > 10000 ∨
    config.maxOpenInterest ≤ 0) .invalidConfig
  let implied ← impliedMaxLeverageBps config.initialMarginBps
  reject (config.maxLeverageBps > implied) .invalidConfig

def setMarketConfig (env : Env) (config : MarketConfig) : Tx Unit := do
  let _ ← readWith fun w => requireAdmin env w.vault
  validateMarketConfig config
  store fun s => { s with marketConfig := s.marketConfig.set config }

/-- One entry of a balance import, with the number of entries imported so far. -/
def importBalance (entry : MigratedBalance) (imported : Nat) : Tx Nat :=
  if entry.amount = 0 then
    return imported
  else do
    let _ ← increaseBalance entry.user entry.asset entry.amount
    recordUserAsset entry.user entry.asset
    let total ← readWith fun w =>
      checkedAdd (w.vault.totalDepositedOf entry.asset) entry.amount
    store fun s => { s with totalDeposited := s.totalDeposited.set entry.asset total }
    toU32OrTrap (imported + 1)

def importBalances (imported : Nat) : List MigratedBalance → Tx Nat
  | [] => return imported
  | entry :: rest => do
    let imported ← importBalance entry imported
    importBalances imported rest

def migrateImportBalances (env : Env) (entries : List MigratedBalance) : Tx Nat := do
  let _ ← readWith fun w => requireAdmin env w.vault
  let w ← get
  reject (w.vault.migrationSealed = true) .alreadyInitialized
  importBalances 0 entries

/-! ## Seizure and bad debt -/

def maxSeizeScan : Nat := 16

/-- Insert behind every asset whose haircut is at most this one's. -/
def insertByHaircut (asset : Address) (haircutBps : Nat) :
    List (Address × Nat) → List (Address × Nat)
  | [] => [(asset, haircutBps)]
  | (other, h) :: rest =>
    if h > haircutBps then (asset, haircutBps) :: (other, h) :: rest
    else (other, h) :: insertByHaircut asset haircutBps rest

def seizureOrderFrom (s : VaultStorage) (deficitAsset : Address) (ordered : List (Address × Nat)) :
    List Address → List (Address × Nat)
  | [] => ordered
  | asset :: rest =>
    if asset = deficitAsset then seizureOrderFrom s deficitAsset ordered rest
    else match s.collateral.get asset with
      | none => seizureOrderFrom s deficitAsset ordered rest
      | some config =>
        if config.active = false then seizureOrderFrom s deficitAsset ordered rest
        else seizureOrderFrom s deficitAsset (insertByHaircut asset config.haircutBps ordered) rest

def seizureOrder (s : VaultStorage) (user deficitAsset : Address) : List Address :=
  (seizureOrderFrom s deficitAsset [] ((s.recordedAssets user).take maxSeizeScan)).map Prod.fst

/-- The running totals of a seizure: credit so far and value still owed. -/
structure SeizeTotals where
  credited : Int
  remainingValue : Int
  deriving DecidableEq, Repr

def seizeAmount (amount netValue remainingValue : Int) : Res Int :=
  if netValue ≤ remainingValue then .ok amount else mulDiv amount remainingValue netValue

/-- One asset of the seizure loop. -/
def seizeAsset (env : Env) (user oracle : Address) (deficitPrice : Int) (totals : SeizeTotals)
    (asset : Address) : Tx SeizeTotals := do
  let w ← get
  let amount := w.vault.balanceOf user asset
  if amount ≤ 0 then
    return totals
  else match w.vault.collateral.get asset with
    | none => return totals
    | some config => do
      let price ← oracleGetPrice env w oracle config.oracleAsset none
      let grossValue ← mulPrecision amount price.price
      let netValue ← collateralValueAfterHaircut grossValue config.haircutBps
      if netValue ≤ 0 then
        return totals
      else do
        let seized ← seizeAmount amount netValue totals.remainingValue
        if seized ≤ 0 then
          return totals
        else do
          -- valued again from the rounded amount, so the credit never exceeds what was taken
          let grossSeized ← mulPrecision seized price.price
          let seizedValue ← collateralValueAfterHaircut grossSeized config.haircutBps
          let credit ← divPrecision seizedValue deficitPrice
          if credit ≤ 0 then
            return totals
          else do
            let _ ← decreaseBalance user asset seized
            let credited ← checkedAdd totals.credited credit
            let remainingValue ← checkedSub totals.remainingValue seizedValue
            return { credited, remainingValue }

def seizeAssets (env : Env) (user oracle : Address) (deficitPrice : Int) (totals : SeizeTotals) :
    List Address → Tx SeizeTotals
  | [] => return totals
  | asset :: rest =>
    if totals.remainingValue ≤ 0 then
      return totals
    else do
      let totals ← seizeAsset env user oracle deficitPrice totals asset
      seizeAssets env user oracle deficitPrice totals rest

def publish (event : CollateralSeized) : Tx Unit :=
  modify fun w => { w with events := w.events ++ [event] }

def seizeForDeficitInner (env : Env) (user deficitAsset : Address) : Tx Int := do
  let w ← get
  let balance := w.vault.balanceOf user deficitAsset
  if balance ≥ 0 then
    return 0
  else do
    let deficitAmount ← checkedSub 0 balance
    let price ← collateralPrice env w deficitAsset
    reject (price.price ≤ 0) .invalidPrice
    let remainingValue ← mulPrecision deficitAmount price.price
    let oracle ← oracleAddress w
    let totals ← seizeAssets env user oracle price.price { credited := 0, remainingValue }
      (seizureOrder w.vault user deficitAsset)
    creditPositive user deficitAsset totals.credited
    publish {
      user, deficitAsset, credited := totals.credited
      uncoveredValue := max totals.remainingValue 0 }
    return totals.credited

def seizeForDeficit (env : Env) (user deficitAsset : Address) : Tx Int := do
  let _ ← readWith fun w => requireLiquidation env w.vault
  seizeForDeficitInner env user deficitAsset

def requireOperatorOrUser (env : Env) (s : VaultStorage) (caller user : Address) : Res Unit := do
  requireAuth env caller
  if caller ≠ user then do
    let operator ← okOr s.operator .invalidConfig
    reject (caller ≠ operator) .unauthorized
  else
    return ()

def settleDeficit (env : Env) (caller user asset : Address) : Tx Int := do
  readWith fun w => requireOperatorOrUser env w.vault caller user
  readWith fun w => requireNotPaused w.vault
  seizeForDeficitInner env user asset

def insuranceAddress (w : World) : Res Address := okOr w.vault.insurance .invalidConfig

def insuranceCoverDeficit (env : Env) (asset : Address) (amount : Int) : Tx Int := do
  let insurance ← readWith insuranceAddress
  let w ← get
  invoke insurance w.deployed.insurance
    (Insurance.coverDeficit (env.callFrom w.deployed.vault) asset amount)

def insuranceRecordBadDebt (env : Env) (asset : Address) (amount : Int) : Tx Int := do
  let insurance ← readWith insuranceAddress
  let w ← get
  invoke insurance w.deployed.insurance
    (Insurance.recordBadDebt (env.callFrom w.deployed.vault) asset amount)

def recordUncovered (env : Env) (asset : Address) (remaining : Int) : Tx Unit :=
  if remaining > 0 then do
    let _ ← insuranceRecordBadDebt env asset remaining
  else
    return ()

/-- The draw on insurance for a deficit, and the record of what it leaves uncovered. -/
def coverAndRecord (env : Env) (user asset : Address) (deficit : Int) : Tx Int := do
  let covered ← insuranceCoverDeficit env asset deficit
  creditPositive user asset covered
  let remaining ← checkedSub deficit covered
  recordUncovered env asset remaining
  return covered

def absorbBadDebt (env : Env) (user asset : Address) : Tx Int := do
  let _ ← readWith fun w => requireLiquidation env w.vault
  let w ← get
  let balance := w.vault.balanceOf user asset
  if balance ≥ 0 then
    return 0
  else do
    let deficit ← checkedSub 0 balance
    coverAndRecord env user asset deficit

end Vault
end Kryon

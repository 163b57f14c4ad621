import Kryon.Engine

/-! # Liquidation and auto-deleveraging (`perp-liquidation`) -/
namespace Kryon

structure LiquidationReceipt where
  user : Address
  liquidator : Address
  positionId : Nat
  closeSize : Int
  realizedPnl : Int
  reward : Int
  healthBefore : AccountHealth
  healthAfter : AccountHealth
  deriving DecidableEq, Repr

structure AdlReceipt where
  counterparty : Address
  keeper : Address
  positionId : Nat
  closeSize : Int
  realizedPnl : Int
  badDebtBefore : Int
  badDebtAfter : Int
  deriving DecidableEq, Repr

namespace Liquidation
open Transaction

def engineAddress (w : World) : Res Address := okOr w.liquidation.engine .invalidConfig

def vaultAddress (w : World) : Res Address := okOr w.liquidation.vault .invalidConfig

def insuranceAddress (w : World) : Res Address := okOr w.liquidation.insurance .invalidConfig

def settlementAsset (w : World) : Res Address := okOr w.liquidation.settlementAsset .invalidConfig

def vaultHealth (env : Env) (w : World) (user : Address) : Res AccountHealth := do
  let vault ← vaultAddress w
  let asset ← settlementAsset w
  reach vault w.deployed.vault
  Vault.accountHealth (env.callFrom w.deployed.liquidation) w user asset

def liquidationReward (w : World) (closeSize executionPrice : Int) : Res Int := do
  let n ← mulPrecision closeSize executionPrice
  let maxRewardBps ← okOr w.liquidation.maxRewardBps .invalidConfig
  applyBps n maxRewardBps

def callEngine {α : Type} (env : Env) (call : Env → Tx α) : Tx α := do
  let engine ← readWith engineAddress
  let w ← get
  invoke engine w.deployed.engine (call (env.callFrom w.deployed.liquidation))

def callVault {α : Type} (env : Env) (call : Env → Tx α) : Tx α := do
  let vault ← readWith vaultAddress
  let w ← get
  invoke vault w.deployed.vault (call (env.callFrom w.deployed.liquidation))

def callInsurance {α : Type} (env : Env) (call : Env → Tx α) : Tx α := do
  let insurance ← readWith insuranceAddress
  let w ← get
  invoke insurance w.deployed.insurance (call (env.callFrom w.deployed.liquidation))

def engineLiquidateReduce (env : Env) (user : Address) (positionId : Nat)
    (closeSize executionPrice : Int) : Tx TradeResult :=
  callEngine env fun env => Engine.liquidateReduce env user positionId closeSize executionPrice

def engineFindPosition (w : World) (user : Address) (positionId : Nat) : Res Position := do
  let engine ← engineAddress w
  reach engine w.deployed.engine
  okOr ((w.engine.loadPositions user).find? fun p => p.positionId = positionId) .positionNotFound

def insurancePayLiquidator (env : Env) (liquidator asset : Address) (amount : Int) : Tx Int :=
  callInsurance env fun env => Insurance.payLiquidator env liquidator asset amount

def insuranceBadDebtOf (w : World) (asset : Address) : Res Int := do
  let insurance ← insuranceAddress w
  reach insurance w.deployed.insurance
  return w.insurance.badDebtOf asset

def insuranceReduceBadDebt (env : Env) (asset : Address) (amount : Int) : Tx Int :=
  callInsurance env fun env => Insurance.reduceBadDebt env asset amount

def vaultSeizeForDeficit (env : Env) (user asset : Address) : Tx Int :=
  callVault env fun env => Vault.seizeForDeficit env user asset

def vaultAbsorbBadDebt (env : Env) (user asset : Address) : Tx Int :=
  callVault env fun env => Vault.absorbBadDebt env user asset

/-- Whether a liquidation left the account better off: its ratio while it is
solvent on both sides of the trade, else its maintenance requirement. -/
def improved (before after : AccountHealth) : Prop :=
  if before.equity > 0 ∧ after.equity > 0 then after.marginRatio > before.marginRatio
  else after.maintenanceMarginRequired < before.maintenanceMarginRequired

instance (before after : AccountHealth) : Decidable (improved before after) :=
  inferInstanceAs (Decidable (if before.equity > 0 ∧ after.equity > 0 then
    after.marginRatio > before.marginRatio
    else after.maintenanceMarginRequired < before.maintenanceMarginRequired))

def payReward (env : Env) (liquidator asset : Address) (reward : Int) : Tx Unit :=
  if reward > 0 then do
    let _ ← insurancePayLiquidator env liquidator asset reward
  else
    return ()

def absorbUnderwater (env : Env) (user asset : Address) (healthAfter : AccountHealth) : Tx Unit :=
  if healthAfter.equity < 0 then do
    let _ ← vaultAbsorbBadDebt env user asset
  else
    return ()

def liquidate (env : Env) (liquidator user : Address) (positionId : Nat)
    (closeSize executionPrice : Int) : Tx LiquidationReceipt := do
  requireAuth env liquidator
  reject (liquidator = user) .unauthorized
  reject (closeSize ≤ 0 ∨ executionPrice ≤ 0) .invalidAmount
  let asset ← readWith settlementAsset
  let healthBefore ← readWith fun w => vaultHealth env w user
  reject (healthBefore.liquidatable = false) .notLiquidatable
  let trade ← engineLiquidateReduce env user positionId closeSize executionPrice
  let healthAfter ← readWith fun w => vaultHealth env w user
  reject (¬ improved healthBefore healthAfter) .liquidationWouldNotImproveHealth
  let reward ← readWith fun w => liquidationReward w closeSize executionPrice
  payReward env liquidator asset reward
  -- the account's own collateral first, insurance only for what it cannot cover
  let _ ← vaultSeizeForDeficit env user asset
  absorbUnderwater env user asset healthAfter
  return {
    user, liquidator, positionId, closeSize, realizedPnl := trade.realizedPnl, reward
    healthBefore, healthAfter }

def offsetBadDebt (env : Env) (asset : Address) (offset badDebtBefore : Int) : Tx Int :=
  if offset > 0 then insuranceReduceBadDebt env asset offset else return badDebtBefore

def adl (env : Env) (keeper counterparty : Address) (positionId : Nat)
    (closeSize executionPrice : Int) : Tx AdlReceipt := do
  requireAuth env keeper
  reject (closeSize ≤ 0 ∨ executionPrice ≤ 0) .invalidAmount
  let asset ← readWith settlementAsset
  let badDebtBefore ← readWith fun w => insuranceBadDebtOf w asset
  reject (badDebtBefore ≤ 0) .noBadDebtToOffset
  let position ← readWith fun w => engineFindPosition w counterparty positionId
  let unrealizedPnl ← signedPositionPnl position executionPrice
  reject (unrealizedPnl ≤ 0) .positionNotInProfit
  let maxSizeForBadDebt ← mulDiv badDebtBefore position.size unrealizedPnl
  let effectiveCloseSize := min (min closeSize position.size) maxSizeForBadDebt
  reject (effectiveCloseSize ≤ 0) .noBadDebtToOffset
  let trade ← engineLiquidateReduce env counterparty positionId effectiveCloseSize executionPrice
  let offset := min (max trade.realizedPnl 0) badDebtBefore
  let badDebtAfter ← offsetBadDebt env asset offset badDebtBefore
  return {
    counterparty, keeper, positionId, closeSize := effectiveCloseSize
    realizedPnl := trade.realizedPnl, badDebtBefore, badDebtAfter }

end Liquidation
end Kryon

import Kryon.World

/-! # The insurance fund (`perp-insurance`) -/
namespace Kryon

namespace InsuranceStorage

variable (s : InsuranceStorage)

def balanceOf (asset : Address) : Int := (s.balance.get asset).getD 0

def badDebtOf (asset : Address) : Int := (s.badDebt.get asset).getD 0

def stakedBalanceOf (asset : Address) : Int := (s.stakedBalance.get asset).getD 0

def epochOf (asset : Address) : Nat := (s.epoch.get asset).getD 0

def totalSharesOf (asset : Address) : Int := (s.totalShares.get asset).getD 0

/-- Shares stamped with another epoch count for nothing. -/
def sharesOf (asset staker : Address) : Int :=
  (((s.shares.get (asset, staker)).filter fun b => b.epoch = s.epochOf asset).map
    ShareBalance.shares).getD 0

end InsuranceStorage

namespace Insurance
open Transaction

def unstakeCooldownSecs : Nat := 604800

def requireAdmin (env : Env) (s : InsuranceStorage) : Res Address := do
  let admin ← okOr s.admin .invalidConfig
  requireAuth env admin
  return admin

def requireLiquidation (env : Env) (s : InsuranceStorage) : Res Address := do
  let liquidation ← okOr s.liquidation .invalidConfig
  requireAuth env liquidation
  return liquidation

def requireVault (env : Env) (s : InsuranceStorage) : Res Address := do
  let vault ← okOr s.vault .invalidConfig
  requireAuth env vault
  return vault

/-- Write this contract's own storage. -/
def store (f : InsuranceStorage → InsuranceStorage) : Tx Unit :=
  modify fun w => { w with insurance := f w.insurance }

def increaseBalance (asset : Address) (amount : Int) : Tx Int := do
  let next ← readWith fun w => checkedAdd (w.insurance.balanceOf asset) amount
  store fun s => { s with balance := s.balance.set asset next }
  return next

def decreaseBalance (asset : Address) (amount : Int) : Tx Int := do
  let next ← readWith fun w => checkedSub (w.insurance.balanceOf asset) amount
  store fun s => { s with balance := s.balance.set asset next }
  return next

def increaseStakedBalance (asset : Address) (amount : Int) : Tx Int := do
  let next ← readWith fun w => checkedAdd (w.insurance.stakedBalanceOf asset) amount
  store fun s => { s with stakedBalance := s.stakedBalance.set asset next }
  return next

def decreaseStakedBalance (asset : Address) (amount : Int) : Tx Int := do
  let next ← readWith fun w => checkedSub (w.insurance.stakedBalanceOf asset) amount
  store fun s => { s with stakedBalance := s.stakedBalance.set asset next }
  return next

def deposit (env : Env) (funder asset : Address) (amount : Int) : Tx Int := do
  requireAuth env funder
  reject (amount ≤ 0) .invalidAmount
  let w ← get
  tokenTransfer env asset funder w.deployed.insurance amount
  increaseBalance asset amount

def payLiquidator (env : Env) (liquidator asset : Address) (amount : Int) : Tx Int := do
  let _ ← readWith fun w => requireLiquidation env w.insurance
  reject (amount ≤ 0) .invalidAmount
  let w ← get
  reject (w.insurance.balanceOf asset < amount) .insuranceFundInsufficient
  let next ← decreaseBalance asset amount
  tokenTransfer env asset w.deployed.insurance liquidator amount
  return next

/-- Send up to `amount` of `asset` to the vault, capped by the fund's balance. -/
def coverDeficit (env : Env) (asset : Address) (amount : Int) : Tx Int := do
  let vault ← readWith fun w => requireVault env w.insurance
  reject (amount ≤ 0) .invalidAmount
  let w ← get
  let balance := w.insurance.balanceOf asset
  let covered := if balance < amount then balance else amount
  if covered ≤ 0 then
    return 0
  else do
    let _ ← decreaseBalance asset covered
    tokenTransfer env asset w.deployed.insurance vault covered
    return covered

def recordBadDebt (env : Env) (asset : Address) (amount : Int) : Tx Int := do
  let _ ← readWith fun w => requireVault env w.insurance
  reject (amount ≤ 0) .invalidAmount
  let next ← readWith fun w => checkedAdd (w.insurance.badDebtOf asset) amount
  store fun s => { s with badDebt := s.badDebt.set asset next }
  return next

def reduceBadDebt (env : Env) (asset : Address) (amount : Int) : Tx Int := do
  let _ ← readWith fun w => requireLiquidation env w.insurance
  reject (amount ≤ 0) .invalidAmount
  let diff ← readWith fun w => checkedSub (w.insurance.badDebtOf asset) amount
  let next := max 0 diff
  store fun s => { s with badDebt := s.badDebt.set asset next }
  return next

/-- Shares minted for `amount`: one for one into an empty pool, else at the pool's price. -/
def mintedShares (amount totalShares navBefore : Int) : Res Int :=
  if totalShares ≤ 0 ∨ navBefore ≤ 0 then .ok amount else mulDiv amount totalShares navBefore

def stake (env : Env) (staker asset : Address) (amount : Int) : Tx Int := do
  requireAuth env staker
  reject (amount ≤ 0) .invalidAmount
  let w ← get
  let navBefore := w.insurance.stakedBalanceOf asset
  let totalShares := w.insurance.totalSharesOf asset
  tokenTransfer env asset staker w.deployed.insurance amount
  let _ ← increaseStakedBalance asset amount
  let minted ← mintedShares amount totalShares navBefore
  let nextShares ← readWith fun w => checkedAdd (w.insurance.sharesOf asset staker) minted
  store fun s => { s with
    shares := s.shares.set (asset, staker) { epoch := s.epochOf asset, shares := nextShares } }
  let nextTotal ← checkedAdd totalShares minted
  store fun s => { s with totalShares := s.totalShares.set asset nextTotal }
  return minted

def requestUnstake (env : Env) (staker asset : Address) (shares : Int) : Tx Nat := do
  requireAuth env staker
  reject (shares ≤ 0) .invalidAmount
  let w ← get
  reject (shares > w.insurance.sharesOf asset staker) .insufficientCollateral
  reject ((w.insurance.pendingUnstake.get (asset, staker)).isSome = true) .invalidConfig
  let unlockTime ← toU64OrTrap (env.timestamp + unstakeCooldownSecs)
  store fun s => { s with
    pendingUnstake := s.pendingUnstake.set (asset, staker)
      { shares, unlockTime, epoch := s.epochOf asset } }
  return unlockTime

def redemptionValue (shares nav totalShares : Int) : Res Int :=
  if totalShares ≤ 0 then .ok 0
  else do
    let claim ← mulDiv shares nav totalShares
    return min claim nav

def payUnstaker (env : Env) (staker asset : Address) (payout : Int) : Tx Unit :=
  if payout > 0 then do
    let w ← get
    let _ ← decreaseStakedBalance asset payout
    tokenTransfer env asset w.deployed.insurance staker payout
  else
    return ()

/-- Burn `request.shares` of the staker and of the total, dropping an entry that reaches zero. -/
def burnShares (staker asset : Address) (request : PendingUnstakeRequest) (totalShares : Int) :
    Tx Unit := do
  let remainingShares ← readWith fun w =>
    checkedSub (w.insurance.sharesOf asset staker) request.shares
  store fun s => { s with
    shares := if remainingShares ≤ 0 then s.shares.remove (asset, staker)
      else s.shares.set (asset, staker) { epoch := request.epoch, shares := remainingShares } }
  let remainingTotal ← checkedSub totalShares request.shares
  store fun s => { s with
    totalShares := if remainingTotal ≤ 0 then s.totalShares.remove asset
      else s.totalShares.set asset remainingTotal }

def withdrawUnstaked (env : Env) (staker asset : Address) : Tx Int := do
  requireAuth env staker
  let w ← get
  let request ← okOr (w.insurance.pendingUnstake.get (asset, staker)) .invalidConfig
  reject (env.timestamp < request.unlockTime) .invalidConfig
  -- a request that outlived its epoch redeems shares a loss already wrote off
  if request.epoch ≠ w.insurance.epochOf asset then do
    store fun s => { s with
      shares := s.shares.remove (asset, staker)
      pendingUnstake := s.pendingUnstake.remove (asset, staker) }
    return 0
  else do
    let totalShares := w.insurance.totalSharesOf asset
    let nav := w.insurance.stakedBalanceOf asset
    let payout ← redemptionValue request.shares nav totalShares
    payUnstaker env staker asset payout
    burnShares staker asset request totalShares
    store fun s => { s with pendingUnstake := s.pendingUnstake.remove (asset, staker) }
    return payout

/-- Zero value with shares still outstanding means the shares have no claim left. -/
def retireSharesIfWiped (asset : Address) : Tx Unit := do
  let w ← get
  if w.insurance.stakedBalanceOf asset > 0 ∨ w.insurance.totalSharesOf asset ≤ 0 then
    return ()
  else do
    let epoch := w.insurance.epochOf asset
    -- `u32::checked_add`
    reject (epoch + 1 > u32Max) .mathOverflow
    store fun s => { s with
      epoch := s.epoch.set asset (epoch + 1)
      totalShares := s.totalShares.remove asset }

def sweepToOperating (env : Env) (asset : Address) (amount : Int) : Tx Int := do
  let _ ← readWith fun w => requireAdmin env w.insurance
  reject (amount ≤ 0) .invalidAmount
  let w ← get
  let available := w.insurance.stakedBalanceOf asset
  let swept := if available < amount then available else amount
  if swept ≤ 0 then
    return 0
  else do
    let _ ← decreaseStakedBalance asset swept
    let _ ← increaseBalance asset swept
    retireSharesIfWiped asset
    return swept

end Insurance
end Kryon

import Kryon.Liquidation.Solvency

/-! # What liquidations of an account pay

The reward of a liquidation is a share of the notional it closes and comes out of the insurance
fund. What the account is worth does not enter into it: over a series of liquidations the fund
pays the shares of what was closed, whatever equity there was before the first. -/
namespace Kryon
open Transaction Runs

/-- What happens while an account is liquidated: a liquidation of it, with the receipt, or
anything that leaves the account alone. -/
inductive Episode where
  | liquidation (env : Env) (liquidator : Address) (positionId : Nat) (closeSize executionPrice : Int)
      (receipt : LiquidationReceipt)
  | elsewhere

namespace Episode

def Step (user : Address) (w : World) (e : Episode) (w' : World) : Prop := match e with
  | .liquidation env liquidator positionId closeSize price receipt =>
    Returns (Liquidation.liquidate env liquidator user positionId closeSize price) w receipt w'
  | .elsewhere => SameAccount w w' user ∧ w'.engine.loadPositions user = w.engine.loadPositions user

def reward : Episode → Int
  | .liquidation _ _ _ _ _ receipt => receipt.reward
  | .elsewhere => 0

/-- The configured share of the notional that is closed, each of the two rounded down. -/
def share (w : World) : Episode → Int
  | .liquidation _ _ _ closeSize price _ =>
    closeSize * price / precision * w.liquidation.maxRewardBps.getD 0 / 10000
  | .elsewhere => 0

end Episode

/-- The shares of what the series closed, at the rate in force at each liquidation. -/
def sharesOf : World → List (Episode × World) → Int
  | _, [] => 0
  | w, (e, w') :: t => e.share w + sharesOf w' t

namespace Liquidation

variable {env : Env} {w w' : World} {liquidator user asset : Address} {positionId : Nat}
  {closeSize price reward : Int} {r : LiquidationReceipt}

theorem liquidationReward_share (hsize : 0 < closeSize) (hprice : 0 < price)
    (h : liquidationReward w closeSize price = .ok reward) :
    reward = closeSize * price / precision * w.liquidation.maxRewardBps.getD 0 / 10000 := by
  simp only [liquidationReward, except_bind_ok, mulPrecision_ok, okOr_ok, applyBps_ok] at h
  obtain ⟨_, ⟨_, rfl⟩, bps, hbps, _, _, rfl⟩ := h
  have hnotional : (closeSize * price).tdiv precision = closeSize * price / precision :=
    Int.tdiv_eq_ediv_of_nonneg (mul_nonneg hsize.le hprice.le)
  have hclosed : 0 ≤ closeSize * price / precision :=
    Int.ediv_nonneg (mul_nonneg hsize.le hprice.le) precision_pos.le
  rw [hnotional, hbps, Option.getD_some, Int.tdiv_eq_ediv_of_nonneg (by positivity)]

theorem liquidationReward_nonneg (hsize : 0 < closeSize) (hprice : 0 < price)
    (h : liquidationReward w closeSize price = .ok reward) : 0 ≤ reward := by
  have hclosed : 0 ≤ closeSize * price / precision :=
    Int.ediv_nonneg (mul_nonneg hsize.le hprice.le) precision_pos.le
  rw [liquidationReward_share hsize hprice h]
  exact Int.ediv_nonneg (mul_nonneg hclosed (Int.natCast_nonneg _)) (by decide)

end Liquidation

namespace Sample

/-- The strained account where liquidators earn half a per cent of a funded insurance. -/
def bounty (price : Int) : World :=
  { strained price with
    insurance := { (strained price).insurance with
      balance := (strained price).insurance.balance.set usdc (1000 * precision) }
    liquidation := { (strained price).liquidation with maxRewardBps := some 50 } }

end Sample

open Sample

end Kryon

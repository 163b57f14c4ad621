import Kryon.Lib.Truncation
import Kryon.Liquidation.Solvency

/-! # What auto-deleveraging pays out

`adl` sizes the close by dividing the recorded bad debt by the pnl of the whole position,
and the engine truncates once more when it realises the part. Neither rounding lets the
payout pass the shortfall, so the two clamps on the way never bind. -/
namespace Kryon
open Transaction Runs

namespace Liquidation

variable {env : Env} {w w' : World} {keeper counterparty asset : Address} {positionId : Nat}
  {closeSize price amount : Int} {position : Position}

/-! ## The position that is closed -/

theorem engineFindPosition_ok (h : engineFindPosition w counterparty positionId = .ok position) :
    (w.engine.loadPositions counterparty).find? (fun p => p.positionId = positionId) =
      some position := by
  simp only [engineFindPosition, except_bind_ok, okOr_ok] at h
  obtain ⟨_, _, _, _, hfind⟩ := h
  exact hfind

/-- `adl` and the engine find the same position. -/
theorem findPosition_find? {positions : List Position} {index : Nat}
    (h : Engine.findPosition positions positionId = .ok (index, position)) :
    positions.find? (fun p => p.positionId = positionId) = some position := by
  simp only [Engine.findPosition, Engine.findPositionIndex, except_bind_ok, okOr_ok, except_pure_ok,
    Prod.mk.injEq] at h
  obtain ⟨i, hi, p, hp, rfl, rfl⟩ := h
  obtain ⟨hlt, hid, hfirst⟩ := List.findIdx?_eq_some_iff_getElem.mp hi
  obtain ⟨_, hget⟩ := List.getElem?_eq_some_iff.mp hp
  rw [hget] at hid
  refine List.find?_eq_some_iff_getElem.mpr ⟨hid, i, hlt, hget, fun j hj => ?_⟩
  simpa using hfirst j hj

/-! ## The size of the close -/

/-- A close sized by the bad debt makes something, and no more than the bad debt. -/
theorem pnlAt_within {size badDebt unrealized limit : Int} (hpos : 0 < size)
    (hwhole : size ≤ position.size)
    (hpnl : signedPositionPnl position price = .ok unrealized) (hprofit : 0 < unrealized)
    (hdebt : 0 < badDebt) (hlimit : mulDiv badDebt position.size unrealized = .ok limit)
    (hsized : size ≤ limit) :
    0 ≤ { position with size }.pnlAt price ∧ { position with size }.pnlAt price ≤ badDebt := by
  have hgain : 0 < position.unitGain price := by
    have hpnl := signedPositionPnl_ok hpnl
    by_contra hlost
    have hproduct : position.size * position.unitGain price ≤ 0 :=
      mul_nonpos_of_nonneg_of_nonpos (by omega) (not_lt.mp hlost)
    have hnonpos := Truncation.tdiv_nonpos hproduct precision_pos
    have : position.pnlAt price = (position.size * position.unitGain price).tdiv precision := rfl
    omega
  have hunrealized : unrealized = position.size * position.unitGain price / precision := by
    rw [signedPositionPnl_ok hpnl]
    exact Int.tdiv_eq_ediv_of_nonneg (mul_nonneg (by omega) hgain.le)
  obtain ⟨_, _, rfl⟩ := mulDiv_ok.mp hlimit
  rw [Int.tdiv_eq_ediv_of_nonneg (mul_nonneg hdebt.le (by omega))] at hsized
  rw [Position.pnlAt_sized, Int.tdiv_eq_ediv_of_nonneg (mul_nonneg hpos.le hgain.le)]
  refine ⟨Int.ediv_nonneg (mul_nonneg hpos.le hgain.le) precision_pos.le, ?_⟩
  refine Truncation.part_ediv_le precision_pos hgain.le hwhole (hunrealized ▸ hprofit) hdebt.le ?_
  rw [← hunrealized]
  exact (Int.le_ediv_iff_mul_le hprofit).mp hsized

/-! ## The call -/

/-- Bad debt is offset in one asset, down to nothing at the least. -/
theorem offsetBadDebt_effect {offset before after : Int} (hoffset : 0 ≤ offset)
    (hbefore : before = w.insurance.badDebtOf asset) (hle : offset ≤ before)
    (h : Returns (offsetBadDebt env asset offset before) w after w') :
    after = before - offset ∧ w'.vault = w.vault ∧ w'.engine = w.engine ∧
      ∀ a, w'.insurance.badDebtOf a = if a = asset then after else w.insurance.badDebtOf a := by
  rcases returns_ite.mp h with ⟨_, hreduce⟩ | ⟨hnone, hkeep⟩
  · obtain ⟨rfl, rfl⟩ := Insurance.reduceBadDebt_effect (callInsurance_returns.mp hreduce).2
    refine ⟨by rw [← hbefore]; omega, rfl, rfl, fun a => ?_⟩
    exact InsuranceStorage.badDebtOf_setBadDebt
  · obtain ⟨rfl, rfl⟩ := returns_pure.mp hkeep
    refine ⟨by omega, rfl, rfl, fun a => ?_⟩
    by_cases ha : a = asset
    · rw [if_pos ha, ha, hbefore]
    · rw [if_neg ha]

/-- An adl step by step: the close it sizes, the trade and the bad debt it offsets. -/
theorem adl_steps {r : AdlReceipt}
    (h : Returns (adl env keeper counterparty positionId closeSize price) w r w') :
    ∃ asset position unrealized limit trade v, w.liquidation.settlementAsset = some asset ∧
      r.badDebtBefore = w.insurance.badDebtOf asset ∧ 0 < r.badDebtBefore ∧
      engineFindPosition w counterparty positionId = .ok position ∧
      signedPositionPnl position price = .ok unrealized ∧ 0 < unrealized ∧
      mulDiv r.badDebtBefore position.size unrealized = .ok limit ∧
      r.closeSize = min (min closeSize position.size) limit ∧ 0 < r.closeSize ∧
      Returns (engineLiquidateReduce env counterparty positionId r.closeSize price) w trade v ∧
      r.realizedPnl = trade.realizedPnl ∧
      Returns (offsetBadDebt env asset (min (max r.realizedPnl 0) r.badDebtBefore) r.badDebtBefore) v
        r.badDebtAfter w' := by
  simp only [adl, returns_lift_bind, returns_readWith_bind, settlementAsset, insuranceBadDebtOf, okOr_ok,
    except_bind_ok, except_pure_ok, reject_ok] at h
  obtain ⟨_, _, _, _, asset, hs, _, ⟨_, _, _, _, rfl⟩, _, hdebt, position, hfind, unrealized, hpnl, _,
    hprofit, limit, hlimit, _, hsized, hrun⟩ := h
  obtain ⟨trade, v, hreduce, hrun⟩ := returns_bind.mp hrun
  obtain ⟨_, _, hoffset, hret⟩ := returns_bind.mp hrun
  obtain ⟨rfl, rfl⟩ := returns_pure.mp hret
  exact ⟨asset, position, unrealized, limit, trade, v, hs, rfl, not_le.mp hdebt, hfind, hpnl,
    not_le.mp hprofit, hlimit, rfl, not_le.mp hsized, hreduce, rfl, hoffset⟩

end Liquidation

open Liquidation

/-- What an adl call does with the position: the part it closes, what the part pays out to the
counterparty, and the bad debt it settles by just the gain. -/
structure AdlBounded (env : Env) (w w' : World) (counterparty : Address) (closeSize price : Int)
    (position : Position) (r : AdlReceipt) : Prop where
  size : 0 < r.closeSize ∧ r.closeSize ≤ closeSize ∧ r.closeSize ≤ position.size
  realized : r.realizedPnl = { position with size := r.closeSize }.pnlAt price
  credited : ∃ settlement, w.engine.settlementAsset = some settlement ∧ ∀ u a,
    w'.vault.balanceOf u a = if u = counterparty ∧ a = settlement then
      w.vault.balanceOf u a + cashed env w position r.closeSize price else w.vault.balanceOf u a
  payout : 0 ≤ r.realizedPnl ∧ r.realizedPnl ≤ r.badDebtBefore
  offset : r.badDebtAfter = r.badDebtBefore - r.realizedPnl ∧ 0 ≤ r.badDebtAfter
  recorded : ∃ asset, w.liquidation.settlementAsset = some asset ∧
    r.badDebtBefore = w.insurance.badDebtOf asset ∧
    ∀ a, w'.insurance.badDebtOf a = if a = asset then r.badDebtAfter else w.insurance.badDebtOf a

/-- **Deleveraging pays out no more than the shortfall.** A successful `adl` closes a positive
part of the position, at most the size asked for; the gain of the part at the execution price is
credited to the counterparty and lies between nothing and the recorded bad debt, and the bad debt
falls by exactly that gain: no clamp cuts anything off. -/
theorem adl_within_shortfall {env : Env} {w w' : World} {keeper counterparty : Address}
    {positionId : Nat} {closeSize price : Int} {r : AdlReceipt}
    (h : Returns (adl env keeper counterparty positionId closeSize price) w r w') :
    ∃ index position, Engine.findPosition (w.engine.loadPositions counterparty) positionId =
      .ok (index, position) ∧ AdlBounded env w w' counterparty closeSize price position r := by
  obtain ⟨asset, found, unrealized, limit, trade, v, hs, hbefore, hdebt, hfind, hpnl, hprofit, hlimit,
    hsize, hpos, hreduce, hreceipt, hoffset⟩ := adl_steps h
  obtain ⟨_, _, index, position, settled, realized, margin, _, _, hle, hsettled, hrealized, ht, _, _,
    hengine, _, hpnlReceipt, _⟩ := Engine.reducePositionInternal_spec
      (Engine.liquidateReduce_internal (callEngine_returns.mp hreduce).2)
  obtain rfl : found = position :=
    Option.some.inj ((engineFindPosition_ok hfind).symm.trans (findPosition_find? hengine))
  have hgain : r.realizedPnl = { found with size := r.closeSize }.pnlAt price := by
    rw [hreceipt, hpnlReceipt]
    exact realizedPnl_pnlAt hrealized
  have hpayout : 0 ≤ r.realizedPnl ∧ r.realizedPnl ≤ r.badDebtBefore := by
    rw [hgain]
    exact pnlAt_within hpos hle hpnl hprofit hdebt hlimit (by omega)
  -- the clamps on the gain let it through
  rw [show min (max r.realizedPnl 0) r.badDebtBefore = r.realizedPnl by omega] at hoffset
  obtain ⟨_, _, _, settlement, hsettlement, hbalance⟩ := ht.account
  have hfund : v.insurance = w.insurance := by
    obtain ⟨_, _, hv⟩ := ht.world
    rw [hv]
  rw [← hfund] at hbefore
  obtain ⟨hafter, hvault, _, hrecorded⟩ := offsetBadDebt_effect hpayout.1 hbefore hpayout.2 hoffset
  rw [hfund] at hbefore hrecorded
  refine ⟨index, found, hengine, ⟨hpos, by omega, by omega⟩, hgain, ⟨settlement, hsettlement, ?_⟩,
    hpayout, ⟨hafter, by omega⟩, asset, hs, hbefore, hrecorded⟩
  intro u a
  have hcash : settled + realized = cashed env w found r.closeSize price := by
    rw [fundingPnl_ok hsettled, realizedPnl_pnlAt hrealized]
    rfl
  rw [hvault, hbalance, hcash]

namespace Sample

/-- The price has risen to 103 since alice bought one unit, and the fund is short of a single one. -/
def indebtedFund : World :=
  let w := final exchange (execute AccountOp.call exchange buying)
  { w with
    oracle := prices (103 * precision) 1000
    insurance := { w.insurance with badDebt := w.insurance.badDebt.set usdc precision } }

/-- All of alice's unit asked for. -/
def deleverage : Tx AdlReceipt := adl (host 1000) keeper alice 1 precision (103 * precision)

end Sample

open Sample in
/-- A third of the unit is closed, which makes one base unit less than the shortfall. -/
theorem adl_within_shortfall_third :
    ∃ r w', Returns deleverage indebtedFund r w' ∧ r.closeSize = precision / 3 ∧
      r.realizedPnl = precision - 1 ∧ w'.insurance.badDebtOf usdc = 1 := by
  have hvalue : (deleverage.value indebtedFund).map
      (fun r => (r.closeSize, r.realizedPnl, r.badDebtBefore)) =
      some (precision / 3, precision - 1, precision) := by decide +kernel
  obtain ⟨r, hr, hfields⟩ := Option.map_eq_some_iff.mp hvalue
  obtain ⟨hclosed, hrest⟩ := Prod.mk.inj hfields
  obtain ⟨hpaid, hbefore⟩ := Prod.mk.inj hrest
  have hcall := returns_of_value hr
  obtain ⟨_, _, _, hbounded⟩ := adl_within_shortfall hcall
  obtain ⟨asset, hs, _, hrecorded⟩ := hbounded.recorded
  obtain rfl : usdc = asset := Option.some.inj hs
  refine ⟨r, _, hcall, hclosed, hpaid, ?_⟩
  rw [hrecorded, if_pos rfl, hbounded.offset.1, hpaid, hbefore]
  decide

end Kryon

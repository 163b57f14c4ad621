import Kryon.Accounts
import Kryon.Liquidation.BadDebt
import Kryon.Vault.Equity

/-! # What a liquidation does to a solvent account

`liquidate` compares margin ratios only while the account is solvent on both sides of the
trade. When the price of the trade takes more than the account is worth, the maintenance
requirements are compared instead, and they fall with the position. What the trade takes is
known before it: the funding and the pnl of the part that is closed, at their price in
settlement, against what the position had made at its mark. -/
namespace Kryon
open Transaction Runs

namespace Liquidation

variable {env : Env} {w w' : World} {liquidator user asset settlement : Address} {positionId : Nat}
  {closeSize price : Int} {position : Position}

/-! ## The price of a close -/

/-- The position once a part is closed and its funding settled. -/
def leftOpen (env : Env) (w : World) (position : Position) (closeSize : Int) : Position :=
  { position with
    size := position.size - closeSize
    lastFundingIndex := Engine.currentFundingIndex env w.engine position }

/-- What the close pays or takes: the unsettled funding and the pnl of the part at the price. -/
def cashed (env : Env) (w : World) (position : Position) (closeSize price : Int) : Int :=
  position.unsettledFunding (Engine.currentFundingIndex env w.engine position) +
    { position with size := closeSize }.pnlAt price

/-- The settlement balance with the amount added. -/
def creditedWorld (w : World) (user settlement : Address) (amount : Int) : World :=
  { w with vault :=
    w.vault.setBalance user settlement (w.vault.balanceOf user settlement + amount) }

/-- What the close changes in the equity of an account: what health counts of the settlement
balance, and what the position makes. -/
def closeGain (env : Env) (w : World) (user asset settlement : Address) (position : Position)
    (closeSize price : Int) : Int :=
  (Vault.countedOf env (creditedWorld w user settlement (cashed env w position closeSize price)) user
      asset settlement - Vault.countedOf env w user asset settlement) +
    (Vault.unrealizedOf env w (leftOpen env w position closeSize) - Vault.unrealizedOf env w position)

/-- The equity before the close and what its price leaves of it. -/
def closeEquity (env : Env) (w : World) (user : Address) (positionId : Nat) (closeSize price : Int) :
    Res (Int × Int) := do
  let asset ← settlementAsset w
  let settlement ← Engine.settlementAsset w
  let (_, position) ← Engine.findPosition (w.engine.loadPositions user) positionId
  let before ← Vault.accountHealth env w user asset
  return (before.equity,
    before.equity + closeGain env w user asset settlement position closeSize price)

/-- A solvent account is worth more than what the close takes of it. -/
def LossCovered (env : Env) (w : World) (user : Address) (positionId : Nat) (closeSize price : Int) :
    Prop :=
  ∃ before left, closeEquity env w user positionId closeSize price = .ok (before, left) ∧
    (0 < before → 0 < left)

/-! ## The trade -/

theorem realizedPnl_pnlAt {pnl : Int} (h : Engine.realizedPnl position closeSize price = .ok pnl) :
    pnl = { position with size := closeSize }.pnlAt price := by
  unfold Engine.realizedPnl at h
  unfold Position.pnlAt
  cases hl : position.isLong with
  | true =>
    simp only [hl, if_true, except_bind_ok, checkedSub_ok, mulPrecision_ok] at h
    obtain ⟨_, ⟨_, rfl⟩, _, rfl⟩ := h
    rfl
  | false =>
    simp only [hl, Bool.false_eq_true, if_false, except_bind_ok, checkedSub_ok, mulPrecision_ok] at h
    obtain ⟨_, ⟨_, rfl⟩, _, rfl⟩ := h
    rfl

/-- The sum over the positions follows the one that was reduced. -/
theorem sum_replaceOrRemove {positions : List Position} {index : Nat} (f : Position → Int)
    (reduced : Position) (hindex : positions[index]? = some position)
    (hf : reduced.size = 0 → f reduced = 0) :
    ((Engine.replaceOrRemove positions index reduced).map f).sum =
      (positions.map f).sum - f position + f reduced := by
  unfold Engine.replaceOrRemove
  split
  · rename_i hz
    rw [(OneChange.erase hindex).sum_map f, hf hz]
    rfl
  · exact (OneChange.set reduced hindex).sum_map f

/-- What a reduction leaves of an account: the position without the part, and the settlement
balance with the funding and the pnl of the part. -/
theorem reduce_account {requireInitialMargin : Bool} {r : TradeResult}
    (h : Returns (Engine.reducePositionInternal env user positionId closeSize price
      requireInitialMargin) w r w') :
    SamePrices w w' ∧ w'.vault.userAssets = w.vault.userAssets ∧
    ∃ settlement index position margin, w.engine.settlementAsset = some settlement ∧
      (w.engine.loadPositions user)[index]? = some position ∧
      Engine.findPosition (w.engine.loadPositions user) positionId = .ok (index, position) ∧
      w'.vault.loadPositions user = Engine.replaceOrRemove (w.engine.loadPositions user) index
        { leftOpen env w position closeSize with margin } ∧
      ∀ u a, w'.vault.balanceOf u a = if u = user ∧ a = settlement then
        w.vault.balanceOf u a + cashed env w position closeSize price else w.vault.balanceOf u a := by
  obtain ⟨_, _, index, position, settled, realized, margin, hindex, _, _, hsettled, hrealized, ht, _, _,
    hfind, _⟩ := Engine.reducePositionInternal_effect h
  obtain ⟨hprices, hlist, hpositions, settlement, hs, hbalance⟩ := ht.account
  have hcash : settled + realized = cashed env w position closeSize price := by
    rw [fundingPnl_ok hsettled, realizedPnl_pnlAt hrealized]
    rfl
  rw [hcash] at hbalance
  exact ⟨hprices, hlist, settlement, index, position, margin, hs, hindex, hfind, hpositions, hbalance⟩

/-- What health counts of an account changes with the settlement balance alone. -/
theorem counted_change (env : Env) (asset : Address) {settlement : Address} {amount : Int} (hprices : SamePrices w w')
    (hlist : w'.vault.userAssets = w.vault.userAssets)
    (hbalance : ∀ u a, w'.vault.balanceOf u a = if u = user ∧ a = settlement then
      w.vault.balanceOf u a + amount else w.vault.balanceOf u a) :
    ∑ᶠ a, Vault.countedOf env w' user asset a = ∑ᶠ a, Vault.countedOf env w user asset a +
      (Vault.countedOf env w' user asset settlement - Vault.countedOf env w user asset settlement) := by
  have hrecorded : w'.vault.userAssets.get user = w.vault.userAssets.get user := by rw [hlist]
  rw [finsum_change (Vault.finite_support_countedOf env w user asset) settlement
    (fun a ha => Vault.countedOf_congr hprices hrecorded ((hbalance user a).trans (if_neg fun hk => ha hk.2)))]
  ring

/-- A reduction changes equity by what health counts of the settlement balance and by what the
position makes: the balance takes the funding and the pnl of the part. -/
theorem reduce_equity {requireInitialMargin : Bool} {r : TradeResult} {before after : AccountHealth}
    (hmirror : w.vault.loadPositions user = w.engine.loadPositions user)
    (hnodup : (w.vault.recordedAssets user).Nodup)
    (h : Returns (Engine.reducePositionInternal env user positionId closeSize price
      requireInitialMargin) w r w')
    (hbefore : Vault.accountHealth env w user asset = .ok before)
    (hafter : Vault.accountHealth env w' user asset = .ok after) :
    SamePrices w w' ∧ w'.vault.userAssets = w.vault.userAssets ∧
    ∃ settlement index position, w.engine.settlementAsset = some settlement ∧
      Engine.findPosition (w.engine.loadPositions user) positionId = .ok (index, position) ∧
      w'.vault.balanceOf user settlement =
        w.vault.balanceOf user settlement + cashed env w position closeSize price ∧
      after.equity = before.equity +
        (Vault.countedOf env w' user asset settlement - Vault.countedOf env w user asset settlement) +
        (Vault.unrealizedOf env w (leftOpen env w position closeSize) -
          Vault.unrealizedOf env w position) := by
  obtain ⟨hprices, hlist, settlement, index, position, margin, hs, hindex, hfind, hpositions, hbalance⟩ :=
    reduce_account h
  have hcounted := counted_change env asset hprices hlist hbalance
  have hsum := sum_replaceOrRemove (Vault.unrealizedOf env w)
    { leftOpen env w position closeSize with margin } hindex Vault.unrealizedOf_of_size
  have hunrealized : Vault.unrealizedOf env w' = Vault.unrealizedOf env w :=
    funext (Vault.unrealizedOf_congr hprices)
  have hnodup' : (w'.vault.recordedAssets user).Nodup := by
    rw [VaultStorage.recordedAssets, hlist]
    exact hnodup
  refine ⟨hprices, hlist, settlement, index, position, hs, hfind,
    (hbalance user settlement).trans (if_pos ⟨rfl, rfl⟩), ?_⟩
  rw [Vault.accountHealth_equity hnodup hbefore, Vault.accountHealth_equity hnodup' hafter, hmirror,
    hpositions, hunrealized, hcounted, hsum]
  have hleft : Vault.unrealizedOf env w { leftOpen env w position closeSize with margin } =
      Vault.unrealizedOf env w (leftOpen env w position closeSize) := rfl
  rw [hleft]
  ring

/-- **The close changes equity by its price.** -/
theorem liquidateReduce_equity {r : TradeResult} {before after : AccountHealth}
    (hmirror : w.vault.loadPositions user = w.engine.loadPositions user)
    (hnodup : (w.vault.recordedAssets user).Nodup)
    (h : Returns (Engine.liquidateReduce env user positionId closeSize price) w r w')
    (hbefore : Vault.accountHealth env w user asset = .ok before)
    (hafter : Vault.accountHealth env w' user asset = .ok after) :
    ∃ settlement index position, w.engine.settlementAsset = some settlement ∧
      Engine.findPosition (w.engine.loadPositions user) positionId = .ok (index, position) ∧
      after.equity = before.equity + closeGain env w user asset settlement position closeSize price := by
  obtain ⟨hprices, hlist, settlement, index, position, hs, hfind, hbalance, hequity⟩ :=
    reduce_equity hmirror hnodup (Engine.liquidateReduce_internal h) hbefore hafter
  have hrecorded : w'.vault.userAssets.get user = w.vault.userAssets.get user := by rw [hlist]
  have hmoved : SamePrices (creditedWorld w user settlement (cashed env w position closeSize price)) w' :=
    ⟨hprices.deployed, hprices.oracle, hprices.vaultOracle, hprices.collateral, hprices.marketConfig,
      hprices.fundingLong, hprices.fundingShort⟩
  have hsettlement : Vault.countedOf env w' user asset settlement = Vault.countedOf env
      (creditedWorld w user settlement (cashed env w position closeSize price)) user asset settlement := by
    refine Vault.countedOf_congr hmoved hrecorded ?_
    rw [hbalance]
    exact (w.vault.balanceOf_setBalance_self user settlement _).symm
  refine ⟨settlement, index, position, hs, hfind, ?_⟩
  rw [hequity, hsettlement]
  unfold closeGain
  ring

/-- The price of a close does not depend on the caller. -/
theorem closeGain_callFrom (caller : Address) :
    closeGain (env.callFrom caller) w user asset settlement position closeSize price =
      closeGain env w user asset settlement position closeSize price := rfl

/-! ## The call -/

theorem vaultHealth_ok {health : AccountHealth} (h : vaultHealth env w user = .ok health) :
    ∃ asset, w.liquidation.settlementAsset = some asset ∧
      Vault.accountHealth env w user asset = .ok health := by
  simp only [vaultHealth, settlementAsset, except_bind_ok, okOr_ok] at h
  obtain ⟨_, _, asset, hs, _, _, hh⟩ := h
  exact ⟨asset, hs, by rwa [Vault.accountHealth_callFrom] at hh⟩

/-- The trade of a liquidation and the healths of its receipt. -/
theorem liquidate_trade {r : LiquidationReceipt}
    (h : Returns (liquidate env liquidator user positionId closeSize price) w r w') :
    ∃ asset trade v, w.liquidation.settlementAsset = some asset ∧
      Vault.accountHealth env w user asset = .ok r.healthBefore ∧
      Returns (Engine.liquidateReduce (env.callFrom w.deployed.liquidation) user positionId closeSize
        price) w trade v ∧
      Vault.accountHealth env v user asset = .ok r.healthAfter ∧
      improved r.healthBefore r.healthAfter := by
  obtain ⟨_, trade, v, _, _, _, _, hbefore, hreduce, hafter, himproved, _⟩ := liquidate_steps h
  obtain ⟨asset, hs, hbefore⟩ := vaultHealth_ok hbefore
  obtain ⟨asset', hs', hafter⟩ := vaultHealth_ok hafter
  have hreduce := (callEngine_returns.mp hreduce).2
  obtain ⟨_, _, _, _, _, _, _, _, _, _, _, _, ht, _⟩ := Engine.reducePositionInternal_effect
    (Engine.liquidateReduce_internal hreduce)
  obtain ⟨_, _, rfl⟩ := ht.world
  obtain rfl := Option.some.inj (hs.symm.trans hs')
  exact ⟨asset, trade, _, hs, hbefore, hreduce, hafter, himproved⟩

/-- The account of the receipt is the better for the liquidation: solvent still and at a higher
ratio, or with less to maintain where it was not solvent. -/
structure SparesSolvent (r : LiquidationReceipt) : Prop where
  solvent : 0 < r.healthBefore.equity →
    r.healthBefore.marginRatio < r.healthAfter.marginRatio ∧ 0 < r.healthAfter.equity
  bankrupt : r.healthBefore.equity ≤ 0 →
    r.healthAfter.maintenanceMarginRequired < r.healthBefore.maintenanceMarginRequired

theorem sparesSolvent_iff {r : LiquidationReceipt} (h : improved r.healthBefore r.healthAfter) :
    SparesSolvent r ↔ (0 < r.healthBefore.equity → 0 < r.healthAfter.equity) := by
  unfold improved at h
  constructor
  · intro hspares hsolvent
    exact (hspares.solvent hsolvent).2
  · intro hsurvives
    split at h
    · rename_i hboth
      exact ⟨fun _ => ⟨h, hboth.2⟩, fun hbankrupt => absurd hboth.1 (not_lt.mpr hbankrupt)⟩
    · rename_i hnot
      exact ⟨fun hsolvent => absurd ⟨hsolvent, hsurvives hsolvent⟩ hnot, fun _ => h⟩

end Liquidation

open Liquidation

/-- **A liquidation spares a solvent account exactly when the account covers the loss of the
close.** Whatever calls on the engine and the vault made the account, the healths of the
receipt are those before and after the trade, and a successful liquidation raises the margin
ratio of a solvent account and leaves it solvent, and lowers the maintenance requirement of any
other, if and only if the account is not solvent or is worth more than what closing the part at
the execution price takes of it. -/
theorem liquidation_spares_iff {t : List (AccountOp × Accounts)} {env : Env} {w w' : World}
    {liquidator user : Address} {positionId : Nat} {closeSize price : Int} {r : LiquidationReceipt}
    (hr : IsRun AccountOp.Step {} t) (hw : w.accounts = final {} t)
    (h : Returns (liquidate env liquidator user positionId closeSize price) w r w') :
    (∃ asset trade v, w.liquidation.settlementAsset = some asset ∧
      Vault.accountHealth env w user asset = .ok r.healthBefore ∧
      Returns (Engine.liquidateReduce (env.callFrom w.deployed.liquidation) user positionId closeSize
        price) w trade v ∧ Vault.accountHealth env v user asset = .ok r.healthAfter) ∧
    (SparesSolvent r ↔ LossCovered env w user positionId closeSize price) := by
  have hmirrored : w.accounts.Mirrored := by
    rw [hw]
    exact mirrored_run hr
  obtain ⟨asset, trade, v, hs, hbefore, htrade, hafter, himproved⟩ := liquidate_trade h
  refine ⟨⟨asset, trade, v, hs, hbefore, htrade, hafter⟩, ?_⟩
  obtain ⟨settlement, index, position, hsettlement, hfind, hequity⟩ :=
    liquidateReduce_equity (hmirrored.loadPositions user) (hmirrored.indexNodup user) htrade (by rwa [Vault.accountHealth_callFrom])
      (by rwa [Vault.accountHealth_callFrom])
  rw [closeGain_callFrom] at hequity
  have hclose : closeEquity env w user positionId closeSize price =
      .ok (r.healthBefore.equity, r.healthAfter.equity) := by
    simp only [closeEquity, settlementAsset, Engine.settlementAsset, except_bind_ok, okOr_ok,
      except_pure_ok]
    exact ⟨asset, hs, settlement, hsettlement, _, hfind, _, hbefore, by rw [hequity]⟩
  rw [sparesSolvent_iff himproved]
  constructor
  · intro hsurvives
    exact ⟨_, _, hclose, hsurvives⟩
  · intro hcovered
    obtain ⟨before, left, hleft, hcovered⟩ := hcovered
    obtain ⟨rfl, rfl⟩ := Prod.mk.inj (Except.ok.inj (hclose.symm.trans hleft))
    exact hcovered

/-! ## A price at the edge of the band -/

namespace Sample

/-- Alice deposits the initial margin of one unit and buys it. -/
def buying : List AccountOp :=
  [.vault (.deposit (host 1000) alice usdc (10 * precision)),
    .trade (.openPosition (host 1000) alice 1 precision true (100 * precision) .cross)]

/-- Alice's account when the price has fallen; liquidators earn nothing. -/
def strained (price : Int) : World :=
  let w := final exchange (execute AccountOp.call exchange buying)
  { w with
    oracle := prices price 1000
    liquidation := { w.liquidation with maxRewardBps := some 0 } }

/-- Half of the unit closed. -/
def closeHalf (price : Int) : Tx LiquidationReceipt :=
  liquidate (host 1000) keeper alice 1 (precision / 2) price

end Sample

open Sample

/-- The price has fallen to 90.2 and leaves alice 0.2. Half of her unit is closed one per cent
lower, at the edge of the band, which costs 0.451 and leaves her with less than nothing. -/
theorem bankrupted_by_liquidation :
    ∃ r w', Returns (closeHalf (89298 * 10 ^ 15)) (strained (902 * 10 ^ 17)) r w' ∧
      r.healthBefore.equity = 2 * 10 ^ 17 ∧ r.healthAfter.equity = -251 * 10 ^ 15 ∧
      r.healthAfter.marginRatio < r.healthBefore.marginRatio ∧ ¬ SparesSolvent r := by
  have hvalue : ((closeHalf (89298 * 10 ^ 15)).value (strained (902 * 10 ^ 17))).map
      (fun r => (r.healthBefore.equity, r.healthAfter.equity,
        decide (r.healthAfter.marginRatio < r.healthBefore.marginRatio))) =
      some (2 * 10 ^ 17, -251 * 10 ^ 15, true) := by decide +kernel
  obtain ⟨r, hr, hequity⟩ := Option.map_eq_some_iff.mp hvalue
  obtain ⟨hbefore, hrest⟩ := Prod.mk.inj hequity
  obtain ⟨hafter, hratio⟩ := Prod.mk.inj hrest
  refine ⟨r, _, returns_of_value hr, hbefore, hafter, of_decide_eq_true hratio, fun hspares => ?_⟩
  have hsolvent := (hspares.solvent (by omega)).2
  omega

/-- At the mark itself the close costs nothing and raises the ratio. -/
theorem liquidation_spares_iff_half :
    ∃ r w', Returns (closeHalf (92 * 10 ^ 18)) (strained (92 * 10 ^ 18)) r w' ∧ SparesSolvent r := by
  have hr : IsRun AccountOp.Step {} (viewed World.accounts (execute AccountOp.call exchange buying)) :=
    isRun_execute (w := exchange) (by decide +kernel)
  have hw : (strained (92 * 10 ^ 18)).accounts =
      final {} (viewed World.accounts (execute AccountOp.call exchange buying)) :=
    (@final_viewed _ _ _ World.accounts exchange (execute AccountOp.call exchange buying)).symm
  obtain ⟨r, hcall⟩ := returns_commit (x := closeHalf (92 * 10 ^ 18)) (s := strained (92 * 10 ^ 18))
    (by decide +kernel)
  have hcovered : LossCovered (host 1000) (strained (92 * 10 ^ 18)) alice 1 (precision / 2)
      (92 * 10 ^ 18) := ⟨2 * 10 ^ 18, 2 * 10 ^ 18, by decide +kernel, fun _ => by decide⟩
  exact ⟨r, _, hcall, (liquidation_spares_iff hr hw hcall).2.mpr hcovered⟩

end Kryon

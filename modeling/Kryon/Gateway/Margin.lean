import Kryon.Gateway.MatchedBook

/-! # Margin after a fill

Each trade of a fill checks its owner's margin when it is done, and the fee checks it
again after the debit. What comes later in the fill belongs to the other owner or to
the fee recipient, and leaves this owner's account and the prices as they were. -/
namespace Kryon
open Transaction Engine

/-! ## What leaves an account alone -/

/-- The account, the prices and the settlement asset are the same. -/
structure KeepsAccount (w w' : World) (user : Address) : Prop where
  prices : SamePrices w w'
  account : SameAccount w w' user
  settlement : w'.engine.settlementAsset = w.engine.settlementAsset

namespace KeepsAccount

variable {w w' w'' : World} {user other asset : Address} {amount : Int}

theorem trans (h : KeepsAccount w w' user) (h' : KeepsAccount w' w'' user) :
    KeepsAccount w w'' user where
  prices := {
    deployed := h'.prices.deployed.trans h.prices.deployed
    oracle := h'.prices.oracle.trans h.prices.oracle
    vaultOracle := h'.prices.vaultOracle.trans h.prices.vaultOracle
    collateral := h'.prices.collateral.trans h.prices.collateral
    marketConfig := h'.prices.marketConfig.trans h.prices.marketConfig
    fundingLong := h'.prices.fundingLong.trans h.prices.fundingLong
    fundingShort := h'.prices.fundingShort.trans h.prices.fundingShort }
  account := {
    positions := h'.account.positions.trans h.account.positions
    userAssets := h'.account.userAssets.trans h.account.userAssets
    balanceOf a := (h'.account.balanceOf a).trans (h.account.balanceOf a) }
  settlement := h'.settlement.trans h.settlement

theorem refl (w : World) (user : Address) : KeepsAccount w w user :=
  ⟨⟨rfl, rfl, rfl, rfl, rfl, rfl, rfl⟩, ⟨rfl, rfl, fun _ => rfl⟩, rfl⟩

theorem gateway (w : World) (gateway : GatewayStorage) (user : Address) :
    KeepsAccount w { w with gateway } user :=
  ⟨⟨rfl, rfl, rfl, rfl, rfl, rfl, rfl⟩, ⟨rfl, rfl, fun _ => rfl⟩, rfl⟩

/-- A credit to somebody else. -/
theorem of_credited {vault : VaultStorage} (h : w.vault.Credited vault other asset amount)
    (hne : user ≠ other) : KeepsAccount w { w with vault } user := by
  have hbalance : ∀ a, vault.balanceOf user a = w.vault.balanceOf user a := by
    intro a
    rw [h.balanceOf, if_neg fun hk => hne hk.1]
  obtain ⟨balance, rfl⟩ := h.rest
  exact ⟨⟨rfl, rfl, rfl, rfl, rfl, rfl, rfl⟩, ⟨rfl, rfl, hbalance⟩, rfl⟩

/-- A trade of somebody else. -/
theorem of_traded {positions : List Position} {marketId : Nat} {isLong : Bool} {change pnl : Int}
    (h : Traded w w' other positions marketId isLong change pnl) (hne : user ≠ other) :
    KeepsAccount w w' user := by
  obtain ⟨asset, vault, hs, hcredit, hvault⟩ := h.vault
  have hbalance : ∀ a, vault.balanceOf user a = w.vault.balanceOf user a := by
    intro a
    rw [hcredit.balanceOf, if_neg fun hk => hne hk.1]
  obtain ⟨balance, rfl⟩ := hcredit.rest
  obtain ⟨markState, nextPositionId, hengine⟩ := h.engine
  obtain ⟨engine', vault', rfl⟩ := h.world
  obtain rfl : vault' = _ := hvault
  obtain rfl : engine' = _ := hengine
  refine ⟨⟨rfl, rfl, rfl, rfl, rfl, rfl, rfl⟩, ⟨?_, rfl, hbalance⟩, rfl⟩
  simp [VaultStorage.loadPositions, Store.get_set_ne hne]

end KeepsAccount

theorem Engine.AboveInitialMargin.keep {env : Env} {w w' : World} {user : Address}
    (h : AboveInitialMargin env w user) (hk : KeepsAccount w w' user) :
    AboveInitialMargin env w' user := by
  obtain ⟨asset, health, hs, hh, hm⟩ := h
  rw [Vault.accountHealth_callFrom] at hh
  refine ⟨asset, health, hk.settlement.trans hs, ?_, hm⟩
  rw [Vault.accountHealth_callFrom, Vault.accountHealth_congr hk.prices hk.account, hh]

theorem Engine.aboveInitialMargin_callFrom {env : Env} {w : World} {user caller : Address} :
    AboveInitialMargin (env.callFrom caller) w user ↔ AboveInitialMargin env w user := by
  simp only [AboveInitialMargin, Vault.accountHealth_callFrom]

/-! ## One party -/

namespace Gateway

variable {env : Env} {w w' : World} {owner user : Address} {marketId : Nat} {size price : Int}
  {isLong reduceOnly isMaker : Bool} {order : Order} {fill : MatchedFill}

/-- Whatever a side does, its last trade checks the margin. -/
theorem SideTrades.aboveInitialMargin
    (h : SideTrades env owner marketId isLong reduceOnly size price w w') :
    AboveInitialMargin env w' owner := by
  cases h with
  | reduce p hp hle h =>
    obtain ⟨_, _, _, _, _, _, _, _, _, _, _, _, _, _, hm⟩ := reducePositionInternal_effect h
    exact hm.1 rfl
  | flip p hp hlt hro hclose hopen =>
    obtain ⟨_, _, _, _, _, _, _, _, _, _, _, _, _, _, hm⟩ := openPosition_effect hopen
    exact hm.1
  | increase p hno hp hro h =>
    obtain ⟨_, _, _, _, _, _, _, _, _, _, _, _, hm⟩ := increasePosition_effect h
    exact hm.1
  | fresh hno hro h =>
    obtain ⟨_, _, _, _, _, _, _, _, _, _, _, _, _, _, hm⟩ := openPosition_effect h
    exact hm.1

theorem SideTrades.keepsAccount (h : SideTrades env owner marketId isLong reduceOnly size price w w')
    (hne : user ≠ owner) : KeepsAccount w w' user := by
  refine h.preserves (I := fun v => KeepsAccount w v user) ?_ (.refl w user)
  intro v v' before after m b change pnl ht hv
  obtain ⟨positions, ht, _⟩ := ht.traded
  exact hv.trans (.of_traded ht hne)

/-- The fee checks the margin after the debit, and the credit goes to somebody else. -/
theorem chargeTradeFee_margin {r : Int} (hm : AboveInitialMargin env w owner)
    (hr : w.engine.feeRecipient ≠ some owner)
    (h : Returns (chargeTradeFee env owner marketId size price isMaker) w r w') :
    AboveInitialMargin env w' owner := by
  rcases chargeTradeFee_effect h with rfl | ⟨asset, recipient, paid, vault, _, hrec, _, hmid, hcredit, rfl⟩
  · exact hm
  · have hne : owner ≠ recipient := fun he => hr (he ▸ hrec)
    have hk : KeepsAccount { w with vault := paid } { w with vault } owner :=
      KeepsAccount.of_credited (w := { w with vault := paid }) hcredit hne
    exact hmid.keep hk

theorem chargeTradeFee_keepsAccount {r : Int} (hr : w.engine.feeRecipient ≠ some user)
    (hne : user ≠ owner) (h : Returns (chargeTradeFee env owner marketId size price isMaker) w r w') :
    KeepsAccount w w' user := by
  rcases chargeTradeFee_effect h with rfl | ⟨asset, recipient, paid, vault, _, hrec, hpaid, _, hcredit, rfl⟩
  · exact .refl _ user
  · have hother : user ≠ recipient := fun he => hr (he ▸ hrec)
    have hdebit : KeepsAccount w { w with vault := paid } user := .of_credited hpaid hne
    exact hdebit.trans (KeepsAccount.of_credited (w := { w with vault := paid }) hcredit hother)

theorem settleParty_margin {u : Unit} (hr : w.engine.feeRecipient ≠ some order.owner)
    (h : Returns (settleParty env order size price isMaker) w u w') :
    AboveInitialMargin env w' order.owner := by
  obtain ⟨w₁, fee, hside, hfee⟩ := settleParty_returns h
  have hm := aboveInitialMargin_callFrom.mp hside.aboveInitialMargin
  rw [← hside.config.2.2] at hr
  exact aboveInitialMargin_callFrom.mp
    (chargeTradeFee_margin (aboveInitialMargin_callFrom.mpr hm) hr hfee)

theorem settleParty_keepsAccount {u : Unit} (hr : w.engine.feeRecipient ≠ some user)
    (hne : user ≠ order.owner) (h : Returns (settleParty env order size price isMaker) w u w') :
    KeepsAccount w w' user := by
  obtain ⟨w₁, fee, hside, hfee⟩ := settleParty_returns h
  rw [← hside.config.2.2] at hr
  exact (hside.keepsAccount hne).trans (chargeTradeFee_keepsAccount hr hne hfee)

theorem settleParty_feeRecipient {u : Unit}
    (h : Returns (settleParty env order size price isMaker) w u w') :
    w'.engine.feeRecipient = w.engine.feeRecipient := by
  obtain ⟨w₁, hside, he⟩ := settleParty_side h
  rw [he, hside.config.2.2]

/-! ## Both parties -/

theorem FillSettled.aboveInitialMargin (h : FillSettled env fill w w')
    (hmaker : w.engine.feeRecipient ≠ some fill.maker.owner)
    (htaker : w.engine.feeRecipient ≠ some fill.taker.owner) :
    AboveInitialMargin env w' fill.maker.owner ∧ AboveInitialMargin env w' fill.taker.owner := by
  obtain ⟨w₁, w₂, hm, ht, rfl⟩ := h.parties
  have hrecipient := settleParty_feeRecipient hm
  have hlast : ∀ user, KeepsAccount w₂ { w₂ with
      gateway := (w.gateway.fillMore fill.maker fill.fillSize).fillMore fill.taker fill.fillSize } user :=
    fun user => .gateway _ _ _
  constructor
  · have hown := settleParty_margin hmaker hm
    have hkeep := settleParty_keepsAccount (hrecipient ▸ hmaker) h.valid.owners ht
    exact hown.keep (hkeep.trans (hlast _))
  · have hown := settleParty_margin (hrecipient ▸ htaker) ht
    exact hown.keep (hlast _)

end Gateway

/-- **Both owners are above their initial margin when a fill is done**, recomputed
from the state it leaves, unless one of them collects the fees. -/
theorem fill_keeps_initial_margin {op : FillOp} {w w' : World} (h : Returns op.call w () w')
    (hmaker : w.engine.feeRecipient ≠ some op.fill.maker.owner)
    (htaker : w.engine.feeRecipient ≠ some op.fill.taker.owner) :
    ∀ owner, owner = op.fill.maker.owner ∨ owner = op.fill.taker.owner →
      ∃ asset health, w'.engine.settlementAsset = some asset ∧
        Vault.accountHealth op.env w' owner asset = .ok health ∧
        health.initialMarginRequired ≤ health.equity := by
  obtain ⟨habove, habove'⟩ := (FillOp.settled h).aboveInitialMargin hmaker htaker
  have recomputed : ∀ owner, AboveInitialMargin op.env w' owner →
      ∃ asset health, w'.engine.settlementAsset = some asset ∧
        Vault.accountHealth op.env w' owner asset = .ok health ∧
        health.initialMarginRequired ≤ health.equity := by
    intro owner hm
    obtain ⟨asset, health, hs, hh, hle⟩ := hm
    rw [Vault.accountHealth_callFrom] at hh
    exact ⟨asset, health, hs, hh, hle⟩
  intro owner howner
  rcases howner with rfl | rfl
  · exact recomputed _ habove
  · exact recomputed _ habove'

namespace Sample

/-- The sample exchange with fees of two and five basis points. -/
def charging : World :=
  { trading 1000 with engine := { (trading 1000).engine with
      feeConfig := (∅ : Store Nat FeeConfig).set 1 { makerFeeBps := 2, takerFeeBps := 5 } } }

def chargedFill : FillOp :=
  .settleFill (host 1000) (matched (bid precision 1 2000) (ask precision 1 2000) precision)

end Sample

open Sample in
theorem fill_keeps_initial_margin_charged : ∃ w' asset health,
    Returns chargedFill.call charging () w' ∧
    Vault.accountHealth (host 1000) w' alice asset = .ok health ∧
    health.initialMarginRequired ≤ health.equity := by
  obtain ⟨_, h⟩ := returns_commit (by decide +kernel : chargedFill.call.succeeds charging = true)
  obtain ⟨asset, health, _, hh, hle⟩ :=
    fill_keeps_initial_margin h (by decide) (by decide) alice (.inl rfl)
  exact ⟨_, asset, health, h, hh, hle⟩

end Kryon

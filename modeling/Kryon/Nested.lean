import Kryon.Config

/-! # Settlements, liquidations and deleveragings as calls

Each is a run of calls on the engine, the fund and the vault, made by the contract the
transaction entered through; a settlement ends with two counters of the gateway. -/
namespace Kryon
open Transaction Runs

variable {env : Env} {w w' : World}

theorem ContractCall.deployed {c : ContractCall} (h : Returns c.call w () w') :
    w'.deployed = w.deployed := by
  cases c with
  | account op => exact deployed_of_config (AccountOp.config h)
  | fund op => exact deployed_of_config (FundOp.config h)
  | oracle op =>
    obtain ⟨_, _, rfl⟩ := onOracle_returns.mp h
    rfl
  | syncPositions env user positions =>
    obtain ⟨_, rfl⟩ := Vault.syncPositions_effect h
    rfl
  | setFundingIndexes env marketId long short =>
    obtain rfl := Vault.setFundingIndexes_effect h
    rfl
  | configure env setting => exact ledger_congr World.deployed (fun _ => rfl) (Setting.effect h).2.ledger

theorem Calls.deployed {M : ContractCall → Prop} (h : Calls M w w') : w'.deployed = w.deployed :=
  h.keeps (I := fun v => v.deployed = w.deployed) (fun hv _ hc => (ContractCall.deployed hc).trans hv) rfl

/-! ## Settlements -/

namespace Gateway

section Party

variable {fill : MatchedFill} {order : Order} {size : Int} {u : Unit}

/-- A call of the gateway on the engine, among those of the fill. -/
theorem calls_of_returns {e : Env} {op : AccountOp} (hop : FillCall e fill (.account op))
    (h : Returns op.call w () w') : Calls (FillCall e fill) w w' := Calls.one hop h

theorem engineOpenPosition_calls (ho : order = fill.maker ∨ order = fill.taker)
    (h : Returns (engineOpenPosition env order.owner order.marketId size order.isLong fill.fillPrice) w u w') :
    Calls (FillCall (env.callFrom w.deployed.gateway) fill) w w' := by
  obtain ⟨r, _, hcall, hret⟩ := returns_bind.mp h
  obtain ⟨_, rfl⟩ := returns_pure.mp hret
  exact calls_of_returns (.openPosition ho size) (returns_void.mpr ⟨r, (callEngine_returns.mp hcall).2⟩)

theorem engineIncreasePosition_calls {positionId : Nat} (ho : order = fill.maker ∨ order = fill.taker)
    (h : Returns (engineIncreasePosition env order.owner positionId fill.fillSize fill.fillPrice) w u w') :
    Calls (FillCall (env.callFrom w.deployed.gateway) fill) w w' := by
  obtain ⟨r, _, hcall, hret⟩ := returns_bind.mp h
  obtain ⟨_, rfl⟩ := returns_pure.mp hret
  exact calls_of_returns (.increasePosition ho positionId)
    (returns_void.mpr ⟨r, (callEngine_returns.mp hcall).2⟩)

theorem engineReducePosition_calls {positionId : Nat} (ho : order = fill.maker ∨ order = fill.taker)
    (h : Returns (engineReducePosition env order.owner positionId size fill.fillPrice) w u w') :
    Calls (FillCall (env.callFrom w.deployed.gateway) fill) w w' := by
  obtain ⟨r, _, hcall, hret⟩ := returns_bind.mp h
  obtain ⟨_, rfl⟩ := returns_pure.mp hret
  exact calls_of_returns (.reducePosition ho positionId size)
    (returns_void.mpr ⟨r, (callEngine_returns.mp hcall).2⟩)

theorem settleOpposite_calls {position : Position} (ho : order = fill.maker ∨ order = fill.taker)
    (h : Returns (settleOpposite env order.owner order.marketId order.isLong order.reduceOnly
      fill.fillSize fill.fillPrice position) w u w') :
    Calls (FillCall (env.callFrom w.deployed.gateway) fill) w w' := by
  obtain ⟨_, w₁, hreduce, hrest⟩ := returns_bind.mp h
  have hclose := engineReducePosition_calls ho hreduce
  obtain ⟨residual, _, hrest⟩ := returns_lift_bind.mp hrest
  rcases returns_ite.mp hrest with ⟨_, hopen⟩ | ⟨_, hret⟩
  · obtain ⟨_, _, hopen⟩ := returns_lift_bind.mp hopen
    have hflip := engineOpenPosition_calls ho hopen
    rw [hclose.deployed] at hflip
    exact hclose.trans hflip
  · obtain ⟨_, rfl⟩ := returns_pure.mp hret
    exact hclose

theorem settleUserSide_calls (ho : order = fill.maker ∨ order = fill.taker)
    (h : Returns (settleUserSide env order.owner order.marketId order.isLong order.reduceOnly
      fill.fillSize fill.fillPrice) w u w') :
    Calls (FillCall (env.callFrom w.deployed.gateway) fill) w w' := by
  obtain ⟨positions, _, hbody⟩ := returns_readWith_bind.mp h
  cases hopposite : (scanSides order.marketId order.isLong positions).opposite with
  | some position =>
    simp only [hopposite] at hbody
    exact settleOpposite_calls ho hbody
  | none =>
    simp only [hopposite] at hbody
    obtain ⟨_, _, hbody⟩ := returns_lift_bind.mp hbody
    cases hsame : (scanSides order.marketId order.isLong positions).same with
    | some position =>
      simp only [hsame] at hbody
      exact engineIncreasePosition_calls ho hbody
    | none =>
      simp only [hsame] at hbody
      exact engineOpenPosition_calls ho hbody

theorem settleParty_calls {isMaker : Bool} (ho : order = fill.maker ∨ order = fill.taker)
    (h : Returns (settleParty env order fill.fillSize fill.fillPrice isMaker) w u w') :
    Calls (FillCall (env.callFrom w.deployed.gateway) fill) w w' := by
  obtain ⟨_, w₁, hside, hrest⟩ := returns_bind.mp h
  obtain ⟨fee, _, hfee, hret⟩ := returns_bind.mp hrest
  obtain ⟨_, rfl⟩ := returns_pure.mp hret
  have hside := settleUserSide_calls ho hside
  have hfee := calls_of_returns (.chargeTradeFee ho isMaker)
    (returns_void.mpr ⟨fee, (callEngine_returns.mp hfee).2⟩)
  rw [hside.deployed] at hfee
  exact hside.trans hfee

end Party

variable {fill : MatchedFill}

/-- A settlement is its calls on the engine and its two counters. -/
theorem FillSettled.calls (h : FillSettled env fill w w') :
    ∃ v filled, Calls (FillCall (env.callFrom w.deployed.gateway) fill) w v ∧
      w' = { v with gateway := { v.gateway with filled } } := by
  obtain ⟨v₁, v₂, hmaker, htaker, rfl⟩ := h.parties
  have hgateway : v₂.gateway = w.gateway :=
    ((settleParty_tradesOnly hmaker).trans (settleParty_tradesOnly htaker)).gateway
  have hmaker := settleParty_calls (.inl rfl) hmaker
  have htaker := settleParty_calls (.inr rfl) htaker
  rw [hmaker.deployed] at htaker
  refine ⟨v₂, ((w.gateway.fillMore fill.maker fill.fillSize).fillMore fill.taker fill.fillSize).filled,
    hmaker.trans htaker, ?_⟩
  rw [hgateway]
  rfl

theorem reclaimNonces_gateway {owner : Address} {now n m : Nat} {nonces : List Nat}
    (h : Returns (reclaimNonces now owner n nonces) w m w') :
    ∃ filled cancelled, w' = { w with gateway := { w.gateway with filled, cancelled } } := by
  induction nonces generalizing n w with
  | nil => exact ⟨_, _, (returns_pure.mp h).2⟩
  | cons nonce rest ih =>
    simp only [reclaimNonces, returns_get_bind, returns_store_bind, returns_lift_bind] at h
    obtain ⟨_, _, hrest⟩ := h
    obtain ⟨_, _, rfl⟩ := ih hrest
    exact ⟨_, _, rfl⟩

end Gateway

/-- The four calls of the gateway: calls on the engine, then writes to its own order tables. -/
theorem GatewayOp.calls {op : GatewayOp} (h : Returns op.call w () w') :
    ∃ v filled cancelled, Calls (ProtocolOp.Makes w.deployed (.gateway op)) w v ∧
      w' = { v with gateway := { v.gateway with filled, cancelled } } := by
  have settled : ∀ {fill}, op.fill? = some fill → Gateway.FillSettled op.env fill w w' →
      ∃ v filled cancelled, Calls (ProtocolOp.Makes w.deployed (.gateway op)) w v ∧
        w' = { v with gateway := { v.gateway with filled, cancelled } } := by
    intro fill hfill hs
    obtain ⟨v, filled, hcalls, hw⟩ := hs.calls
    refine ⟨v, filled, _, ?_, hw⟩
    refine Relation.ReflTransGen.mono (fun _ _ hstep => ?_) _ _ hcalls
    obtain ⟨c, hc, hcall⟩ := hstep
    exact ⟨c, ⟨fill, hfill, hc⟩, hcall⟩
  cases op with
  | settleFill env fill =>
    obtain ⟨_, h⟩ := returns_void.mp h
    exact settled rfl (Gateway.settleFill_settled h)
  | settleFillSigned env fill makerSig takerSig =>
    obtain ⟨_, h⟩ := returns_void.mp h
    exact settled rfl (Gateway.settleFillSigned_settled h)
  | cancelOrder env owner nonce expiryTs =>
    obtain ⟨_, h⟩ := returns_void.mp h
    simp only [Gateway.cancelOrder, returns_lift_bind, Gateway.store_returns] at h
    obtain ⟨_, _, rfl⟩ := h
    exact ⟨w, _, _, .refl w, rfl⟩
  | reclaimOrderState env owner nonces =>
    obtain ⟨_, h⟩ := returns_void.mp h
    obtain ⟨filled, cancelled, rfl⟩ := Gateway.reclaimNonces_gateway h
    exact ⟨w, filled, cancelled, .refl w, rfl⟩

/-! ## Liquidations and deleveragings -/

namespace Liquidation

variable {liquidator keeper user : Address} {positionId : Nat} {closeSize price : Int}

theorem liquidate_calls {r : LiquidationReceipt}
    (h : Returns (liquidate env liquidator user positionId closeSize price) w r w') :
    Calls (LiquidationCall (env.callFrom w.deployed.liquidation) liquidator user positionId closeSize
      price) w w' := by
  obtain ⟨asset, trade, w₁, w₂, seized, w₃, _, _, hreduce, _, _, hpay, hseize, habsorb, _⟩ :=
    liquidate_steps h
  have hreduce : Calls (LiquidationCall (env.callFrom w.deployed.liquidation) liquidator user
      positionId closeSize price) w w₁ :=
    .one .liquidateReduce (returns_void.mpr ⟨trade, (callEngine_returns.mp hreduce).2⟩)
  have hpay : Calls (LiquidationCall (env.callFrom w.deployed.liquidation) liquidator user
      positionId closeSize price) w₁ w₂ := by
    rcases returns_ite.mp hpay with ⟨_, hpaid⟩ | ⟨_, hnone⟩
    · obtain ⟨next, _, hcall, hret⟩ := returns_bind.mp hpaid
      obtain ⟨_, rfl⟩ := returns_pure.mp hret
      have hcall := (callInsurance_returns.mp hcall).2
      rw [hreduce.deployed] at hcall
      exact .one (.payLiquidator asset r.reward) (returns_void.mpr ⟨next, hcall⟩)
    · rw [(returns_pure.mp hnone).2]
      exact .refl _
  have hpaid := hreduce.trans hpay
  have hseize : Calls (LiquidationCall (env.callFrom w.deployed.liquidation) liquidator user
      positionId closeSize price) w₂ w₃ := by
    have hcall := (callVault_returns.mp hseize).2
    rw [hpaid.deployed] at hcall
    exact .one (.seizeForDeficit asset) (returns_void.mpr ⟨seized, hcall⟩)
  have hseized := hpaid.trans hseize
  refine hseized.trans ?_
  rcases returns_ite.mp habsorb with ⟨_, habsorb⟩ | ⟨_, hnone⟩
  · obtain ⟨covered, _, hcall, hret⟩ := returns_bind.mp habsorb
    obtain ⟨_, rfl⟩ := returns_pure.mp hret
    have hcall := (callVault_returns.mp hcall).2
    rw [hseized.deployed] at hcall
    exact .one (.absorbBadDebt asset) (returns_void.mpr ⟨covered, hcall⟩)
  · rw [(returns_pure.mp hnone).2]
    exact .refl _

theorem adl_calls {r : AdlReceipt}
    (h : Returns (adl env keeper user positionId closeSize price) w r w') :
    Calls (AdlCall (env.callFrom w.deployed.liquidation) user positionId price) w w' := by
  obtain ⟨asset, _, _, _, trade, v, _, _, _, _, _, _, _, _, _, hreduce, _, hoffset⟩ := adl_steps h
  have hreduce : Calls (AdlCall (env.callFrom w.deployed.liquidation) user positionId price) w v :=
    .one (.liquidateReduce r.closeSize) (returns_void.mpr ⟨trade, (callEngine_returns.mp hreduce).2⟩)
  refine hreduce.trans ?_
  rcases returns_ite.mp hoffset with ⟨_, hoffset⟩ | ⟨_, hnone⟩
  · have hcall := (callInsurance_returns.mp hoffset).2
    rw [hreduce.deployed] at hcall
    exact .one (.reduceBadDebt asset _) (returns_void.mpr ⟨_, hcall⟩)
  · rw [(returns_pure.mp hnone).2]
    exact .refl _

end Liquidation

/-! ## Who makes the calls -/

def Deployment.contracts (d : Deployment) : List Address :=
  [d.oracle, d.vault, d.engine, d.insurance, d.liquidation, d.gateway]

/-- The call comes from outside: no contract of the deployment authorizes it. -/
def Env.Outside (env : Env) (d : Deployment) : Prop := ∀ c ∈ d.contracts, ¬ env.Authorizes c

namespace ProtocolOp

variable {op : ProtocolOp} {d : Deployment} {c : ContractCall}

/-- What is nested in a transaction is a call on an account or on the fund. -/
theorem Makes.nested (h : op.Makes d c) :
    op = .direct c ∨ (∃ call, c = .account call) ∨ ∃ call, c = .fund call := by
  cases op with
  | direct call =>
    obtain rfl : c = call := h
    exact .inl rfl
  | liquidate env liquidator user positionId closeSize price =>
    cases h with
    | liquidateReduce | seizeForDeficit | absorbBadDebt => exact .inr (.inl ⟨_, rfl⟩)
    | payLiquidator => exact .inr (.inr ⟨_, rfl⟩)
  | adl env keeper counterparty positionId closeSize price =>
    cases h with
    | liquidateReduce => exact .inr (.inl ⟨_, rfl⟩)
    | reduceBadDebt => exact .inr (.inr ⟨_, rfl⟩)
  | gateway op =>
    obtain ⟨fill, _, h⟩ := h
    obtain ⟨call, rfl, _⟩ := h.account
    exact .inr (.inl ⟨call, rfl⟩)

/-- A call has the transaction's host, with a caller of the protocol when it is nested. -/
theorem Makes.env_cases (h : op.Makes d c) : c.env = op.env ∨
    c.env = op.env.callFrom d.gateway ∨ c.env = op.env.callFrom d.liquidation := by
  cases op with
  | direct call =>
    obtain rfl : c = call := h
    exact .inl rfl
  | liquidate env liquidator user positionId closeSize price =>
    cases h <;> exact .inr (.inr rfl)
  | adl env keeper counterparty positionId closeSize price =>
    cases h <;> exact .inr (.inr rfl)
  | gateway op =>
    obtain ⟨fill, _, h⟩ := h
    cases h <;> exact .inr (.inl rfl)

/-- Only the gateway and the liquidation contract stand behind a nested call. -/
theorem Makes.not_authorizes (h : op.Makes d c) (hout : op.env.Outside d) {contract : Address}
    (hmem : contract ∈ d.contracts) (hg : contract ≠ d.gateway) (hl : contract ≠ d.liquidation) :
    ¬ c.env.Authorizes contract := by
  have hunsigned : ¬ op.env.signed contract = true := fun hs => hout contract hmem (.inr hs)
  rcases h.env_cases with he | he | he
  · rw [he]
    exact hout contract hmem
  · rw [he, Env.authorizes_callFrom]
    exact not_or.mpr ⟨Ne.symm hg, hunsigned⟩
  · rw [he, Env.authorizes_callFrom]
    exact not_or.mpr ⟨Ne.symm hl, hunsigned⟩

theorem Makes.transfer (h : op.Makes d c) : c.env.transfer = op.env.transfer := by
  rcases h.env_cases with he | he | he <;> rw [he] <;> rfl

theorem Makes.timestamp (h : op.Makes d c) : c.env.timestamp = op.env.timestamp := by
  rcases h.env_cases with he | he | he <;> rw [he] <;> rfl

end ProtocolOp

/-- A transaction is its calls, and then at most writes of the gateway to its order tables. -/
theorem ProtocolOp.calls {op : ProtocolOp} (h : Returns op.call w () w') :
    ∃ v filled cancelled, Calls (op.Makes w.deployed) w v ∧
      w' = { v with gateway := { v.gateway with filled, cancelled } } := by
  cases op with
  | direct call => exact ⟨w', _, _, .one rfl h, rfl⟩
  | liquidate env liquidator user positionId closeSize price =>
    obtain ⟨_, h⟩ := returns_void.mp h
    exact ⟨w', _, _, Liquidation.liquidate_calls h, rfl⟩
  | adl env keeper counterparty positionId closeSize price =>
    obtain ⟨_, h⟩ := returns_void.mp h
    exact ⟨w', _, _, Liquidation.adl_calls h, rfl⟩
  | gateway op =>
    obtain ⟨v, filled, cancelled, hcalls, rfl⟩ := GatewayOp.calls h
    exact ⟨v, filled, cancelled, hcalls, rfl⟩

/-- A transaction leaves the contracts at their addresses. -/
theorem ProtocolOp.deployed {op : ProtocolOp} (h : Returns op.call w () w') :
    w'.deployed = w.deployed := by
  obtain ⟨v, _, _, hcalls, rfl⟩ := ProtocolOp.calls h
  exact hcalls.deployed

end Kryon

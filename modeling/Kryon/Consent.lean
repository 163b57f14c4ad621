import Kryon.Engine.Stale
import Kryon.Gateway.Margin
import Kryon.Risk.Identity

/-! # Who may change an account

The vault's balances and the engine's positions are written by many calls. For each user every
change has a reason in the state or the transaction: the user's own payment, an order that the
user authorized, a liquidation of a liquidatable account, a deleveraging while there is bad debt,
or a debt of the user's that the operator settles. -/
namespace Kryon
open Transaction Runs

/-! ## Bystanders -/

/-- Nothing happened to the user's account, but that the fee recipient may have been credited. -/
structure Bystander (w w' : World) (user : Address) : Prop where
  positions : w'.engine.loadPositions user = w.engine.loadPositions user
  mirrored : w'.vault.loadPositions user = w.vault.loadPositions user
  recorded : w'.vault.userAssets.get user = w.vault.userAssets.get user
  credited : ∀ asset, w.vault.balanceOf user asset ≤ w'.vault.balanceOf user asset
  same : w.engine.feeRecipient ≠ some user →
    ∀ asset, w'.vault.balanceOf user asset = w.vault.balanceOf user asset

section Bystanders

variable {env : Env} {w w' w'' : World} {user : Address}

theorem Bystander.refl (w : World) (user : Address) : Bystander w w user :=
  ⟨rfl, rfl, rfl, fun _ => le_rfl, fun _ _ => rfl⟩

theorem Bystander.trans (h : Bystander w w' user) (h' : Bystander w' w'' user)
    (hrecipient : w'.engine.feeRecipient = w.engine.feeRecipient) : Bystander w w'' user where
  positions := h'.positions.trans h.positions
  mirrored := h'.mirrored.trans h.mirrored
  recorded := h'.recorded.trans h.recorded
  credited asset := (h.credited asset).trans (h'.credited asset)
  same hne asset := (h'.same (hrecipient ▸ hne) asset).trans (h.same hne asset)

/-- The vault's slice of the account is where it was. -/
theorem Bystander.of_account (hpositions : w'.engine.loadPositions user = w.engine.loadPositions user)
    (ha : SameAccount w w' user) : Bystander w w' user :=
  ⟨hpositions, ha.positions, ha.userAssets, fun asset => (ha.balanceOf asset).ge, fun _ => ha.balanceOf⟩

theorem Bystander.of_kept (hvault : w'.vault = w.vault) (hengine : w'.engine = w.engine) :
    Bystander w w' user := by
  refine .of_account ?_ ⟨?_, ?_, fun asset => ?_⟩
  · rw [hengine]
  all_goals rw [hvault]

/-! ## One call -/

/-- Whose account a call of the vault is for, imports aside. -/
def VaultOp.ConcernsUser (user : Address) : VaultOp → Prop
  | deposit _ u .. | withdraw _ u .. | applyPnl _ u .. | absorbBadDebt _ u .. | settleDeficit _ _ u _
  | seizeForDeficit _ u .. => u = user
  | migrateImportBalances .. => False

/-- Whose account a call on the engine and the vault is for; funding goes to the fund. -/
def AccountOp.ConcernsUser (w : World) (user : Address) : AccountOp → Prop
  | trade op => op.user = user
  | chargeTradeFee _ u .. => u = user
  | updateFunding .. => w.engine.insurance = some user
  | migrateImportPositions .. => False
  | vault op => op.ConcernsUser user

theorem VaultStorage.Credited.other {s s' : VaultStorage} {u asset : Address} {amount : Int}
    (h : s.Credited s' u asset amount) (hne : u ≠ user) (a : Address) :
    s'.balanceOf user a = s.balanceOf user a := by
  rw [h.balanceOf, if_neg fun he => hne he.1.symm]

namespace Vault

variable {u asset oracle : Address} {totals next : SeizeTotals} {deficitAsset : Address}
  {assets : List Address} {r : Int}

/-- The seizure loop takes from one account only. -/
theorem seizeAssets_other (hne : u ≠ user) (horacle : oracleAddress w = .ok oracle)
    (h : Returns (seizeAssets env u oracle (deficitPrice env w deficitAsset) totals assets) w next w') :
    ∀ a, w'.vault.balanceOf user a = w.vault.balanceOf user a := by
  induction assets generalizing totals w with
  | nil =>
    obtain ⟨_, rfl⟩ := returns_pure.mp h
    exact fun _ => rfl
  | cons asset rest ih =>
    rcases returns_ite.mp h with ⟨_, hstop⟩ | ⟨howed, hgo⟩
    · obtain ⟨_, rfl⟩ := returns_pure.mp hstop
      exact fun _ => rfl
    · obtain ⟨mid, v, hone, hrest⟩ := returns_bind.mp hgo
      obtain ⟨vault, hcredit, rfl⟩ := (seizeAsset_takes horacle (not_le.mp howed) hone).vault
      have hother := hcredit.other hne
      obtain ⟨balance, rfl⟩ := hcredit.rest
      have hsame := ih (w := { w with vault := { w.vault with balance } }) horacle hrest
      exact fun a => (hsame a).trans (hother a)

theorem seizeForDeficitInner_other (hne : u ≠ user)
    (h : Returns (seizeForDeficitInner env u asset) w r w') : Bystander w w' user := by
  rcases seizeForDeficitInner_cases h with ⟨_, _, rfl⟩ | ⟨_, oracle, totals, v, vault, horacle, hloop, hcredit, _, rfl⟩
  · exact .refl _ _
  · have hsame := seizeAssets_other hne horacle hloop
    obtain ⟨_, _, ⟨⟨_, rfl⟩, _⟩, rfl⟩ := seizeAssets_spends horacle hloop
    have hother := hcredit.other hne
    obtain ⟨_, rfl⟩ := hcredit.rest
    exact .of_account rfl ⟨rfl, rfl, fun a => (hother a).trans (hsame a)⟩

end Vault

theorem VaultOp.bystander {op : VaultOp} (hsealed : w.vault.migrationSealed = true)
    (hother : ¬ op.ConcernsUser user) (h : Returns op.call w () w') : Bystander w w' user := by
  cases op with
  | deposit env u asset amount =>
    obtain ⟨_, h⟩ := returns_void.mp h
    obtain ⟨_, _, tokens, totalDeposited, rfl⟩ := Vault.deposit_effect h
    have hne : user ≠ u := Ne.symm hother
    refine .of_account rfl ⟨?_, ?_, fun a => ?_⟩
    · simp [VaultStorage.loadPositions, VaultStorage.setBalance]
    · exact VaultStorage.recordAsset_userAssets_other _ asset hne
    · rw [VaultStorage.recordAsset_balanceOf, VaultStorage.balanceOf_setBalance, if_neg fun he => hne he.1]
      rfl
  | withdraw env u asset amount =>
    obtain ⟨_, h⟩ := returns_void.mp h
    obtain ⟨_, _, rfl⟩ := (Vault.withdraw_withdrawn h).moved
    refine .of_account rfl ⟨rfl, rfl, fun a => ?_⟩
    show (w.vault.setBalance u asset _).balanceOf user a = _
    rw [VaultStorage.balanceOf_setBalance, if_neg fun he => hother he.1.symm]
  | applyPnl env u asset pnl =>
    obtain ⟨_, h⟩ := returns_void.mp h
    obtain ⟨_, rfl⟩ := Vault.applyPnl_effect h
    refine .of_account rfl ⟨rfl, rfl, fun a => ?_⟩
    show (w.vault.setBalance u asset _).balanceOf user a = _
    rw [VaultStorage.balanceOf_setBalance, if_neg fun he => hother he.1.symm]
  | absorbBadDebt env u asset =>
    obtain ⟨_, h⟩ := returns_void.mp h
    rcases Vault.absorbBadDebt_moved h with rfl | ⟨_, _, _, _, _, _, _, hcredit, rfl, _⟩
    · exact .refl _ _
    · obtain ⟨hmirrored, hrecorded, hbalance⟩ := (KeepsAccount.of_credited hcredit (Ne.symm hother)).account
      exact .of_account rfl ⟨hmirrored, hrecorded, hbalance⟩
  | settleDeficit env caller u asset =>
    obtain ⟨_, h⟩ := returns_void.mp h
    exact Vault.seizeForDeficitInner_other hother (Vault.settleDeficit_inner h)
  | seizeForDeficit env u asset =>
    obtain ⟨_, h⟩ := returns_void.mp h
    exact Vault.seizeForDeficitInner_other hother (Vault.seizeForDeficit_inner h)
  | migrateImportBalances env entries =>
    obtain ⟨_, h⟩ := returns_void.mp h
    simp only [Vault.migrateImportBalances, returns_readWith_bind, returns_get_bind,
      returns_lift_bind, reject_ok] at h
    obtain ⟨_, _, _, hopen, _⟩ := h
    exact absurd hsealed hopen

/-- A fee is never negative. -/
theorem Engine.chargeTradeFee_nonneg {u : Address} {marketId : Nat} {size price : Int} {isMaker : Bool} {r : Int}
    (h : Returns (chargeTradeFee env u marketId size price isMaker) w r w') : 0 ≤ r := by
  simp only [chargeTradeFee, returns_lift_bind, returns_get_bind] at h
  obtain ⟨_, _, hbody⟩ := h
  rcases returns_ite.mp hbody with ⟨_, hnone⟩ | ⟨_, hfee⟩
  · exact (returns_pure.mp hnone).1.le
  · simp only [returns_readWith_bind, returns_lift_bind] at hfee
    obtain ⟨_, _, n, hn, fee, hfee, _, _, _, _, _, _, hrun⟩ := hfee
    obtain ⟨_, _, _, hrun⟩ := returns_bind.mp hrun
    obtain ⟨_, _, hrun⟩ := returns_readWith_bind.mp hrun
    obtain ⟨_, _, _, hret⟩ := returns_bind.mp hrun
    obtain ⟨rfl, _⟩ := returns_pure.mp hret
    obtain ⟨hsize, hprice, rfl⟩ := notional_ok hn
    obtain ⟨_, _, rfl⟩ := applyBps_ok.mp hfee
    exact Int.tdiv_nonneg (mul_nonneg (Int.ediv_nonneg (mul_pos hsize hprice).le precision_pos.le)
      (Int.natCast_nonneg _)) (by decide)

theorem AccountOp.bystander {op : AccountOp} (hvault : w.vault.migrationSealed = true)
    (hengine : w.engine.migrationSealed = true) (hother : ¬ op.ConcernsUser w user)
    (h : Returns op.call w () w') : Bystander w w' user := by
  cases op with
  | trade op =>
    obtain ⟨_, _, _, _, _, _, _, ht, _⟩ := EngineOp.checked h
    refine .of_account ?_ (KeepsAccount.of_traded ht (Ne.symm hother)).account
    rw [ht.loadPositions, if_neg (Ne.symm hother)]
  | chargeTradeFee env u marketId size price isMaker =>
    obtain ⟨r, h⟩ := returns_void.mp h
    have hnn := Engine.chargeTradeFee_nonneg h
    rcases Engine.chargeTradeFee_effect h with
      rfl | ⟨_, recipient, paid, vault, _, hrecipient, hpaid, _, hcredit, rfl⟩
    · exact .refl _ _
    · have hdebit := hpaid.other hother
      have hcredited : ∀ a, w.vault.balanceOf user a ≤ vault.balanceOf user a := by
        intro a
        rw [hcredit.balanceOf, hdebit]
        split <;> omega
      have hsame : w.engine.feeRecipient ≠ some user →
          ∀ a, vault.balanceOf user a = w.vault.balanceOf user a := by
        intro hne a
        have hrecipient : recipient ≠ user := by
          rintro rfl
          exact hne hrecipient
        exact (hcredit.other hrecipient a).trans (hdebit a)
      obtain ⟨_, rfl⟩ := hpaid.rest
      obtain ⟨_, rfl⟩ := hcredit.rest
      exact ⟨rfl, rfl, rfl, hcredited, hsame⟩
  | updateFunding env marketId =>
    obtain ⟨_, h⟩ := returns_void.mp h
    obtain ⟨_, _, vault, rfl, ⟨_, rfl⟩, hsame, _⟩ := Engine.updateFunding_effect h
    exact .of_account rfl ⟨rfl, rfl, fun a => hsame user a hother⟩
  | migrateImportPositions env entries =>
    obtain ⟨_, h⟩ := returns_void.mp h
    simp only [Engine.migrateImportPositions, returns_readWith_bind, returns_get_bind,
      returns_lift_bind, reject_ok] at h
    obtain ⟨_, _, _, hopen, _⟩ := h
    exact absurd hengine hopen
  | vault op => exact VaultOp.bystander hvault hother h

end Bystanders

/-! ## The wiring -/

/-- The contracts take each other's calls, and imports are over. -/
structure World.Linked (w : World) : Prop where
  distinct : w.deployed.contracts.Nodup
  orderGateway : w.engine.orderGateway = some w.deployed.gateway
  feeCollector : w.engine.feeCollector = some w.deployed.gateway
  reducer : w.engine.liquidation = some w.deployed.liquidation
  keeper : w.vault.engine = some w.deployed.engine
  seizer : w.vault.liquidation = some w.deployed.liquidation
  vaultClosed : w.vault.migrationSealed = true
  engineClosed : w.engine.migrationSealed = true

/-- The setters that hand accounts to another contract. -/
def ContractCall.Reassigns (d : Deployment) : ContractCall → Prop
  | .configure _ (.engine (.setOrderGateway other)) => other ≠ d.gateway
  | .configure _ (.engine (.setFeeCollector other)) => other ≠ d.gateway
  | .configure _ (.engine (.setLiquidation other)) => other ≠ d.liquidation
  | .configure _ (.vault (.setEngine other)) => other ≠ d.engine
  | .configure _ (.vault (.setLiquidation other)) => other ≠ d.liquidation
  | _ => False

def ProtocolOp.Reassigns (d : Deployment) : ProtocolOp → Prop
  | .direct call => call.Reassigns d
  | _ => False

section Linked

variable {env : Env} {w w' : World} {user : Address} {u : Unit}

theorem World.Linked.of_config (hw : w.Linked) (h : w'.config = w.config) : w'.Linked where
  distinct := by
    rw [deployed_of_config h]
    exact hw.distinct
  orderGateway := by
    rw [deployed_of_config h, ← hw.orderGateway]
    exact config_congr (fun v => v.engine.orderGateway) (fun _ => rfl) h
  feeCollector := by
    rw [deployed_of_config h, ← hw.feeCollector]
    exact config_congr (fun v => v.engine.feeCollector) (fun _ => rfl) h
  reducer := by
    rw [deployed_of_config h, ← hw.reducer]
    exact config_congr (fun v => v.engine.liquidation) (fun _ => rfl) h
  keeper := by
    rw [deployed_of_config h, ← hw.keeper]
    exact config_congr (fun v => v.vault.engine) (fun _ => rfl) h
  seizer := by
    rw [deployed_of_config h, ← hw.seizer]
    exact config_congr (fun v => v.vault.liquidation) (fun _ => rfl) h
  vaultClosed := (config_congr (fun v => v.vault.migrationSealed) (fun _ => rfl) h).trans hw.vaultClosed
  engineClosed := (config_congr (fun v => v.engine.migrationSealed) (fun _ => rfl) h).trans hw.engineClosed

theorem Setting.linked {setting : Setting} (hw : w.Linked)
    (hkeeps : ¬ (ContractCall.configure env setting).Reassigns w.deployed)
    (h : Returns (setting.call env) w u w') : w'.Linked := by
  have hkept := Setting.kept h
  have hdeployed : w'.deployed = w.deployed :=
    ledger_congr World.deployed (fun _ => rfl) (Setting.effect h).2.ledger
  have hdistinct : w'.deployed.contracts.Nodup := hdeployed ▸ hw.distinct
  cases setting with
  | vault setting =>
    have hengine := hkept.others
    refine ⟨hdistinct, ?_, ?_, ?_, ?_, ?_, hkept.closed hw.vaultClosed, ?_⟩
    · rw [hengine, hdeployed]
      exact hw.orderGateway
    · rw [hengine, hdeployed]
      exact hw.feeCollector
    · rw [hengine, hdeployed]
      exact hw.reducer
    · rw [hdeployed]
      cases setting with
      | setEngine other =>
        obtain rfl : other = w.deployed.engine := not_not.mp hkeeps
        obtain ⟨_, rfl⟩ := Vault.configure_effect h
        rfl
      | _ => exact (hkept.engine (by simp)).trans hw.keeper
    · rw [hdeployed]
      cases setting with
      | setLiquidation other =>
        obtain rfl : other = w.deployed.liquidation := not_not.mp hkeeps
        obtain ⟨_, rfl⟩ := Vault.configure_effect h
        rfl
      | _ => exact (hkept.liquidation (by simp)).trans hw.seizer
    · rw [hengine]
      exact hw.engineClosed
  | engine setting =>
    have hvault := hkept.others
    refine ⟨hdistinct, ?_, ?_, ?_, ?_, ?_, ?_, hkept.closed hw.engineClosed⟩
    · rw [hdeployed]
      cases setting with
      | setOrderGateway other =>
        obtain rfl : other = w.deployed.gateway := not_not.mp hkeeps
        obtain ⟨_, rfl⟩ := Engine.configure_effect h
        rfl
      | _ => exact (hkept.orderGateway (by simp)).trans hw.orderGateway
    · rw [hdeployed]
      cases setting with
      | setFeeCollector other =>
        obtain rfl : other = w.deployed.gateway := not_not.mp hkeeps
        obtain ⟨_, rfl⟩ := Engine.configure_effect h
        rfl
      | _ => exact (hkept.feeCollector (by simp)).trans hw.feeCollector
    · rw [hdeployed]
      cases setting with
      | setLiquidation other =>
        obtain rfl : other = w.deployed.liquidation := not_not.mp hkeeps
        obtain ⟨_, rfl⟩ := Engine.configure_effect h
        rfl
      | _ => exact (hkept.liquidation (by simp)).trans hw.reducer
    · rw [hvault, hdeployed]
      exact hw.keeper
    · rw [hvault, hdeployed]
      exact hw.seizer
    · rw [hvault]
      exact hw.vaultClosed
  | insurance | liquidation | gateway =>
    obtain ⟨hvault, hengine⟩ := hkept
    refine ⟨hdistinct, ?_, ?_, ?_, ?_, ?_, ?_, ?_⟩
    · rw [hengine, hdeployed]
      exact hw.orderGateway
    · rw [hengine, hdeployed]
      exact hw.feeCollector
    · rw [hengine, hdeployed]
      exact hw.reducer
    · rw [hvault, hdeployed]
      exact hw.keeper
    · rw [hvault, hdeployed]
      exact hw.seizer
    · rw [hvault]
      exact hw.vaultClosed
    · rw [hengine]
      exact hw.engineClosed

theorem ContractCall.linked {c : ContractCall} (hw : w.Linked) (hkeeps : ¬ c.Reassigns w.deployed)
    (h : Returns c.call w () w') : w'.Linked := by
  cases c with
  | account op => exact hw.of_config (AccountOp.config h)
  | fund op => exact hw.of_config (FundOp.config h)
  | oracle op =>
    obtain ⟨_, _, rfl⟩ := onOracle_returns.mp h
    exact ⟨hw.distinct, hw.orderGateway, hw.feeCollector, hw.reducer, hw.keeper, hw.seizer, hw.vaultClosed,
      hw.engineClosed⟩
  | syncPositions env user positions =>
    obtain ⟨_, rfl⟩ := Vault.syncPositions_effect h
    exact hw.of_config rfl
  | setFundingIndexes env marketId long short =>
    obtain rfl := Vault.setFundingIndexes_effect h
    exact hw.of_config rfl
  | configure env setting => exact Setting.linked hw hkeeps h

end Linked

/-! ## Reasons -/

/-- The owner authorized the order, in the transaction or by a signature of its message. -/
def Order.Approved (order : Order) (env : Env) (w : World) : Prop :=
  (∃ role, Gateway.requireOrderAuth env role order = .ok ()) ∨
    ∃ sig, Gateway.verifyOrderSignature env w.gateway order sig = .ok ()

/-- Why a transaction may change the user's account. -/
inductive Reason (w : World) (user : Address) : ProtocolOp → Prop
  | deposit {env : Env} {asset : Address} {amount : Int} (hauth : env.Authorizes user) :
      Reason w user (.direct (.account (.vault (.deposit env user asset amount))))
  | withdrawal {env : Env} {asset : Address} {amount : Int} (hauth : env.Authorizes user) :
      Reason w user (.direct (.account (.vault (.withdraw env user asset amount))))
  | deficit {env : Env} {caller asset : Address} (howes : w.vault.balanceOf user asset < 0)
      (hauth : env.Authorizes caller) (hcaller : caller = user ∨ w.vault.operator = some caller) :
      Reason w user (.direct (.account (.vault (.settleDeficit env caller user asset))))
  | order {op : GatewayOp} {fill : MatchedFill} {order : Order} (hfill : op.fill? = some fill)
      (ho : order = fill.maker ∨ order = fill.taker) (howner : order.owner = user)
      (happroved : order.Approved op.env w)
      (hvalid : Gateway.validateFill op.env.timestamp w.gateway fill = .ok ()) :
      Reason w user (.gateway op)
  | liquidation {env : Env} {liquidator : Address} {positionId : Nat} {closeSize price : Int}
      {health : AccountHealth} (hhealth : Liquidation.vaultHealth env w user = .ok health)
      (hliquidatable : health.liquidatable = true) :
      Reason w user (.liquidate env liquidator user positionId closeSize price)
  | deleveraging {env : Env} {keeper asset : Address} {positionId : Nat} {closeSize price : Int}
      (hsettles : w.liquidation.settlementAsset = some asset) (hdebt : 0 < w.insurance.badDebtOf asset) :
      Reason w user (.adl env keeper user positionId closeSize price)
  | fund {env : Env} {marketId : Nat} (hfund : w.engine.insurance = some user) :
      Reason w user (.direct (.account (.updateFunding env marketId)))

section Reasons

variable {env : Env} {w w' : World} {user : Address}

/-- A role that a contract holds takes no call from outside. -/
theorem Env.Outside.refuses {d : Deployment} {role : Option Address} {contract other : Address}
    (hout : env.Outside d) (hrole : role = some contract) (hc : contract ∈ d.contracts) :
    ¬ (role = some other ∧ env.Authorizes other) := by
  rintro ⟨hother, hauth⟩
  obtain rfl := Option.some.inj (hrole.symm.trans hother)
  exact hout _ hc hauth

/-- Trades are calls of the gateway or of the liquidation contract. -/
theorem EngineOp.role {op : EngineOp} (h : Returns op.call w () w') :
    (∃ gateway, w.engine.orderGateway = some gateway ∧ op.env.Authorizes gateway) ∨
      ∃ liquidation, w.engine.liquidation = some liquidation ∧ op.env.Authorizes liquidation := by
  cases op with
  | openPosition | increasePosition | reducePosition =>
    obtain ⟨_, h⟩ := returns_void.mp h
    obtain ⟨_, hrole, _⟩ := returns_readWith_bind.mp h
    exact .inl ⟨_, requireRole_ok hrole⟩
  | closePosition env user positionId price =>
    obtain ⟨_, h⟩ := returns_void.mp h
    simp only [Engine.closePosition, returns_get_bind, returns_lift_bind] at h
    obtain ⟨_, _, h⟩ := h
    obtain ⟨_, hrole, _⟩ := returns_readWith_bind.mp h
    exact .inl ⟨_, requireRole_ok hrole⟩
  | liquidateReduce =>
    obtain ⟨_, h⟩ := returns_void.mp h
    obtain ⟨_, hrole, _⟩ := returns_readWith_bind.mp h
    exact .inr ⟨_, requireRole_ok hrole⟩

theorem Engine.chargeTradeFee_collected {u : Address} {marketId : Nat} {size price : Int} {isMaker : Bool}
    {r : Int} (h : Returns (chargeTradeFee env u marketId size price isMaker) w r w') :
    w' = w ∨ ∃ collector, w.engine.feeCollector = some collector ∧ env.Authorizes collector := by
  simp only [chargeTradeFee, returns_lift_bind, returns_get_bind] at h
  obtain ⟨_, _, hbody⟩ := h
  rcases returns_ite.mp hbody with ⟨_, hnone⟩ | ⟨_, hfee⟩
  · exact .inl (returns_pure.mp hnone).2
  · obtain ⟨_, hrole, _⟩ := returns_readWith_bind.mp hfee
    exact .inr ⟨_, requireRole_ok hrole⟩

/-- A call of the vault from outside is for the user's own account, or for a debt in it. -/
theorem VaultOp.reason {op : VaultOp} (hw : w.Linked) (hout : op.env.Outside w.deployed)
    (h : Returns op.call w () w') :
    Bystander w w' user ∨ Reason w user (.direct (.account (.vault op))) := by
  by_cases hother : op.ConcernsUser user
  swap
  · exact .inl (VaultOp.bystander hw.vaultClosed hother h)
  cases op with
  | deposit env u asset amount =>
    obtain rfl : u = user := hother
    obtain ⟨_, h⟩ := returns_void.mp h
    exact .inr (.deposit (Vault.deposit_deposited h).authorized)
  | withdraw env u asset amount =>
    obtain rfl : u = user := hother
    obtain ⟨_, h⟩ := returns_void.mp h
    exact .inr (.withdrawal (Vault.withdraw_withdrawn h).authorized)
  | applyPnl env u asset pnl =>
    obtain ⟨_, h⟩ := returns_void.mp h
    obtain ⟨_, hrole, _⟩ := returns_readWith_bind.mp h
    exact absurd (requireRole_ok hrole) (hout.refuses hw.keeper (by simp [Deployment.contracts]))
  | absorbBadDebt env u asset | seizeForDeficit env u asset =>
    obtain ⟨_, h⟩ := returns_void.mp h
    obtain ⟨_, hrole, _⟩ := returns_readWith_bind.mp h
    exact absurd (requireRole_ok hrole) (hout.refuses hw.seizer (by simp [Deployment.contracts]))
  | settleDeficit env caller u asset =>
    obtain rfl : u = user := hother
    obtain ⟨_, h⟩ := returns_void.mp h
    have hinner := Vault.settleDeficit_inner h
    rcases Vault.seizeForDeficitInner_cases hinner with ⟨_, _, rfl⟩ | ⟨howes, _⟩
    · exact .inl (.refl _ _)
    · simp only [Vault.settleDeficit, Vault.requireOperatorOrUser, returns_readWith_bind, except_bind_ok,
        requireAuth_ok] at h
      obtain ⟨_, ⟨_, hauth, hcaller⟩, _⟩ := h
      refine .inr (.deficit howes hauth ?_)
      by_cases hself : caller = u
      · exact .inl hself
      · rw [if_pos hself] at hcaller
        simp only [except_bind_ok, okOr_ok, reject_ok, not_not] at hcaller
        obtain ⟨_, hoperator, rfl⟩ := hcaller
        exact .inr hoperator
  | migrateImportBalances => cases hother

theorem AccountOp.reason {op : AccountOp} (hw : w.Linked) (hout : op.env.Outside w.deployed)
    (h : Returns op.call w () w') : Bystander w w' user ∨ Reason w user (.direct (.account op)) := by
  cases op with
  | trade op =>
    rcases EngineOp.role h with ⟨_, hgateway⟩ | ⟨_, hreducer⟩
    · exact absurd hgateway (hout.refuses hw.orderGateway (by simp [Deployment.contracts]))
    · exact absurd hreducer (hout.refuses hw.reducer (by simp [Deployment.contracts]))
  | chargeTradeFee env u marketId size price isMaker =>
    obtain ⟨_, h⟩ := returns_void.mp h
    rcases Engine.chargeTradeFee_collected h with rfl | ⟨_, hcollector⟩
    · exact .inl (.refl _ _)
    · exact absurd hcollector (hout.refuses hw.feeCollector (by simp [Deployment.contracts]))
  | updateFunding env marketId =>
    by_cases hfund : w.engine.insurance = some user
    · exact .inr (.fund hfund)
    · refine .inl (AccountOp.bystander hw.vaultClosed hw.engineClosed ?_ h)
      exact hfund
  | migrateImportPositions env entries =>
    exact .inl (AccountOp.bystander hw.vaultClosed hw.engineClosed id h)
  | vault op => exact VaultOp.reason hw hout h

theorem ContractCall.reason {c : ContractCall} (hw : w.Linked) (hout : c.env.Outside w.deployed)
    (h : Returns c.call w () w') : Bystander w w' user ∨ Reason w user (.direct c) := by
  cases c with
  | account op => exact AccountOp.reason hw hout h
  | fund op =>
    obtain ⟨_, hvault, hengine⟩ := FundOp.kept h
    exact .inl (.of_kept hvault hengine)
  | oracle op =>
    obtain ⟨_, _, rfl⟩ := onOracle_returns.mp h
    exact .inl (.of_kept rfl rfl)
  | syncPositions env u positions =>
    obtain ⟨_, hrole, _⟩ := returns_readWith_bind.mp h
    exact absurd (requireRole_ok hrole) (hout.refuses hw.keeper (by simp [Deployment.contracts]))
  | setFundingIndexes env marketId long short =>
    obtain rfl := Vault.setFundingIndexes_effect h
    exact .inl (.of_account rfl ⟨rfl, rfl, fun _ => rfl⟩)
  | configure env setting =>
    have hledger := (Setting.effect h).2.ledger
    refine .inl (.of_account ?_ ⟨?_, ?_, fun asset => ?_⟩)
    · exact ledger_congr (fun v => v.engine.loadPositions user) (fun _ => rfl) hledger
    · exact ledger_congr (fun v => v.vault.loadPositions user) (fun _ => rfl) hledger
    · exact ledger_congr (fun v => v.vault.userAssets.get user) (fun _ => rfl) hledger
    · exact ledger_congr (fun v => v.vault.balanceOf user asset) (fun _ => rfl) hledger

/-- Calls for other users' accounts, and calls on the fund. -/
theorem Calls.bystander {M : ContractCall → Prop} (hw : w.Linked)
    (hM : ∀ c, M c → (∃ op, c = .account op ∧ ∀ v, ¬ op.ConcernsUser v user) ∨ ∃ op, c = .fund op)
    (h : Calls M w w') : Bystander w w' user := by
  refine (h.keeps (I := fun v => Bystander w v user ∧ v.config = w.config)
    (fun {v v' c} hv hc hcall => ?_) ⟨.refl w user, rfl⟩).1
  obtain ⟨hv, hconfig⟩ := hv
  have hlinked := hw.of_config hconfig
  have hrecipient : v.engine.feeRecipient = w.engine.feeRecipient :=
    config_congr (fun v => v.engine.feeRecipient) (fun _ => rfl) hconfig
  rcases hM c hc with ⟨op, rfl, hother⟩ | ⟨op, rfl⟩
  · have hstep := AccountOp.config hcall
    refine ⟨hv.trans (AccountOp.bystander hlinked.vaultClosed hlinked.engineClosed (hother v) hcall)
      hrecipient, hstep.trans hconfig⟩
  · obtain ⟨_, hvault, hengine⟩ := FundOp.kept hcall
    exact ⟨hv.trans (.of_kept hvault hengine) hrecipient, (FundOp.config hcall).trans hconfig⟩

theorem GatewayOp.approved {op : GatewayOp} {fill : MatchedFill} (hfill : op.fill? = some fill)
    (h : Returns op.call w () w') :
    fill.maker.Approved op.env w ∧ fill.taker.Approved op.env w ∧
      Gateway.validateFill op.env.timestamp w.gateway fill = .ok () := by
  cases op with
  | cancelOrder | reclaimOrderState => cases hfill
  | settleFill env fill =>
    obtain rfl := Option.some.inj hfill
    obtain ⟨_, h⟩ := returns_void.mp h
    simp only [Gateway.settleFill, returns_readWith_bind, returns_lift_bind] at h
    obtain ⟨_, _, _, _, _, hmaker, _, htaker, _, hvalid, _⟩ := h
    exact ⟨.inl ⟨_, hmaker⟩, .inl ⟨_, htaker⟩, hvalid⟩
  | settleFillSigned env fill makerSig takerSig =>
    obtain rfl := Option.some.inj hfill
    obtain ⟨_, h⟩ := returns_void.mp h
    simp only [Gateway.settleFillSigned, returns_readWith_bind] at h
    obtain ⟨_, _, _, _, _, hmaker, _, htaker, _, hvalid, _⟩ := h
    exact ⟨.inr ⟨_, hmaker⟩, .inr ⟨_, htaker⟩, hvalid⟩

/-- A call of a fill is for the account of one of its orders' owners. -/
theorem FillCall.concerns {fill : MatchedFill} {c : ContractCall} (h : FillCall env fill c)
    (hmaker : fill.maker.owner ≠ user) (htaker : fill.taker.owner ≠ user) :
    ∃ op, c = .account op ∧ ∀ v, ¬ op.ConcernsUser v user := by
  have hother : ∀ {order : Order}, order = fill.maker ∨ order = fill.taker → order.owner ≠ user := by
    rintro order (rfl | rfl)
    · exact hmaker
    · exact htaker
  cases h with
  | openPosition ho | increasePosition ho | reducePosition ho | chargeTradeFee ho =>
    exact ⟨_, rfl, fun _ => hother ho⟩

theorem ProtocolOp.reason {op : ProtocolOp} (hw : w.Linked) (hout : op.env.Outside w.deployed)
    (h : Returns op.call w () w') : Bystander w w' user ∨ Reason w user op := by
  cases op with
  | direct call => exact ContractCall.reason hw hout h
  | liquidate env liquidator u positionId closeSize price =>
    obtain ⟨_, h⟩ := returns_void.mp h
    by_cases hself : u = user
    · subst hself
      simp only [Liquidation.liquidate, returns_lift_bind, returns_readWith_bind, reject_ok,
        Bool.not_eq_false] at h
      obtain ⟨_, _, _, _, _, _, _, _, health, hhealth, _, hliquidatable, _⟩ := h
      exact .inr (.liquidation hhealth hliquidatable)
    · refine .inl (Calls.bystander hw (fun c hc => ?_) (Liquidation.liquidate_calls h))
      cases hc with
      | liquidateReduce | seizeForDeficit | absorbBadDebt => exact .inl ⟨_, rfl, fun _ => hself⟩
      | payLiquidator => exact .inr ⟨_, rfl⟩
  | adl env keeper u positionId closeSize price =>
    obtain ⟨r, h⟩ := returns_void.mp h
    by_cases hself : u = user
    · subst hself
      obtain ⟨asset, _, _, _, _, _, hsettles, hdebt, hpositive, _⟩ := Liquidation.adl_steps h
      exact .inr (.deleveraging hsettles (hdebt ▸ hpositive))
    · refine .inl (Calls.bystander hw (fun c hc => ?_) (Liquidation.adl_calls h))
      cases hc with
      | liquidateReduce => exact .inl ⟨_, rfl, fun _ => hself⟩
      | reduceBadDebt => exact .inr ⟨_, rfl⟩
  | gateway op =>
    cases hfill : op.fill? with
    | some fill =>
      obtain ⟨hmaker, htaker, hvalid⟩ := GatewayOp.approved hfill h
      by_cases hm : fill.maker.owner = user
      · exact .inr (.order hfill (.inl rfl) hm hmaker hvalid)
      by_cases ht : fill.taker.owner = user
      · exact .inr (.order hfill (.inr rfl) ht htaker hvalid)
      obtain ⟨v, filled, cancelled, hcalls, rfl⟩ := GatewayOp.calls h
      have hv : Bystander w v user := by
        refine Calls.bystander hw (fun c hc => ?_) hcalls
        obtain ⟨f, hf, hc⟩ := hc
        obtain rfl := Option.some.inj (hfill.symm.trans hf)
        exact .inl (hc.concerns hm ht)
      exact .inl ⟨hv.positions, hv.mirrored, hv.recorded, hv.credited, hv.same⟩
    | none =>
      obtain ⟨v, filled, cancelled, hcalls, rfl⟩ := GatewayOp.calls h
      have hv : Bystander w v user := by
        refine Calls.bystander hw (fun c hc => ?_) hcalls
        obtain ⟨f, hf, _⟩ := hc
        rw [hfill] at hf
        cases hf
      exact .inl ⟨hv.positions, hv.mirrored, hv.recorded, hv.credited, hv.same⟩

theorem ProtocolOp.linked {op : ProtocolOp} (hw : w.Linked) (hkeeps : ¬ op.Reassigns w.deployed)
    (h : Returns op.call w () w') : w'.Linked := by
  obtain ⟨v, _, _, hcalls, rfl⟩ := ProtocolOp.calls h
  have hv : v.deployed = w.deployed ∧ v.Linked := by
    refine hcalls.keeps (I := fun v => v.deployed = w.deployed ∧ v.Linked)
      (fun {v v' c} hv hc hcall => ?_) ⟨rfl, hw⟩
    obtain ⟨hdeployed, hv⟩ := hv
    refine ⟨(ContractCall.deployed hcall).trans hdeployed, ContractCall.linked hv ?_ hcall⟩
    rw [hdeployed]
    rcases hc.nested with rfl | ⟨_, rfl⟩ | ⟨_, rfl⟩
    · exact hkeeps
    · exact id
    · exact id
  exact hv.2.of_config rfl

/-- In a run of calls from outside that reassigns no role the wiring stands. -/
theorem ProtocolOp.linked_run {t : List (ProtocolOp × World)} (hw : w.Linked)
    (hr : IsRun (CommitStep ProtocolOp.call) w t)
    (hlabels : AllSteps (fun _ op => op.env.Outside w.deployed ∧ ¬ op.Reassigns w.deployed) w t) :
    AllStates (fun v => v.deployed = w.deployed ∧ v.Linked) w t := by
  refine invariant (fun v op v' hv hop hcall => ?_) ⟨rfl, hw⟩ hr hlabels
  obtain ⟨hdeployed, hv⟩ := hv
  obtain rfl : v' = _ := hcall
  rcases commit_cases op.call v with ⟨_, h⟩ | ⟨_, h⟩
  · rw [← hdeployed] at hop ⊢
    exact ⟨ProtocolOp.deployed h, ProtocolOp.linked hv hop.2 h⟩
  · rw [h]
    exact ⟨hdeployed, hv⟩

/-- No account changes without a reason: in any run, a transaction leaves a user's positions and
balances alone, but for fees credited to their recipient, unless the user pays in or out, the
user's order is settled as authorized, the user is liquidated while liquidatable or deleveraged
while there is bad debt, or a debt of the user's is settled; the fund's account takes the surplus
of a funding update. -/
theorem ProtocolOp.no_change_without_reason {t : List (ProtocolOp × World)} (hw : w.Linked)
    (hr : IsRun (CommitStep ProtocolOp.call) w t) (hout : ∀ e ∈ t, e.1.env.Outside w.deployed)
    (hkeeps : ∀ e ∈ t, ¬ e.1.Reassigns w.deployed) :
    AllSteps (fun v op => ∀ user, Bystander v (commit op.call v) user ∨ Reason v user op) w t := by
  have hlabels := (allSteps_labels (t := t) (s := w) (Q := fun op : ProtocolOp =>
    op.env.Outside w.deployed ∧ ¬ op.Reassigns w.deployed)).mpr fun e he => ⟨hout e he, hkeeps e he⟩
  refine (ProtocolOp.linked_run hw hr hlabels).allSteps (fun v op v' hv hcall user => ?_) (hr.and hlabels)
  obtain ⟨hdeployed, hv⟩ := hv
  rcases commit_cases op.call v with ⟨_, h⟩ | ⟨_, h⟩
  · exact ProtocolOp.reason hv (hdeployed ▸ hcall.2.1) h
  · rw [h]
    exact .inl (.refl v user)

end Reasons

namespace Sample

/-- Alice and bob have deposited, and imports are over. -/
def settling : World :=
  let w := trading 1000
  { w with
    vault := { w.vault with migrationSealed := true }
    engine := { w.engine with migrationSealed := true }
    tokens := (∅ : Tokens).set (usdc, deployment.vault) (2000 * precision) }

/-- Their orders are matched, and alice takes half of her balance out. -/
def ownBusiness : List ProtocolOp := [
  .gateway (.settleFill (bank 1000) (matched (bid precision 1 2000) (ask precision 1 2000) precision)),
  .direct (.account (.vault (.withdraw (bank 1000) alice usdc (500 * precision))))]

end Sample

open Sample in
theorem no_change_without_reason_settling :
    allSucceed ProtocolOp.call settling ownBusiness = true ∧
    AllSteps (fun v op => ∀ user, Bystander v (commit op.call v) user ∨ Reason v user op) settling
      (execute ProtocolOp.call settling ownBusiness) := by
  refine ⟨by decide +kernel, ProtocolOp.no_change_without_reason
    ⟨by decide, rfl, rfl, rfl, rfl, rfl, rfl, rfl⟩ (isRun_commit settling ownBusiness) ?_ ?_⟩
  · intro e he
    simp only [execute, ownBusiness, List.mem_cons, List.not_mem_nil, or_false] at he
    rcases he with rfl | rfl <;> exact bank_outside _
  · intro e he
    simp only [execute, ownBusiness, List.mem_cons, List.not_mem_nil, or_false] at he
    rcases he with rfl | rfl <;> exact id

end Kryon

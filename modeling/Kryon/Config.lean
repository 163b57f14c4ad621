import Kryon.Engine.Mirror
import Kryon.Protocol
import Kryon.Vault.Payments

/-! # Configuration and operation

What an admin sets, against what the calls of users, keepers and the contracts themselves
move. Those calls leave the configuration of all six contracts alone; and a setter writes
one contract's configuration, after that contract's admin authorized it, and moves nothing. -/
namespace Kryon
open Transaction

/-- The configuration: everything but the prices, the accounts, the markets' counters, the
fund's books, the order tables and the tokens. -/
def World.config (w : World) : World :=
  { w with
    oracle := { w.oracle with price := ∅ }
    vault := { w.vault with
      balance := ∅, positions := ∅, fundingLong := ∅, fundingShort := ∅, userAssets := ∅
      totalDeposited := ∅ }
    engine := { w.engine with
      nextPositionId := none, fundingState := ∅, positions := ∅, openInterest := ∅, markState := ∅
      longOpenInterest := ∅, shortOpenInterest := ∅ }
    insurance := { w.insurance with
      balance := ∅, badDebt := ∅, stakedBalance := ∅, shares := ∅, epoch := ∅, totalShares := ∅
      pendingUnstake := ∅ }
    gateway := { w.gateway with filled := ∅, cancelled := ∅ }
    tokens := ∅
    events := [] }

/-- The configuration and the prices. -/
def World.terms (w : World) : World := { w.config with oracle := w.oracle }

/-- The terms and the funding indexes: what accounts are valued by. -/
def World.valuation (w : World) : World :=
  { w.terms with
    vault := { w.terms.vault with
      fundingLong := w.vault.fundingLong, fundingShort := w.vault.fundingShort } }

/-- The rest, but for the funding states, whose clocks a setter may restart. -/
def World.ledger (w : World) : World where
  deployed := w.deployed
  oracle := { price := w.oracle.price }
  vault := {
    balance := w.vault.balance, positions := w.vault.positions, fundingLong := w.vault.fundingLong
    fundingShort := w.vault.fundingShort, userAssets := w.vault.userAssets
    totalDeposited := w.vault.totalDeposited }
  engine := {
    nextPositionId := w.engine.nextPositionId, positions := w.engine.positions
    openInterest := w.engine.openInterest, markState := w.engine.markState
    longOpenInterest := w.engine.longOpenInterest, shortOpenInterest := w.engine.shortOpenInterest }
  insurance := { w.insurance.books with }
  gateway := { filled := w.gateway.filled, cancelled := w.gateway.cancelled }
  tokens := w.tokens
  events := w.events

section Config

variable {w w' : World}

/-- The addresses, flags and limits of the configuration are those of the world. -/
theorem config_congr {α : Type} (f : World → α) (hf : ∀ v : World, f v.config = f v)
    (h : w'.config = w.config) : f w' = f w := by
  rw [← hf w', h, hf w]

theorem ledger_congr {α : Type} (f : World → α) (hf : ∀ v : World, f v.ledger = f v)
    (h : w'.ledger = w.ledger) : f w' = f w := by
  rw [← hf w', h, hf w]

theorem config_of_terms (h : w'.terms = w.terms) : w'.config = w.config := by
  have hconfig := congrArg World.config h
  exact hconfig

theorem oracle_of_terms (h : w'.terms = w.terms) : w'.oracle = w.oracle := by
  have horacle := congrArg World.oracle h
  exact horacle

theorem valuation_congr {α : Type} (f : World → α) (hf : ∀ v : World, f v.valuation = f v)
    (h : w'.valuation = w.valuation) : f w' = f w := by
  rw [← hf w', h, hf w]

theorem terms_of_valuation (h : w'.valuation = w.valuation) : w'.terms = w.terms := by
  have hterms := congrArg World.terms h
  exact hterms

theorem deployed_of_config (h : w'.config = w.config) : w'.deployed = w.deployed :=
  config_congr World.deployed (fun _ => rfl) h

/-! ## Calls that leave the configuration alone, and the prices -/

theorem EngineOp.valuation {op : EngineOp} (h : Returns op.call w () w') :
    w'.valuation = w.valuation := by
  obtain ⟨_, _, _, _, isLong, _, _, ht⟩ := EngineOp.trade h
  obtain ⟨_, ht, _⟩ := ht.traded
  obtain ⟨engine, vault, rfl⟩ := ht.world
  obtain ⟨_, _, hengine⟩ := ht.engine
  obtain ⟨_, _, _, ⟨⟨_, rfl⟩, _⟩, hvault⟩ := ht.vault
  obtain rfl : vault = _ := hvault
  obtain rfl : engine = _ := hengine
  cases isLong <;> rfl

theorem VaultOp.valuation {op : VaultOp} (h : Returns op.call w () w') :
    w'.valuation = w.valuation := by
  cases op with
  | deposit env user asset amount =>
    obtain ⟨_, h⟩ := returns_void.mp h
    obtain ⟨_, _, _, totalDeposited, rfl⟩ := Vault.deposit_effect h
    obtain ⟨_, hrecord⟩ := VaultStorage.recordAsset_rest
      ({ w.vault with totalDeposited }.setBalance user asset (w.vault.balanceOf user asset + amount))
      user asset
    rw [hrecord]
    rfl
  | withdraw env user asset amount =>
    obtain ⟨_, h⟩ := returns_void.mp h
    obtain ⟨_, _, _, _, rfl⟩ := Vault.withdraw_effect h
    rfl
  | applyPnl env user asset pnl =>
    obtain ⟨_, h⟩ := returns_void.mp h
    obtain ⟨_, rfl⟩ := Vault.applyPnl_effect h
    rfl
  | absorbBadDebt env user asset =>
    obtain ⟨_, h⟩ := returns_void.mp h
    rcases Vault.absorbBadDebt_moved h with rfl | ⟨_, _, _, _, _, _, _, ⟨⟨_, rfl⟩, _⟩, rfl, _⟩
    · rfl
    · rfl
  | settleDeficit env caller user asset =>
    obtain ⟨_, h⟩ := returns_void.mp h
    obtain ⟨_, _, ⟨⟨_, rfl⟩, _⟩, rfl⟩ := Vault.seizeForDeficitInner_effect (Vault.settleDeficit_inner h)
    rfl
  | seizeForDeficit env user asset =>
    obtain ⟨_, h⟩ := returns_void.mp h
    obtain ⟨_, _, ⟨⟨_, rfl⟩, _⟩, rfl⟩ := Vault.seizeForDeficitInner_effect (Vault.seizeForDeficit_inner h)
    rfl
  | migrateImportBalances env entries =>
    obtain ⟨_, h⟩ := returns_void.mp h
    obtain ⟨_, _, _, rfl⟩ := Vault.importBalances_rest (Vault.migrateImportBalances_imports h)
    rfl

theorem AccountOp.valuation {op : AccountOp} (hfunding : ∀ env marketId, op ≠ .updateFunding env marketId)
    (h : Returns op.call w () w') : w'.valuation = w.valuation := by
  cases op with
  | trade op => exact EngineOp.valuation h
  | chargeTradeFee env user marketId size executionPrice isMaker =>
    obtain ⟨_, h⟩ := returns_void.mp h
    rcases Engine.chargeTradeFee_effect h with rfl | hpaid
    · rfl
    · obtain ⟨_, _, _, _, _, _, ⟨⟨_, rfl⟩, _⟩, _, ⟨⟨_, rfl⟩, _⟩, rfl⟩ := hpaid
      rfl
  | updateFunding env marketId => exact absurd rfl (hfunding env marketId)
  | migrateImportPositions env entries =>
    obtain ⟨_, h⟩ := returns_void.mp h
    obtain rfl := Engine.migrateImportPositions_imported h
    rfl
  | vault op => exact VaultOp.valuation h

theorem AccountOp.terms {op : AccountOp} (h : Returns op.call w () w') : w'.terms = w.terms := by
  cases op with
  | updateFunding env marketId =>
    obtain ⟨_, h⟩ := returns_void.mp h
    obtain ⟨_, _, _, rfl, ⟨_, rfl⟩, _⟩ := Engine.updateFunding_effect h
    rfl
  | _ => exact terms_of_valuation (AccountOp.valuation (by simp) h)

/-- The fund's calls stay out of the vault's and the engine's storage. -/
theorem FundOp.kept {op : FundOp} (h : Returns op.call w () w') :
    w'.valuation = w.valuation ∧ w'.vault = w.vault ∧ w'.engine = w.engine := by
  cases op with
  | recordBadDebt env asset amount =>
    obtain ⟨_, h⟩ := returns_void.mp h
    obtain ⟨_, rfl⟩ := Insurance.recordBadDebt_effect h
    exact ⟨rfl, rfl, rfl⟩
  | reduceBadDebt env asset amount =>
    obtain ⟨_, h⟩ := returns_void.mp h
    obtain ⟨_, rfl⟩ := Insurance.reduceBadDebt_effect h
    exact ⟨rfl, rfl, rfl⟩
  | staking op =>
    cases op with
    | stake env staker asset amount =>
      obtain ⟨_, h⟩ := returns_void.mp h
      obtain ⟨_, _, _, _, _, rfl⟩ := Insurance.stake_effect h
      exact ⟨rfl, rfl, rfl⟩
    | requestUnstake env staker asset shares =>
      obtain ⟨_, h⟩ := returns_void.mp h
      obtain ⟨_, _, _, rfl⟩ := Insurance.requestUnstake_effect h
      exact ⟨rfl, rfl, rfl⟩
    | withdrawUnstaked env staker asset =>
      obtain ⟨_, h⟩ := returns_void.mp h
      obtain ⟨_, _, _, ⟨_, _, rfl⟩ | ⟨_, _, ⟨_, rfl⟩ | ⟨_, _, _, rfl⟩⟩⟩ :=
        Insurance.withdrawUnstaked_effect h
      · exact ⟨rfl, rfl, rfl⟩
      · exact ⟨rfl, rfl, rfl⟩
      · exact ⟨rfl, rfl, rfl⟩
    | sweepToOperating env asset amount =>
      obtain ⟨_, h⟩ := returns_void.mp h
      obtain rfl | ⟨_, _, _, rfl, ⟨_, rfl⟩ | ⟨_, _, rfl⟩⟩ := Insurance.sweepToOperating_effect h
      · exact ⟨rfl, rfl, rfl⟩
      · exact ⟨rfl, rfl, rfl⟩
      · exact ⟨rfl, rfl, rfl⟩
    | deposit env funder asset amount =>
      obtain ⟨_, h⟩ := returns_void.mp h
      obtain ⟨_, _, _, _, rfl⟩ := Insurance.deposit_effect h
      exact ⟨rfl, rfl, rfl⟩
    | payLiquidator env liquidator asset amount =>
      obtain ⟨_, h⟩ := returns_void.mp h
      obtain ⟨_, _, _, _, rfl⟩ := Insurance.payLiquidator_effect h
      exact ⟨rfl, rfl, rfl⟩
    | coverDeficit env asset amount =>
      obtain ⟨_, h⟩ := returns_void.mp h
      obtain ⟨_, _, rfl⟩ := Insurance.coverDeficit_touches h
      exact ⟨rfl, rfl, rfl⟩

theorem AccountOp.config {op : AccountOp} (h : Returns op.call w () w') : w'.config = w.config :=
  config_of_terms (AccountOp.terms h)

theorem FundOp.config {op : FundOp} (h : Returns op.call w () w') : w'.config = w.config :=
  config_of_terms (terms_of_valuation (FundOp.kept h).1)

end Config

/-! ## Setters -/

/-- The contracts with an admin of their own. -/
inductive Contract where
  | oracle | vault | engine | insurance | liquidation | gateway
  deriving DecidableEq, Repr

def World.adminOf (w : World) : Contract → Option Address
  | .oracle => w.oracle.admin
  | .vault => w.vault.admin
  | .engine => w.engine.admin
  | .insurance => w.insurance.admin
  | .liquidation => w.liquidation.admin
  | .gateway => w.gateway.admin

/-- `require_admin` of the contract passes. -/
def World.AdminAuthorizes (w : World) (env : Env) (c : Contract) : Prop :=
  ∃ admin, w.adminOf c = some admin ∧ env.Authorizes admin

section Setters

variable {env : Env} {w w' : World} {u : Unit} {admin : Address}

theorem requireRole_ok {role : Option Address} (h : (do
    let admin ← okOr role .invalidConfig
    requireAuth env admin
    return admin : Res Address) = .ok admin) : role = some admin ∧ env.Authorizes admin := by
  simp only [except_bind_ok, okOr_ok, requireAuth_ok, except_pure_ok] at h
  obtain ⟨_, hadmin, _, hauth, rfl⟩ := h
  exact ⟨hadmin, hauth⟩

/-- What a setter leaves: the admins, the oracle, and what the system operates on. -/
structure Configured (w w' : World) : Prop where
  adminOf : ∀ c, w'.adminOf c = w.adminOf c
  oracle : w'.oracle = w.oracle
  ledger : w'.ledger = w.ledger

theorem Vault.configure_effect {f : VaultStorage → VaultStorage}
    (h : Returns (Vault.configure env f) w u w') :
    w.AdminAuthorizes env .vault ∧ w' = { w with vault := f w.vault } := by
  simp only [Vault.configure, returns_readWith_bind, Vault.store_returns] at h
  obtain ⟨admin, hadmin, rfl⟩ := h
  exact ⟨⟨admin, requireRole_ok hadmin⟩, rfl⟩

theorem Engine.configure_effect {f : EngineStorage → EngineStorage}
    (h : Returns (Engine.configure env f) w u w') :
    w.AdminAuthorizes env .engine ∧ w' = { w with engine := f w.engine } := by
  simp only [Engine.configure, returns_readWith_bind, Engine.store_returns] at h
  obtain ⟨admin, hadmin, rfl⟩ := h
  exact ⟨⟨admin, requireRole_ok hadmin⟩, rfl⟩

theorem Insurance.configure_effect {f : InsuranceStorage → InsuranceStorage}
    (h : Returns (Insurance.configure env f) w u w') :
    w.AdminAuthorizes env .insurance ∧ w' = { w with insurance := f w.insurance } := by
  simp only [Insurance.configure, returns_readWith_bind, Insurance.store_returns] at h
  obtain ⟨admin, hadmin, rfl⟩ := h
  exact ⟨⟨admin, requireRole_ok hadmin⟩, rfl⟩

@[simp] theorem Liquidation.store_returns {f : LiquidationStorage → LiquidationStorage} :
    Returns (Liquidation.store f) w u w' ↔ w' = { w with liquidation := f w.liquidation } := by
  simp [Liquidation.store]

theorem Liquidation.configure_effect {f : LiquidationStorage → LiquidationStorage}
    (h : Returns (Liquidation.configure env f) w u w') :
    w.AdminAuthorizes env .liquidation ∧ w' = { w with liquidation := f w.liquidation } := by
  simp only [Liquidation.configure, returns_readWith_bind, Liquidation.store_returns] at h
  obtain ⟨admin, hadmin, rfl⟩ := h
  exact ⟨⟨admin, requireRole_ok hadmin⟩, rfl⟩

theorem Gateway.configure_effect {f : GatewayStorage → GatewayStorage}
    (h : Returns (Gateway.configure env f) w u w') :
    w.AdminAuthorizes env .gateway ∧ w' = { w with gateway := f w.gateway } := by
  simp only [Gateway.configure, returns_readWith_bind, Gateway.store_returns] at h
  obtain ⟨admin, hadmin, rfl⟩ := h
  exact ⟨⟨admin, requireRole_ok hadmin⟩, rfl⟩

theorem VaultSetting.effect {setting : VaultSetting} (h : Returns (setting.call env) w u w') :
    w.AdminAuthorizes env .vault ∧ Configured w w' := by
  cases setting with
  | setCollateral asset oracleAsset haircutBps active =>
    simp only [VaultSetting.call, Vault.setCollateral, returns_readWith_bind, returns_lift_bind,
      Vault.store_returns] at h
    obtain ⟨admin, hadmin, _, _, rfl⟩ := h
    exact ⟨⟨admin, requireRole_ok hadmin⟩, fun c => by cases c <;> rfl, rfl, rfl⟩
  | setMarketConfig config =>
    simp only [VaultSetting.call, Vault.setMarketConfig, returns_readWith_bind, returns_lift_bind,
      Vault.store_returns] at h
    obtain ⟨admin, hadmin, _, _, rfl⟩ := h
    exact ⟨⟨admin, requireRole_ok hadmin⟩, fun c => by cases c <;> rfl, rfl, rfl⟩
  | setOracle | setEngine | setInsurance | setLiquidation | setOperator | setDepositCap
  | sealMigration | unpause =>
    obtain ⟨hadmin, rfl⟩ := Vault.configure_effect h
    exact ⟨hadmin, fun c => by cases c <;> rfl, rfl, rfl⟩

/-- A market is listed with the engine's admin and the vault's: the vault's must authorize
a call that the engine makes. -/
theorem Engine.setMarket_authorized {config : EngineMarketConfig}
    (h : Returns (Engine.setMarket env config) w u w') :
    w.AdminAuthorizes env .engine ∧ w.AdminAuthorizes (env.callFrom w.deployed.engine) .vault := by
  simp only [Engine.setMarket, Engine.vaultSetMarketConfig, returns_readWith_bind, returns_lift_bind,
    Engine.returns_store_bind] at h
  obtain ⟨admin, hadmin, _, _, h⟩ := h
  obtain ⟨_, h⟩ := Engine.callVault_returns.mp h
  obtain ⟨vaultAdmin, hvault, _⟩ := returns_readWith_bind.mp h
  exact ⟨⟨admin, requireRole_ok hadmin⟩, ⟨vaultAdmin, requireRole_ok hvault⟩⟩

theorem EngineSetting.effect {setting : EngineSetting} (h : Returns (setting.call env) w u w') :
    w.AdminAuthorizes env .engine ∧ Configured w w' := by
  cases setting with
  | setMarket config =>
    have hadmin := (Engine.setMarket_authorized h).1
    obtain rfl := Engine.setMarket_effect h
    exact ⟨hadmin, fun c => by cases c <;> rfl, rfl, rfl⟩
  | setFeeConfig marketId config =>
    simp only [EngineSetting.call, Engine.setFeeConfig, returns_readWith_bind, returns_lift_bind,
      Engine.store_returns] at h
    obtain ⟨admin, hadmin, _, _, rfl⟩ := h
    exact ⟨⟨admin, requireRole_ok hadmin⟩, fun c => by cases c <;> rfl, rfl, rfl⟩
  | setFundingConfig marketId config =>
    simp only [EngineSetting.call, Engine.setFundingConfig, returns_readWith_bind, returns_lift_bind,
      Engine.store_returns] at h
    obtain ⟨admin, hadmin, _, _, rfl⟩ := h
    exact ⟨⟨admin, requireRole_ok hadmin⟩, fun c => by cases c <;> rfl, rfl, rfl⟩
  | setOiPolicy marketId bps =>
    simp only [EngineSetting.call, Engine.setOiPolicy, returns_readWith_bind, returns_lift_bind,
      Engine.store_returns] at h
    obtain ⟨admin, hadmin, _, _, _, _, _, _, rfl⟩ := h
    exact ⟨⟨admin, requireRole_ok hadmin⟩, fun c => by cases c <;> rfl, rfl, rfl⟩
  | setMaxTotalOiPolicyBps bps =>
    simp only [EngineSetting.call, Engine.setMaxTotalOiPolicyBps, returns_readWith_bind,
      Engine.store_returns] at h
    obtain ⟨admin, hadmin, rfl⟩ := h
    exact ⟨⟨admin, requireRole_ok hadmin⟩, fun c => by cases c <;> rfl, rfl, rfl⟩
  | setFeeCollector | setOrderGateway | setFeeRecipient | setVault | setLiquidation | setInsurance
  | sealMigration =>
    obtain ⟨hadmin, rfl⟩ := Engine.configure_effect h
    exact ⟨hadmin, fun c => by cases c <;> rfl, rfl, rfl⟩

theorem InsuranceSetting.effect {setting : InsuranceSetting} (h : Returns (setting.call env) w u w') :
    w.AdminAuthorizes env .insurance ∧ Configured w w' := by
  cases setting with
  | setLiquidation | setVault =>
    obtain ⟨hadmin, rfl⟩ := Insurance.configure_effect h
    exact ⟨hadmin, fun c => by cases c <;> rfl, rfl, rfl⟩

theorem LiquidationSetting.effect {setting : LiquidationSetting}
    (h : Returns (setting.call env) w u w') :
    w.AdminAuthorizes env .liquidation ∧ Configured w w' := by
  cases setting with
  | setMaxRewardBps maxRewardBps =>
    simp only [LiquidationSetting.call, Liquidation.setMaxRewardBps, returns_readWith_bind,
      returns_lift_bind, Liquidation.store_returns] at h
    obtain ⟨admin, hadmin, _, _, rfl⟩ := h
    exact ⟨⟨admin, requireRole_ok hadmin⟩, fun c => by cases c <;> rfl, rfl, rfl⟩
  | setEngine | setVault | setInsurance =>
    obtain ⟨hadmin, rfl⟩ := Liquidation.configure_effect h
    exact ⟨hadmin, fun c => by cases c <;> rfl, rfl, rfl⟩

theorem GatewaySetting.effect {setting : GatewaySetting} (h : Returns (setting.call env) w u w') :
    w.AdminAuthorizes env .gateway ∧ Configured w w' := by
  cases setting with
  | setEngine | setOperator | setDomain | unpause =>
    obtain ⟨hadmin, rfl⟩ := Gateway.configure_effect h
    exact ⟨hadmin, fun c => by cases c <;> rfl, rfl, rfl⟩

/-- The flags and addresses of the vault that one setter writes and the others keep. -/
structure VaultKept (setting : VaultSetting) (w w' : World) : Prop where
  engine : (∀ e, setting ≠ .setEngine e) → w'.vault.engine = w.vault.engine
  liquidation : (∀ l, setting ≠ .setLiquidation l) → w'.vault.liquidation = w.vault.liquidation
  paused : setting ≠ .unpause → w'.vault.paused = w.vault.paused
  closed : w.vault.migrationSealed = true → w'.vault.migrationSealed = true
  marketConfig : w'.vault.marketConfig = match setting with
    | .setMarketConfig config => w.vault.marketConfig.set config
    | _ => w.vault.marketConfig
  others : w'.engine = w.engine
  world : ∃ vault, w' = { w with vault }

theorem VaultSetting.kept {setting : VaultSetting} (h : Returns (setting.call env) w u w') :
    VaultKept setting w w' := by
  cases setting with
  | setCollateral asset oracleAsset haircutBps active =>
    simp only [VaultSetting.call, Vault.setCollateral, returns_readWith_bind, returns_lift_bind,
      Vault.store_returns] at h
    obtain ⟨_, _, _, _, rfl⟩ := h
    exact ⟨fun _ => rfl, fun _ => rfl, fun _ => rfl, id, rfl, rfl, _, rfl⟩
  | setMarketConfig config =>
    simp only [VaultSetting.call, Vault.setMarketConfig, returns_readWith_bind, returns_lift_bind,
      Vault.store_returns] at h
    obtain ⟨_, _, _, _, rfl⟩ := h
    exact ⟨fun _ => rfl, fun _ => rfl, fun _ => rfl, id, rfl, rfl, _, rfl⟩
  | setEngine e =>
    obtain ⟨_, rfl⟩ := Vault.configure_effect h
    exact ⟨fun hne => absurd rfl (hne e), fun _ => rfl, fun _ => rfl, id, rfl, rfl, _, rfl⟩
  | setLiquidation l =>
    obtain ⟨_, rfl⟩ := Vault.configure_effect h
    exact ⟨fun _ => rfl, fun hne => absurd rfl (hne l), fun _ => rfl, id, rfl, rfl, _, rfl⟩
  | unpause =>
    obtain ⟨_, rfl⟩ := Vault.configure_effect h
    exact ⟨fun _ => rfl, fun _ => rfl, fun hne => absurd rfl hne, id, rfl, rfl, _, rfl⟩
  | sealMigration =>
    obtain ⟨_, rfl⟩ := Vault.configure_effect h
    exact ⟨fun _ => rfl, fun _ => rfl, fun _ => rfl, fun _ => rfl, rfl, rfl, _, rfl⟩
  | setOracle | setInsurance | setOperator | setDepositCap =>
    obtain ⟨_, rfl⟩ := Vault.configure_effect h
    exact ⟨fun _ => rfl, fun _ => rfl, fun _ => rfl, id, rfl, rfl, _, rfl⟩

/-- The same for the engine, whose listing of a market reaches into the vault. -/
structure EngineKept (setting : EngineSetting) (w w' : World) : Prop where
  orderGateway : (∀ g, setting ≠ .setOrderGateway g) → w'.engine.orderGateway = w.engine.orderGateway
  feeCollector : (∀ f, setting ≠ .setFeeCollector f) → w'.engine.feeCollector = w.engine.feeCollector
  liquidation : (∀ l, setting ≠ .setLiquidation l) → w'.engine.liquidation = w.engine.liquidation
  vault : (∀ v, setting ≠ .setVault v) → w'.engine.vault = w.engine.vault
  market : w'.engine.market = match setting with
    | .setMarket config => w.engine.market.set config
    | _ => w.engine.market
  settlementAsset : w'.engine.settlementAsset = w.engine.settlementAsset
  closed : w.engine.migrationSealed = true → w'.engine.migrationSealed = true
  others : w'.vault = { w.vault with marketConfig := match setting with
    | .setMarket config => w.vault.marketConfig.set config.market
    | _ => w.vault.marketConfig }
  world : ∃ engine vault, w' = { w with engine, vault }

theorem EngineSetting.kept {setting : EngineSetting} (h : Returns (setting.call env) w u w') :
    EngineKept setting w w' := by
  cases setting with
  | setMarket config =>
    obtain rfl := Engine.setMarket_effect h
    exact ⟨fun _ => rfl, fun _ => rfl, fun _ => rfl, fun _ => rfl, rfl, rfl, id, rfl, _, _, rfl⟩
  | setFeeConfig marketId config =>
    simp only [EngineSetting.call, Engine.setFeeConfig, returns_readWith_bind, returns_lift_bind,
      Engine.store_returns] at h
    obtain ⟨_, _, _, _, rfl⟩ := h
    exact ⟨fun _ => rfl, fun _ => rfl, fun _ => rfl, fun _ => rfl, rfl, rfl, id, rfl, _, _, rfl⟩
  | setFundingConfig marketId config =>
    simp only [EngineSetting.call, Engine.setFundingConfig, returns_readWith_bind, returns_lift_bind,
      Engine.store_returns] at h
    obtain ⟨_, _, _, _, rfl⟩ := h
    exact ⟨fun _ => rfl, fun _ => rfl, fun _ => rfl, fun _ => rfl, rfl, rfl, id, rfl, _, _, rfl⟩
  | setOiPolicy marketId bps =>
    simp only [EngineSetting.call, Engine.setOiPolicy, returns_readWith_bind, returns_lift_bind,
      Engine.store_returns] at h
    obtain ⟨_, _, _, _, _, _, _, _, rfl⟩ := h
    exact ⟨fun _ => rfl, fun _ => rfl, fun _ => rfl, fun _ => rfl, rfl, rfl, id, rfl, _, _, rfl⟩
  | setMaxTotalOiPolicyBps bps =>
    simp only [EngineSetting.call, Engine.setMaxTotalOiPolicyBps, returns_readWith_bind,
      Engine.store_returns] at h
    obtain ⟨_, _, rfl⟩ := h
    exact ⟨fun _ => rfl, fun _ => rfl, fun _ => rfl, fun _ => rfl, rfl, rfl, id, rfl, _, _, rfl⟩
  | sealMigration =>
    obtain ⟨_, rfl⟩ := Engine.configure_effect h
    exact ⟨fun _ => rfl, fun _ => rfl, fun _ => rfl, fun _ => rfl, rfl, rfl, fun _ => rfl, rfl, _, _, rfl⟩
  | setFeeCollector f =>
    obtain ⟨_, rfl⟩ := Engine.configure_effect h
    exact ⟨fun _ => rfl, fun hne => absurd rfl (hne f), fun _ => rfl, fun _ => rfl, rfl, rfl, id, rfl, _, _, rfl⟩
  | setOrderGateway g =>
    obtain ⟨_, rfl⟩ := Engine.configure_effect h
    exact ⟨fun hne => absurd rfl (hne g), fun _ => rfl, fun _ => rfl, fun _ => rfl, rfl, rfl, id, rfl, _, _, rfl⟩
  | setLiquidation l =>
    obtain ⟨_, rfl⟩ := Engine.configure_effect h
    exact ⟨fun _ => rfl, fun _ => rfl, fun hne => absurd rfl (hne l), fun _ => rfl, rfl, rfl, id, rfl, _, _, rfl⟩
  | setVault v =>
    obtain ⟨_, rfl⟩ := Engine.configure_effect h
    exact ⟨fun _ => rfl, fun _ => rfl, fun _ => rfl, fun hne => absurd rfl (hne v), rfl, rfl, id, rfl, _, _, rfl⟩
  | setFeeRecipient | setInsurance =>
    obtain ⟨_, rfl⟩ := Engine.configure_effect h
    exact ⟨fun _ => rfl, fun _ => rfl, fun _ => rfl, fun _ => rfl, rfl, rfl, id, rfl, _, _, rfl⟩

/-- The contract a setter belongs to. -/
def Setting.contract : Setting → Contract
  | vault _ => .vault
  | engine _ => .engine
  | insurance _ => .insurance
  | liquidation _ => .liquidation
  | gateway _ => .gateway

theorem Setting.effect {setting : Setting} (h : Returns (setting.call env) w u w') :
    w.AdminAuthorizes env setting.contract ∧ Configured w w' := by
  cases setting with
  | vault setting => exact VaultSetting.effect h
  | engine setting => exact EngineSetting.effect h
  | insurance setting => exact InsuranceSetting.effect h
  | liquidation setting => exact LiquidationSetting.effect h
  | gateway setting => exact GatewaySetting.effect h

/-- The setters of the other contracts leave the vault and the engine alone. -/
theorem Setting.kept {setting : Setting} (h : Returns (setting.call env) w u w') :
    match setting with
    | .vault setting => VaultKept setting w w'
    | .engine setting => EngineKept setting w w'
    | _ => w'.vault = w.vault ∧ w'.engine = w.engine := by
  cases setting with
  | vault setting => exact VaultSetting.kept h
  | engine setting => exact EngineSetting.kept h
  | insurance setting =>
    cases setting with
    | setLiquidation | setVault =>
      obtain ⟨_, rfl⟩ := Insurance.configure_effect h
      exact ⟨rfl, rfl⟩
  | liquidation setting =>
    cases setting with
    | setMaxRewardBps maxRewardBps =>
      simp only [Setting.call, LiquidationSetting.call, Liquidation.setMaxRewardBps,
        returns_readWith_bind, returns_lift_bind, Liquidation.store_returns] at h
      obtain ⟨_, _, _, _, rfl⟩ := h
      exact ⟨rfl, rfl⟩
    | setEngine | setVault | setInsurance =>
      obtain ⟨_, rfl⟩ := Liquidation.configure_effect h
      exact ⟨rfl, rfl⟩
  | gateway setting =>
    cases setting with
    | setEngine | setOperator | setDomain | unpause =>
      obtain ⟨_, rfl⟩ := Gateway.configure_effect h
      exact ⟨rfl, rfl⟩

/-- One setter says which engine closes positions for a liquidation. -/
theorem Setting.reducer {setting : Setting} (hne : ∀ e, setting ≠ .liquidation (.setEngine e))
    (h : Returns (setting.call env) w u w') : w'.liquidation.engine = w.liquidation.engine := by
  cases setting with
  | vault setting =>
    obtain ⟨_, rfl⟩ := (VaultSetting.kept h).world
    rfl
  | engine setting =>
    obtain ⟨_, _, rfl⟩ := (EngineSetting.kept h).world
    rfl
  | insurance setting =>
    cases setting with
    | setLiquidation | setVault =>
      obtain ⟨_, rfl⟩ := Insurance.configure_effect h
      rfl
  | liquidation setting =>
    cases setting with
    | setEngine e => exact absurd rfl (hne e)
    | setMaxRewardBps maxRewardBps =>
      simp only [Setting.call, LiquidationSetting.call, Liquidation.setMaxRewardBps,
        returns_readWith_bind, returns_lift_bind, Liquidation.store_returns] at h
      obtain ⟨_, _, _, _, rfl⟩ := h
      rfl
    | setVault | setInsurance =>
      obtain ⟨_, rfl⟩ := Liquidation.configure_effect h
      rfl
  | gateway setting =>
    cases setting with
    | setEngine | setOperator | setDomain | unpause =>
      obtain ⟨_, rfl⟩ := Gateway.configure_effect h
      rfl

end Setters

end Kryon

import Kryon.Engine.OiPolicy
import Kryon.Gateway
import Kryon.Liquidation

/-! # What an admin may set

Every contract has an admin, and most of what the admin may call checks for the role and
then writes one piece of configuration: an address the contract is wired to, a limit, a
flag. -/
namespace Kryon
open Transaction

/-! ## The setters -/

namespace Vault

/-- Check for the admin, then write. -/
def configure (env : Env) (f : VaultStorage → VaultStorage) : Tx Unit := do
  let _ ← readWith fun w => requireAdmin env w.vault
  store f

def setOracle (env : Env) (oracle : Address) : Tx Unit :=
  configure env fun s => { s with oracle := some oracle }

def setEngine (env : Env) (engine : Address) : Tx Unit :=
  configure env fun s => { s with engine := some engine }

def setInsurance (env : Env) (insurance : Address) : Tx Unit :=
  configure env fun s => { s with insurance := some insurance }

def setLiquidation (env : Env) (liquidation : Address) : Tx Unit :=
  configure env fun s => { s with liquidation := some liquidation }

def setOperator (env : Env) (operator : Address) : Tx Unit :=
  configure env fun s => { s with operator := some operator }

/-- A cap that is not positive removes the cap. -/
def setDepositCap (env : Env) (asset : Address) (cap : Int) : Tx Unit :=
  configure env fun s => { s with
    depositCap := if cap ≤ 0 then s.depositCap.remove asset else s.depositCap.set asset cap }

def sealMigration (env : Env) : Tx Unit := configure env fun s => { s with migrationSealed := true }

def unpause (env : Env) : Tx Unit := configure env fun s => { s with paused := false }

end Vault

namespace Engine

/-- Check for the admin, then write. -/
def configure (env : Env) (f : EngineStorage → EngineStorage) : Tx Unit := do
  let _ ← readWith fun w => requireAdmin env w.engine
  store f

def setFeeCollector (env : Env) (collector : Address) : Tx Unit :=
  configure env fun s => { s with feeCollector := some collector }

def setOrderGateway (env : Env) (gateway : Address) : Tx Unit :=
  configure env fun s => { s with orderGateway := some gateway }

def setFeeRecipient (env : Env) (recipient : Address) : Tx Unit :=
  configure env fun s => { s with feeRecipient := some recipient }

def setVault (env : Env) (vault : Address) : Tx Unit :=
  configure env fun s => { s with vault := some vault }

def setLiquidation (env : Env) (liquidation : Address) : Tx Unit :=
  configure env fun s => { s with liquidation := some liquidation }

def setInsurance (env : Env) (insurance : Address) : Tx Unit :=
  configure env fun s => { s with insurance := some insurance }

def sealMigration (env : Env) : Tx Unit := configure env fun s => { s with migrationSealed := true }

end Engine

namespace Insurance

/-- Check for the admin, then write. -/
def configure (env : Env) (f : InsuranceStorage → InsuranceStorage) : Tx Unit := do
  let _ ← readWith fun w => requireAdmin env w.insurance
  store f

def setLiquidation (env : Env) (liquidation : Address) : Tx Unit :=
  configure env fun s => { s with liquidation := some liquidation }

def setVault (env : Env) (vault : Address) : Tx Unit :=
  configure env fun s => { s with vault := some vault }

end Insurance

namespace Liquidation

def requireAdmin (env : Env) (s : LiquidationStorage) : Res Address := do
  let admin ← okOr s.admin .invalidConfig
  requireAuth env admin
  return admin

/-- Write this contract's own storage. -/
def store (f : LiquidationStorage → LiquidationStorage) : Tx Unit :=
  modify fun w => { w with liquidation := f w.liquidation }

/-- Check for the admin, then write. -/
def configure (env : Env) (f : LiquidationStorage → LiquidationStorage) : Tx Unit := do
  let _ ← readWith fun w => requireAdmin env w.liquidation
  store f

def setEngine (env : Env) (engine : Address) : Tx Unit :=
  configure env fun s => { s with engine := some engine }

def setVault (env : Env) (vault : Address) : Tx Unit :=
  configure env fun s => { s with vault := some vault }

def setInsurance (env : Env) (insurance : Address) : Tx Unit :=
  configure env fun s => { s with insurance := some insurance }

def setMaxRewardBps (env : Env) (maxRewardBps : Nat) : Tx Unit := do
  let _ ← readWith fun w => requireAdmin env w.liquidation
  reject (maxRewardBps > 1000) .invalidConfig
  store fun s => { s with maxRewardBps := some maxRewardBps }

end Liquidation

namespace Gateway

def requireAdmin (env : Env) (s : GatewayStorage) : Res Address := do
  let admin ← okOr s.admin .invalidConfig
  requireAuth env admin
  return admin

/-- Check for the admin, then write. -/
def configure (env : Env) (f : GatewayStorage → GatewayStorage) : Tx Unit := do
  let _ ← readWith fun w => requireAdmin env w.gateway
  store f

def setEngine (env : Env) (engine : Address) : Tx Unit :=
  configure env fun s => { s with engine := some engine }

def setOperator (env : Env) (operator : Address) : Tx Unit :=
  configure env fun s => { s with operator := some operator }

def setDomain (env : Env) (domain : List UInt8) : Tx Unit :=
  configure env fun s => { s with domain := some domain }

def unpause (env : Env) : Tx Unit := configure env fun s => { s with paused := false }

end Gateway

/-! ## Settings -/

inductive VaultSetting where
  | setOracle (oracle : Address)
  | setEngine (engine : Address)
  | setInsurance (insurance : Address)
  | setLiquidation (liquidation : Address)
  | setOperator (operator : Address)
  | setDepositCap (asset : Address) (cap : Int)
  | setCollateral (asset : Address) (oracleAsset : Symbol) (haircutBps : Nat) (active : Bool)
  | setMarketConfig (config : MarketConfig)
  | sealMigration
  | unpause

inductive EngineSetting where
  | setMarket (config : EngineMarketConfig)
  | setFeeConfig (marketId : Nat) (config : FeeConfig)
  | setFundingConfig (marketId : Nat) (config : FundingConfig)
  | setOiPolicy (marketId maxOiPerInsuranceBps : Nat)
  | setMaxTotalOiPolicyBps (maxTotalBps : Nat)
  | setFeeCollector (collector : Address)
  | setOrderGateway (gateway : Address)
  | setFeeRecipient (recipient : Address)
  | setVault (vault : Address)
  | setLiquidation (liquidation : Address)
  | setInsurance (insurance : Address)
  | sealMigration

inductive InsuranceSetting where
  | setLiquidation (liquidation : Address)
  | setVault (vault : Address)

inductive LiquidationSetting where
  | setEngine (engine : Address)
  | setVault (vault : Address)
  | setInsurance (insurance : Address)
  | setMaxRewardBps (maxRewardBps : Nat)

inductive GatewaySetting where
  | setEngine (engine : Address)
  | setOperator (operator : Address)
  | setDomain (domain : List UInt8)
  | unpause

/-- One call of a setter. -/
inductive Setting where
  | vault (setting : VaultSetting)
  | engine (setting : EngineSetting)
  | insurance (setting : InsuranceSetting)
  | liquidation (setting : LiquidationSetting)
  | gateway (setting : GatewaySetting)

namespace VaultSetting

def call (env : Env) : VaultSetting → Tx Unit
  | setOracle oracle => Vault.setOracle env oracle
  | setEngine engine => Vault.setEngine env engine
  | setInsurance insurance => Vault.setInsurance env insurance
  | setLiquidation liquidation => Vault.setLiquidation env liquidation
  | setOperator operator => Vault.setOperator env operator
  | setDepositCap asset cap => Vault.setDepositCap env asset cap
  | setCollateral asset oracleAsset haircutBps active =>
    Vault.setCollateral env asset oracleAsset haircutBps active
  | setMarketConfig config => Vault.setMarketConfig env config
  | sealMigration => Vault.sealMigration env
  | unpause => Vault.unpause env

end VaultSetting

namespace EngineSetting

def call (env : Env) : EngineSetting → Tx Unit
  | setMarket config => Engine.setMarket env config
  | setFeeConfig marketId config => Engine.setFeeConfig env marketId config
  | setFundingConfig marketId config => Engine.setFundingConfig env marketId config
  | setOiPolicy marketId maxOiPerInsuranceBps => Engine.setOiPolicy env marketId maxOiPerInsuranceBps
  | setMaxTotalOiPolicyBps maxTotalBps => Engine.setMaxTotalOiPolicyBps env maxTotalBps
  | setFeeCollector collector => Engine.setFeeCollector env collector
  | setOrderGateway gateway => Engine.setOrderGateway env gateway
  | setFeeRecipient recipient => Engine.setFeeRecipient env recipient
  | setVault vault => Engine.setVault env vault
  | setLiquidation liquidation => Engine.setLiquidation env liquidation
  | setInsurance insurance => Engine.setInsurance env insurance
  | sealMigration => Engine.sealMigration env

end EngineSetting

namespace InsuranceSetting

def call (env : Env) : InsuranceSetting → Tx Unit
  | setLiquidation liquidation => Insurance.setLiquidation env liquidation
  | setVault vault => Insurance.setVault env vault

end InsuranceSetting

namespace LiquidationSetting

def call (env : Env) : LiquidationSetting → Tx Unit
  | setEngine engine => Liquidation.setEngine env engine
  | setVault vault => Liquidation.setVault env vault
  | setInsurance insurance => Liquidation.setInsurance env insurance
  | setMaxRewardBps maxRewardBps => Liquidation.setMaxRewardBps env maxRewardBps

end LiquidationSetting

namespace GatewaySetting

def call (env : Env) : GatewaySetting → Tx Unit
  | setEngine engine => Gateway.setEngine env engine
  | setOperator operator => Gateway.setOperator env operator
  | setDomain domain => Gateway.setDomain env domain
  | unpause => Gateway.unpause env

end GatewaySetting

def Setting.call (env : Env) : Setting → Tx Unit
  | vault setting => setting.call env
  | engine setting => setting.call env
  | insurance setting => setting.call env
  | liquidation setting => setting.call env
  | gateway setting => setting.call env

end Kryon

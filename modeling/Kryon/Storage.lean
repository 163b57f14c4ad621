import Kryon.Risk.Margin
import Kryon.Risk.Funding

/-! # What each contract stores

One record a contract, one field for each `DataKey` variant a modelled function
reads or writes: a unit variant is an optional field, a variant with arguments a
store keyed by them, and a flag that is only ever set or removed a `Bool`. -/
namespace Kryon

/-! ## Oracle adapter -/

structure FeedConfig where
  publisher : Address
  source : OracleSource
  guard : OracleGuard
  active : Bool
  requiredSources : List OracleSource
  minSources : Nat
  maxSourceDeviationBps : Nat
  deriving DecidableEq, Repr

structure OracleStorage where
  admin : Option Address := none
  pendingAdmin : Option Address := none
  config : Store Symbol FeedConfig := ∅
  price : Store Symbol OracleSnapshot := ∅
  sourcePublisher : Store (Symbol × OracleSource) Address := ∅

/-! ## Vault -/

structure MigratedBalance where
  user : Address
  asset : Address
  amount : Int
  deriving DecidableEq, Repr

/-- Published whenever a settlement deficit is covered from other collateral. -/
structure CollateralSeized where
  user : Address
  deficitAsset : Address
  credited : Int
  uncoveredValue : Int
  deriving DecidableEq, Repr

structure VaultStorage where
  admin : Option Address := none
  engine : Option Address := none
  oracle : Option Address := none
  insurance : Option Address := none
  liquidation : Option Address := none
  collateral : KeyedStore CollateralConfig.asset := ∅
  /-- Keyed by user and asset. -/
  balance : Store (Address × Address) Int := ∅
  positions : Store Address (List Position) := ∅
  marketConfig : KeyedStore MarketConfig.marketId := ∅
  fundingLong : Store Nat Int := ∅
  fundingShort : Store Nat Int := ∅
  userAssets : Store Address (List Address) := ∅
  paused : Bool := false
  depositCap : Store Address Int := ∅
  totalDeposited : Store Address Int := ∅
  operator : Option Address := none
  migrationSealed : Bool := false

/-! ## Engine -/

structure EngineMarketConfig where
  market : MarketConfig
  maxExecutionDeviationBps : Nat
  deriving DecidableEq, Repr

def EngineMarketConfig.marketId (config : EngineMarketConfig) : Nat := config.market.marketId

/-- The time-weighted mark accumulator of one market. -/
structure MarkState where
  lastPrice : Int
  lastTs : Nat
  cumulative : Int
  windowStart : Nat
  deriving DecidableEq, Repr

structure FeeConfig where
  makerFeeBps : Nat
  takerFeeBps : Nat
  deriving DecidableEq, Repr

structure MigratedPositions where
  user : Address
  positions : List Position
  deriving DecidableEq, Repr

structure TradeResult where
  positionId : Nat
  remainingSize : Int
  entryPrice : Int
  realizedPnl : Int
  fundingPnl : Int
  executionPrice : Int
  accountEquity : Int
  deriving DecidableEq, Repr

structure EngineStorage where
  admin : Option Address := none
  liquidation : Option Address := none
  insurance : Option Address := none
  oracle : Option Address := none
  vault : Option Address := none
  settlementAsset : Option Address := none
  feeCollector : Option Address := none
  feeRecipient : Option Address := none
  orderGateway : Option Address := none
  nextPositionId : Option Nat := none
  market : KeyedStore EngineMarketConfig.marketId := ∅
  feeConfig : Store Nat FeeConfig := ∅
  fundingConfig : Store Nat FundingConfig := ∅
  fundingState : Store Nat FundingState := ∅
  positions : Store Address (List Position) := ∅
  openInterest : Store Nat Int := ∅
  markState : Store Nat MarkState := ∅
  longOpenInterest : Store Nat Int := ∅
  oiPolicy : Store Nat Nat := ∅
  shortOpenInterest : Store Nat Int := ∅
  totalOiPolicyBps : Option Nat := none
  maxTotalOiPolicyBps : Option Nat := none
  migrationSealed : Bool := false

/-! ## Insurance fund -/

structure PendingUnstakeRequest where
  shares : Int
  unlockTime : Nat
  epoch : Nat
  deriving DecidableEq, Repr

structure ShareBalance where
  epoch : Nat
  shares : Int
  deriving DecidableEq, Repr

structure InsuranceStorage where
  admin : Option Address := none
  liquidation : Option Address := none
  vault : Option Address := none
  balance : Store Address Int := ∅
  badDebt : Store Address Int := ∅
  stakedBalance : Store Address Int := ∅
  /-- Keyed by asset and staker. -/
  shares : Store (Address × Address) ShareBalance := ∅
  epoch : Store Address Nat := ∅
  totalShares : Store Address Int := ∅
  /-- Keyed by asset and staker. -/
  pendingUnstake : Store (Address × Address) PendingUnstakeRequest := ∅

/-! ## Liquidation -/

structure LiquidationStorage where
  admin : Option Address := none
  engine : Option Address := none
  vault : Option Address := none
  insurance : Option Address := none
  settlementAsset : Option Address := none
  maxRewardBps : Option Nat := none

/-! ## Order gateway -/

structure FilledEntry where
  amount : Int
  expiryTs : Nat
  deriving DecidableEq, Repr

structure Order where
  owner : Address
  marketId : Nat
  isLong : Bool
  size : Int
  limitPrice : Int
  reduceOnly : Bool
  nonce : Nat
  expiryTs : Nat
  deriving DecidableEq, Repr

/-- The arguments an order's owner authorizes in `settle_fill`. -/
structure OrderAuthArgs where
  function : Symbol
  role : Symbol
  marketId : Nat
  isLong : Bool
  size : Int
  limitPrice : Int
  reduceOnly : Bool
  nonce : Nat
  expiryTs : Nat
  deriving DecidableEq, Repr

structure MatchedFill where
  maker : Order
  taker : Order
  fillSize : Int
  fillPrice : Int
  deriving DecidableEq, Repr

structure FillReceipt where
  makerOwner : Address
  takerOwner : Address
  marketId : Nat
  fillSize : Int
  fillPrice : Int
  makerFilled : Int
  takerFilled : Int
  deriving DecidableEq, Repr

structure GatewayStorage where
  admin : Option Address := none
  engine : Option Address := none
  operator : Option Address := none
  domain : Option (List UInt8) := none
  /-- Keyed by owner and nonce. -/
  filled : Store (Address × Nat) FilledEntry := ∅
  /-- The time up to which each cancel tombstone is retained, by owner and nonce. -/
  cancelled : Store (Address × Nat) Nat := ∅
  paused : Bool := false

end Kryon

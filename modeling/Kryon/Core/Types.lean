import Kryon.Core.Fixed
import Kryon.Lib.Store

/-! # Shared data types

`protocol_core::types` and `protocol_core::oracle`. A `u32` or `u64` field is a
`Nat`; the operations that could leave its range check it. -/
namespace Kryon
open Transaction

/-- The two payloads an address can carry. -/
inductive Address where
  | account (publicKey : BitVec 256)
  | contract (id : BitVec 256)
  deriving DecidableEq, Repr

abbrev Symbol := String

inductive MarginMode where
  | cross
  | isolated
  deriving DecidableEq, Repr

structure MarketConfig where
  marketId : Nat
  baseAsset : Symbol
  settlementAsset : Address
  maxLeverageBps : Nat
  initialMarginBps : Nat
  maintenanceMarginBps : Nat
  liquidationFeeBps : Nat
  maxOpenInterest : Int
  maxOracleAgeSecs : Nat
  maxOracleConfidenceBps : Nat
  active : Bool
  deriving DecidableEq, Repr

structure Position where
  positionId : Nat
  owner : Address
  marketId : Nat
  size : Int
  entryPrice : Int
  margin : Int
  isLong : Bool
  lastFundingIndex : Int
  mode : MarginMode
  deriving DecidableEq, Repr

structure CollateralBalance where
  asset : Address
  amount : Int
  value : Int
  haircutBps : Nat
  deriving DecidableEq, Repr

structure CollateralConfig where
  asset : Address
  oracleAsset : Symbol
  haircutBps : Nat
  active : Bool
  deriving DecidableEq, Repr

structure AccountSnapshot where
  owner : Address
  collateral : List CollateralBalance
  positions : List Position
  deriving DecidableEq, Repr

structure MarketSnapshot where
  config : MarketConfig
  oraclePrice : Int
  fundingIndexLong : Int
  fundingIndexShort : Int
  deriving DecidableEq, Repr

/-! ## Oracle snapshots -/

inductive OracleSource where
  | redStone
  | pyth
  | reflector
  | quorum
  deriving DecidableEq, Repr

structure OracleSnapshot where
  asset : Symbol
  price : Int
  confidence : Int
  source : OracleSource
  publishTime : Nat
  writeTime : Nat
  deriving DecidableEq, Repr

structure OracleGuard where
  maxAgeSecs : Nat
  maxConfidenceBps : Nat
  deriving DecidableEq, Repr

def OracleSnapshot.validate (self : OracleSnapshot) (now : Nat) (guard : OracleGuard) :
    Res Unit := do
  reject (self.price ≤ 0) .invalidPrice
  reject (self.publishTime > now ∨ self.writeTime > now) .staleOracle
  let publishAge := now - self.publishTime
  let writeAge := now - self.writeTime
  reject (publishAge > guard.maxAgeSecs ∨ writeAge > guard.maxAgeSecs) .staleOracle
  reject (self.confidence < 0) .invalidPrice
  let maxConf ← applyBps self.price guard.maxConfidenceBps
  reject (self.confidence > maxConf) .oracleConfidenceTooWide

/-- What a validated snapshot meets: both its ages and its confidence are within the guard. -/
structure OracleSnapshot.Valid (snapshot : OracleSnapshot) (now : Nat) (guard : OracleGuard) : Prop where
  price : 0 < snapshot.price
  published : snapshot.publishTime ≤ now
  written : snapshot.writeTime ≤ now
  publishAge : now - snapshot.publishTime ≤ guard.maxAgeSecs
  writeAge : now - snapshot.writeTime ≤ guard.maxAgeSecs
  confidence : 0 ≤ snapshot.confidence
  confident : snapshot.confidence * bpsDenominator ≤ snapshot.price * guard.maxConfidenceBps

theorem OracleSnapshot.validate_valid {snapshot : OracleSnapshot} {now : Nat} {guard : OracleGuard}
    {u : Unit} (h : snapshot.validate now guard = .ok u) : snapshot.Valid now guard := by
  simp only [validate, except_bind_ok, reject_ok, applyBps_ok] at h
  obtain ⟨_, hprice, _, hpast, _, hage, _, hconf, maxConf, ⟨_, _, hmax⟩, hwithin⟩ := h
  have hpos : 0 < snapshot.price := by omega
  refine ⟨hpos, by omega, by omega, by omega, by omega, by omega, ?_⟩
  have hnn : 0 ≤ snapshot.price * guard.maxConfidenceBps := by positivity
  rw [Int.tdiv_eq_ediv_of_nonneg hnn] at hmax
  have hfloor : maxConf * 10000 ≤ snapshot.price * guard.maxConfidenceBps :=
    hmax ▸ Int.ediv_mul_le _ (by decide)
  show snapshot.confidence * 10000 ≤ _
  omega

theorem OracleSnapshot.validate_price {snapshot : OracleSnapshot} {now : Nat} {guard : OracleGuard}
    {u : Unit} (h : snapshot.validate now guard = .ok u) : 0 < snapshot.price :=
  (validate_valid h).price

end Kryon

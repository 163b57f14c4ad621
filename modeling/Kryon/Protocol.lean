import Kryon.Admin
import Kryon.Gateway.Replay
import Kryon.Insurance.Custody
import Kryon.OracleAdapter.Snapshots
import Kryon.PositionIds
import Mathlib.Logic.Relation

/-! # The calls of a transaction

What a transaction may call on the six contracts. A settlement, a liquidation and a
deleveraging go through several of them: each amounts to calls on the engine, the vault
and the insurance fund one after the other, made by the contract in between. -/
namespace Kryon
open Transaction Runs

/-- `require_auth` on this address passes. -/
def Env.Authorizes (env : Env) (address : Address) : Prop :=
  env.invoker = some address ∨ env.signed address = true

theorem Env.authorizes_callFrom (env : Env) {contract address : Address} :
    (env.callFrom contract).Authorizes address ↔ contract = address ∨ env.signed address = true := by
  unfold Authorizes callFrom
  rw [Option.some_inj]

/-! ## Calls on one contract -/

/-- A call on the oracle adapter. -/
def onOracle {α : Type} (x : OracleAdapter.OracleTx α) : Tx α := fun w =>
  (x.run w.oracle).map fun (a, oracle) => (a, { w with oracle })

theorem onOracle_returns {α : Type} {x : OracleAdapter.OracleTx α} {w w' : World} {a : α} :
    Returns (onOracle x) w a w' ↔
      ∃ oracle, Returns x w.oracle a oracle ∧ w' = { w with oracle } := by
  unfold Returns onOracle
  simp only [StateT.run, except_map_ok, Prod.mk.injEq, Prod.exists]
  constructor
  · rintro ⟨b, oracle, hx, rfl, rfl⟩
    exact ⟨oracle, hx, rfl⟩
  · rintro ⟨oracle, hx, rfl⟩
    exact ⟨a, oracle, hx, rfl, rfl⟩

/-- The entry points that call no other contract, or only for reads, transfers and writes of
their own: what a call of one of these does is one transition of the contracts' state. -/
inductive ContractCall where
  | account (op : AccountOp)
  | fund (op : FundOp)
  | oracle (op : OracleOp)
  | syncPositions (env : Env) (user : Address) (positions : List Position)
  | setFundingIndexes (env : Env) (marketId : Nat) (fundingIndexLong fundingIndexShort : Int)
  | configure (env : Env) (setting : Setting)

def EngineOp.env : EngineOp → Env
  | openPosition env .. | increasePosition env .. | reducePosition env .. | closePosition env ..
  | liquidateReduce env .. => env

/-- Whose account the trade is of. -/
def EngineOp.user : EngineOp → Address
  | openPosition _ user .. | increasePosition _ user .. | reducePosition _ user .. | closePosition _ user ..
  | liquidateReduce _ user .. => user

def VaultOp.env : VaultOp → Env
  | deposit env .. | withdraw env .. | applyPnl env .. | absorbBadDebt env .. | settleDeficit env ..
  | seizeForDeficit env .. | migrateImportBalances env .. => env

def AccountOp.env : AccountOp → Env
  | trade op => op.env
  | chargeTradeFee env .. | updateFunding env .. | migrateImportPositions env .. => env
  | vault op => op.env

def OracleOp.env : OracleOp → Env
  | initialise env .. | setFeed env .. | nominateAdmin env .. | acceptAdmin env
  | setQuorumFeed env .. | setSourcePublisher env .. | writePrice env .. | writeQuorumPrice env ..
  | getPrice env .. => env

namespace ContractCall

def call : ContractCall → Tx Unit
  | account op => op.call
  | fund op => op.call
  | oracle op => onOracle op.call
  | syncPositions env user positions => Vault.syncPositions env user positions
  | setFundingIndexes env marketId fundingIndexLong fundingIndexShort =>
    Vault.setFundingIndexes env marketId fundingIndexLong fundingIndexShort
  | configure env setting => setting.call env

def env : ContractCall → Env
  | account op => op.env
  | fund op => op.env
  | oracle op => op.env
  | syncPositions env .. | setFundingIndexes env .. | configure env _ => env

end ContractCall

/-- Calls that meet `M`, one after the other. -/
def Calls (M : ContractCall → Prop) : World → World → Prop :=
  Relation.ReflTransGen fun w w' => ∃ c : ContractCall, M c ∧ Returns c.call w () w'

namespace Calls

variable {M : ContractCall → Prop} {w w' w'' : World}

theorem refl (w : World) : Calls M w w := Relation.ReflTransGen.refl

theorem trans (h : Calls M w w') (h' : Calls M w' w'') : Calls M w w'' := Relation.ReflTransGen.trans h h'

theorem one {c : ContractCall} (hc : M c) (h : Returns c.call w () w') : Calls M w w' :=
  Relation.ReflTransGen.single ⟨c, hc, h⟩

/-- What each of the calls keeps, all of them keep. -/
theorem keeps {I : World → Prop} (h : Calls M w w')
    (hstep : ∀ {v v' : World} {c : ContractCall}, I v → M c → Returns c.call v () v' → I v')
    (hw : I w) : I w' := by
  induction h with
  | refl => exact hw
  | tail _ hcall ih =>
    obtain ⟨c, hc, hcall⟩ := hcall
    exact hstep ih hc hcall

end Calls

/-! ## Calls through several contracts -/

/-- What a settlement calls on the engine for the fill's orders. -/
inductive FillCall (env : Env) (fill : MatchedFill) : ContractCall → Prop
  | openPosition {order : Order} (ho : order = fill.maker ∨ order = fill.taker) (size : Int) :
      FillCall env fill (.account (.trade
        (.openPosition env order.owner order.marketId size order.isLong fill.fillPrice .cross)))
  | increasePosition {order : Order} (ho : order = fill.maker ∨ order = fill.taker)
      (positionId : Nat) :
      FillCall env fill (.account (.trade
        (.increasePosition env order.owner positionId fill.fillSize fill.fillPrice)))
  | reducePosition {order : Order} (ho : order = fill.maker ∨ order = fill.taker)
      (positionId : Nat) (size : Int) :
      FillCall env fill (.account (.trade
        (.reducePosition env order.owner positionId size fill.fillPrice)))
  | chargeTradeFee {order : Order} (ho : order = fill.maker ∨ order = fill.taker) (isMaker : Bool) :
      FillCall env fill (.account
        (.chargeTradeFee env order.owner order.marketId fill.fillSize fill.fillPrice isMaker))

theorem FillCall.account {env : Env} {fill : MatchedFill} {c : ContractCall} (h : FillCall env fill c) :
    ∃ op, c = .account op ∧ op.env = env := by
  cases h with
  | openPosition | increasePosition | reducePosition | chargeTradeFee => exact ⟨_, rfl, rfl⟩

/-- What a liquidation calls on the engine, the fund and the vault. -/
inductive LiquidationCall (env : Env) (liquidator user : Address) (positionId : Nat)
    (closeSize price : Int) : ContractCall → Prop
  | liquidateReduce : LiquidationCall env liquidator user positionId closeSize price
      (.account (.trade (.liquidateReduce env user positionId closeSize price)))
  | payLiquidator (asset : Address) (amount : Int) :
      LiquidationCall env liquidator user positionId closeSize price
        (.fund (.staking (.payLiquidator env liquidator asset amount)))
  | seizeForDeficit (asset : Address) : LiquidationCall env liquidator user positionId closeSize price
      (.account (.vault (.seizeForDeficit env user asset)))
  | absorbBadDebt (asset : Address) : LiquidationCall env liquidator user positionId closeSize price
      (.account (.vault (.absorbBadDebt env user asset)))

/-- What a deleveraging calls on the engine and the fund. -/
inductive AdlCall (env : Env) (counterparty : Address) (positionId : Nat) (price : Int) :
    ContractCall → Prop
  | liquidateReduce (size : Int) : AdlCall env counterparty positionId price
      (.account (.trade (.liquidateReduce env counterparty positionId size price)))
  | reduceBadDebt (asset : Address) (amount : Int) : AdlCall env counterparty positionId price
      (.fund (.reduceBadDebt env asset amount))

inductive ProtocolOp where
  | direct (call : ContractCall)
  | liquidate (env : Env) (liquidator user : Address) (positionId : Nat)
      (closeSize executionPrice : Int)
  | adl (env : Env) (keeper counterparty : Address) (positionId : Nat)
      (closeSize executionPrice : Int)
  | gateway (op : GatewayOp)

namespace ProtocolOp

def call : ProtocolOp → Tx Unit
  | direct call => call.call
  | liquidate env liquidator user positionId closeSize executionPrice =>
    void (Liquidation.liquidate env liquidator user positionId closeSize executionPrice)
  | adl env keeper counterparty positionId closeSize executionPrice =>
    void (Liquidation.adl env keeper counterparty positionId closeSize executionPrice)
  | gateway op => op.call

/-- The host of the transaction. -/
def env : ProtocolOp → Env
  | direct call => call.env
  | liquidate env .. | adl env .. => env
  | gateway op => op.env

/-- The calls that the transaction amounts to. -/
def Makes (deployed : Deployment) : ProtocolOp → ContractCall → Prop
  | direct call => (· = call)
  | liquidate env liquidator user positionId closeSize executionPrice =>
    LiquidationCall (env.callFrom deployed.liquidation) liquidator user positionId closeSize
      executionPrice
  | adl env _ counterparty positionId _ executionPrice =>
    AdlCall (env.callFrom deployed.liquidation) counterparty positionId executionPrice
  | gateway op => fun c => ∃ fill, op.fill? = some fill ∧
    FillCall (op.env.callFrom deployed.gateway) fill c

end ProtocolOp

end Kryon

import Kryon.World

/-! # A deployed system

The state once the six contracts are initialised and know each other, and one
sample deployment: an account each for an operator, three traders and a keeper,
a settlement token, a volatile token and one market. -/
namespace Kryon

/-- Every contract initialised by `admin` and wired to the others; nothing listed yet. -/
def wired (deployed : Deployment) (admin settlementAsset : Address) (maxRewardBps : Nat) : World where
  deployed
  vault := {
    admin := some admin, engine := some deployed.engine, oracle := some deployed.oracle
    insurance := some deployed.insurance, liquidation := some deployed.liquidation
    operator := some admin }
  engine := {
    admin := some admin, liquidation := some deployed.liquidation
    insurance := some deployed.insurance, oracle := some deployed.oracle
    vault := some deployed.vault, settlementAsset := some settlementAsset
    feeCollector := some deployed.gateway, feeRecipient := some admin
    orderGateway := some deployed.gateway, nextPositionId := some 1 }
  insurance := {
    admin := some admin, liquidation := some deployed.liquidation, vault := some deployed.vault }
  liquidation := {
    admin := some admin, engine := some deployed.engine, vault := some deployed.vault
    insurance := some deployed.insurance, settlementAsset := some settlementAsset
    maxRewardBps := some maxRewardBps }
  gateway := { admin := some admin, engine := some deployed.engine, operator := some admin }

namespace Sample

def deployment : Deployment where
  oracle := .contract 1
  vault := .contract 2
  engine := .contract 3
  insurance := .contract 4
  liquidation := .contract 5
  gateway := .contract 6

def admin : Address := .account 1

def alice : Address := .account 2

def bob : Address := .account 3

def keeper : Address := .account 5

def usdc : Address := .contract 100

def xlm : Address := .contract 101

def market : MarketConfig where
  marketId := 1
  baseAsset := "BTC"
  settlementAsset := usdc
  maxLeverageBps := 100000
  initialMarginBps := 1000
  maintenanceMarginBps := 500
  liquidationFeeBps := 50
  maxOpenInterest := 1000 * precision
  maxOracleAgeSecs := 60
  maxOracleConfidenceBps := 100
  active := true

def feed : FeedConfig where
  publisher := admin
  source := .reflector
  guard := { maxAgeSecs := 60, maxConfidenceBps := 100 }
  active := true
  requiredSources := [.reflector]
  minSources := 1
  maxSourceDeviationBps := 0

def quote (asset : Symbol) (price : Int) (now : Nat) : OracleSnapshot where
  asset
  price
  confidence := 0
  source := .reflector
  publishTime := now
  writeTime := now

/-- Fresh prices for the two tokens and the market's base asset. -/
def prices (btc : Int) (now : Nat) : OracleStorage where
  config := (((∅ : Store Symbol FeedConfig).set "USDC" feed).set "XLM" feed).set "BTC" feed
  price := (((∅ : Store Symbol OracleSnapshot).set "USDC" (quote "USDC" precision now)).set
    "XLM" (quote "XLM" precision now)).set "BTC" (quote "BTC" btc now)

/-- Everybody signs, tokens move freely and every signature verifies. -/
def host (now : Nat) : Env where
  timestamp := now
  signed _ := true
  signedArgs _ _ := true
  transfer tokens _ _ _ _ := some tokens
  sha256 bytes := bytes
  ed25519Verify _ _ _ := true

/-- The wired system with both tokens and the market listed. -/
def world (btc : Int) (now : Nat) : World :=
  let w := wired deployment admin usdc 50
  { w with
    oracle := prices btc now
    vault := { w.vault with
      collateral := ((∅ : KeyedStore CollateralConfig.asset).set
        { asset := usdc, oracleAsset := "USDC", haircutBps := 0, active := true }).set
        { asset := xlm, oracleAsset := "XLM", haircutBps := 1000, active := true }
      marketConfig := (∅ : KeyedStore MarketConfig.marketId).set market }
    engine := { w.engine with
      market := (∅ : KeyedStore EngineMarketConfig.marketId).set
        { market, maxExecutionDeviationBps := 100 } } }

/-- The settlement token deposited for a user without a balance. -/
def deposited (user : Address) (amount : Int) (w : World) : World :=
  { w with vault := { w.vault with
    balance := w.vault.balance.set (user, usdc) amount
    userAssets := w.vault.userAssets.set user [usdc] } }

/-- Alice and bob each hold a thousand, and the prices are fresh. -/
def trading (now : Nat) : World :=
  deposited bob (1000 * precision) (deposited alice (1000 * precision) (world (100 * precision) now))

/-- Alice buys. -/
def bid (size : Int) (nonce expiryTs : Nat) : Order where
  owner := alice
  marketId := 1
  isLong := true
  size
  limitPrice := 100 * precision
  reduceOnly := false
  nonce
  expiryTs

/-- Bob sells. -/
def ask (size : Int) (nonce expiryTs : Nat) : Order :=
  { bid size nonce expiryTs with owner := bob, isLong := false }

/-- The two orders matched at their common limit. -/
def matched (maker taker : Order) (fillSize : Int) : MatchedFill where
  maker
  taker
  fillSize
  fillPrice := 100 * precision

end Sample
end Kryon

import Kryon.Engine

/-! # The order gateway (`perp-order-gateway`) -/
namespace Kryon

namespace GatewayStorage

variable (s : GatewayStorage)

def filledOf (owner : Address) (nonce : Nat) : Int :=
  ((s.filled.get (owner, nonce)).map FilledEntry.amount).getD 0

def isCancelled (owner : Address) (nonce : Nat) : Bool := (s.cancelled.get (owner, nonce)).isSome

end GatewayStorage

namespace Gateway
open Transaction

def reclaimGraceSecs : Nat := 86400

def maxOrderTtlSecs : Nat := 7 * 86400

def requireOperator (env : Env) (s : GatewayStorage) : Res Address := do
  let operator ← okOr s.operator .unauthorized
  requireAuth env operator
  return operator

def requireNotPaused (s : GatewayStorage) : Res Unit := reject (s.paused = true) .unauthorized

/-- Write this contract's own storage. -/
def store (f : GatewayStorage → GatewayStorage) : Tx Unit :=
  modify fun w => { w with gateway := f w.gateway }

/-! ## Cancelling and reclaiming -/

def cancelOrder (env : Env) (owner : Address) (nonce expiryTs : Nat) : Tx Unit := do
  requireAuth env owner
  let floor := saturatingAdd env.timestamp maxOrderTtlSecs
  let retainUntil := max expiryTs floor
  store fun s => { s with cancelled := s.cancelled.set (owner, nonce) retainUntil }

/-- Past the retention time and the grace period. -/
def reclaimable (now expiryTs : Nat) : Prop := now > saturatingAdd expiryTs reclaimGraceSecs

instance (now expiryTs : Nat) : Decidable (reclaimable now expiryTs) :=
  inferInstanceAs (Decidable (_ > _))

/-- Remove the entry at `key` when it is reclaimable; the second component counts it. -/
def reclaimEntry {V : Type} (now : Nat) (expiryOf : V → Nat) (key : Address × Nat)
    (table : Store (Address × Nat) V) : Store (Address × Nat) V × Nat :=
  match table.get key with
  | some entry => if reclaimable now (expiryOf entry) then (table.remove key, 1) else (table, 0)
  | none => (table, 0)

def reclaimFilled (now : Nat) (owner : Address) (nonce : Nat) (s : GatewayStorage) :
    GatewayStorage × Nat :=
  let (filled, removed) := reclaimEntry now FilledEntry.expiryTs (owner, nonce) s.filled
  ({ s with filled }, removed)

def reclaimCancelled (now : Nat) (owner : Address) (nonce : Nat) (s : GatewayStorage) :
    GatewayStorage × Nat :=
  let (cancelled, removed) := reclaimEntry now id (owner, nonce) s.cancelled
  ({ s with cancelled }, removed)

def reclaimNonces (now : Nat) (owner : Address) (removed : Nat) : List Nat → Tx Nat
  | [] => return removed
  | nonce :: rest => do
    let w ← get
    let (s, removedFilled) := reclaimFilled now owner nonce w.gateway
    let (s, removedCancelled) := reclaimCancelled now owner nonce s
    store fun _ => s
    let removed ← toU32OrTrap (removed + removedFilled + removedCancelled)
    reclaimNonces now owner removed rest

def reclaimOrderState (env : Env) (owner : Address) (nonces : List Nat) : Tx Nat :=
  reclaimNonces env.timestamp owner 0 nonces

/-! ## The canonical order message -/

def ascii (s : String) : List UInt8 := s.toList.map fun c => UInt8.ofNat c.toNat

/-- The 32 bytes of a public key, most significant first. -/
def toArray (publicKey : BitVec 256) : List UInt8 :=
  (List.range 32).map fun i => UInt8.ofNat (publicKey.toNat / 256 ^ (31 - i) % 256)

def hexDigit (nibble : UInt8) : UInt8 := (ascii "0123456789abcdef").getD nibble.toNat 0

def hexByte (b : UInt8) : List UInt8 := [hexDigit (b >>> 4), hexDigit (b &&& 0x0f)]

def appendHex (buf bytes : List UInt8) : List UInt8 := buf ++ bytes.flatMap hexByte

/-- The digit loop over a buffer with `i` free bytes at its front: running out of
buffer underflows the index and panics. -/
def decimalLoop : Nat → Nat → List UInt8 → Res (List UInt8)
  | _, 0, tmp => .ok tmp
  | 0, _ + 1, _ => .error .trap
  | i + 1, n + 1, tmp => decimalLoop i ((n + 1) / 10) (UInt8.ofNat (48 + (n + 1) % 10) :: tmp)

def appendDecimalU128 (buf : List UInt8) (v : Nat) : Res (List UInt8) :=
  if v = 0 then .ok (buf ++ ascii "0")
  else do
    let tmp ← decimalLoop 40 v []
    return buf ++ tmp

def appendDecimalI128 (buf : List UInt8) (v : Int) : Res (List UInt8) :=
  if v < 0 then appendDecimalU128 (buf ++ ascii "-") v.natAbs else appendDecimalU128 buf v.toNat

def flag (b : Bool) : List UInt8 := if b then ascii "1" else ascii "0"

def orderMessage (domain : List UInt8) (publicKey : BitVec 256) (order : Order) :
    Res (List UInt8) := do
  let msg := appendHex (domain ++ ascii "|place_order|") (toArray publicKey) ++ ascii "|"
  let msg ← appendDecimalU128 msg order.marketId
  let msg := msg ++ ascii "|" ++ flag order.isLong ++ ascii "|"
  let msg ← appendDecimalI128 msg order.size
  let msg ← appendDecimalI128 (msg ++ ascii "|") order.limitPrice
  let msg := msg ++ ascii "|" ++ flag order.reduceOnly ++ ascii "|"
  let msg ← appendDecimalU128 msg order.nonce
  appendDecimalU128 (msg ++ ascii "|") order.expiryTs

def verifyOrderSignature (env : Env) (s : GatewayStorage) (order : Order) (sig : BitVec 512) :
    Res Unit := do
  let domain ← okOr s.domain .invalidConfig
  match order.owner with
  | .contract _ => .error (.code .unauthorized)
  | .account publicKey => do
    let msg ← orderMessage domain publicKey order
    let digest := env.sha256 (ascii "Stellar Signed Message:\n" ++ msg)
    failIf (env.ed25519Verify publicKey digest sig = false) .trap

def requireOrderAuth (env : Env) (role : Symbol) (order : Order) : Res Unit :=
  requireAuthForArgs env order.owner {
    function := "settle_fill", role, marketId := order.marketId, isLong := order.isLong
    size := order.size, limitPrice := order.limitPrice, reduceOnly := order.reduceOnly
    nonce := order.nonce, expiryTs := order.expiryTs }

/-! ## Validation -/

def validateOrder (now : Nat) (s : GatewayStorage) (order : Order) (fillSize fillPrice : Int) :
    Res Unit := do
  reject (order.size ≤ 0 ∨ order.limitPrice ≤ 0) .invalidAmount
  reject (now > order.expiryTs) .orderExpired
  reject (order.expiryTs > saturatingAdd now maxOrderTtlSecs) .orderExpired
  reject (s.isCancelled order.owner order.nonce = true) .orderCancelled
  let filled ← checkedAdd (s.filledOf order.owner order.nonce) fillSize
  reject (filled > order.size) .orderOverfilled
  reject (order.isLong = true ∧ fillPrice > order.limitPrice) .priceOutsideBand
  reject (order.isLong = false ∧ fillPrice < order.limitPrice) .priceOutsideBand

def validateFill (now : Nat) (s : GatewayStorage) (fill : MatchedFill) : Res Unit := do
  reject (fill.fillSize ≤ 0 ∨ fill.fillPrice ≤ 0) .invalidAmount
  reject (fill.maker.owner = fill.taker.owner) .selfTrade
  reject (fill.maker.marketId = 0 ∨ fill.maker.marketId ≠ fill.taker.marketId) .invalidConfig
  reject (fill.maker.isLong = fill.taker.isLong) .directionMismatch
  validateOrder now s fill.maker fill.fillSize fill.fillPrice
  validateOrder now s fill.taker fill.fillSize fill.fillPrice

/-! ## Settlement -/

def engineAddress (w : World) : Res Address := okOr w.gateway.engine .invalidConfig

def callEngine {α : Type} (env : Env) (call : Env → Tx α) : Tx α := do
  let engine ← readWith engineAddress
  let w ← get
  invoke engine w.deployed.engine (call (env.callFrom w.deployed.gateway))

def enginePositions (w : World) (user : Address) : Res (List Position) := do
  let engine ← engineAddress w
  reach engine w.deployed.engine
  return w.engine.loadPositions user

def engineOpenPosition (env : Env) (user : Address) (marketId : Nat) (size : Int) (isLong : Bool)
    (executionPrice : Int) : Tx Unit := do
  let _ ← callEngine env fun env =>
    Engine.openPosition env user marketId size isLong executionPrice .cross

def engineIncreasePosition (env : Env) (user : Address) (positionId : Nat)
    (size executionPrice : Int) : Tx Unit := do
  let _ ← callEngine env fun env => Engine.increasePosition env user positionId size executionPrice

def engineReducePosition (env : Env) (user : Address) (positionId : Nat)
    (size executionPrice : Int) : Tx Unit := do
  let _ ← callEngine env fun env => Engine.reducePosition env user positionId size executionPrice

def engineChargeTradeFee (env : Env) (user : Address) (marketId : Nat)
    (size executionPrice : Int) (isMaker : Bool) : Tx Int :=
  callEngine env fun env => Engine.chargeTradeFee env user marketId size executionPrice isMaker

/-- The positions a fill meets: the last one of the market on the opposite side
and the last one on the same side. -/
structure Sides where
  opposite : Option Position
  same : Option Position
  deriving DecidableEq, Repr

def scanSide (marketId : Nat) (isLong : Bool) (sides : Sides) (position : Position) : Sides :=
  if position.marketId ≠ marketId then sides
  else if position.isLong = isLong then { sides with same := some position }
  else { sides with opposite := some position }

def scanSides (marketId : Nat) (isLong : Bool) (positions : List Position) : Sides :=
  positions.foldl (scanSide marketId isLong) ⟨none, none⟩

/-- Close into the opposite position; the rest of the fill opens the other way. -/
def settleOpposite (env : Env) (owner : Address) (marketId : Nat) (isLong reduceOnly : Bool)
    (fillSize fillPrice : Int) (position : Position) : Tx Unit := do
  let closeSize := min position.size fillSize
  engineReducePosition env owner position.positionId closeSize fillPrice
  let residual ← toI128OrTrap (fillSize - closeSize)
  if residual > 0 then do
    reject (reduceOnly = true) .invalidAmount
    engineOpenPosition env owner marketId residual isLong fillPrice
  else
    return ()

def settleUserSide (env : Env) (owner : Address) (marketId : Nat) (isLong reduceOnly : Bool)
    (fillSize fillPrice : Int) : Tx Unit := do
  let positions ← readWith fun w => enginePositions w owner
  let sides := scanSides marketId isLong positions
  match sides.opposite with
  | some position =>
    settleOpposite env owner marketId isLong reduceOnly fillSize fillPrice position
  | none => do
    reject (reduceOnly = true) .positionNotFound
    match sides.same with
    | some position =>
      engineIncreasePosition env owner position.positionId fillSize fillPrice
    | none => engineOpenPosition env owner marketId fillSize isLong fillPrice

def addFilled (owner : Address) (nonce expiryTs : Nat) (amount : Int) : Tx Int := do
  let next ← readWith fun w => checkedAdd (w.gateway.filledOf owner nonce) amount
  store fun s => { s with filled := s.filled.set (owner, nonce) { amount := next, expiryTs } }
  return next

/-- One party of a fill: its trade, then its fee. -/
def settleParty (env : Env) (order : Order) (fillSize fillPrice : Int) (isMaker : Bool) :
    Tx Unit := do
  settleUserSide env order.owner order.marketId order.isLong order.reduceOnly fillSize fillPrice
  let _ ← engineChargeTradeFee env order.owner order.marketId fillSize fillPrice isMaker

def executeFill (env : Env) (fill : MatchedFill) : Tx FillReceipt := do
  settleParty env fill.maker fill.fillSize fill.fillPrice true
  settleParty env fill.taker fill.fillSize fill.fillPrice false
  let makerFilled ← addFilled fill.maker.owner fill.maker.nonce fill.maker.expiryTs fill.fillSize
  let takerFilled ← addFilled fill.taker.owner fill.taker.nonce fill.taker.expiryTs fill.fillSize
  return {
    makerOwner := fill.maker.owner, takerOwner := fill.taker.owner
    marketId := fill.maker.marketId, fillSize := fill.fillSize, fillPrice := fill.fillPrice
    makerFilled, takerFilled }

def settleFill (env : Env) (fill : MatchedFill) : Tx FillReceipt := do
  readWith fun w => requireNotPaused w.gateway
  let _ ← readWith fun w => requireOperator env w.gateway
  requireOrderAuth env "maker" fill.maker
  requireOrderAuth env "taker" fill.taker
  readWith fun w => validateFill env.timestamp w.gateway fill
  executeFill env fill

def settleFillSigned (env : Env) (fill : MatchedFill) (makerSig takerSig : BitVec 512) :
    Tx FillReceipt := do
  readWith fun w => requireNotPaused w.gateway
  let _ ← readWith fun w => requireOperator env w.gateway
  readWith fun w => verifyOrderSignature env w.gateway fill.maker makerSig
  readWith fun w => verifyOrderSignature env w.gateway fill.taker takerSig
  readWith fun w => validateFill env.timestamp w.gateway fill
  executeFill env fill

end Gateway
end Kryon

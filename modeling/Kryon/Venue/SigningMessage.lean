import Kryon.Storage

/-! # Signing messages (`client/lib/market/signing-message.ts`)

The text a wallet signs for an order. A number or `bigint` is written in base 10. -/
namespace Kryon.Venue

/-- The fields of a `SignedOrderPayload` that the message shows. -/
structure SignedOrderPayload where
  marketId : Nat
  isLong : Bool
  size : String
  limitPrice : String
  reduceOnly : Bool
  nonce : String
  expiryTs : String
  deriving DecidableEq, Repr

/-- `b.toString(16).padStart(2, "0")`. -/
def hexPair (b : UInt8) : String := .ofList ((Nat.toDigits 16 b.toNat).leftpad 2 '0')

def toHex (bytes : List UInt8) : String := String.join (bytes.map hexPair)

def orderSettlementMessage (domain pubkeyHex : String) (o : SignedOrderPayload) : String :=
  "|".intercalate [
    domain,
    "place_order",
    pubkeyHex,
    o.marketId.repr,
    if o.isLong then "1" else "0",
    o.size,
    o.limitPrice,
    if o.reduceOnly then "1" else "0",
    o.nonce,
    o.expiryTs]

/-- The payload that `validateOrderIntent` (`client/lib/validation.ts`) checks a
signature of: the parsed integers written back with `toString`. -/
def signedPayload (order : Order) : SignedOrderPayload where
  marketId := order.marketId
  isLong := order.isLong
  size := order.size.repr
  limitPrice := order.limitPrice.repr
  reduceOnly := order.reduceOnly
  nonce := order.nonce.repr
  expiryTs := order.expiryTs.repr

end Kryon.Venue

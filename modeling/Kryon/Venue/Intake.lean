import Kryon.Gateway
import Kryon.Lib.Text
import Kryon.Venue.Matching
import Kryon.Venue.SigningMessage

/-! # Order intake (`client/lib/validation.ts`, `client/lib/market/signed-intent.ts`)

What `POST /api/orders` accepts and stores, and how the matcher turns a stored order and
its signature into contract arguments (`client/lib/stellar/settlement.ts`). -/
namespace Kryon.Venue
open Transaction Text

/-- A parsed JSON value, or `undefined`; `Num` is the type of JavaScript's numbers. -/
inductive JsValue (Num : Type) where
  | undefined
  | null
  | boolean (b : Bool)
  | number (n : Num)
  | string (s : String)
  | array (items : List (JsValue Num))
  | object (fields : List (String × JsValue Num))

namespace JsValue

variable {Num : Type}

/-- `typeof v === "object" && v !== null`. -/
def isObject : JsValue Num → Bool
  | array _ | object _ => true
  | _ => false

/-- `v[name]`. -/
def field (name : String) : JsValue Num → JsValue Num
  | object fields => (fields.lookup name).getD undefined
  | _ => undefined

def string? : JsValue Num → Option String
  | string s => some s
  | _ => none

def boolean? : JsValue Num → Option Bool
  | boolean b => some b
  | _ => none

end JsValue

/-- What the intake takes from its surroundings: JavaScript's number conversions, the
Stellar SDK, the configured markets and the clock. -/
structure IntakeHost (Num : Type) where
  /-- `String(n)`. -/
  numberText : Num → String
  /-- `Number(v)`, where that is an integer. -/
  integer : JsValue Num → Option Int
  /-- Throws on anything but a valid address. -/
  decodeEd25519PublicKey : String → Option (BitVec 256)
  hash : List UInt8 → List UInt8
  /-- `Keypair.verify`. -/
  verify : BitVec 256 → List UInt8 → BitVec 512 → Bool
  /-- The symbols of `ACTIVE_MARKETS`. -/
  activeMarkets : List String
  /-- `Date.now()`. -/
  now : Nat

/-! ## Bounds -/

def marketIds : List (String × Nat) := [
  ("XLM-PERP", 1), ("BTC-PERP", 2), ("ETH-PERP", 3), ("SOL-PERP", 4), ("XRP-PERP", 5),
  ("ADA-PERP", 6), ("BNB-PERP", 7), ("TRX-PERP", 8)]

def amountPrecision : Int := 10000000

def maxSize : Int := 1000000000 * amountPrecision

def maxPrice : Int := 10000000 * precision

def maxTtlSeconds : Int := 7 * 24 * 3600

def minTtlSeconds : Int := 5

def assertU64 (n : Int) : Bool := n ≥ 0 && n ≤ u64Max

/-! ## Integers as text -/

/-- White space and line terminators. -/
def isWhiteSpace (c : Char) : Bool :=
  c.toNat ∈ [0x9, 0xa, 0xb, 0xc, 0xd, 0x20, 0xa0, 0x1680, 0x2028, 0x2029, 0x202f, 0x205f, 0x3000, 0xfeff] ||
    (0x2000 ≤ c.toNat && c.toNat ≤ 0x200a)

/-- `s.trim()`. -/
def trim (s : String) : List Char :=
  ((s.toList.dropWhile isWhiteSpace).reverse.dropWhile isWhiteSpace).reverse

/-- The digits of `/^\d+$/`. -/
def digits? (s : List Char) : Option Nat :=
  if s ≠ [] ∧ s.all Char.isDigit = true then some (Nat.ofDigitChars 10 s 0) else none

/-- A text that matches `/^-?\d+$/`, as `BigInt` reads it. -/
def bigInt? : List Char → Option Int
  | '-' :: digits => (digits? digits).map fun n => -(n : Int)
  | digits => (digits? digits).map Int.ofNat

variable {Num : Type}

def parseBigInt (host : IntakeHost Num) : JsValue Num → Option Int
  | .string s => bigInt? (trim s)
  | .number n => bigInt? (trim (host.numberText n))
  | _ => none

/-! ## Signatures as text -/

def hexValue? (c : Char) : Option Nat :=
  if '0' ≤ c ∧ c ≤ '9' then some (c.toNat - '0'.toNat)
  else if 'a' ≤ c ∧ c ≤ 'f' then some (c.toNat - 'a'.toNat + 10)
  else if 'A' ≤ c ∧ c ≤ 'F' then some (c.toNat - 'A'.toNat + 10)
  else none

/-- `Buffer.from(s, "hex")` of a text of hex digits. -/
def hexBytes : List Nat → List UInt8
  | high :: low :: rest => UInt8.ofNat (16 * high + low) :: hexBytes rest
  | _ => []

def base64Value? (c : Char) : Option Nat :=
  if 'A' ≤ c ∧ c ≤ 'Z' then some (c.toNat - 'A'.toNat)
  else if 'a' ≤ c ∧ c ≤ 'z' then some (c.toNat - 'a'.toNat + 26)
  else if '0' ≤ c ∧ c ≤ '9' then some (c.toNat - '0'.toNat + 52)
  else if c = '+' ∨ c = '-' then some 62
  else if c = '/' ∨ c = '_' then some 63
  else none

def base64Bytes : List Nat → List UInt8
  | a :: b :: c :: d :: rest =>
    UInt8.ofNat (4 * a + b / 16) :: UInt8.ofNat (16 * (b % 16) + c / 4) ::
      UInt8.ofNat (64 * (c % 4) + d) :: base64Bytes rest
  | [a, b, c] => [UInt8.ofNat (4 * a + b / 16), UInt8.ofNat (16 * (b % 16) + c / 4)]
  | [a, b] => [UInt8.ofNat (4 * a + b / 16)]
  | _ => []

/-- `Buffer.from(s, "base64")`: either alphabet, other characters ignored, up to the padding. -/
def base64Buffer (s : List Char) : List UInt8 :=
  base64Bytes ((s.takeWhile (· ≠ '=')).filterMap base64Value?)

/-- 128 hex digits, or else base64. -/
def signatureBuffer (s : List Char) : List UInt8 :=
  if s.length = 128 ∧ s.all (fun c => (hexValue? c).isSome) = true then hexBytes (s.filterMap hexValue?)
  else base64Buffer s

def decodeSignature (signature : String) : List UInt8 := signatureBuffer (trim signature)

/-- The bytes of a signature as one number, most significant first. -/
def signatureBits (bytes : List UInt8) : BitVec 512 :=
  .ofNat 512 (bytes.foldl (fun n b => 256 * n + b.toNat) 0)

def sep53Prefix : String := "Stellar Signed Message:\n"

def verifySignedMessage (host : IntakeHost Num) (owner message signature : String) : Bool :=
  let sig := decodeSignature signature
  if sig.length ≠ 64 then false
  else match host.decodeEd25519PublicKey owner with
    | none => false
    | some publicKey =>
      host.verify publicKey (host.hash (utf8 sep53Prefix ++ utf8 message)) (signatureBits sig)

/-! ## The validation -/

structure ValidatedOrder where
  owner : String
  marketId : Nat
  isLong : Bool
  size : Int
  limitPrice : Int
  reduceOnly : Bool
  nonce : Int
  expiryTs : Int
  deriving DecidableEq, Repr

/-- The market that `Number(v)` identifies, if it is an active one. -/
def validMarketId (host : IntakeHost Num) (v : JsValue Num) : Option Nat := do
  let marketId ← host.integer v
  (host.activeMarkets.filterMap fun symbol => marketIds.lookup symbol).find? fun id => (id : Int) = marketId

/-- `s.length`: the UTF-16 code units. -/
def codeUnits (s : String) : Nat := (s.toList.map fun c => if c.toNat ≤ 0xffff then 1 else 2).sum

def ValidatedOrder.signed (o : ValidatedOrder) : SignedOrderPayload where
  marketId := o.marketId
  isLong := o.isLong
  size := o.size.repr
  limitPrice := o.limitPrice.repr
  reduceOnly := o.reduceOnly
  nonce := o.nonce.repr
  expiryTs := o.expiryTs.repr

def pubkeyHexFromAddress (host : IntakeHost Num) (owner : String) : Option String :=
  (host.decodeEd25519PublicKey owner).map fun publicKey => toHex (Gateway.toArray publicKey)

def validateOrderIntent (host : IntakeHost Num) (body : JsValue Num) (networkPassphrase : String) :
    Except String ValidatedOrder := do
  failIf (body.isObject = false) "Body must be an object"
  let owner ← someOr (body.field "owner").string? "Invalid owner address"
  failIf ((host.decodeEd25519PublicKey owner).isSome = false) "Invalid owner address"
  let marketId ← someOr (validMarketId host (body.field "market_id")) "Unknown market_id"
  let isLong ← someOr (body.field "is_long").boolean? "is_long must be boolean"
  let reduceOnly ← someOr (body.field "reduce_only").boolean? "reduce_only must be boolean"
  let size ← someOr (parseBigInt host (body.field "size")) "size must be a positive integer"
  failIf (size ≤ 0) "size must be a positive integer"
  failIf (size > maxSize) "size exceeds maximum"
  let priceError := "limit_price must be a positive integer; for a market order send an " ++
    "aggressive crossing limit (e.g. 2x mark to buy, 0.5x to sell) rather than 0"
  let limitPrice ← someOr (parseBigInt host (body.field "limit_price")) priceError
  failIf (limitPrice ≤ 0) priceError
  failIf (limitPrice > maxPrice) "limit_price exceeds maximum"
  let nonce ← someOr (parseBigInt host (body.field "nonce")) "nonce must be a uint64 integer"
  failIf (assertU64 nonce = false) "nonce must be a uint64 integer"
  let expiryTs ← someOr (parseBigInt host (body.field "expiry_ts"))
    "expiry_ts must be a uint64 integer"
  failIf (assertU64 expiryTs = false) "expiry_ts must be a uint64 integer"
  let nowSec : Int := host.now / 1000
  failIf (expiryTs ≤ nowSec + minTtlSeconds) "expiry_ts is too soon"
  failIf (expiryTs > nowSec + maxTtlSeconds) "expiry_ts too far in the future"
  let signature ← someOr (body.field "signature").string? "Missing order signature"
  failIf (codeUnits signature > 256) "Missing order signature"
  let order : ValidatedOrder :=
    { owner, marketId, isLong, size, limitPrice, reduceOnly, nonce, expiryTs }
  let pubkeyHex ← someOr (pubkeyHexFromAddress host owner) "Invalid owner address"
  failIf (verifySignedMessage host owner
    (orderSettlementMessage networkPassphrase pubkeyHex order.signed) signature = false)
    "Invalid order signature"
  return order

/-! ## From the stored order to the contract -/

/-- The row that the intake stores, as `mapOrderRow` reads it back. -/
def ValidatedOrder.row (o : ValidatedOrder) (signature : String) (createdAt : Nat) : RestingOrder where
  id := o.owner ++ ":" ++ o.nonce.repr
  owner := o.owner
  marketId := o.marketId
  isLong := o.isLong
  size := o.size
  limitPrice := o.limitPrice
  reduceOnly := o.reduceOnly
  nonce := o.nonce
  expiryTs := o.expiryTs
  filledSize := 0
  createdAt
  signature := some signature

/-- The contract's `Order`; an address that does not decode throws. -/
def orderToScVal (host : IntakeHost Num) (o : RestingOrder) : Option Order := do
  let publicKey ← host.decodeEd25519PublicKey o.owner
  return {
    owner := .account publicKey, marketId := o.marketId, isLong := o.isLong, size := o.size
    limitPrice := o.limitPrice, reduceOnly := o.reduceOnly, nonce := o.nonce.toNat
    expiryTs := o.expiryTs.toNat }

def decodeSig (sig : String) : List UInt8 := signatureBuffer (trim sig)

/-- Throws unless there are 64 bytes. -/
def bytesN64Val (sig : String) : Option (BitVec 512) :=
  let buf := decodeSig sig
  if buf.length ≠ 64 then none else some (signatureBits buf)

end Kryon.Venue

import Kryon.Gateway.Message
import Kryon.Venue.Intake
import Kryon.Deployed

/-! # What the intake accepts, the gateway settles

The bounds of `validateOrderIntent` are within those of `validate_order`, and the message and
the signature it verifies are the ones the gateway verifies. -/
namespace Kryon.Venue
open Transaction Text

variable {Num : Type} {host : IntakeHost Num} {body : JsValue Num} {passphrase : String}
  {o : ValidatedOrder}

/-- What an accepted body meets. -/
structure Intake (host : IntakeHost Num) (body : JsValue Num) (passphrase : String)
    (o : ValidatedOrder) (signature : String) (publicKey : BitVec 256) : Prop where
  signed : body.field "signature" = .string signature
  owner : host.decodeEd25519PublicKey o.owner = some publicKey
  marketId : validMarketId host (body.field "market_id") = some o.marketId
  size : 0 < o.size ∧ o.size ≤ maxSize
  limitPrice : 0 < o.limitPrice ∧ o.limitPrice ≤ maxPrice
  nonce : assertU64 o.nonce = true
  expiryTs : assertU64 o.expiryTs = true
  soonest : (host.now / 1000 : Int) + minTtlSeconds < o.expiryTs
  latest : o.expiryTs ≤ (host.now / 1000 : Int) + maxTtlSeconds
  verified : verifySignedMessage host o.owner
    (orderSettlementMessage passphrase (toHex (Gateway.toArray publicKey)) o.signed) signature = true

theorem string?_eq_some {v : JsValue Num} {s : String} (h : v.string? = some s) : v = .string s := by
  cases v with
  | string t => rw [Option.some.inj h]
  | _ => cases h

theorem validateOrderIntent_intake (h : validateOrderIntent host body passphrase = .ok o) :
    ∃ signature publicKey, Intake host body passphrase o signature publicKey := by
  simp only [validateOrderIntent, except_bind_ok, someOr_ok, failIf_ok, except_pure_ok,
    pubkeyHexFromAddress, Option.map_eq_some_iff, Bool.not_eq_false] at h
  obtain ⟨_, _, owner, _, _, _, marketId, hmarket, isLong, _, reduceOnly, _, size, _, _, hsize, _,
    hmaxSize, limitPrice, _, _, hprice, _, hmaxPrice, nonce, _, _, hnonce, expiryTs, _, _, hexpiry, _,
    hsoon, _, hlate, signature, hsigned, _, _, pubkeyHex, ⟨publicKey, hkey, rfl⟩, _, hverified, rfl⟩ := h
  exact ⟨signature, publicKey, string?_eq_some hsigned, hkey, hmarket,
    ⟨not_le.mp hsize, not_lt.mp hmaxSize⟩, ⟨not_le.mp hprice, not_lt.mp hmaxPrice⟩, hnonce, hexpiry,
    not_le.mp hsoon, not_lt.mp hlate, hverified⟩

theorem marketId_le {v : JsValue Num} {id : Nat} (h : validMarketId host v = some id) :
    id ≤ u32Max := by
  obtain ⟨marketId, _, hfind⟩ := Option.bind_eq_some_iff.mp h
  obtain ⟨symbol, _, hlookup⟩ := List.mem_filterMap.mp (List.mem_of_find?_eq_some hfind)
  have hall : ∀ entry ∈ marketIds, entry.2 ≤ u32Max := by decide
  obtain ⟨before, after, hsplit, _⟩ := List.lookup_eq_some_iff.mp hlookup
  exact hall (symbol, id) (hsplit ▸ List.mem_append_right _ List.mem_cons_self)

theorem assertU64_iff {n : Int} : assertU64 n = true ↔ 0 ≤ n ∧ n ≤ u64Max := by
  simp [assertU64]

theorem repr_toNat {n : Int} (h : 0 ≤ n) : n.toNat.repr = n.repr := by
  rw [Int.repr_eq_if, if_pos h]

namespace Intake

variable {signature : String} {publicKey : BitVec 256} {createdAt : Nat}

/-- The contract's order for the stored row. -/
def settled (o : ValidatedOrder) (publicKey : BitVec 256) : Order where
  owner := .account publicKey
  marketId := o.marketId
  isLong := o.isLong
  size := o.size
  limitPrice := o.limitPrice
  reduceOnly := o.reduceOnly
  nonce := o.nonce.toNat
  expiryTs := o.expiryTs.toNat

theorem orderToScVal_row (h : Intake host body passphrase o signature publicKey) :
    orderToScVal host (o.row signature createdAt) = some (settled o publicKey) := by
  show (host.decodeEd25519PublicKey o.owner).bind _ = _
  rw [h.owner]
  rfl

theorem inRange (h : Intake host body passphrase o signature publicKey) :
    (settled o publicKey).InRange := by
  have hsize : maxSize ≤ i128Max := by decide
  have hprice : maxPrice ≤ i128Max := by decide
  have hnonce := assertU64_iff.mp h.nonce
  have hexpiry := assertU64_iff.mp h.expiryTs
  refine ⟨marketId_le h.marketId, ?_, ?_, Int.toNat_le.mpr hnonce.2, Int.toNat_le.mpr hexpiry.2⟩
  · exact inI128_zero.between ⟨by decide, le_rfl⟩ h.size.1.le (h.size.2.trans hsize)
  · exact inI128_zero.between ⟨by decide, le_rfl⟩ h.limitPrice.1.le (h.limitPrice.2.trans hprice)

theorem signedPayload_settled (h : Intake host body passphrase o signature publicKey) :
    signedPayload (settled o publicKey) = o.signed := by
  have hnonce := repr_toNat (assertU64_iff.mp h.nonce).1
  have hexpiry := repr_toNat (assertU64_iff.mp h.expiryTs).1
  simp only [signedPayload, settled, ValidatedOrder.signed, hnonce, hexpiry]

/-- The signature that was verified is the one the matcher submits, and it verifies. -/
theorem verifies (h : Intake host body passphrase o signature publicKey) :
    ∃ sig, bytesN64Val signature = some sig ∧ ∀ {env : Env} {s : GatewayStorage},
      s.domain = some (utf8 passphrase) → env.sha256 = host.hash →
      env.ed25519Verify = host.verify →
      Gateway.verifyOrderSignature env s (settled o publicKey) sig = .ok () := by
  have hverified := h.verified
  have hlength : (decodeSignature signature).length = 64 := by
    by_contra hne
    exact absurd hverified (by simp [verifySignedMessage, hne])
  have hkey : host.verify publicKey (host.hash (utf8 sep53Prefix ++ utf8 (orderSettlementMessage
      passphrase (toHex (Gateway.toArray publicKey)) o.signed)))
      (signatureBits (decodeSignature signature)) = true := by
    simpa [verifySignedMessage, hlength, h.owner] using hverified
  refine ⟨signatureBits (decodeSig signature), if_neg (not_not.mpr hlength), ?_⟩
  intro env s hdomain hhash hverify
  have hmessage : Gateway.orderMessage (utf8 passphrase) publicKey (settled o publicKey) =
      .ok (utf8 (orderSettlementMessage passphrase (toHex (Gateway.toArray publicKey)) o.signed)) := by
    rw [Gateway.orderMessage_fields h.inRange, ← h.signedPayload_settled,
      Gateway.utf8_orderSettlementMessage]
  have hprefix : utf8 sep53Prefix = Gateway.ascii "Stellar Signed Message:\n" := by decide
  simp only [Gateway.verifyOrderSignature, settled, except_bind_ok, okOr_ok, failIf_ok,
    Bool.not_eq_false]
  refine ⟨_, hdomain, _, hmessage, ?_⟩
  rw [hhash, hverify, ← hprefix]
  exact hkey

/-- Until it expires the order passes every check of the gateway. -/
theorem valid (h : Intake host body passphrase o signature publicKey) {s : GatewayStorage} {l : Nat}
    {fillSize fillPrice : Int}
    (hfilled : s.filled.get (.account publicKey, o.nonce.toNat) = none)
    (hcancelled : s.cancelled.get (.account publicKey, o.nonce.toNat) = none)
    (hafter : host.now / 1000 ≤ l) (hbefore : l ≤ o.expiryTs.toNat) (hfill : InI128 fillSize)
    (hsize : fillSize ≤ o.size)
    (hlimit : if o.isLong then fillPrice ≤ o.limitPrice else o.limitPrice ≤ fillPrice) :
    Gateway.validateOrder l s (settled o publicKey) fillSize fillPrice = .ok () := by
  have hfresh : s.filledOf (.account publicKey) o.nonce.toNat = 0 := by
    simp [GatewayStorage.filledOf, hfilled]
  have hlive : s.isCancelled (.account publicKey) o.nonce.toNat = false := by
    simp [GatewayStorage.isCancelled, hcancelled]
  have hexpiry := assertU64_iff.mp h.expiryTs
  have hlatest := h.latest
  have hpos := h.size.1
  have hprice := h.limitPrice.1
  have hdeadline : ¬ o.expiryTs.toNat > saturatingAdd l Gateway.maxOrderTtlSecs := by
    have hexpires : o.expiryTs.toNat ≤ l + Gateway.maxOrderTtlSecs := by
      have hsame : (Gateway.maxOrderTtlSecs : Int) = maxTtlSeconds := rfl
      omega
    exact Nat.not_lt.mpr (le_min hexpires (Int.toNat_le.mpr hexpiry.2))
  have hover : ¬ (o.isLong = true ∧ fillPrice > o.limitPrice) := by
    intro hover
    rw [if_pos hover.1] at hlimit
    omega
  have hunder : ¬ (o.isLong = false ∧ fillPrice < o.limitPrice) := by
    intro hunder
    rw [if_neg (by simp [hunder.1])] at hlimit
    omega
  simp only [Gateway.validateOrder, except_bind_ok, checkedAdd_ok]
  refine ⟨(), reject_ok.mpr ?_, (), reject_ok.mpr (Nat.not_lt.mpr hbefore), (),
    reject_ok.mpr hdeadline, (), reject_ok.mpr (Bool.not_eq_true _ ▸ hlive), fillSize, ?_, (),
    reject_ok.mpr (not_lt.mpr hsize), (), reject_ok.mpr hover, reject_ok.mpr hunder⟩
  · show ¬ (o.size ≤ 0 ∨ o.limitPrice ≤ 0)
    omega
  · have hzero : s.filledOf (settled o publicKey).owner (settled o publicKey).nonce = 0 := hfresh
    rw [hzero, zero_add]
    exact ⟨hfill, rfl⟩

end Intake

/-- **What the intake accepts can settle.** An order accepted at the server's second for a
network whose passphrase is the gateway's domain: read back from its row it is a contract
order, and its signature decodes to one that the gateway verifies; and at every ledger time
from then up to its expiry the gateway takes every fill within its size and its limit, as
long as nothing is recorded under its nonce. -/
theorem intake_settleable (h : validateOrderIntent host body passphrase = .ok o) :
    ∃ signature sig order, body.field "signature" = .string signature ∧
      bytesN64Val signature = some sig ∧
      (∀ createdAt, orderToScVal host (o.row signature createdAt) = some order) ∧
      (∀ {env : Env} {s : GatewayStorage}, s.domain = some (utf8 passphrase) →
        env.sha256 = host.hash → env.ed25519Verify = host.verify →
        Gateway.verifyOrderSignature env s order sig = .ok ()) ∧
      ∀ {s : GatewayStorage} {l : Nat} {fillSize fillPrice : Int},
        s.filled.get (order.owner, order.nonce) = none →
        s.cancelled.get (order.owner, order.nonce) = none →
        host.now / 1000 ≤ l → l ≤ order.expiryTs → InI128 fillSize → fillSize ≤ order.size →
        (if order.isLong then fillPrice ≤ order.limitPrice else order.limitPrice ≤ fillPrice) →
        Gateway.validateOrder l s order fillSize fillPrice = .ok () := by
  obtain ⟨signature, publicKey, hintake⟩ := validateOrderIntent_intake h
  obtain ⟨sig, hsig, hverifies⟩ := hintake.verifies
  exact ⟨signature, sig, Intake.settled o publicKey, hintake.signed, hsig,
    fun _ => hintake.orderToScVal_row, hverifies, hintake.valid⟩

namespace Golden

open Kryon.Sample (goldenKey)

def goldenAddress : String := "GA3SSO6D4YL5W6NDCO5V72BN5PHXC3SOBRAFMDSMUOM7OTXY2S6UAUHF"

def goldenText : String :=
  " oxvT3VHVgziCw6FQCAx7sz+18xgPumnPp9MHONJ5sgIREix2v1xuS/Wy3s4Nt5P0I0+OQjGvjvZxyakxSypxAg==\n"

def goldenSig : BitVec 512 :=
  0xa31bd3dd51d5833882c3a150080c7bb33fb5f3180fba69cfa7d30738d279b20211122c76bf5c6e4bf5b2dece0db793f4234f8e4231af8ef671c9a9314b2a7102

/-- SHA-256 of the golden message under its prefix. -/
def goldenDigest : List UInt8 :=
  Gateway.toArray 0x7f1d24bc392ef56d7a9d74cbf3a5d46ec661f47cef71b5e2db27e972d28c6cf4

/-- The surroundings as the golden order meets them, an hour before it expires. -/
def goldenHost : IntakeHost Int where
  numberText := Int.repr
  integer
    | .number n => some n
    | .string s => bigInt? (trim s)
    | _ => none
  decodeEd25519PublicKey owner := if owner = goldenAddress then some goldenKey else none
  hash _ := goldenDigest
  verify publicKey digest sig :=
    decide (publicKey = goldenKey ∧ digest = goldenDigest ∧ sig = goldenSig)
  activeMarkets := ["XLM-PERP"]
  now := 1780730744551

def goldenBody : JsValue Int := .object [
  ("owner", .string goldenAddress),
  ("market_id", .number 1),
  ("is_long", .boolean false),
  ("size", .string " 2220000"),
  ("limit_price", .string "98250000000000000"),
  ("reduce_only", .boolean false),
  ("nonce", .number 1780730744551),
  ("expiry_ts", .string "01780734344\n"),
  ("signature", .string goldenText)]

def goldenIntent : ValidatedOrder where
  owner := goldenAddress
  marketId := 1
  isLong := false
  size := 2220000
  limitPrice := 98250000000000000
  reduceOnly := false
  nonce := 1780730744551
  expiryTs := 1780734344

def goldenEnv : Env :=
  { Kryon.Sample.host 1780734344 with sha256 := goldenHost.hash, ed25519Verify := goldenHost.verify }

def goldenGateway : GatewayStorage := { domain := some (utf8 "Test SDF Network ; September 2015") }

end Golden

open Golden in
/-- The order of the contract's golden test, at its last second. -/
theorem intake_settleable_golden :
    ∃ sig order, bytesN64Val goldenText = some sig ∧
      orderToScVal goldenHost (goldenIntent.row goldenText 0) = some order ∧
      Gateway.verifyOrderSignature goldenEnv goldenGateway order sig = .ok () ∧
      Gateway.validateOrder 1780734344 goldenGateway order 2220000 98250000000000000 = .ok () := by
  have haccepted : validateOrderIntent goldenHost goldenBody "Test SDF Network ; September 2015" =
      .ok goldenIntent := by decide +kernel
  obtain ⟨signature, sig, order, hsigned, hsig, hrow, hverifies, hvalid⟩ :=
    intake_settleable haccepted
  obtain rfl : goldenText = signature := JsValue.string.inj hsigned
  have horder : orderToScVal goldenHost (goldenIntent.row goldenText 0) =
      some Kryon.Sample.goldenOrder := by decide +kernel
  obtain rfl := Option.some.inj (horder.symm.trans (hrow 0))
  exact ⟨sig, _, hsig, horder, hverifies rfl rfl rfl, hvalid rfl rfl (by decide) (by decide)
    (by decide) (by decide) (by decide)⟩

end Kryon.Venue

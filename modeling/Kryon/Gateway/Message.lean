import Kryon.Gateway
import Kryon.Lib.Text
import Kryon.Venue.SigningMessage

/-! # One order message

The gateway rebuilds, byte by byte, the message that the wallet signed as text. The two
agree for every order, and no two orders share a message. -/
namespace Kryon
open Transaction

/-- The integer fields are in the ranges of their contract types. -/
structure Order.InRange (order : Order) : Prop where
  marketId : order.marketId ≤ u32Max
  size : InI128 order.size
  limitPrice : InI128 order.limitPrice
  nonce : order.nonce ≤ u64Max
  expiryTs : order.expiryTs ≤ u64Max

namespace Gateway

open Text Venue

variable {buf domain : List UInt8} {order order' : Order} {publicKey publicKey' : BitVec 256}

/-! ## Decimals -/

/-- The digit loop prints the decimal in front of what it has, given one byte a digit. -/
theorem decimalLoop_digits {i n : Nat} {tmp : List UInt8} (hpos : 0 < n) (hn : n < 10 ^ i) :
    decimalLoop i n tmp = .ok (oneByte n.repr ++ tmp) := by
  induction i generalizing n tmp with
  | zero => omega
  | succ i ih =>
    obtain ⟨n, rfl⟩ := Nat.exists_eq_succ_of_ne_zero hpos.ne'
    have hdigit : UInt8.ofNat (48 + (n + 1) % 10) = UInt8.ofNat ((n + 1) % 10).digitChar.toNat := by
      rw [Nat.toNat_digitChar_of_lt_ten (Nat.mod_lt _ (by decide))]
    show decimalLoop i ((n + 1) / 10) (UInt8.ofNat (48 + (n + 1) % 10) :: tmp) = _
    rw [hdigit]
    by_cases hlt : n + 1 < 10
    · rw [Nat.div_eq_of_lt hlt, Nat.mod_eq_of_lt hlt, Nat.repr_of_lt hlt]
      unfold decimalLoop
      simp [oneByte]
    · have hge : 10 ≤ n + 1 := not_lt.mp hlt
      rw [ih (Nat.div_pos hge (by decide)) (by rw [pow_succ] at hn; omega), Nat.repr_of_ge hge]
      simp [oneByte]

theorem appendDecimalU128_ok {v : Nat} (hv : v < 10 ^ 40) :
    appendDecimalU128 buf v = .ok (buf ++ oneByte v.repr) := by
  unfold appendDecimalU128
  split
  · rename_i hz
    rw [hz]
    rfl
  · rename_i hnz
    rw [decimalLoop_digits (Nat.pos_of_ne_zero hnz) hv]
    simp only [List.append_nil]
    rfl

theorem appendDecimalI128_ok {v : Int} (hv : InI128 v) :
    appendDecimalI128 buf v = .ok (buf ++ oneByte v.repr) := by
  obtain ⟨hlow, hhigh⟩ := hv
  unfold i128Max at hlow hhigh
  unfold appendDecimalI128
  split
  · rename_i hneg
    rw [appendDecimalU128_ok (by omega), Int.repr_eq_if, if_neg (by omega),
      show (-v).toNat = v.natAbs by omega, List.append_assoc]
    simp [oneByte, ascii]
  · rename_i hnn
    rw [appendDecimalU128_ok (by omega), Int.repr_eq_if, if_pos (by omega)]

/-! ## Keys -/

/-- What holds of each pair of nibbles holds of each byte. -/
theorem forall_byte {P : UInt8 → Prop} (h : ∀ hi lo : Fin 16, P (UInt8.ofNat (16 * hi + lo))) (b : UInt8) :
    P b := by
  have hb := b.toNat_lt
  have hbyte := h ⟨b.toNat / 16, by omega⟩ ⟨b.toNat % 16, by omega⟩
  rwa [show 16 * (b.toNat / 16) + b.toNat % 16 = b.toNat by omega, UInt8.ofNat_toNat] at hbyte

theorem hexByte_eq : ∀ b, hexByte b = oneByte (hexPair b) := forall_byte (by decide +kernel)

/-- The byte that two hex digits stand for. -/
def unhex (digits : List UInt8) : Nat :=
  digits.foldl (fun n d => 16 * n + (ascii "0123456789abcdef").idxOf d) 0

theorem hexByte_injective {a b : UInt8} (h : hexByte a = hexByte b) : a = b := by
  have hread : ∀ b : UInt8, unhex (hexByte b) = b.toNat := forall_byte (by decide +kernel)
  have hnat := congrArg unhex h
  rw [hread, hread] at hnat
  exact UInt8.toNat_inj.mp hnat

theorem bar_notMem_hexByte : ∀ b, (124 : UInt8) ∉ hexByte b := forall_byte (by decide +kernel)

theorem toArray_injective (h : toArray publicKey = toArray publicKey') : publicKey = publicKey' := by
  refine BitVec.eq_of_toNat_eq (eq_of_digits (b := 256) (k := 32) publicKey.isLt publicKey'.isLt ?_)
  intro j hj
  have hbyte := congrArg (fun l => l[31 - j]?) h
  simp only [toArray, List.getElem?_map, List.getElem?_range (show 31 - j < 32 by omega),
    Option.map_some, Option.some.injEq] at hbyte
  have hnat := congrArg UInt8.toNat hbyte
  rw [UInt8.toNat_ofNat', UInt8.toNat_ofNat', show 31 - (31 - j) = j by omega] at hnat
  omega

/-! ## The message and its fields -/

/-- The separator. -/
def bar : UInt8 := 124

/-- The fields after the domain. -/
def messageFields (publicKey : BitVec 256) (order : Order) : List (List UInt8) := [
  ascii "place_order",
  (toArray publicKey).flatMap hexByte,
  oneByte order.marketId.repr,
  flag order.isLong,
  oneByte order.size.repr,
  oneByte order.limitPrice.repr,
  flag order.reduceOnly,
  oneByte order.nonce.repr,
  oneByte order.expiryTs.repr]

/-- The contract's message: the domain and the fields, joined by the separator. -/
theorem orderMessage_fields (h : order.InRange) : orderMessage domain publicKey order =
    .ok (domain ++ bar :: [bar].intercalate (messageFields publicKey order)) := by
  have hmarket : order.marketId < 10 ^ 40 := by
    have := h.marketId
    unfold u32Max at this
    omega
  have hnonce : order.nonce < 10 ^ 40 := by
    have := h.nonce
    unfold u64Max at this
    omega
  have hexpiry : order.expiryTs < 10 ^ 40 := by
    have := h.expiryTs
    unfold u64Max at this
    omega
  simp only [orderMessage, appendHex, appendDecimalU128_ok hmarket, appendDecimalU128_ok hnonce,
    appendDecimalU128_ok hexpiry, appendDecimalI128_ok h.size, appendDecimalI128_ok h.limitPrice,
    bind, Except.bind, messageFields, List.intercalate_cons_cons, List.intercalate_singleton]
  simp [ascii, bar]

theorem utf8_toHex (bytes : List UInt8) : utf8 (toHex bytes) = bytes.flatMap hexByte := by
  have hascii : ∀ b, (hexPair b).toList.all (fun c => decide (c.toNat < 128)) = true :=
    forall_byte (by decide +kernel)
  have hone : ∀ b : UInt8, utf8 (hexPair b) = hexByte b := by
    intro b
    have hb : IsAscii (hexPair b) := fun c hc => of_decide_eq_true (List.all_eq_true.mp (hascii b) c hc)
    rw [utf8_of_ascii hb, hexByte_eq]
  induction bytes with
  | nil => rfl
  | cons b rest ih =>
    unfold toHex at ih ⊢
    rw [List.map_cons, String.join_cons, utf8_append, ih, hone, List.flatMap_cons]

/-- The wallet's message has the same fields. -/
theorem utf8_orderSettlementMessage (text : String) (publicKey : BitVec 256) (order : Order) :
    utf8 (orderSettlementMessage text (toHex (toArray publicKey)) (signedPayload order)) =
      utf8 text ++ bar :: [bar].intercalate (messageFields publicKey order) := by
  have hflag : ∀ b : Bool, utf8 (if b then "1" else "0") = flag b := by decide
  rw [orderSettlementMessage, utf8_intercalate]
  simp only [List.map_cons, List.map_nil, utf8_toHex, hflag]
  simp only [signedPayload, utf8_of_ascii (isAscii_repr _), utf8_of_ascii (isAscii_intRepr _),
    List.intercalate_cons_cons, List.intercalate_singleton, messageFields]
  rw [show utf8 "|" = [bar] from rfl, show utf8 "place_order" = ascii "place_order" from rfl]
  simp only [List.append_assoc, List.singleton_append]

theorem bar_notMem_flag (b : Bool) : bar ∉ flag b := by cases b <;> decide

theorem bar_notMem_decimal (v : Int) : bar ∉ oneByte v.repr := by
  have hsep : '|' ∉ v.repr.toList := by
    intro hmem
    cases mem_intRepr hmem with
    | inl hdigit => exact absurd hdigit (by decide)
    | inr hminus => exact absurd hminus (by decide)
  exact notMem_oneByte (isAscii_intRepr v) (by decide) hsep

/-- No field contains the separator. -/
theorem bar_notMem_fields : ∀ field ∈ messageFields publicKey order, bar ∉ field := by
  simp only [messageFields, List.forall_mem_cons, List.mem_flatMap, not_exists, not_and]
  refine ⟨by decide, fun b _ => bar_notMem_hexByte b, bar_notMem_decimal order.marketId,
    bar_notMem_flag _, bar_notMem_decimal _, bar_notMem_decimal _, bar_notMem_flag _,
    bar_notMem_decimal order.nonce, bar_notMem_decimal order.expiryTs, nofun⟩

theorem flag_injective {a b : Bool} (h : flag a = flag b) : a = b := by
  revert h
  cases a <;> cases b <;> decide

theorem oneByte_intRepr_injective {a b : Int} (h : oneByte a.repr = oneByte b.repr) : a = b := by
  rw [← utf8_of_ascii (isAscii_intRepr a), ← utf8_of_ascii (isAscii_intRepr b)] at h
  exact intRepr_injective (utf8_injective h)

theorem oneByte_repr_injective {n m : Nat} (h : oneByte n.repr = oneByte m.repr) : n = m :=
  Int.ofNat.inj (oneByte_intRepr_injective (a := n) (b := m) h)

/-- The fields determine the key and the order but for its owner. -/
theorem messageFields_injective (h : messageFields publicKey order = messageFields publicKey' order') :
    publicKey = publicKey' ∧ order = { order' with owner := order.owner } := by
  simp only [messageFields, List.cons.injEq, true_and, and_true] at h
  obtain ⟨hkey, hmarket, hside, hsize, hprice, hreduce, hnonce, hexpiry⟩ := h
  have htwo : ∀ b, (hexByte b).length = 2 := fun _ => rfl
  have hbytes : toArray publicKey = toArray publicKey' :=
    flatMap_injective htwo (fun _ _ => hexByte_injective) rfl hkey
  refine ⟨toArray_injective hbytes, ?_⟩
  cases order
  cases order'
  simp only at hmarket hside hsize hprice hreduce hnonce hexpiry
  rw [oneByte_repr_injective hmarket, flag_injective hside, oneByte_intRepr_injective hsize,
    oneByte_intRepr_injective hprice, flag_injective hreduce, oneByte_repr_injective hnonce,
    oneByte_repr_injective hexpiry]

end Gateway

open Gateway Text Venue

/-- **One canonical order message.** For every order in range the gateway's message is the
UTF-8 text that the wallet signs; the decimals are exact for every `u128` and every `i128`
and never run out of buffer; and under one domain, whatever its bytes, a message belongs to
one owner key and one order. -/
theorem one_canonical_message :
    (∀ (text : String) (publicKey : BitVec 256) (order : Order), order.InRange →
      orderMessage (utf8 text) publicKey order = .ok (utf8
        (orderSettlementMessage text (toHex (toArray publicKey)) (signedPayload order)))) ∧
    (∀ (buf : List UInt8) (v : Nat), v < 2 ^ 128 →
      appendDecimalU128 buf v = .ok (buf ++ utf8 v.repr)) ∧
    (∀ (buf : List UInt8) (v : Int), InI128 v →
      appendDecimalI128 buf v = .ok (buf ++ utf8 v.repr)) ∧
    ∀ (domain message : List UInt8) (publicKey publicKey' : BitVec 256) (order order' : Order),
      order.InRange → order'.InRange → order.owner = .account publicKey →
      order'.owner = .account publicKey' → orderMessage domain publicKey order = .ok message →
      orderMessage domain publicKey' order' = .ok message → order = order' := by
  refine ⟨fun text publicKey order h => ?_, fun buf v hv => ?_, fun buf v hv => ?_, ?_⟩
  · rw [orderMessage_fields h, utf8_orderSettlementMessage]
  · rw [appendDecimalU128_ok (by omega), utf8_of_ascii (isAscii_repr v)]
  · rw [appendDecimalI128_ok hv, utf8_of_ascii (isAscii_intRepr v)]
  · intro domain message publicKey publicKey' order order' hr hr' ho ho' h h'
    rw [orderMessage_fields hr] at h
    rw [orderMessage_fields hr', ← h] at h'
    have hjoined := List.append_cancel_left (Except.ok.inj h')
    have hfields := intercalate_injective bar_notMem_fields bar_notMem_fields (List.cons_ne_nil _ _)
      (List.cons_ne_nil _ _) (List.cons.inj hjoined).2
    obtain ⟨rfl, heq⟩ := messageFields_injective hfields.symm
    rw [heq, ho, ← ho']

namespace Sample

def goldenKey : BitVec 256 := 0x37293bc3e617db79a313bb5fe82debcf716e4e0c40560e4ca399f74ef8d4bd40

/-- The order of the contract's golden test. -/
def goldenOrder : Order where
  owner := .account goldenKey
  marketId := 1
  isLong := false
  size := 2220000
  limitPrice := 98250000000000000
  reduceOnly := false
  nonce := 1780730744551
  expiryTs := 1780734344

end Sample

open Sample in
/-- The golden order's message, as the wallet shows it. -/
theorem one_canonical_message_golden :
    orderMessage (utf8 "Test SDF Network ; September 2015") goldenKey goldenOrder = .ok (utf8
      ("Test SDF Network ; September 2015|place_order|" ++
        "37293bc3e617db79a313bb5fe82debcf716e4e0c40560e4ca399f74ef8d4bd40" ++
        "|1|0|2220000|98250000000000000|0|1780730744551|1780734344")) := by
  have hrange : goldenOrder.InRange := ⟨by decide, by decide, by decide, by decide, by decide⟩
  have htext : orderSettlementMessage "Test SDF Network ; September 2015"
      (toHex (toArray goldenKey)) (signedPayload goldenOrder) =
        "Test SDF Network ; September 2015|place_order|" ++
          "37293bc3e617db79a313bb5fe82debcf716e4e0c40560e4ca399f74ef8d4bd40" ++
          "|1|0|2220000|98250000000000000|0|1780730744551|1780734344" := by decide +kernel
  rw [← htext]
  exact one_canonical_message.1 _ goldenKey goldenOrder hrange

end Kryon

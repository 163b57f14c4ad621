import Kryon.Engine.Effects
import Kryon.Gateway

/-! # What the order gateway's operations do

A settlement is two parties' trades and fees, in the engine and the vault, and then
two counters in the gateway's own storage. -/
namespace Kryon
open Transaction

namespace GatewayStorage

/-- The counter of one owner and nonce raised by `amount`, under the order's own expiry. -/
def fillMore (s : GatewayStorage) (order : Order) (amount : Int) : GatewayStorage :=
  { s with
    filled := s.filled.set (order.owner, order.nonce)
      { amount := s.filledOf order.owner order.nonce + amount, expiryTs := order.expiryTs } }

end GatewayStorage

namespace Gateway

variable {env : Env} {w w' : World} {owner : Address} {marketId nonce : Nat} {size price : Int}
  {isLong reduceOnly isMaker : Bool} {order : Order} {fill : MatchedFill}

@[simp] theorem store_returns {f : GatewayStorage → GatewayStorage} {u : Unit} :
    Returns (store f) w u w' ↔ w' = { w with gateway := f w.gateway } := by
  simp [store]

theorem returns_store_bind {α : Type} {f : GatewayStorage → GatewayStorage} {g : Unit → Tx α} {a : α} :
    Returns (store f >>= g) w a w' ↔ Returns (g ()) { w with gateway := f w.gateway } a w' :=
  returns_modify_bind

/-! ## Validation -/

/-- What a validated order has been checked for. -/
structure ValidOrder (now : Nat) (s : GatewayStorage) (order : Order) (fillSize fillPrice : Int) :
    Prop where
  unexpired : now ≤ order.expiryTs
  lifetime : order.expiryTs ≤ saturatingAdd now maxOrderTtlSecs
  uncancelled : s.cancelled.get (order.owner, order.nonce) = none
  filled : s.filledOf order.owner order.nonce + fillSize ≤ order.size

theorem validateOrder_ok {now : Nat} {s : GatewayStorage} {u : Unit}
    (h : validateOrder now s order size price = .ok u) : ValidOrder now s order size price := by
  simp only [validateOrder, except_bind_ok, reject_ok, checkedAdd_ok, exists_const, and_assoc,
    exists_and_left, exists_eq_left'] at h
  obtain ⟨_, hexp, httl, hcan, _, hfill, _⟩ := h
  exact ⟨by omega, by omega, by simpa [GatewayStorage.isCancelled] using hcan, by omega⟩

/-- What a validated fill has been checked for. -/
structure ValidFill (now : Nat) (s : GatewayStorage) (fill : MatchedFill) : Prop where
  size_pos : 0 < fill.fillSize
  owners : fill.maker.owner ≠ fill.taker.owner
  market : fill.taker.marketId = fill.maker.marketId
  sides : fill.taker.isLong = !fill.maker.isLong
  maker : ValidOrder now s fill.maker fill.fillSize fill.fillPrice
  taker : ValidOrder now s fill.taker fill.fillSize fill.fillPrice

theorem validateFill_ok {now : Nat} {s : GatewayStorage} {u : Unit}
    (h : validateFill now s fill = .ok u) : ValidFill now s fill := by
  simp only [validateFill, except_bind_ok, reject_ok, exists_const] at h
  obtain ⟨hsize, howners, hmarket, hsides, _, hmaker, htaker⟩ := h
  refine ⟨by omega, howners, ?_, ?_, validateOrder_ok hmaker, validateOrder_ok htaker⟩
  · rw [not_or, not_not] at hmarket
    exact hmarket.2.symm
  · revert hsides
    cases fill.maker.isLong <;> cases fill.taker.isLong <;> simp

/-! ## The engine under the gateway -/

/-- Only the engine and the vault differ. -/
def TradesOnly (w w' : World) : Prop := ∃ engine vault, w' = { w with engine, vault }

theorem TradesOnly.refl (w : World) : TradesOnly w w := ⟨_, _, rfl⟩

theorem TradesOnly.trans {w'' : World} (h : TradesOnly w w') (h' : TradesOnly w' w'') :
    TradesOnly w w'' := by
  obtain ⟨_, _, rfl⟩ := h
  obtain ⟨_, _, rfl⟩ := h'
  exact ⟨_, _, rfl⟩

theorem TradesOnly.gateway (h : TradesOnly w w') : w'.gateway = w.gateway := by
  obtain ⟨_, _, rfl⟩ := h
  rfl

theorem callEngine_returns {α : Type} {call : Env → Tx α} {a : α} :
    Returns (callEngine env call) w a w' ↔ w.gateway.engine = some w.deployed.engine ∧
      Returns (call (env.callFrom w.deployed.gateway)) w a w' := by
  simp only [callEngine, engineAddress, returns_readWith_bind, returns_get_bind, invoke_returns,
    okOr_ok]
  constructor
  · rintro ⟨_, hv, rfl, h⟩; exact ⟨hv, h⟩
  · rintro ⟨hv, h⟩; exact ⟨_, hv, rfl, h⟩

/-- The environment the engine sees in a call by the gateway. -/
def engineEnv (env : Env) (w : World) : Env := env.callFrom w.deployed.gateway

theorem engineOpenPosition_returns {u : Unit}
    (h : Returns (engineOpenPosition env owner marketId size isLong price) w u w') :
    ∃ r, Returns (Engine.openPosition (engineEnv env w) owner marketId size isLong price .cross) w r w' := by
  obtain ⟨r, _, hcall, hret⟩ := returns_bind.mp h
  obtain ⟨_, rfl⟩ := returns_pure.mp hret
  exact ⟨r, (callEngine_returns.mp hcall).2⟩

theorem engineIncreasePosition_returns {u : Unit} {positionId : Nat}
    (h : Returns (engineIncreasePosition env owner positionId size price) w u w') :
    ∃ r, Returns (Engine.increasePosition (engineEnv env w) owner positionId size price) w r w' := by
  obtain ⟨r, _, hcall, hret⟩ := returns_bind.mp h
  obtain ⟨_, rfl⟩ := returns_pure.mp hret
  exact ⟨r, (callEngine_returns.mp hcall).2⟩

theorem engineReducePosition_returns {u : Unit} {positionId : Nat}
    (h : Returns (engineReducePosition env owner positionId size price) w u w') :
    ∃ r, Returns (Engine.reducePositionInternal (engineEnv env w) owner positionId size price true)
      w r w' := by
  obtain ⟨r, _, hcall, hret⟩ := returns_bind.mp h
  obtain ⟨_, rfl⟩ := returns_pure.mp hret
  exact ⟨r, Engine.reducePosition_internal (callEngine_returns.mp hcall).2⟩

/-! ## One side of a fill -/

/-- The trades a side makes: a close into the opposite position, the close and an
opening of the rest, an increase of the position on the same side, or an opening. -/
inductive SideTrades (env : Env) (owner : Address) (marketId : Nat) (isLong reduceOnly : Bool)
    (size price : Int) (w w' : World) : Prop
  | reduce (p : Position) (hp : (scanSides marketId isLong (w.engine.loadPositions owner)).opposite = some p)
      (hle : size ≤ p.size) {r : TradeResult}
      (h : Returns (Engine.reducePositionInternal env owner p.positionId size price true) w r w')
  | flip (p : Position) (hp : (scanSides marketId isLong (w.engine.loadPositions owner)).opposite = some p)
      (hlt : p.size < size) (hro : reduceOnly = false) {w₁ : World} {r r' : TradeResult}
      (hclose : Returns (Engine.reducePositionInternal env owner p.positionId p.size price true) w r w₁)
      (hopen : Returns (Engine.openPosition env owner marketId (size - p.size) isLong price .cross) w₁ r' w')
  | increase (p : Position)
      (hno : (scanSides marketId isLong (w.engine.loadPositions owner)).opposite = none)
      (hp : (scanSides marketId isLong (w.engine.loadPositions owner)).same = some p)
      (hro : reduceOnly = false) {r : TradeResult}
      (h : Returns (Engine.increasePosition env owner p.positionId size price) w r w')
  | fresh (hno : scanSides marketId isLong (w.engine.loadPositions owner) = ⟨none, none⟩)
      (hro : reduceOnly = false) {r : TradeResult}
      (h : Returns (Engine.openPosition env owner marketId size isLong price .cross) w r w')

theorem traded_deployed {positions : List Position} {user : Address} {change pnl : Int}
    (h : Engine.Traded w w' user positions marketId isLong change pnl) :
    w'.deployed = w.deployed := by
  obtain ⟨_, _, rfl⟩ := h.world
  rfl

theorem settleUserSide_trades {u : Unit}
    (h : Returns (settleUserSide env owner marketId isLong reduceOnly size price) w u w') :
    SideTrades (engineEnv env w) owner marketId isLong reduceOnly size price w w' := by
  simp only [settleUserSide, returns_readWith_bind, enginePositions, except_bind_ok, reach_ok,
    except_pure_ok] at h
  obtain ⟨positions, ⟨_, _, _, _, rfl⟩, hbody⟩ := h
  cases hopp : (scanSides marketId isLong (w.engine.loadPositions owner)).opposite with
  | some p =>
    simp only [hopp, settleOpposite] at hbody
    obtain ⟨_, w₁, hreduce, hrest⟩ := returns_bind.mp hbody
    obtain ⟨r, hreduce⟩ := engineReducePosition_returns hreduce
    simp only [returns_lift_bind, toI128OrTrap_ok, and_assoc, exists_and_left,
      exists_eq_left'] at hrest
    obtain ⟨_, hrest⟩ := hrest
    by_cases hle : size ≤ p.size
    · rw [min_eq_right hle] at hreduce hrest
      rw [sub_self] at hrest
      rcases returns_ite.mp hrest with ⟨hpos, _⟩ | ⟨_, hret⟩
      · omega
      · obtain ⟨_, rfl⟩ := returns_pure.mp hret
        exact .reduce p hopp hle hreduce
    · rw [min_eq_left (by omega)] at hreduce hrest
      rcases returns_ite.mp hrest with ⟨_, hopen⟩ | ⟨hno, _⟩
      · simp only [returns_lift_bind, reject_ok, exists_const, Bool.not_eq_true] at hopen
        obtain ⟨hro, hopen⟩ := hopen
        obtain ⟨r', hopen⟩ := engineOpenPosition_returns hopen
        obtain ⟨_, _, _, _, _, _, _, _, _, _, _, _, ht, _⟩ :=
          Engine.reducePositionInternal_effect hreduce
        rw [engineEnv, traded_deployed ht] at hopen
        exact .flip p hopp (by omega) hro hreduce hopen
      · omega
  | none =>
    simp only [hopp, returns_lift_bind, reject_ok, exists_const, Bool.not_eq_true] at hbody
    obtain ⟨hro, hbody⟩ := hbody
    cases hsame : (scanSides marketId isLong (w.engine.loadPositions owner)).same with
    | some p =>
      simp only [hsame] at hbody
      obtain ⟨r, hinc⟩ := engineIncreasePosition_returns hbody
      exact .increase p hopp hsame hro hinc
    | none =>
      simp only [hsame] at hbody
      obtain ⟨r, hopen⟩ := engineOpenPosition_returns hbody
      refine .fresh ?_ hro hopen
      have hpair : scanSides marketId isLong (w.engine.loadPositions owner) =
          ⟨(scanSides marketId isLong (w.engine.loadPositions owner)).opposite,
            (scanSides marketId isLong (w.engine.loadPositions owner)).same⟩ := rfl
      rw [hpair, hopp, hsame]

/-- Each party trades, then pays its fee. -/
theorem settleParty_returns {u : Unit} (h : Returns (settleParty env order size price isMaker) w u w') :
    ∃ w₁ fee, SideTrades (engineEnv env w) order.owner order.marketId order.isLong order.reduceOnly
        size price w w₁ ∧
      Returns (Engine.chargeTradeFee (engineEnv env w₁) order.owner order.marketId size price isMaker)
        w₁ fee w' := by
  obtain ⟨_, w₁, hside, hrest⟩ := returns_bind.mp h
  obtain ⟨fee, _, hfee, hret⟩ := returns_bind.mp hrest
  obtain ⟨_, rfl⟩ := returns_pure.mp hret
  exact ⟨w₁, fee, settleUserSide_trades hside, (callEngine_returns.mp hfee).2⟩

/-- What holds across every position trade holds across a side. -/
theorem SideTrades.preserves {I : World → Prop}
    (hI : ∀ {v v' : World} {before after : Option Position} {m : Nat} {b : Bool} {change pnl : Int},
      Engine.PositionTrade v v' owner before after m b change pnl → I v → I v')
    (h : SideTrades env owner marketId isLong reduceOnly size price w w') (hw : I w) : I w' := by
  have opened : ∀ {v v' : World} {x : Int} {r : TradeResult},
      Returns (Engine.openPosition env owner marketId x isLong price .cross) v r v' → I v → I v' := by
    intro v v' x r h hv
    obtain ⟨_, _, _, ht⟩ := Engine.openPosition_trade h
    exact hI ht hv
  cases h with
  | reduce p hp hle h =>
    obtain ⟨_, _, _, _, _, _, _, ht⟩ := Engine.reducePositionInternal_trade h
    exact hI ht hw
  | flip p hp hlt hro hclose hopen =>
    obtain ⟨_, _, _, _, _, _, _, ht⟩ := Engine.reducePositionInternal_trade hclose
    exact opened hopen (hI ht hw)
  | increase p hno hp hro h =>
    obtain ⟨_, _, _, _, _, ht⟩ := Engine.increasePosition_trade h
    exact hI ht hw
  | fresh hno hro h => exact opened h hw

theorem SideTrades.tradesOnly (h : SideTrades env owner marketId isLong reduceOnly size price w w') :
    TradesOnly w w' := by
  refine h.preserves (I := fun v => TradesOnly w v) ?_ (.refl w)
  intro v v' before after m b change pnl ht hv
  obtain ⟨positions, ht, _⟩ := ht.traded
  exact hv.trans ht.world

theorem SideTrades.config (h : SideTrades env owner marketId isLong reduceOnly size price w w') :
    w'.engine.settlementAsset = w.engine.settlementAsset ∧
      w'.engine.insurance = w.engine.insurance ∧
      w'.engine.feeRecipient = w.engine.feeRecipient := by
  refine h.preserves (I := fun v => v.engine.settlementAsset = w.engine.settlementAsset ∧
    v.engine.insurance = w.engine.insurance ∧ v.engine.feeRecipient = w.engine.feeRecipient) ?_
    ⟨rfl, rfl, rfl⟩
  intro v v' before after m b change pnl ht hv
  obtain ⟨positions, ht, _⟩ := ht.traded
  obtain ⟨hs, hi, hr⟩ := ht.config
  exact ⟨hs.trans hv.1, hi.trans hv.2.1, hr.trans hv.2.2⟩

theorem chargeTradeFee_tradesOnly {r : Int}
    (h : Returns (Engine.chargeTradeFee env owner marketId size price isMaker) w r w') :
    TradesOnly w w' := by
  rcases Engine.chargeTradeFee_effect h with rfl | ⟨_, _, _, vault, _, _, _, _, _, rfl⟩
  · exact .refl _
  · exact ⟨_, vault, rfl⟩

theorem settleParty_tradesOnly {u : Unit}
    (h : Returns (settleParty env order size price isMaker) w u w') : TradesOnly w w' := by
  obtain ⟨_, _, hside, hfee⟩ := settleParty_returns h
  exact hside.tradesOnly.trans (chargeTradeFee_tradesOnly hfee)

/-! ## The whole fill -/

/-- What a successful fill is, whichever way its orders were authorized. -/
structure FillSettled (env : Env) (fill : MatchedFill) (w w' : World) : Prop where
  valid : ValidFill env.timestamp w.gateway fill
  parties : ∃ w₁ w₂,
    Returns (settleParty env fill.maker fill.fillSize fill.fillPrice true) w () w₁ ∧
    Returns (settleParty env fill.taker fill.fillSize fill.fillPrice false) w₁ () w₂ ∧
    w' = { w₂ with
      gateway := (w.gateway.fillMore fill.maker fill.fillSize).fillMore fill.taker fill.fillSize }

theorem addFilled_returns {expiryTs : Nat} {amount r : Int}
    (h : Returns (addFilled owner nonce expiryTs amount) w r w') :
    w' = { w with gateway := { w.gateway with
      filled := w.gateway.filled.set (owner, nonce)
        { amount := w.gateway.filledOf owner nonce + amount, expiryTs } } } := by
  simp only [addFilled, returns_readWith_bind, returns_store_bind, checkedAdd_ok, and_assoc,
    exists_and_left, exists_eq_left', returns_pure] at h
  exact h.2.2

theorem executeFill_settled {r : FillReceipt} (hv : ValidFill env.timestamp w.gateway fill)
    (h : Returns (executeFill env fill) w r w') : FillSettled env fill w w' := by
  obtain ⟨_, w₁, hmaker, hrest⟩ := returns_bind.mp h
  obtain ⟨_, w₂, htaker, hrest⟩ := returns_bind.mp hrest
  obtain ⟨_, w₃, hadd, hrest⟩ := returns_bind.mp hrest
  obtain ⟨_, w₄, hadd', hret⟩ := returns_bind.mp hrest
  obtain ⟨_, rfl⟩ := returns_pure.mp hret
  obtain rfl := addFilled_returns hadd
  obtain rfl := addFilled_returns hadd'
  have hg : w₂.gateway = w.gateway :=
    ((settleParty_tradesOnly hmaker).trans (settleParty_tradesOnly htaker)).gateway
  exact ⟨hv, w₁, w₂, hmaker, htaker, by rw [← hg]; rfl⟩

theorem settleFill_settled {r : FillReceipt} (h : Returns (settleFill env fill) w r w') :
    FillSettled env fill w w' := by
  simp only [settleFill, returns_readWith_bind, returns_lift_bind] at h
  obtain ⟨_, _, _, _, _, _, _, _, _, hv, h⟩ := h
  exact executeFill_settled (validateFill_ok hv) h

theorem settleFillSigned_settled {makerSig takerSig : BitVec 512} {r : FillReceipt}
    (h : Returns (settleFillSigned env fill makerSig takerSig) w r w') :
    FillSettled env fill w w' := by
  simp only [settleFillSigned, returns_readWith_bind] at h
  obtain ⟨_, _, _, _, _, _, _, _, _, hv, h⟩ := h
  exact executeFill_settled (validateFill_ok hv) h

end Gateway
end Kryon

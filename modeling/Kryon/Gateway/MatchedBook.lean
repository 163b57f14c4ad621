import Kryon.Deployed
import Kryon.Engine.Book
import Kryon.Gateway.Effects
import Kryon.Lib.Runs

/-! # The matched book

A fill is one side's trades on the long side and the other's on the short side, of
one size. What a side does depends on which of its owner's positions the scan finds;
as long as nobody holds two positions in a market, it finds the only one. -/
namespace Kryon
open Transaction Runs Engine

/-! ## The scan -/

namespace Gateway

variable {marketId : Nat} {isLong : Bool} {positions : List Position} {p : Position}

/-- A position of one side of a market. -/
def onSide (marketId : Nat) (isLong : Bool) (p : Position) : Bool :=
  decide (p.marketId = marketId ∧ p.isLong = isLong)

theorem scanSide_foldl (acc : Sides) :
    positions.foldl (scanSide marketId isLong) acc =
      ⟨(positions.reverse.find? (onSide marketId !isLong)).or acc.opposite,
        (positions.reverse.find? (onSide marketId isLong)).or acc.same⟩ := by
  induction positions generalizing acc with
  | nil => rfl
  | cons q rest ih =>
    rw [List.foldl_cons, ih, List.reverse_cons, List.find?_append, List.find?_append,
      Option.or_assoc, Option.or_assoc]
    unfold scanSide
    by_cases hm : q.marketId = marketId
    · cases hq : q.isLong <;> cases isLong <;> simp [onSide, hm, hq]
    · simp [onSide, hm]

/-- The scan keeps the last position of the market on each side. -/
theorem scanSides_eq : scanSides marketId isLong positions =
    ⟨positions.reverse.find? (onSide marketId !isLong),
      positions.reverse.find? (onSide marketId isLong)⟩ := by
  rw [scanSides, scanSide_foldl]
  simp

theorem mem_of_find (h : positions.reverse.find? (onSide marketId isLong) = some p) :
    p ∈ positions ∧ p.marketId = marketId ∧ p.isLong = isLong := by
  have hmem := List.mem_of_find?_eq_some h
  have hside := List.find?_some h
  exact ⟨List.mem_reverse.mp hmem, of_decide_eq_true hside⟩

theorem find_eq_none (h : positions.reverse.find? (onSide marketId isLong) = none) :
    ∀ q ∈ positions, q.marketId = marketId → q.isLong ≠ isLong := by
  intro q hq hm hl
  have hno := List.find?_eq_none.mp h q (List.mem_reverse.mpr hq)
  exact hno (decide_eq_true ⟨hm, hl⟩)

end Gateway

/-! ## One position a market -/

/-- Nobody holds two positions in one market. -/
def OnePerMarket (s : EngineStorage) : Prop :=
  ∀ user, ((s.loadPositions user).map Position.marketId).Nodup

section OnePerMarket

variable {w w' : World} {user : Address} {before after : Option Position} {marketId : Nat}
  {isLong : Bool} {change pnl : Int}

/-- A trade keeps it when a position it opens is the first of its market. -/
theorem OnePerMarket.trade (ho : OnePerMarket w.engine)
    (h : PositionTrade w w' user before after marketId isLong change pnl)
    (hfree : before = none → ∀ q ∈ w.engine.loadPositions user, q.marketId ≠ marketId) :
    OnePerMarket w'.engine := by
  obtain ⟨positions, ht, hone⟩ := h.traded
  intro u
  rw [ht.loadPositions]
  by_cases hu : u = user
  · rw [if_pos hu]
    refine hone.nodup_map (ho user) ?_
    intro q hq
    have hqm := (h.side q (.inr hq)).1
    cases hb : before with
    | none =>
      right
      intro hmem
      obtain ⟨r, hr, hrq⟩ := List.mem_map.mp hmem
      exact hfree hb r hr (hrq.trans hqm)
    | some p => exact .inl ⟨p, rfl, hqm.trans (h.side p (.inl hb)).1.symm⟩
  · rw [if_neg hu]
    exact ho u

/-- After a close the user has no position left in the market. -/
theorem OnePerMarket.closed (ho : OnePerMarket w.engine) {p : Position}
    (h : PositionTrade w w' user (some p) none marketId isLong change pnl) :
    ∀ q ∈ w'.engine.loadPositions user, q.marketId ≠ marketId := by
  obtain ⟨positions, ht, hone⟩ := h.traded
  intro q hq hm
  rw [ht.loadPositions, if_pos rfl] at hq
  have hgone := hone.notMem_of_erase (ho user)
  rw [(h.side p (.inl rfl)).1] at hgone
  exact hgone (List.mem_map.mpr ⟨q, hq, hm⟩)

/-- The only position of the market is the whole exposure. -/
theorem OnePerMarket.netExposure {s : EngineStorage} (ho : OnePerMarket s) {p : Position}
    (hp : p ∈ s.loadPositions user) : s.netExposure user p.marketId = signed p.isLong p.size := by
  unfold EngineStorage.netExposure
  have hn := ho user
  revert hn hp
  generalize s.loadPositions user = positions
  intro hp hn
  induction positions with
  | nil => cases hp
  | cons q rest ih =>
    obtain ⟨hq, hrest⟩ := List.nodup_cons.mp hn
    rw [List.map_cons, List.sum_cons]
    rcases List.mem_cons.mp hp with rfl | hp
    · have hothers : (rest.map (Position.exposure p.marketId)).sum = 0 := by
        refine List.sum_eq_zero ?_
        intro x hx
        obtain ⟨r, hr, rfl⟩ := List.mem_map.mp hx
        have hne : r.marketId ≠ p.marketId := fun he => hq (List.mem_map.mpr ⟨r, hr, he⟩)
        rw [Position.exposure, if_neg hne]
      rw [hothers, Position.exposure, if_pos rfl, add_zero]
    · have hne : q.marketId ≠ p.marketId := fun he => hq (List.mem_map.mpr ⟨p, hp, he.symm⟩)
      rw [ih hp hrest, Position.exposure, if_neg hne, zero_add]

end OnePerMarket

/-! ## One side of a fill -/

namespace Gateway

variable {env : Env} {w w' : World} {owner : Address} {marketId : Nat} {size price : Int}
  {isLong reduceOnly isMaker : Bool} {order : Order} {fill : MatchedFill}

/-- The position trades of a side: one of the whole size, which opens a position
only where the market has none; or the close of an opposite position, and the rest
opened on the other side. A reduce-only side reduces a larger opposite position. -/
theorem SideTrades.positionTrades (hd : DistinctIds w.engine)
    (h : SideTrades env owner marketId isLong reduceOnly size price w w') :
    (∃ p after pnl, p ∈ w.engine.loadPositions owner ∧ p.marketId = marketId ∧
      p.isLong = (!isLong) ∧ size ≤ p.size ∧
      PositionTrade w w' owner (some p) after marketId (!isLong) (-size) pnl) ∨
    (∃ p w₁ q pnl, reduceOnly = false ∧ p ∈ w.engine.loadPositions owner ∧
      p.isLong = (!isLong) ∧
      PositionTrade w w₁ owner (some p) none marketId (!isLong) (-p.size) pnl ∧
      PositionTrade w₁ w' owner none (some q) marketId isLong (size - p.size) 0) ∨
    (∃ before after pnl, reduceOnly = false ∧
      (before = none → ∀ q ∈ w.engine.loadPositions owner, q.marketId ≠ marketId) ∧
      PositionTrade w w' owner before (some after) marketId isLong size pnl) := by
  have found : ∀ {p : Position} {b : Bool},
      (w.engine.loadPositions owner).reverse.find? (onSide marketId b) = some p →
      ∀ {v : World} {before after : Option Position} {q : Position} {m : Nat} {l : Bool}
        {change pnl : Int}, before = some q → q.positionId = p.positionId →
      PositionTrade w v owner before after m l change pnl → q = p := by
    intro p b hp v before after q m l change pnl hb hid ht
    obtain ⟨positions, _, hone⟩ := ht.traded
    exact hd.unique (hone.before_mem hb) (mem_of_find hp).1 hid
  cases h with
  | reduce p hp hle h =>
    rw [scanSides_eq] at hp
    obtain ⟨hmem, hm, hl⟩ := mem_of_find hp
    obtain ⟨q, after, pnl, _, _, hid, _, ht⟩ := reducePositionInternal_trade h
    obtain rfl := found hp rfl hid ht
    rw [hm, hl] at ht
    exact .inl ⟨q, after, pnl, hmem, hm, hl, hle, ht⟩
  | @flip p hp hlt hro w₁ _ _ hclose hopen =>
    rw [scanSides_eq] at hp
    obtain ⟨hmem, hm, hl⟩ := mem_of_find hp
    obtain ⟨q, after, pnl, _, _, hid, hwhole, ht⟩ := reducePositionInternal_trade hclose
    obtain rfl := found hp rfl hid ht
    obtain rfl := hwhole rfl
    rw [hm, hl] at ht
    obtain ⟨opened, _, _, ht'⟩ := openPosition_trade hopen
    exact .inr (.inl ⟨q, w₁, opened, pnl, hro, hmem, hl, ht, ht'⟩)
  | increase p hno hp hro h =>
    rw [scanSides_eq] at hp
    obtain ⟨hmem, hm, hl⟩ := mem_of_find hp
    obtain ⟨q, after, pnl, _, hid, ht⟩ := increasePosition_trade h
    obtain rfl := found hp rfl hid ht
    rw [hm, hl] at ht
    exact .inr (.inr ⟨some q, after, pnl, hro, nofun, ht⟩)
  | fresh hno hro h =>
    rw [scanSides_eq] at hno
    obtain ⟨hopp, hsame⟩ := Sides.mk.inj hno
    obtain ⟨opened, _, _, ht⟩ := openPosition_trade h
    refine .inr (.inr ⟨none, opened, 0, hro, ?_, ht⟩)
    intro _ q hq hm
    have h1 := find_eq_none hopp q hq hm
    have h2 := find_eq_none hsame q hq hm
    cases hl : q.isLong <;> cases isLong <;> simp_all

/-- What adds up over position trades adds up over a side of a fill. -/
theorem SideTrades.additive {F : EngineStorage → Int} {c : Int} (hd : DistinctIds w.engine)
    (hF : ∀ {v v' : World} {before after : Option Position} {b : Bool} {change pnl : Int},
      PositionTrade v v' owner before after marketId b change pnl →
      F v'.engine = F v.engine + c * signed b change)
    (h : SideTrades env owner marketId isLong reduceOnly size price w w') :
    F w'.engine = F w.engine + c * signed isLong size := by
  rcases h.positionTrades hd with h | h | h
  · obtain ⟨p, after, pnl, _, _, _, _, ht⟩ := h
    rw [hF ht]
    simp
  · obtain ⟨p, w₁, q, pnl, _, _, _, hclose, hopen⟩ := h
    rw [hF hopen, hF hclose, sub_eq_add_neg, signed_add]
    simp only [signed_not, signed_neg, neg_neg]
    ring
  · obtain ⟨before, after, pnl, _, _, ht⟩ := h
    exact hF ht

theorem SideTrades.netExposure (hd : DistinctIds w.engine)
    (h : SideTrades env owner marketId isLong reduceOnly size price w w') (u : Address) (m : Nat) :
    w'.engine.netExposure u m = w.engine.netExposure u m +
      if u = owner ∧ m = marketId then signed isLong size else 0 := by
  have hadd := h.additive (F := fun s => s.netExposure u m)
    (c := if u = owner ∧ m = marketId then 1 else 0) hd ?_
  · rw [hadd]
    split <;> simp
  · intro v v' before after b change pnl ht
    rw [netExposure_trade ht]
    split <;> simp

theorem SideTrades.imbalance (hd : DistinctIds w.engine)
    (h : SideTrades env owner marketId isLong reduceOnly size price w w') (m : Nat) :
    w'.engine.imbalance m = w.engine.imbalance m + if m = marketId then signed isLong size else 0 := by
  have hadd := h.additive (F := fun s => s.imbalance m) (c := if m = marketId then 1 else 0) hd ?_
  · rw [hadd]
    split <;> simp
  · intro v v' before after b change pnl ht
    rw [imbalance_trade ht]
    split <;> simp

/-- The book's two structural invariants. -/
structure Tidy (s : EngineStorage) : Prop where
  ids : DistinctIds s
  markets : OnePerMarket s

theorem SideTrades.tidy (ht : Tidy w.engine)
    (h : SideTrades env owner marketId isLong reduceOnly size price w w') : Tidy w'.engine := by
  rcases h.positionTrades ht.ids with h | h | h
  · obtain ⟨p, after, pnl, _, _, _, _, h⟩ := h
    exact ⟨ht.ids.trade h, ht.markets.trade h nofun⟩
  · obtain ⟨p, w₁, q, pnl, _, _, _, hclose, hopen⟩ := h
    have hmarkets := ht.markets.trade hclose nofun
    exact ⟨(ht.ids.trade hclose).trade hopen,
      hmarkets.trade hopen fun _ => ht.markets.closed hclose⟩
  · obtain ⟨before, after, pnl, _, hfree, h⟩ := h
    exact ⟨ht.ids.trade h, ht.markets.trade h hfree⟩

/-- A reduce-only side takes its size off the absolute exposure and stays on its side. -/
theorem SideTrades.reduces (ht : Tidy w.engine) (hsize : 0 < size)
    (h : SideTrades env owner marketId isLong true size price w w') :
    |w'.engine.netExposure owner marketId| = |w.engine.netExposure owner marketId| - size ∧
      (0 ≤ w.engine.netExposure owner marketId → 0 ≤ w'.engine.netExposure owner marketId) ∧
      (w.engine.netExposure owner marketId ≤ 0 → w'.engine.netExposure owner marketId ≤ 0) := by
  have hafter := h.netExposure ht.ids owner marketId
  rcases h.positionTrades ht.ids with h | h | h
  · obtain ⟨p, after, pnl, hmem, hm, hl, hle, _⟩ := h
    have hbefore := ht.markets.netExposure hmem
    rw [hm, hl, signed_not] at hbefore
    rw [hafter, hbefore, if_pos ⟨rfl, rfl⟩]
    cases isLong with
    | false =>
      simp only [signed, Bool.false_eq_true, if_false, neg_neg]
      rw [abs_of_nonneg (by omega), abs_of_nonneg (by omega)]
      omega
    | true =>
      simp only [signed, if_true]
      rw [abs_of_nonpos (by omega), abs_of_nonpos (by omega)]
      omega
  · obtain ⟨_, _, _, _, hro, _⟩ := h
    cases hro
  · obtain ⟨_, _, _, hro, _⟩ := h
    cases hro

/-- The fee of a party leaves the engine alone. -/
theorem settleParty_side {u : Unit} (h : Returns (settleParty env order size price isMaker) w u w') :
    ∃ w₁, SideTrades (engineEnv env w) order.owner order.marketId order.isLong order.reduceOnly
      size price w w₁ ∧ w'.engine = w₁.engine := by
  obtain ⟨w₁, fee, hside, hfee⟩ := settleParty_returns h
  refine ⟨w₁, hside, ?_⟩
  rcases chargeTradeFee_effect hfee with rfl | ⟨_, _, _, _, _, _, _, _, _, rfl⟩
  · rfl
  · rfl

end Gateway

/-! ## The whole fill -/

/-- What a fill does to the book: the long order's owner gains its size and the short
order's loses it, in this market and nobody else's exposure. -/
structure MatchedTrade (fill : MatchedFill) (s s' : EngineStorage) : Prop where
  parties : ∀ order, order = fill.maker ∨ order = fill.taker →
    s'.netExposure order.owner fill.maker.marketId =
      s.netExposure order.owner fill.maker.marketId + signed order.isLong fill.fillSize
  sides : fill.taker.isLong = !fill.maker.isLong
  others : ∀ user marketId, user ≠ fill.maker.owner ∧ user ≠ fill.taker.owner ∨
    marketId ≠ fill.maker.marketId → s'.netExposure user marketId = s.netExposure user marketId
  imbalance : ∀ marketId, s'.imbalance marketId = s.imbalance marketId
  reduceOnly : ∀ order, order = fill.maker ∨ order = fill.taker → order.reduceOnly = true →
    |s'.netExposure order.owner fill.maker.marketId| =
        |s.netExposure order.owner fill.maker.marketId| - fill.fillSize ∧
      (0 ≤ s.netExposure order.owner fill.maker.marketId →
        0 ≤ s'.netExposure order.owner fill.maker.marketId) ∧
      (s.netExposure order.owner fill.maker.marketId ≤ 0 →
        s'.netExposure order.owner fill.maker.marketId ≤ 0)

namespace Gateway

variable {env : Env} {w w' : World} {fill : MatchedFill}

theorem FillSettled.sides (h : FillSettled env fill w w') : ∃ w₁ w₂ w₃ env₁ env₂,
    SideTrades env₁ fill.maker.owner fill.maker.marketId fill.maker.isLong fill.maker.reduceOnly
      fill.fillSize fill.fillPrice w w₁ ∧ w₂.engine = w₁.engine ∧
    SideTrades env₂ fill.taker.owner fill.maker.marketId fill.taker.isLong fill.taker.reduceOnly
      fill.fillSize fill.fillPrice w₂ w₃ ∧ w'.engine = w₃.engine := by
  obtain ⟨v₁, v₂, hmaker, htaker, rfl⟩ := h.parties
  obtain ⟨w₁, hside, he⟩ := settleParty_side hmaker
  obtain ⟨w₃, hside', he'⟩ := settleParty_side htaker
  rw [h.valid.market] at hside'
  exact ⟨w₁, v₁, w₃, _, _, hside, he, hside', he'⟩

theorem FillSettled.tidy (ht : Tidy w.engine) (h : FillSettled env fill w w') : Tidy w'.engine := by
  obtain ⟨w₁, w₂, w₃, _, _, hmaker, he, htaker, he'⟩ := h.sides
  have ht₂ : Tidy w₂.engine := he ▸ hmaker.tidy ht
  exact he' ▸ htaker.tidy ht₂

theorem FillSettled.matchedTrade (ht : Tidy w.engine) (h : FillSettled env fill w w') :
    MatchedTrade fill w.engine w'.engine := by
  obtain ⟨w₁, w₂, w₃, _, _, hmaker, he, htaker, he'⟩ := h.sides
  have ht₂ : Tidy w₂.engine := he ▸ hmaker.tidy ht
  have howners := h.valid.owners
  have hsides := h.valid.sides
  have hexposure : ∀ u m, w'.engine.netExposure u m = w.engine.netExposure u m +
      (if u = fill.maker.owner ∧ m = fill.maker.marketId then
        signed fill.maker.isLong fill.fillSize else 0) +
      if u = fill.taker.owner ∧ m = fill.maker.marketId then
        signed fill.taker.isLong fill.fillSize else 0 := by
    intro u m
    rw [he', htaker.netExposure ht₂.ids, he, hmaker.netExposure ht.ids]
  have hmakerOnly : ∀ m, w₂.engine.netExposure fill.taker.owner m =
      w.engine.netExposure fill.taker.owner m := by
    intro m
    rw [he, hmaker.netExposure ht.ids, if_neg fun hk => howners hk.1.symm, add_zero]
  have htakerOnly : ∀ m, w'.engine.netExposure fill.maker.owner m =
      w₁.engine.netExposure fill.maker.owner m := by
    intro m
    rw [he', htaker.netExposure ht₂.ids, if_neg fun hk => howners hk.1, add_zero, he]
  refine ⟨?_, hsides, ?_, ?_, ?_⟩
  · intro order horder
    rw [hexposure]
    rcases horder with rfl | rfl
    · rw [if_pos ⟨rfl, rfl⟩, if_neg fun hk => howners hk.1, add_zero]
    · rw [if_neg fun hk => howners hk.1.symm, if_pos ⟨rfl, rfl⟩, add_zero]
  · intro u m hno
    rw [hexposure, if_neg (by tauto), if_neg (by tauto), add_zero, add_zero]
  · intro m
    rw [he', htaker.imbalance ht₂.ids, he, hmaker.imbalance ht.ids, hsides, signed_not]
    split <;> ring
  · intro order horder hro
    rcases horder with rfl | rfl
    · rw [htakerOnly]
      rw [hro] at hmaker
      exact hmaker.reduces ht h.valid.size_pos
    · rw [← hmakerOnly, he']
      rw [hro] at htaker
      exact htaker.reduces ht₂ h.valid.size_pos

/-- A fill whose second side fails is rolled back, first side included. -/
theorem commit_settleFill_eq {w₁ : World}
    (hmaker : Returns (settleParty env fill.maker fill.fillSize fill.fillPrice true) w () w₁)
    (htaker : ∀ w₂, ¬ Returns (settleParty env fill.taker fill.fillSize fill.fillPrice false) w₁ () w₂) :
    commit (settleFill env fill) w = w ∧
      ∀ makerSig takerSig, commit (settleFillSigned env fill makerSig takerSig) w = w := by
  have hfails : ∀ w', ¬ FillSettled env fill w w' := by
    intro w' h
    obtain ⟨v₁, v₂, hm, ht, _⟩ := h.parties
    obtain ⟨_, rfl⟩ := hmaker.det hm
    exact htaker v₂ ht
  constructor
  · rcases commit_cases (settleFill env fill) w with ⟨r, h⟩ | ⟨_, h⟩
    · exact absurd (settleFill_settled h) (hfails _)
    · exact h
  · intro makerSig takerSig
    rcases commit_cases (settleFillSigned env fill makerSig takerSig) w with ⟨r, h⟩ | ⟨_, h⟩
    · exact absurd (settleFillSigned_settled h) (hfails _)
    · exact h

end Gateway

/-! ## Runs of fills -/

inductive FillOp where
  | settleFill (env : Env) (fill : MatchedFill)
  | settleFillSigned (env : Env) (fill : MatchedFill) (makerSig takerSig : BitVec 512)

/-- The position lists, the counters and the id counter. -/
def EngineStorage.matchedBook (s : EngineStorage) : EngineStorage :=
  { s.book with nextPositionId := s.nextPositionId }

/-- An engine nobody has traded on. -/
def EngineStorage.untraded (first : Nat) : EngineStorage := { nextPositionId := some first }

namespace FillOp

def call : FillOp → Tx Unit
  | settleFill env fill => void (Gateway.settleFill env fill)
  | settleFillSigned env fill makerSig takerSig =>
    void (Gateway.settleFillSigned env fill makerSig takerSig)

def env : FillOp → Env
  | settleFill env _ => env
  | settleFillSigned env _ _ _ => env

def fill : FillOp → MatchedFill
  | settleFill _ fill => fill
  | settleFillSigned _ fill _ _ => fill

/-- One successful fill; prices, balances and configuration may be in any state. -/
abbrev Step : EngineStorage → FillOp → EngineStorage → Prop :=
  CallStep FillOp.call fun w => w.engine.matchedBook

theorem settled {op : FillOp} {w w' : World} (h : Returns op.call w () w') :
    Gateway.FillSettled op.env op.fill w w' := by
  cases op with
  | settleFill env fill =>
    obtain ⟨r, hr⟩ := returns_void.mp h
    exact Gateway.settleFill_settled hr
  | settleFillSigned env fill makerSig takerSig =>
    obtain ⟨r, hr⟩ := returns_void.mp h
    exact Gateway.settleFillSigned_settled hr

end FillOp

open Gateway

theorem tidy_matchedBook {s : EngineStorage} : Tidy s.matchedBook ↔ Tidy s :=
  ⟨fun ⟨⟨h1, h2⟩, h3⟩ => ⟨⟨h1, h2⟩, h3⟩, fun ⟨⟨h1, h2⟩, h3⟩ => ⟨⟨h1, h2⟩, h3⟩⟩

theorem matchedTrade_matchedBook {fill : MatchedFill} {s s' : EngineStorage} :
    MatchedTrade fill s.matchedBook s'.matchedBook ↔ MatchedTrade fill s s' :=
  ⟨fun ⟨h1, h2, h3, h4, h5⟩ => ⟨h1, h2, h3, h4, h5⟩, fun ⟨h1, h2, h3, h4, h5⟩ => ⟨h1, h2, h3, h4, h5⟩⟩

theorem tidy_untraded (first : Nat) : Tidy (.untraded first) where
  ids := ⟨fun _ => List.nodup_nil, nofun⟩
  markets _ := List.nodup_nil

theorem FillOp.Step.tidy {s s' : EngineStorage} {op : FillOp} (ht : Tidy s) (h : op.Step s s') :
    Tidy s' := by
  obtain ⟨w, w', rfl, rfl, h⟩ := h
  exact tidy_matchedBook.mpr ((FillOp.settled h).tidy (tidy_matchedBook.mp ht))

theorem FillOp.Step.matchedTrade {s s' : EngineStorage} {op : FillOp} (ht : Tidy s)
    (h : op.Step s s') : MatchedTrade op.fill s s' := by
  obtain ⟨w, w', rfl, rfl, h⟩ := h
  exact matchedTrade_matchedBook.mpr ((FillOp.settled h).matchedTrade (tidy_matchedBook.mp ht))

/-- **Fills match.** In a run of fills from an engine nobody has traded on, nobody ever
holds two positions in a market, and each fill moves the two owners' exposures by its
size, to opposite sides, and nothing else; a fill whose second side fails changes
nothing at all. -/
theorem matched_book {first : Nat} {t : List (FillOp × EngineStorage)}
    (hr : IsRun FillOp.Step (.untraded first) t) :
    AllStates OnePerMarket (.untraded first) t ∧
    IsRun (fun s (op : FillOp) s' => MatchedTrade op.fill s s') (.untraded first) t ∧
    ∀ env fill w w₁,
      Returns (settleParty env fill.maker fill.fillSize fill.fillPrice true) w () w₁ →
      (∀ w₂, ¬ Returns (settleParty env fill.taker fill.fillSize fill.fillPrice false) w₁ () w₂) →
      commit (settleFill env fill) w = w ∧
        ∀ makerSig takerSig, commit (settleFillSigned env fill makerSig takerSig) w = w := by
  have hkeep : ∀ s (op : FillOp) s', Tidy s → op.Step s s' → Tidy s' :=
    fun s op s' ht h => FillOp.Step.tidy ht h
  have heffect : ∀ s (op : FillOp) s', Tidy s → op.Step s s' → MatchedTrade op.fill s s' :=
    fun s op s' ht h => FillOp.Step.matchedTrade ht h
  have hall := invariant_of_step hkeep (tidy_untraded first) hr
  exact ⟨hall.mono fun s ht => ht.markets, hall.isRun hr heffect,
    fun env fill w w₁ hmaker htaker => commit_settleFill_eq hmaker htaker⟩

namespace Sample

/-- Alice buys two, then sells three into them. -/
def flips : List FillOp := [
  .settleFill (host 1000) (matched (bid (2 * precision) 1 2000) (ask (2 * precision) 1 2000)
    (2 * precision)),
  .settleFill (host 1000) (matched
    { bid (3 * precision) 2 2000 with isLong := false }
    { ask (3 * precision) 2 2000 with isLong := true } (3 * precision))]

def flipsRun : List (FillOp × EngineStorage) :=
  viewed (fun w => w.engine.matchedBook) (execute FillOp.call (trading 1000) flips)

end Sample

open Sample in
theorem matched_book_flips :
    (final (.untraded 1) flipsRun).netExposure alice 1 = -precision ∧
    AllStates OnePerMarket (.untraded 1) flipsRun :=
  ⟨by decide +kernel,
    (matched_book (isRun_execute (w := trading 1000) (by decide +kernel))).1⟩

end Kryon

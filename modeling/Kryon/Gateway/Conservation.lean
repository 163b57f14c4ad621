import Kryon.Engine.Averaging
import Kryon.Engine.Import
import Kryon.Engine.Worth
import Kryon.Gateway.Margin

/-! # Value conservation of matched trading

What one side of a fill gains at the mark the other side loses, and what one side of a
market is charged for funding the other is paid or the insurance account collects. What
is left is rounding: of the settled funding, the realised pnl and the averaged entry on
each side of a fill, and of the surplus of an accrual. -/
namespace Kryon
open Transaction Runs Engine

/-! ## Sound books -/

/-- The counters are the stored sizes, and a user's positions have ids of their own. -/
structure SoundBook (s : EngineStorage) : Prop where
  side : ∀ marketId isLong, s.sideOpenInterest marketId isLong = s.storedSize marketId isLong
  ids : DistinctIds s

namespace SoundBook

variable {s : EngineStorage} {w w' : World} {user : Address} {before after : Option Position}
  {marketId : Nat} {isLong : Bool} {change pnl : Int}

theorem trade (hb : SoundBook w.engine)
    (h : PositionTrade w w' user before after marketId isLong change pnl) : SoundBook w'.engine :=
  ⟨sideOpenInterest_trade hb.side h, hb.ids.trade h⟩

theorem matchedBook : SoundBook s.matchedBook ↔ SoundBook s :=
  ⟨fun ⟨h1, ⟨h2, h3⟩⟩ => ⟨h1, ⟨h2, h3⟩⟩, fun ⟨h1, ⟨h2, h3⟩⟩ => ⟨h1, ⟨h2, h3⟩⟩⟩

theorem untraded (first : Nat) : SoundBook (.untraded first) where
  side m side := by
    cases side <;> simp [EngineStorage.untraded, EngineStorage.sideOpenInterest,
      EngineStorage.storedSize]
  ids := (tidy_untraded first).ids

/-- Every engine that was only traded on is sound, whoever traded. -/
theorem of_trades {first : Nat} {t : List (EngineOp × EngineStorage)}
    (hr : IsRun (CallStep EngineOp.call fun w => w.engine.matchedBook) (.untraded first) t) :
    AllStates SoundBook (.untraded first) t := by
  have hstep : ∀ s (op : EngineOp) s', SoundBook s →
      CallStep EngineOp.call (fun w => w.engine.matchedBook) s op s' → SoundBook s' := by
    intro s op s' hb h
    obtain ⟨w, w', rfl, rfl, hcall⟩ := h
    obtain ⟨_, _, _, _, _, _, _, ht⟩ := EngineOp.trade hcall
    exact matchedBook.mpr ((matchedBook.mp hb).trade ht)
  exact invariant_of_step hstep (untraded first) hr

end SoundBook

/-! ## One side -/

section Sizes

variable {s : EngineStorage} {user : Address} {p : Position}

theorem sizes_nonneg (hpos : ∀ q ∈ s.loadPositions user, 0 < q.size) (marketId : Nat) :
    ∀ x ∈ (s.loadPositions user).map fun q => if q.marketId = marketId then q.size else 0, 0 ≤ x := by
  intro x hx
  obtain ⟨q, hq, rfl⟩ := List.mem_map.mp hx
  have := hpos q hq
  split
  · omega
  · exact le_rfl

theorem sizeIn_nonneg (hpos : ∀ q ∈ s.loadPositions user, 0 < q.size) (marketId : Nat) :
    0 ≤ s.sizeIn user marketId := List.sum_nonneg (sizes_nonneg hpos marketId)

/-- No position is larger than what its owner holds in the market. -/
theorem size_le_sizeIn (hpos : ∀ q ∈ s.loadPositions user, 0 < q.size)
    (hp : p ∈ s.loadPositions user) : p.size ≤ s.sizeIn user p.marketId := by
  have hmem := List.mem_map_of_mem (f := fun q : Position =>
    if q.marketId = p.marketId then q.size else 0) hp
  have hle := List.single_le_sum (sizes_nonneg hpos p.marketId) _ hmem
  rwa [if_pos rfl] at hle

end Sizes

theorem tradePnl_not (isLong : Bool) (size price : Int) (m : ℚ) :
    tradePnl (!isLong) size price m = -tradePnl isLong size price m := by
  simp [tradePnl]

theorem tradePnl_sub (isLong : Bool) (a b price : Int) (m : ℚ) :
    tradePnl isLong (a - b) price m = tradePnl isLong a price m - tradePnl isLong b price m := by
  unfold tradePnl
  push_cast
  ring

namespace Gateway

variable {env : Env} {w w' : World} {owner asset : Address} {marketId : Nat} {size price : Int}
  {isLong reduceOnly isMaker : Bool} {order : Order} {fill : MatchedFill}
  {marks : Nat → Option ℚ} {mark : ℚ}

theorem SideTrades.sound (hb : SoundBook w.engine)
    (h : SideTrades env owner marketId isLong reduceOnly size price w w') : SoundBook w'.engine :=
  h.preserves (I := fun v => SoundBook v.engine) (fun ht hv => hv.trade ht) hb

theorem SideTrades.loadPositions_other
    (h : SideTrades env owner marketId isLong reduceOnly size price w w') {user : Address}
    (hne : user ≠ owner) : w'.engine.loadPositions user = w.engine.loadPositions user := by
  refine h.preserves (I := fun v => v.engine.loadPositions user = w.engine.loadPositions user) ?_ rfl
  intro v v' before after m' b change pnl ht hv
  obtain ⟨positions, ht, _⟩ := ht.traded
  rw [← hv, ht.loadPositions, if_neg hne]

/-- The last trade of a side writes one list to the engine and to the vault. -/
theorem SideTrades.mirrored
    (h : SideTrades env owner marketId isLong reduceOnly size price w w') :
    w'.vault.loadPositions owner = w'.engine.loadPositions owner := by
  have hlast : ∀ {v : World} {before after : Option Position} {m : Nat} {b : Bool} {change pnl : Int},
      PositionTrade v w' owner before after m b change pnl →
      w'.vault.loadPositions owner = w'.engine.loadPositions owner := by
    intro v before after m b change pnl ht
    obtain ⟨positions, ht, _⟩ := ht.traded
    rw [ht.account.2.2.1, ht.loadPositions, if_pos rfl]
  cases h with
  | reduce p hp hle h =>
    obtain ⟨_, _, _, _, _, _, _, ht⟩ := reducePositionInternal_trade h
    exact hlast ht
  | flip p hp hlt hro hclose hopen =>
    obtain ⟨_, _, _, ht⟩ := openPosition_trade hopen
    exact hlast ht
  | increase p hno hp hro h =>
    obtain ⟨_, _, _, _, _, ht⟩ := increasePosition_trade h
    exact hlast ht
  | fresh hno hro h =>
    obtain ⟨_, _, _, ht⟩ := openPosition_trade h
    exact hlast ht

/-- The margin check of the last trade values every position, and refuses one without size. -/
theorem SideTrades.positive
    (h : SideTrades env owner marketId isLong reduceOnly size price w w') :
    ∀ q ∈ w'.engine.loadPositions owner, 0 < q.size := by
  intro q hq
  rw [← h.mirrored] at hq
  exact (aboveInitialMargin_positive h.aboveInitialMargin q hq).1

/-- A side gains its trade's pnl at the mark, up to its roundings. -/
theorem SideTrades.value (hb : SoundBook w.engine) (hs : w.engine.settlementAsset = some asset)
    (hm : marks marketId = some mark)
    (h : SideTrades env owner marketId isLong reduceOnly size price w w') :
    |bookValue marks asset w'.engine w'.vault - bookValue marks asset w.engine w.vault -
      tradePnl isLong size price mark| < 3 + w'.engine.sizeIn owner marketId / precision := by
  have hpos := h.positive
  have hsize : (0 : ℚ) ≤ w'.engine.sizeIn owner marketId / precision :=
    div_nonneg (by exact_mod_cast sizeIn_nonneg hpos marketId) precision_rat_pos.le
  cases h with
  | reduce p hp hle h =>
    rw [scanSides_eq] at hp
    obtain ⟨hmem, hpm, hpl⟩ := mem_of_find hp
    obtain ⟨index, q, hfind, hbound⟩ := reducePositionInternal_value marks mark h hs
    obtain ⟨hq, hid⟩ := findPosition_ok hfind
    obtain rfl := hb.ids.unique (List.mem_of_getElem? hq) hmem hid
    have hclose := hbound (hpm ▸ hm)
    rw [hpl, tradePnl_not, ← sub_eq_add_neg] at hclose
    linarith
  | @flip p hp hlt hro w₁ _ _ hclose hopen =>
    rw [scanSides_eq] at hp
    obtain ⟨hmem, hpm, hpl⟩ := mem_of_find hp
    obtain ⟨index, q, hfind, hbound⟩ := reducePositionInternal_value marks mark hclose hs
    obtain ⟨hq, hid⟩ := findPosition_ok hfind
    obtain rfl := hb.ids.unique (List.mem_of_getElem? hq) hmem hid
    have hclosed := hbound (hpm ▸ hm)
    rw [hpl, tradePnl_not, ← sub_eq_add_neg] at hclosed
    obtain ⟨_, _, _, _, _, _, _, _, _, _, _, _, ht, _⟩ := reducePositionInternal_effect hclose
    rw [openPosition_value hopen (ht.config.1.trans hs) hm, tradePnl_sub]
    have hsplit : bookValue marks asset w₁.engine w₁.vault +
          (tradePnl isLong size price mark - tradePnl isLong q.size price mark) -
          bookValue marks asset w.engine w.vault - tradePnl isLong size price mark =
        bookValue marks asset w₁.engine w₁.vault - bookValue marks asset w.engine w.vault -
          tradePnl isLong q.size price mark := by ring
    rw [hsplit]
    linarith
  | increase p hno hp hro h =>
    rw [scanSides_eq] at hp
    obtain ⟨hmem, hpm, hpl⟩ := mem_of_find hp
    obtain ⟨q, after, hq, hid, hafter, hmarket, hbound⟩ :=
      increasePosition_value marks mark h hs
    obtain rfl := hb.ids.unique hq hmem hid
    have hgrown := hbound (hpos after hafter) (hpm ▸ hm)
    have hle := size_le_sizeIn hpos hafter
    rw [hmarket, hpm] at hle
    have hcast : (after.size / precision : ℚ) ≤ w'.engine.sizeIn owner marketId / precision :=
      div_le_div_of_nonneg_right (Int.cast_le.mpr hle) precision_rat_pos.le
    rw [hpl] at hgrown
    linarith
  | fresh hno hro h =>
    have hopen := openPosition_value h hs hm
    rw [hopen, add_sub_cancel_left, sub_self, abs_zero]
    linarith

/-- A side of an owner without positions opens one. -/
theorem SideTrades.value_opened (hempty : w.engine.loadPositions owner = [])
    (hs : w.engine.settlementAsset = some asset) (hm : marks marketId = some mark)
    (h : SideTrades env owner marketId isLong reduceOnly size price w w') :
    bookValue marks asset w'.engine w'.vault =
      bookValue marks asset w.engine w.vault + tradePnl isLong size price mark := by
  have hscan : scanSides marketId isLong (w.engine.loadPositions owner) = ⟨none, none⟩ := by
    rw [hempty]
    rfl
  cases h with
  | reduce p hp =>
    rw [hscan] at hp
    cases hp
  | flip p hp =>
    rw [hscan] at hp
    cases hp
  | increase p hno hp =>
    rw [hscan] at hp
    cases hp
  | fresh hno hro h => exact openPosition_value h hs hm

/-- One party: its trade, and a fee that stays in the system. -/
structure PartyMoves (marks : Nat → Option ℚ) (asset : Address) (mark : ℚ) (order : Order)
    (size price : Int) (w w' : World) : Prop where
  sound : SoundBook w'.engine
  settlementAsset : w'.engine.settlementAsset = w.engine.settlementAsset
  insurance : w'.engine.insurance = w.engine.insurance
  others : ∀ user m, user ≠ order.owner → w'.engine.sizeIn user m = w.engine.sizeIn user m
  value : |bookValue marks asset w'.engine w'.vault - bookValue marks asset w.engine w.vault -
    tradePnl order.isLong size price mark| <
      3 + w'.engine.sizeIn order.owner order.marketId / precision

/-- A party's fee leaves the positions and the value as its side leaves them. -/
theorem settleParty_value {u : Unit} (marks : Nat → Option ℚ) (hs : w.engine.settlementAsset = some asset)
    (h : Returns (settleParty env order size price isMaker) w u w') :
    ∃ w₁, SideTrades (engineEnv env w) order.owner order.marketId order.isLong order.reduceOnly
        size price w w₁ ∧ w'.engine = w₁.engine ∧
      bookValue marks asset w'.engine w'.vault = bookValue marks asset w₁.engine w₁.vault := by
  obtain ⟨w₁, fee, hside, hfee⟩ := settleParty_returns h
  refine ⟨w₁, hside, ?_, chargeTradeFee_value hfee (hside.config.1.trans hs)⟩
  rcases chargeTradeFee_effect hfee with rfl | ⟨_, _, _, _, _, _, _, _, _, rfl⟩
  · rfl
  · rfl

theorem settleParty_moves {u : Unit} (hb : SoundBook w.engine)
    (hs : w.engine.settlementAsset = some asset) (hm : marks order.marketId = some mark)
    (h : Returns (settleParty env order size price isMaker) w u w') :
    PartyMoves marks asset mark order size price w w' := by
  obtain ⟨w₁, hside, hengine, hsame⟩ := settleParty_value marks hs h
  obtain ⟨hs₁, hi₁, _⟩ := hside.config
  have hvalue := hside.value hb hs hm
  refine ⟨hengine ▸ hside.sound hb, hengine ▸ hs₁, hengine ▸ hi₁, ?_, ?_⟩
  · intro user m hne
    unfold EngineStorage.sizeIn
    rw [hengine, hside.loadPositions_other hne]
  · rw [hsame, hengine]
    exact hvalue

/-! ## The whole fill -/

theorem FillSettled.conserves (hb : SoundBook w.engine)
    (hs : w.engine.settlementAsset = some asset) (hm : marks fill.maker.marketId = some mark)
    (h : FillSettled env fill w w') :
    SoundBook w'.engine ∧ w'.engine.settlementAsset = w.engine.settlementAsset ∧
      w'.engine.insurance = w.engine.insurance ∧
      |bookValue marks asset w'.engine w'.vault - bookValue marks asset w.engine w.vault| <
        8 + (w'.engine.sizeIn fill.maker.owner fill.maker.marketId +
          w'.engine.sizeIn fill.taker.owner fill.maker.marketId) / precision := by
  obtain ⟨w₁, w₂, hmaker, htaker, rfl⟩ := h.parties
  have hfirst := settleParty_moves hb hs hm hmaker
  have hm' : marks fill.taker.marketId = some mark := h.valid.market ▸ hm
  have hsecond := settleParty_moves hfirst.sound (hfirst.settlementAsset.trans hs) hm' htaker
  refine ⟨hsecond.sound, hsecond.settlementAsset.trans hfirst.settlementAsset,
    hsecond.insurance.trans hfirst.insurance, ?_⟩
  have hgain := hfirst.value
  have hloss := hsecond.value
  rw [h.valid.sides, tradePnl_not, h.valid.market] at hloss
  rw [← hsecond.others _ _ h.valid.owners] at hgain
  set V : World → ℚ := fun v => bookValue marks asset v.engine v.vault
  set T := tradePnl fill.maker.isLong fill.fillSize fill.fillPrice mark
  have hsplit : V w₂ - V w = (V w₁ - V w - T) + (V w₂ - V w₁ - -T) := by ring
  change |V w₂ - V w| < _
  rw [hsplit, add_div]
  calc |(V w₁ - V w - T) + (V w₂ - V w₁ - -T)|
      ≤ |V w₁ - V w - T| + |V w₂ - V w₁ - -T| := abs_add_le _ _
    _ < (3 + _) + (3 + _) := add_lt_add hgain hloss
    _ < 8 + (_ + _) := by linarith

end Gateway

/-! ## Runs of fills and accruals -/

inductive TradingOp where
  | fill (op : FillOp)
  | updateFunding (env : Env) (marketId : Nat)

namespace TradingOp

def call : TradingOp → Tx Unit
  | fill op => op.call
  | updateFunding env marketId => void (Engine.updateFunding env marketId)

def marketId : TradingOp → Nat
  | fill op => op.fill.maker.marketId
  | updateFunding _ marketId => marketId

/-- One successful call; prices and the other contracts may be in any state. -/
abbrev Step : EngineStorage × VaultStorage → TradingOp → EngineStorage × VaultStorage → Prop :=
  CallStep TradingOp.call fun w => (w.engine, w.vault)

/-- The call's market is marked, and a surplus has an insurance account to go to. -/
def Counted (marks : Nat → Option ℚ) (s : EngineStorage × VaultStorage) (op : TradingOp) : Prop :=
  (∃ mark, marks op.marketId = some mark) ∧
    ∀ env marketId, op = updateFunding env marketId → ∃ insurance, s.1.insurance = some insurance

/-- What a call may create or destroy: eight units and the price unit of the sizes its
owners end with for a fill, one unit for an accrual. -/
def roundingBound (op : TradingOp) (s' : EngineStorage × VaultStorage) : ℚ :=
  match op with
  | fill op => 8 + (s'.1.sizeIn op.fill.maker.owner op.fill.maker.marketId +
      s'.1.sizeIn op.fill.taker.owner op.fill.maker.marketId) / precision
  | updateFunding _ _ => 1

end TradingOp

/-- The book is sound, and balances are settled in `asset`. -/
structure SettledBook (asset : Address) (s : EngineStorage) : Prop where
  sound : SoundBook s
  settlementAsset : s.settlementAsset = some asset

variable {marks : Nat → Option ℚ} {asset : Address} {s s' : EngineStorage × VaultStorage}
  {op : TradingOp}

theorem updateFunding_settledBook {env : Env} {marketId : Nat} {next : FundingState} {w w' : World}
    (hb : SettledBook asset w.engine) (h : Returns (Engine.updateFunding env marketId) w next w') :
    SettledBook asset w'.engine := by
  obtain ⟨_, markState, vault, rfl, _⟩ := updateFunding_effect h
  exact ⟨⟨hb.sound.side, ⟨hb.sound.ids.nodup, hb.sound.ids.below⟩⟩, hb.settlementAsset⟩

theorem TradingOp.Step.conserves (hb : SettledBook asset s.1) (hc : op.Counted marks s)
    (h : op.Step s s') : SettledBook asset s'.1 ∧
      |bookValue marks asset s'.1 s'.2 - bookValue marks asset s.1 s.2| < op.roundingBound s' := by
  obtain ⟨w, w', rfl, rfl, hcall⟩ := h
  obtain ⟨⟨mark, hm⟩, hinsured⟩ := hc
  cases op with
  | fill op =>
    obtain ⟨hsound, hs, _, hvalue⟩ :=
      (FillOp.settled hcall).conserves hb.sound hb.settlementAsset hm
    exact ⟨⟨hsound, hs.trans hb.settlementAsset⟩, hvalue⟩
  | updateFunding env marketId =>
    obtain ⟨next, hr⟩ := returns_void.mp hcall
    obtain ⟨insurance, hi⟩ := hinsured env marketId rfl
    exact ⟨updateFunding_settledBook hb hr,
      updateFunding_value hr hb.settlementAsset hi hm fun side => hb.sound.side _ side⟩

/-- **No value is created or destroyed beyond rounding.** In a run of fills and funding
accruals from a sound book, at any marks of the markets traded, each fill moves the
value of all balances and positions by less than eight units and the price unit of the
two owners' final sizes, each accrual by less than one unit, and the whole run by at
most what its calls add up to. Every book the engine reaches by trading is sound
(`SoundBook.of_trades`). -/
theorem matched_trading_conserves {t : List (TradingOp × EngineStorage × VaultStorage)}
    (hb : SoundBook s.1) (hs : s.1.settlementAsset = some asset) (hr : IsRun TradingOp.Step s t)
    (hc : AllSteps (fun s op => op.Counted marks s) s t) :
    IsRun (fun s op s' => |bookValue marks asset s'.1 s'.2 - bookValue marks asset s.1 s.2| <
      TradingOp.roundingBound op s') s t ∧
    |bookValue marks asset (final s t).1 (final s t).2 - bookValue marks asset s.1 s.2| ≤
      (t.map fun e => e.1.roundingBound e.2).sum := by
  have hstep : ∀ s (op : TradingOp) s', SettledBook asset s.1 → op.Counted marks s →
      op.Step s s' → SettledBook asset s'.1 ∧
        |bookValue marks asset s'.1 s'.2 - bookValue marks asset s.1 s.2| < op.roundingBound s' :=
    fun s op s' hb hc h => TradingOp.Step.conserves hb hc h
  have hall := isRun_of_invariant hstep ⟨hb, hs⟩ hr hc
  have hle : IsRun (fun s op s' => |bookValue marks asset s'.1 s'.2 - bookValue marks asset s.1 s.2| ≤
      TradingOp.roundingBound op s') s t := hall.mono fun s op s' h => h.le
  have hdrift := abs_final_sub_le (fun s : EngineStorage × VaultStorage => bookValue marks asset s.1 s.2)
    TradingOp.roundingBound hle
  exact ⟨hall, hdrift⟩

namespace Sample

/-- The sample exchange with fees and a funding rate. -/
def funded : World :=
  { charging with engine := { charging.engine with
      fundingConfig := (∅ : Store Nat FundingConfig).set 1
        { imbalanceCoeff := precision, maxRatePerHour := precision } } }

/-- Alice buys two from bob, the funding accrues, and she sells three to him. -/
def tradingDay : List TradingOp := (flips.take 1).map .fill ++ [.updateFunding (host 1000) 1] ++
  (flips.drop 1).map .fill

def tradingDayRun : List (TradingOp × EngineStorage × VaultStorage) :=
  viewed (fun w => (w.engine, w.vault)) (execute TradingOp.call funded tradingDay)

/-- Every market marked at one price. -/
def markedAt (mark : ℚ) (_ : Nat) : Option ℚ := some mark

end Sample

open Sample in
theorem matched_trading_conserves_day :
    |bookValue (markedAt (101 * precision)) usdc (final (funded.engine, funded.vault) tradingDayRun).1
          (final (funded.engine, funded.vault) tradingDayRun).2 -
        bookValue (markedAt (101 * precision)) usdc funded.engine funded.vault| ≤
      (tradingDayRun.map fun e => e.1.roundingBound e.2).sum := by
  have hsound : SoundBook funded.engine := SoundBook.matchedBook.mp (SoundBook.untraded 1)
  have hr : IsRun TradingOp.Step (funded.engine, funded.vault) tradingDayRun :=
    isRun_execute (w := funded) (by decide +kernel)
  refine (matched_trading_conserves hsound rfl hr ?_).2
  exact ⟨⟨⟨_, rfl⟩, nofun⟩, ⟨⟨_, rfl⟩, fun _ _ _ => ⟨_, rfl⟩⟩, ⟨⟨_, rfl⟩, nofun⟩, trivial⟩

/-! ## Two positions under one id -/

namespace Sample

/-- Two of market 1 at 100 under id 7. -/
def hedge (isLong : Bool) : Position where
  positionId := 7
  owner := alice
  marketId := 1
  size := 2 * precision
  entryPrice := 100 * precision
  margin := 0
  isLong
  lastFundingIndex := 0
  mode := .cross

/-- A short and a long of alice's, imported under one id. -/
def hedged : List MigratedPositions := [{ user := alice, positions := [hedge false, hedge true] }]

def hedgedWorld : World := (importBatch hedged).call.commit (trading 1000)

/-- Alice sells one to bob. -/
def hedgeSale : FillOp :=
  .settleFill (host 1000) (matched { bid precision 1 2000 with isLong := false }
    { ask precision 1 2000 with isLong := true } precision)

theorem hedged_counted (marketId : Nat) (isLong : Bool) :
    hedgedWorld.engine.sideOpenInterest marketId isLong =
      hedgedWorld.engine.storedSize marketId isLong := by
  have hmatch : CountersMatch (({} : EngineStorage).imported hedged) :=
    (EngineStorage.countersMatch_imported_iff hedged).mpr fun _ _ => rfl
  have hr : IsRun ImportOp.Step {} (importRun [hedged]) :=
    isRun_execute (w := trading 1000) (by decide +kernel)
  have hfinal : hedgedWorld.engine.book = ({} : EngineStorage).imported hedged := final_imports hr
  rw [← hfinal] at hmatch
  exact hmatch.side marketId isLong

/-- The sale is out of the long, but the first position under its id is the short, and
that one shrinks. -/
theorem hedgeSale_maker {w' : World}
    (h : Returns (Gateway.settleParty (host 1000) hedgeSale.fill.maker precision (100 * precision) true)
      hedgedWorld () w') :
    w'.engine.settlementAsset = some usdc ∧ w'.engine.loadPositions bob = [] ∧
      |bookValue (markedAt (150 * precision)) usdc w'.engine w'.vault -
          bookValue (markedAt (150 * precision)) usdc hedgedWorld.engine hedgedWorld.vault +
        tradePnl false precision (100 * precision) (150 * precision)| < 2 := by
  obtain ⟨w₁, hside, hengine, hsame⟩ :=
    Gateway.settleParty_value (markedAt (150 * precision))
      (show hedgedWorld.engine.settlementAsset = some usdc from rfl) h
  have hscan : (Gateway.scanSides 1 false (hedgedWorld.engine.loadPositions alice)).opposite =
      some (hedge true) := by decide +kernel
  have hfirst : findPosition (hedgedWorld.engine.loadPositions alice) 7 = .ok (0, hedge false) := rfl
  refine ⟨hengine ▸ hside.config.1, ?_, ?_⟩
  · rw [hengine, hside.loadPositions_other (show bob ≠ alice by decide)]
    rfl
  rw [hsame]
  cases hside with
  | reduce p hp hle h =>
    obtain rfl := Option.some.inj (hscan.symm.trans hp)
    obtain ⟨index, q, hfind, hbound⟩ :=
      reducePositionInternal_value (markedAt (150 * precision)) (150 * precision) h rfl
    obtain ⟨rfl, rfl⟩ := Prod.mk.inj (Except.ok.inj (hfirst.symm.trans hfind))
    exact hbound rfl
  | flip p hp hlt =>
    obtain rfl := Option.some.inj (hscan.symm.trans hp)
    exact absurd hlt (by decide)
  | increase p hno =>
    exact absurd (hscan.symm.trans hno) (by decide)
  | fresh hno =>
    exact absurd (hscan.symm.trans (congrArg _ hno)) (by decide)

end Sample

open Sample in
/-- The counters are the stored sizes, and a fill at 100 is worth a hundred units more at a
mark of 150 than before. -/
theorem shared_id_creates_value :
    (∀ marketId isLong, hedgedWorld.engine.sideOpenInterest marketId isLong =
      hedgedWorld.engine.storedSize marketId isLong) ∧
    ∃ w', Returns hedgeSale.call hedgedWorld () w' ∧
      TradingOp.roundingBound (.fill hedgeSale) (w'.engine, w'.vault) <
        |bookValue (markedAt (150 * precision)) usdc w'.engine w'.vault -
          bookValue (markedAt (150 * precision)) usdc hedgedWorld.engine hedgedWorld.vault| := by
  obtain ⟨_, h⟩ := returns_commit (by decide +kernel : hedgeSale.call.succeeds hedgedWorld = true)
  refine ⟨hedged_counted, _, h, ?_⟩
  have hsizes : (hedgeSale.call.commit hedgedWorld).engine.sizeIn alice 1 = 3 * precision ∧
      (hedgeSale.call.commit hedgedWorld).engine.sizeIn bob 1 = precision := by decide +kernel
  obtain ⟨w₁, w₂, hmaker, htaker, heq⟩ := (FillOp.settled h).parties
  obtain ⟨hs, hbob, hgain⟩ := hedgeSale_maker hmaker
  obtain ⟨w₃, hside, _, hsame⟩ := Gateway.settleParty_value (markedAt (150 * precision)) hs htaker
  have hopened : bookValue (markedAt (150 * precision)) usdc w₃.engine w₃.vault =
      bookValue (markedAt (150 * precision)) usdc w₁.engine w₁.vault +
        tradePnl true precision (100 * precision) (150 * precision) :=
    hside.value_opened hbob hs rfl
  have hfinal : bookValue (markedAt (150 * precision)) usdc (hedgeSale.call.commit hedgedWorld).engine
        (hedgeSale.call.commit hedgedWorld).vault =
      bookValue (markedAt (150 * precision)) usdc w₁.engine w₁.vault +
        tradePnl true precision (100 * precision) (150 * precision) := by
    rw [heq]
    exact hsame.trans hopened
  rw [hfinal]
  refine lt_of_lt_of_le ?_ (le_abs_self _)
  have hbound : TradingOp.roundingBound (.fill hedgeSale)
      ((hedgeSale.call.commit hedgedWorld).engine, (hedgeSale.call.commit hedgedWorld).vault) = 12 := by
    change (8 + ((hedgeSale.call.commit hedgedWorld).engine.sizeIn alice 1 +
      (hedgeSale.call.commit hedgedWorld).engine.sizeIn bob 1) / precision : ℚ) = 12
    rw [hsizes.1, hsizes.2]
    norm_num [precision]
  rw [hbound]
  have hlost := (abs_lt.mp hgain).1
  norm_num [tradePnl, sideSign, precision] at hlost ⊢
  linarith

end Kryon

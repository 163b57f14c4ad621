import Kryon.Deployed
import Kryon.Engine.Effects
import Kryon.Lib.Runs

/-! # The open-interest ledger

The three counters of a market are kept apart from the positions they count. Every
trade moves the counters by what it does to one position, so they stay the sums of
the stored sizes, and a reduction can never take more from them than they hold. -/
namespace Kryon
open Transaction Runs

/-! ## Calls -/

inductive EngineOp where
  | openPosition (env : Env) (user : Address) (marketId : Nat) (size : Int) (isLong : Bool)
      (executionPrice : Int) (mode : MarginMode)
  | increasePosition (env : Env) (user : Address) (positionId : Nat) (sizeDelta executionPrice : Int)
  | reducePosition (env : Env) (user : Address) (positionId : Nat) (sizeDelta executionPrice : Int)
  | closePosition (env : Env) (user : Address) (positionId : Nat) (executionPrice : Int)
  | liquidateReduce (env : Env) (user : Address) (positionId : Nat) (sizeDelta executionPrice : Int)

/-- The position lists and the counters; everything else of the engine is left out. -/
def EngineStorage.book (s : EngineStorage) : EngineStorage :=
  { positions := s.positions, openInterest := s.openInterest
    longOpenInterest := s.longOpenInterest, shortOpenInterest := s.shortOpenInterest }

namespace EngineOp

def call : EngineOp → Tx Unit
  | openPosition env user marketId size isLong executionPrice mode =>
    void (Engine.openPosition env user marketId size isLong executionPrice mode)
  | increasePosition env user positionId sizeDelta executionPrice =>
    void (Engine.increasePosition env user positionId sizeDelta executionPrice)
  | reducePosition env user positionId sizeDelta executionPrice =>
    void (Engine.reducePosition env user positionId sizeDelta executionPrice)
  | closePosition env user positionId executionPrice =>
    void (Engine.closePosition env user positionId executionPrice)
  | liquidateReduce env user positionId sizeDelta executionPrice =>
    void (Engine.liquidateReduce env user positionId sizeDelta executionPrice)

/-- One successful call; configuration, funding, prices and the other contracts may
be in any state. -/
abbrev Step : EngineStorage → EngineOp → EngineStorage → Prop :=
  CallStep EngineOp.call fun w => w.engine.book

end EngineOp

/-! ## The ledger -/

/-- The part of one position in the open interest of a side of a market. -/
def Position.sizeOn (marketId : Nat) (isLong : Bool) (p : Position) : Int :=
  if p.marketId = marketId ∧ p.isLong = isLong then p.size else 0

/-- The sizes of all stored positions of a side of a market. -/
noncomputable def EngineStorage.storedSize (s : EngineStorage) (marketId : Nat) (isLong : Bool) : Int :=
  s.positions.sum fun _ positions => (positions.map (Position.sizeOn marketId isLong)).sum

/-- Each side's counter is the sum of the sizes stored on it, and these are positive. -/
structure SidesCounted (s : EngineStorage) : Prop where
  side : ∀ marketId isLong, s.sideOpenInterest marketId isLong = s.storedSize marketId isLong
  positive : ∀ user, ∀ p ∈ s.loadPositions user, 0 < p.size

structure OpenInterestLedger (s : EngineStorage) : Prop extends SidesCounted s where
  total : ∀ marketId, s.openInterestOf marketId =
    s.sideOpenInterest marketId true + s.sideOpenInterest marketId false
  oiInRange : ∀ marketId, InI128 (s.openInterestOf marketId)
  sideInRange : ∀ marketId isLong, InI128 (s.sideOpenInterest marketId isLong)

namespace OpenInterestLedger

variable {s : EngineStorage} {user : Address}

theorem sizeOn_nonneg (h : OpenInterestLedger s) (marketId : Nat) (isLong : Bool) {p : Position}
    (hp : p ∈ s.loadPositions user) : 0 ≤ p.sizeOn marketId isLong := by
  have := h.positive user p hp
  unfold Position.sizeOn
  split <;> omega

theorem sizes_nonneg (h : OpenInterestLedger s) (marketId : Nat) (isLong : Bool) {k : Address}
    {positions : List Position} (hk : s.positions.get k = some positions) :
    0 ≤ (positions.map (Position.sizeOn marketId isLong)).sum := by
  refine List.sum_nonneg fun x hx => ?_
  obtain ⟨p, hp, rfl⟩ := List.mem_map.mp hx
  have hload : s.loadPositions k = positions := by simp [EngineStorage.loadPositions, hk]
  exact h.sizeOn_nonneg marketId isLong (hload ▸ hp)

theorem side_nonneg (h : OpenInterestLedger s) (marketId : Nat) (isLong : Bool) :
    0 ≤ s.sideOpenInterest marketId isLong := by
  rw [h.side]
  exact Store.sum_nonneg fun k positions hk => h.sizes_nonneg marketId isLong hk

/-- No stored position is larger than its side's open interest. -/
theorem size_le_side (h : OpenInterestLedger s) {p : Position} (hp : p ∈ s.loadPositions user) :
    p.size ≤ s.sideOpenInterest p.marketId p.isLong := by
  have hself : p.sizeOn p.marketId p.isLong = p.size := by simp [Position.sizeOn]
  have hlist : p.size ≤ ((s.loadPositions user).map (Position.sizeOn p.marketId p.isLong)).sum := by
    rw [← hself]
    refine List.single_le_sum (fun x hx => ?_) _ (List.mem_map_of_mem hp)
    obtain ⟨q, hq, rfl⟩ := List.mem_map.mp hx
    exact h.sizeOn_nonneg _ _ hq
  refine hlist.trans ?_
  rw [h.side]
  have hentry := Store.entry_le_sum (s := s.positions)
    (f := fun _ positions => (positions.map (Position.sizeOn p.marketId p.isLong)).sum)
    (fun k positions hk => h.sizes_nonneg _ _ hk) user
  refine le_trans (le_of_eq ?_) hentry
  unfold Store.entry EngineStorage.loadPositions
  cases s.positions.get user <;> rfl

theorem size_le_total (h : OpenInterestLedger s) {p : Position} (hp : p ∈ s.loadPositions user) :
    p.size ≤ s.openInterestOf p.marketId := by
  have hside := h.size_le_side hp
  have hlong := h.side_nonneg p.marketId true
  have hshort := h.side_nonneg p.marketId false
  rw [h.total]
  cases hl : p.isLong <;> rw [hl] at hside <;> omega

/-- The counters can give up any part of a stored position. -/
theorem checkedSub_ok (h : OpenInterestLedger s) {p : Position} (hp : p ∈ s.loadPositions user)
    {size : Int} (hpos : 0 ≤ size) (hle : size ≤ p.size) :
    (∃ oi, checkedSub (s.openInterestOf p.marketId) size = .ok oi ∧ 0 ≤ oi) ∧
      ∃ side, checkedSub (s.sideOpenInterest p.marketId p.isLong) size = .ok side ∧ 0 ≤ side := by
  have htotal := h.size_le_total hp
  have hside := h.size_le_side hp
  refine ⟨⟨_, Kryon.checkedSub_ok.mpr ⟨?_, rfl⟩, by omega⟩, _, Kryon.checkedSub_ok.mpr ⟨?_, rfl⟩, by omega⟩
  · exact inI128_zero.between (h.oiInRange p.marketId) (by omega) (by omega)
  · exact inI128_zero.between (h.sideInRange p.marketId p.isLong) (by omega) (by omega)

end OpenInterestLedger

/-! ## What a trade does to it -/

variable {w w' : World} {user : Address} {before after : Option Position} {marketId : Nat}
  {isLong : Bool} {change pnl : Int}

open Engine

theorem sizeOn_change (h : PositionTrade w w' user before after marketId isLong change pnl)
    (m : Nat) (side : Bool) : after.elim 0 (Position.sizeOn m side) =
      before.elim 0 (Position.sizeOn m side) + if m = marketId ∧ side = isLong then change else 0 := by
  have hside := h.side
  have hsize := h.size
  have hone : ∀ o : Option Position, (∀ p, o = some p → p.marketId = marketId ∧ p.isLong = isLong) →
      o.elim 0 (Position.sizeOn m side) =
        if m = marketId ∧ side = isLong then o.elim 0 Position.size else 0 := by
    rintro (_ | p) hp
    · simp
    · obtain ⟨rfl, rfl⟩ := hp p rfl
      simp only [Option.elim_some, Position.sizeOn, eq_comm]
  rw [hone after fun p hp => hside p (.inr hp), hone before fun p hp => hside p (.inl hp), hsize]
  split <;> simp

theorem storedSize_trade (h : PositionTrade w w' user before after marketId isLong change pnl)
    (m : Nat) (side : Bool) : w'.engine.storedSize m side = w.engine.storedSize m side +
      if m = marketId ∧ side = isLong then change else 0 := by
  obtain ⟨positions, ht, hone⟩ := h.traded
  have hentry : w.engine.positions.entry (fun _ ps => (ps.map (Position.sizeOn m side)).sum) user =
      ((w.engine.loadPositions user).map (Position.sizeOn m side)).sum := by
    unfold Store.entry EngineStorage.loadPositions
    cases w.engine.positions.get user <;> rfl
  rw [EngineStorage.storedSize, ht.positions_eq, Store.sum_set, hentry, hone.sum_map,
    sizeOn_change h, EngineStorage.storedSize]
  ring

theorem sideOpenInterest_trade
    (hside : ∀ m side, w.engine.sideOpenInterest m side = w.engine.storedSize m side)
    (h : PositionTrade w w' user before after marketId isLong change pnl) (m : Nat) (side : Bool) :
    w'.engine.sideOpenInterest m side = w'.engine.storedSize m side := by
  obtain ⟨positions, ht, _⟩ := h.traded
  rw [ht.sideOpenInterest, storedSize_trade h, hside]
  split <;> simp

theorem SidesCounted.trade (hc : SidesCounted w.engine)
    (h : PositionTrade w w' user before after marketId isLong change pnl) :
    SidesCounted w'.engine := by
  obtain ⟨positions, ht, hone⟩ := h.traded
  constructor
  · exact sideOpenInterest_trade hc.side h
  · intro u p hp
    rw [ht.loadPositions] at hp
    split at hp
    · rcases hone.mem hp with hold | hnew
      · exact hc.positive user p hold
      · exact h.positive (fun q hq => hc.positive user q (hone.before_mem hq)) p hnew
    · exact hc.positive u p hp

theorem OpenInterestLedger.trade (hl : OpenInterestLedger w.engine)
    (h : PositionTrade w w' user before after marketId isLong change pnl) :
    OpenInterestLedger w'.engine := by
  obtain ⟨positions, ht, hone⟩ := h.traded
  refine ⟨hl.toSidesCounted.trade h, fun m => ?_, fun m => ?_, fun m side => ?_⟩
  · have htotal := hl.total m
    rw [ht.openInterestOf, ht.sideOpenInterest, ht.sideOpenInterest]
    cases isLong <;> by_cases hm : m = marketId <;> simp [hm] at htotal ⊢ <;> omega
  · rw [ht.openInterestOf]
    split
    · rename_i hm; exact hm ▸ ht.oiInRange
    · exact hl.oiInRange m
  · rw [ht.sideOpenInterest]
    split
    · rename_i hm; rw [hm.1, hm.2]; exact ht.sideInRange
    · exact hl.sideInRange m side

/-- Every call of the engine is a trade of one position. -/
theorem EngineOp.trade {op : EngineOp} (h : Returns op.call w () w') :
    ∃ user before after marketId isLong change pnl,
      PositionTrade w w' user before after marketId isLong change pnl := by
  cases op with
  | openPosition =>
    obtain ⟨r, h⟩ := returns_void.mp h
    obtain ⟨position, _, _, ht⟩ := openPosition_trade h
    exact ⟨_, _, _, _, _, _, _, ht⟩
  | increasePosition =>
    obtain ⟨r, h⟩ := returns_void.mp h
    obtain ⟨_, _, _, _, _, ht⟩ := increasePosition_trade h
    exact ⟨_, _, _, _, _, _, _, ht⟩
  | reducePosition =>
    obtain ⟨r, h⟩ := returns_void.mp h
    obtain ⟨_, _, _, _, _, _, _, ht⟩ := reducePositionInternal_trade (reducePosition_internal h)
    exact ⟨_, _, _, _, _, _, _, ht⟩
  | closePosition =>
    obtain ⟨r, h⟩ := returns_void.mp h
    obtain ⟨_, h⟩ := closePosition_internal h
    obtain ⟨_, _, _, _, _, _, _, ht⟩ := reducePositionInternal_trade h
    exact ⟨_, _, _, _, _, _, _, ht⟩
  | liquidateReduce =>
    obtain ⟨r, h⟩ := returns_void.mp h
    obtain ⟨_, _, _, _, _, _, _, ht⟩ := reducePositionInternal_trade (liquidateReduce_internal h)
    exact ⟨_, _, _, _, _, _, _, ht⟩

theorem openInterestLedger_book {s : EngineStorage} :
    OpenInterestLedger s.book ↔ OpenInterestLedger s :=
  ⟨fun ⟨⟨h1, h2⟩, h3, h4, h5⟩ => ⟨⟨h1, h2⟩, h3, h4, h5⟩,
    fun ⟨⟨h1, h2⟩, h3, h4, h5⟩ => ⟨⟨h1, h2⟩, h3, h4, h5⟩⟩

theorem EngineOp.Step.ledger {s s' : EngineStorage} {op : EngineOp} (hl : OpenInterestLedger s)
    (h : op.Step s s') : OpenInterestLedger s' := by
  obtain ⟨w, w', rfl, rfl, h⟩ := h
  obtain ⟨_, _, _, _, _, _, _, ht⟩ := EngineOp.trade h
  exact openInterestLedger_book.mpr ((openInterestLedger_book.mp hl).trade ht)

theorem openInterestLedger_empty : OpenInterestLedger {} where
  side m side := by cases side <;> simp [EngineStorage.sideOpenInterest, EngineStorage.storedSize]
  total m := by simp [EngineStorage.openInterestOf, EngineStorage.sideOpenInterest]
  positive user p hp := by cases hp
  oiInRange m := inI128_zero
  sideInRange m side := by cases side <;> exact inI128_zero

/-- The three counters are the sums they stand for, none is negative, every stored
size is positive, and the `checked_sub`s of a reduction by any part of a stored
position succeed. -/
structure CountersExact (s : EngineStorage) : Prop where
  long : ∀ marketId, s.sideOpenInterest marketId true = s.storedSize marketId true
  short : ∀ marketId, s.sideOpenInterest marketId false = s.storedSize marketId false
  total : ∀ marketId, s.openInterestOf marketId =
    s.sideOpenInterest marketId true + s.sideOpenInterest marketId false
  nonneg : ∀ marketId, 0 ≤ s.openInterestOf marketId ∧ 0 ≤ s.sideOpenInterest marketId true ∧
    0 ≤ s.sideOpenInterest marketId false
  size_pos : ∀ user, ∀ p ∈ s.loadPositions user, 0 < p.size
  reducible : ∀ user, ∀ p ∈ s.loadPositions user, ∀ size, 0 ≤ size → size ≤ p.size →
    (∃ oi, checkedSub (s.openInterestOf p.marketId) size = .ok oi ∧ 0 ≤ oi) ∧
      ∃ side, checkedSub (s.sideOpenInterest p.marketId p.isLong) size = .ok side ∧ 0 ≤ side

theorem OpenInterestLedger.exact {s : EngineStorage} (hl : OpenInterestLedger s) :
    CountersExact s where
  long m := hl.side m true
  short m := hl.side m false
  total := hl.total
  nonneg m := by
    have hlong := hl.side_nonneg m true
    have hshort := hl.side_nonneg m false
    have htotal := hl.total m
    exact ⟨by omega, hlong, hshort⟩
  size_pos := hl.positive
  reducible _ _ hp _ := hl.checkedSub_ok hp

/-- **The counters count.** In every state of a run of trades from an engine without
positions the open-interest counters are exact. -/
theorem open_interest_ledger {t : List (EngineOp × EngineStorage)}
    (hr : IsRun EngineOp.Step {} t) : AllStates CountersExact {} t := by
  have hstep : ∀ s (op : EngineOp) s', OpenInterestLedger s → op.Step s s' →
      OpenInterestLedger s' := fun s op s' hl h => EngineOp.Step.ledger hl h
  exact (invariant_of_step hstep openInterestLedger_empty hr).mono fun s hl => hl.exact

namespace Sample

/-- Alice opens, grows and closes a long while bob stays short. -/
def trades : List EngineOp := [
  .openPosition (host 1000) alice 1 (2 * precision) true (100 * precision) .cross,
  .openPosition (host 1000) bob 1 (2 * precision) false (100 * precision) .cross,
  .increasePosition (host 1000) alice 1 precision (100 * precision),
  .liquidateReduce (host 1000) bob 2 precision (100 * precision),
  .closePosition (host 1000) alice 1 (100 * precision)]

def tradesRun : List (EngineOp × EngineStorage) :=
  viewed (fun w => w.engine.book) (execute EngineOp.call (trading 1000) trades)

end Sample

open Sample in
theorem open_interest_ledger_trades :
    (final {} tradesRun).openInterestOf 1 = precision ∧ AllStates CountersExact {} tradesRun :=
  ⟨by decide +kernel, open_interest_ledger (isRun_execute (w := trading 1000) (by decide +kernel))⟩

end Kryon

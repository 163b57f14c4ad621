import Kryon.Engine.Mirror
import Kryon.Engine.Worth
import Kryon.Liquidation.Solvency

/-! # Realising a pnl against carrying it

The engine credits what a closed part made, and health values what is left open, each
truncated by itself. The part and the rest together make what the whole position made,
within one base unit, so closing at the mark neither gains nor loses equity, and slicing a
close gains or loses at most one unit a slice. -/
namespace Kryon
open Transaction Runs Truncation Liquidation

/-! ## At the mark -/

namespace Engine

variable {env : Env} {w w' : World} {user asset : Address} {positionId : Nat} {size price : Int}
  {position : Position} {requireInitialMargin : Bool}

theorem fundingIndexOf_mirrored (h : w.Mirrored) (env : Env) (p : Position) :
    w.vault.fundingIndexOf p = currentFundingIndex env w.engine p := by
  unfold VaultStorage.fundingIndexOf currentFundingIndex
  rw [h.long env.timestamp, h.short env.timestamp]

/-- Settled funding leaves nothing to settle. -/
theorem unsettledFunding_self (p : Position) : p.unsettledFunding p.lastFundingIndex = 0 := by
  simp [Position.unsettledFunding]

/-- What is paid out and what is left open is what the position had made, within one unit. -/
theorem cashed_leftOpen (env : Env) (position : Position) (hmirror : w.Mirrored) (size : Int) :
    |cashed env w position size (Vault.markOf env w position.marketId) +
      Vault.unrealizedOf env w (leftOpen env w position size) -
        Vault.unrealizedOf env w position| ≤ 1 := by
  have hsettled : (leftOpen env w position size).unsettledFunding
      (w.vault.fundingIndexOf (leftOpen env w position size)) = 0 := by
    rw [fundingIndexOf_mirrored hmirror env]
    exact unsettledFunding_self _
  have hparts := abs_tdiv_add_sub_le
    (size * position.unitGain (Vault.markOf env w position.marketId))
    ((position.size - size) * position.unitGain (Vault.markOf env w position.marketId)) precision_pos
  rw [← add_mul, add_sub_cancel] at hparts
  have hcarried : Vault.unrealizedOf env w position =
      (position.size * position.unitGain (Vault.markOf env w position.marketId)).tdiv precision +
        position.unsettledFunding (currentFundingIndex env w.engine position) := by
    rw [← fundingIndexOf_mirrored hmirror env]
    rfl
  have hleft : Vault.unrealizedOf env w (leftOpen env w position size) =
      ((position.size - size) * position.unitGain (Vault.markOf env w position.marketId)).tdiv
        precision := by
    rw [Vault.unrealizedOf, hsettled, add_zero]
    rfl
  have hpaid : cashed env w position size (Vault.markOf env w position.marketId) =
      position.unsettledFunding (currentFundingIndex env w.engine position) +
        (size * position.unitGain (Vault.markOf env w position.marketId)).tdiv precision := rfl
  rw [hcarried, hleft, hpaid]
  rw [abs_le] at hparts ⊢
  constructor <;> linarith

/-- A reduction at the mark moves equity by at most one unit. -/
theorem reduce_at_mark {settlement : Address} {index : Nat} {r : TradeResult}
    {before after : AccountHealth} (hmirror : w.Mirrored)
    (hnodup : (w.vault.recordedAssets user).Nodup) (hs : w.engine.settlementAsset = some settlement)
    (hpar : Vault.AtPar env w user settlement)
    (hfind : findPosition (w.engine.loadPositions user) positionId = .ok (index, position))
    (h : Returns (reducePositionInternal env user positionId size
      (Vault.markOf env w position.marketId) requireInitialMargin) w r w')
    (hbefore : Vault.accountHealth env w user asset = .ok before)
    (hafter : Vault.accountHealth env w' user asset = .ok after) :
    |after.equity - before.equity| ≤ 1 := by
  have hlist : w.vault.loadPositions user = w.engine.loadPositions user := by
    unfold VaultStorage.loadPositions EngineStorage.loadPositions
    rw [hmirror.positions]
  obtain ⟨hprices, hassets, settlement', _, position', hs', hfind', hbalance, hequity⟩ :=
    reduce_equity hlist hnodup h hbefore hafter
  obtain rfl := Option.some.inj (hs'.symm.trans hs)
  obtain ⟨rfl, rfl⟩ := Prod.mk.inj (Except.ok.inj (hfind'.symm.trans hfind))
  rw [hequity, Vault.countedOf_at_par hpar hbefore,
    Vault.countedOf_at_par (hpar.congr hprices hassets) hafter, hbalance]
  have hclose := cashed_leftOpen env position' hmirror size
  rw [abs_le] at hclose ⊢
  constructor <;> linarith

end Engine

/-! ## In slices -/

/-- The position lists, the counters and the funding indexes. -/
def EngineStorage.fundedBook (s : EngineStorage) : EngineStorage :=
  { s.book with fundingState := s.fundingState }

/-- A part of a position closed by a trade, or by a liquidation. -/
structure Slice where
  env : Env
  size : Int
  requireInitialMargin : Bool

namespace Slice

def call (user : Address) (positionId : Nat) (price : Int) (slice : Slice) : Tx TradeResult :=
  Engine.reducePositionInternal slice.env user positionId slice.size price slice.requireInitialMargin

/-- One successful reduction and its result; whatever else the contracts hold may change between
reductions, the funding indexes may not. -/
abbrev Step (user : Address) (positionId : Nat) (price : Int) :
    EngineStorage → Slice × TradeResult → EngineStorage → Prop :=
  ReturnStep (Slice.call user positionId price) fun w => w.engine.fundedBook

end Slice

namespace Engine

variable {s s' : EngineStorage} {user : Address} {positionId index : Nat} {price : Int}
  {p : Position}

/-- `s'` is `s` with `size` of the position closed and `positions` left to the user. -/
structure Closes (s s' : EngineStorage) (user : Address) (positions : List Position) (p : Position)
    (size : Int) : Prop where
  positions : ∀ u, s'.loadPositions u = if u = user then positions else s.loadPositions u
  openInterest : ∀ m, s'.openInterestOf m =
    if m = p.marketId then s.openInterestOf m - size else s.openInterestOf m
  side : ∀ m isLong, s'.sideOpenInterest m isLong =
    if m = p.marketId ∧ isLong = p.isLong then s.sideOpenInterest m isLong - size
    else s.sideOpenInterest m isLong

theorem Closes.trans {s'' : EngineStorage} {positions positions' : List Position} {q : Position}
    {size size' : Int} (h : Closes s s' user positions p size)
    (h' : Closes s' s'' user positions' q size') (hm : q.marketId = p.marketId)
    (hside : q.isLong = p.isLong) : Closes s s'' user positions' p (size + size') where
  positions u := by
    rw [h'.positions, h.positions]
    split <;> rfl
  openInterest m := by
    rw [h'.openInterest, h.openInterest, hm]
    split
    · omega
    · rfl
  side m isLong := by
    rw [h'.side, h.side, hm, hside]
    split
    · omega
    · rfl

/-- What a slice does to the book, and what it pays. -/
theorem slice_closes {slice : Slice} {r : TradeResult}
    (h : Slice.Step user positionId price s (slice, r) s') :
    ∃ (index : Nat) (p : Position) (margin : Int),
      findPosition (s.loadPositions user) positionId = .ok (index, p) ∧
      0 < slice.size ∧ slice.size ≤ p.size ∧
      r.realizedPnl = (slice.size * p.unitGain price).tdiv precision ∧
      r.fundingPnl = p.unsettledFunding (s.fundingIndexOf p.marketId p.isLong) ∧
      s'.fundingState = s.fundingState ∧
      Closes s s' user (replaceOrRemove (s.loadPositions user) index { p with
        margin, size := p.size - slice.size
        lastFundingIndex := s.fundingIndexOf p.marketId p.isLong }) p slice.size := by
  obtain ⟨w, w', rfl, rfl, hcall⟩ := h
  obtain ⟨hpos, _, index, p, settled, realized, margin, _, _, hle, hsettled, hrealized, ht, _, _, hfind,
    _, hpnl, hfunding⟩ := reducePositionInternal_spec hcall
  rw [currentFundingIndex_eq] at hsettled ht
  have hstate : w'.engine.fundingState = w.engine.fundingState := by
    obtain ⟨_, _, he⟩ := ht.engine
    rw [he]
    rfl
  refine ⟨index, p, margin, hfind, hpos, hle, hpnl.trans (realizedPnl_pnlAt hrealized),
    hfunding.trans (fundingPnl_ok hsettled), hstate, ?_, ?_, ?_⟩
  · exact ht.loadPositions
  · exact ht.openInterestOf
  · exact ht.sideOpenInterest

/-- Every slice closes something. -/
theorem slices_size {t : List ((Slice × TradeResult) × EngineStorage)}
    (hr : IsRun (Slice.Step user positionId price) s t) :
    0 ≤ (t.map fun e => e.1.1.size).sum ∧ ((t.map fun e => e.1.1.size).sum = 0 → t = []) := by
  induction t generalizing s with
  | nil => exact ⟨le_rfl, fun _ => rfl⟩
  | cons e rest ih =>
    obtain ⟨⟨slice, r⟩, s'⟩ := e
    obtain ⟨_, _, _, _, hsize, _⟩ := slice_closes hr.1
    obtain ⟨hnonneg, _⟩ := ih hr.2
    simp only [List.map_cons, List.sum_cons]
    exact ⟨by omega, fun hzero => by omega⟩

/-- Slices that add up to a position close it. Each pays its own part of the pnl, and the first
settles the funding of them all. -/
theorem slices_close {t : List ((Slice × TradeResult) × EngineStorage)}
    (hr : IsRun (Slice.Step user positionId price) s t)
    (hfind : findPosition (s.loadPositions user) positionId = .ok (index, p)) (hpos : 0 < p.size)
    (hsum : (t.map fun e => e.1.1.size).sum = p.size) :
    Closes s (final s t) user ((s.loadPositions user).eraseIdx index) p p.size ∧
      (t.map fun e => e.1.2.realizedPnl).sum =
        ((t.map fun e => e.1.1.size * p.unitGain price).map (Int.tdiv · precision)).sum ∧
      (t.map fun e => e.1.2.fundingPnl).sum =
        p.unsettledFunding (s.fundingIndexOf p.marketId p.isLong) := by
  induction t generalizing s p with
  | nil =>
    rw [List.map_nil, List.sum_nil] at hsum
    omega
  | cons e rest ih =>
    obtain ⟨⟨slice, r⟩, s'⟩ := e
    obtain ⟨hstep, hrest⟩ := hr
    obtain ⟨_, _, margin, hfind', hsize, hle, hrealized, hfunding, hstate, hclose⟩ := slice_closes hstep
    obtain ⟨rfl, rfl⟩ := Prod.mk.inj (Except.ok.inj (hfind.symm.trans hfind'))
    simp only [List.map_cons, List.sum_cons] at hsum ⊢
    have hsettled : s'.fundingIndexOf = s.fundingIndexOf := by
      unfold EngineStorage.fundingIndexOf
      rw [hstate]
    by_cases hlast : p.size - slice.size = 0
    · obtain rfl : rest = [] := (slices_size hrest).2 (by omega)
      obtain hwhole : slice.size = p.size := by omega
      rw [replaceOrRemove, if_pos hlast, hwhole] at hclose
      simp only [final_cons, final_nil, List.map_nil, List.sum_nil, add_zero]
      exact ⟨hclose, hrealized, hfunding⟩
    · rw [replaceOrRemove, if_neg hlast] at hclose
      have hkept := hclose.positions user
      rw [if_pos rfl] at hkept
      obtain ⟨hcloseRest, hrealizedRest, hfundingRest⟩ := ih (p := { p with
        margin, size := p.size - slice.size
        lastFundingIndex := s.fundingIndexOf p.marketId p.isLong }) hrest
        (by rw [hkept]; exact findPosition_set hfind rfl) (by show 0 < p.size - slice.size; omega)
        (by show _ = p.size - slice.size; omega)
      rw [hkept] at hcloseRest
      refine ⟨?_, ?_, ?_⟩
      · have hboth := hclose.trans hcloseRest rfl rfl
        rw [List.eraseIdx_set_eq, add_sub_cancel] at hboth
        exact hboth
      · rw [hrealized, hrealizedRest]
        rfl
      · rw [hfunding, hfundingRest, hsettled]
        show _ + Position.unsettledFunding _ (s.fundingIndexOf p.marketId p.isLong) = _
        rw [unsettledFunding_self { p with
          margin, size := p.size - slice.size
          lastFundingIndex := s.fundingIndexOf p.marketId p.isLong }, add_zero]

/-- Two closes of the same part leave the same book. -/
theorem Closes.agree {s'' : EngineStorage} {positions : List Position} {size : Int}
    (h : Closes s s' user positions p size) (h' : Closes s s'' user positions p size) :
    (∀ u, s'.loadPositions u = s''.loadPositions u) ∧
      (∀ m, s'.openInterestOf m = s''.openInterestOf m) ∧
      ∀ m isLong, s'.sideOpenInterest m isLong = s''.sideOpenInterest m isLong :=
  ⟨fun u => (h.positions u).trans (h'.positions u).symm,
    fun m => (h.openInterest m).trans (h'.openInterest m).symm,
    fun m isLong => (h.side m isLong).trans (h'.side m isLong).symm⟩

/-- What slices pay is what one close pays, within one unit for each. -/
theorem slices_pay {t : List ((Slice × TradeResult) × EngineStorage)}
    {whole : Slice} {r : TradeResult}
    (hr : IsRun (Slice.Step user positionId price) s t)
    (hfind : findPosition (s.loadPositions user) positionId = .ok (index, p))
    (hsum : (t.map fun e => e.1.1.size).sum = p.size) (hwhole : whole.size = p.size)
    (h : Slice.Step user positionId price s (whole, r) s') :
    |(t.map fun e => e.1.2.realizedPnl + e.1.2.fundingPnl).sum - (r.realizedPnl + r.fundingPnl)| ≤
        t.length ∧
      (∀ u, (final s t).loadPositions u = s'.loadPositions u) ∧
      (∀ m, (final s t).openInterestOf m = s'.openInterestOf m) ∧
      ∀ m isLong, (final s t).sideOpenInterest m isLong = s'.sideOpenInterest m isLong := by
  obtain ⟨_, _, _, hfind', hsize, _, hrealized, hfunding, _, hclose⟩ := slice_closes h
  obtain ⟨rfl, rfl⟩ := Prod.mk.inj (Except.ok.inj (hfind.symm.trans hfind'))
  rw [replaceOrRemove, if_pos (by show p.size - whole.size = 0; omega), hwhole] at hclose
  obtain ⟨hcloses, hrealizedAll, hfundingAll⟩ := slices_close hr hfind (by omega) hsum
  refine ⟨?_, hcloses.agree hclose⟩
  have hparts := abs_sum_tdiv_sub_le (t.map fun e => e.1.1.size * p.unitGain price) precision_pos
  rw [List.sum_map_mul_right, hsum, List.length_map] at hparts
  rw [List.sum_map_add, hrealizedAll, hfundingAll, hrealized, hfunding, hwhole, add_sub_add_right_eq_sub]
  exact hparts

end Engine

open Engine

/-- **Realising a pnl neither makes nor loses equity, and slicing a close pays no more than
closing at once.** In any state that the engine and the vault can reach, where the settlement
asset is recorded and at par, a reduction at the mark moves the account's equity by at most one
base unit; and reductions at one price that add up to a position pay the pnl and funding of a
single close within one unit for each, and leave the same positions and open interest. -/
theorem realizing_keeps_value :
    (∀ {t : List (AccountOp × Accounts)} {t' : List (EngineCall × Books)} {env : Env} {w w' : World}
      {user asset settlement : Address} {positionId index : Nat} {position : Position} {size : Int}
      {requireInitialMargin : Bool} {r : TradeResult} {before after : AccountHealth},
      IsRun AccountOp.Step {} t → w.accounts = final {} t →
      IsRun EngineCall.Step {} t' → w.books = final {} t' →
      w.engine.settlementAsset = some settlement → Vault.AtPar env w user settlement →
      findPosition (w.engine.loadPositions user) positionId = .ok (index, position) →
      Returns (reducePositionInternal env user positionId size
        (Vault.markOf env w position.marketId) requireInitialMargin) w r w' →
      Vault.accountHealth env w user asset = .ok before →
      Vault.accountHealth env w' user asset = .ok after →
      |after.equity - before.equity| ≤ 1) ∧
    ∀ {t : List ((Slice × TradeResult) × EngineStorage)} {s s' : EngineStorage} {user : Address}
      {positionId index : Nat} {position : Position} {price : Int} {whole : Slice} {r : TradeResult},
      IsRun (Slice.Step user positionId price) s t →
      findPosition (s.loadPositions user) positionId = .ok (index, position) →
      (t.map fun e => e.1.1.size).sum = position.size → whole.size = position.size →
      Slice.Step user positionId price s (whole, r) s' →
      |(t.map fun e => e.1.2.realizedPnl + e.1.2.fundingPnl).sum - (r.realizedPnl + r.fundingPnl)| ≤
          t.length ∧
        (∀ u, (final s t).loadPositions u = s'.loadPositions u) ∧
        (∀ m, (final s t).openInterestOf m = s'.openInterestOf m) ∧
        ∀ m isLong, (final s t).sideOpenInterest m isLong = s'.sideOpenInterest m isLong := by
  refine ⟨?_, ?_⟩
  · intro t t' env w w' user asset settlement positionId index position size _ r before after hr hw hr' hw'
      hs hpar hfind h hbefore hafter
    have hnodup : (w.vault.recordedAssets user).Nodup := by
      have hmirrored : w.accounts.Mirrored := by
        rw [hw]
        exact mirrored_run hr
      exact hmirrored.indexNodup user
    have hmirror : w.Mirrored := by
      have hsynced : w.books.Synced := by
        rw [hw']
        exact (synced_run hr').at_final
      exact hsynced.mirrored
    exact reduce_at_mark hmirror hnodup hs hpar hfind h hbefore hafter
  · intro t s s' user positionId index position price whole r hr hfind hsum hwhole h
    exact slices_pay hr hfind hsum hwhole h

namespace Sample

/-- The price has risen to 103 since alice bought one unit. -/
def risen : World :=
  { final exchange (execute AccountOp.call exchange buying) with oracle := prices (103 * precision) 1000 }

/-- Alice's deposit is made. -/
def readyToBuy : World := final exchange (execute AccountOp.call exchange (buying.take 1))

/-- The position that alice buys. -/
def bought : Position where
  positionId := 1
  owner := alice
  marketId := 1
  size := precision
  entryPrice := 100 * precision
  margin := 0
  isLong := true
  lastFundingIndex := 0
  mode := .cross

def purchase : List EngineCall :=
  [.trade (.openPosition (host 1000) alice 1 precision true (100 * precision) .cross)]

/-- A third of alice's unit closed at a time, and what that leaves of it. -/
def thirds : List Slice :=
  [precision / 3, precision / 3, precision - 2 * (precision / 3)].map fun size =>
    { env := host 1000, size, requireInitialMargin := true }

def thirdsRun : List ((Slice × TradeResult) × EngineStorage) :=
  viewed (fun w => w.engine.fundedBook) (perform (Slice.call alice 1 (103 * precision)) risen thirds)

end Sample

open Sample in
/-- A third of the unit closed at the mark leaves alice's equity as it was, and three thirds pay what
the unit does. -/
theorem realizing_keeps_value_thirds :
    (∃ r w' before after, Returns (reducePositionInternal (host 1000) alice 1 (precision / 3)
        (Vault.markOf (host 1000) risen 1) true) risen r w' ∧
      Vault.accountHealth (host 1000) risen alice usdc = .ok before ∧
      Vault.accountHealth (host 1000) w' alice usdc = .ok after ∧
      |after.equity - before.equity| ≤ 1) ∧
    ∃ r w', Returns (reducePositionInternal (host 1000) alice 1 precision (103 * precision) true) risen
        r w' ∧ thirdsRun.length = 3 ∧
      |(thirdsRun.map fun e => e.1.2.realizedPnl + e.1.2.fundingPnl).sum -
        (r.realizedPnl + r.fundingPnl)| ≤ 3 := by
  have hr : IsRun AccountOp.Step {} (viewed World.accounts (execute AccountOp.call exchange buying)) :=
    isRun_execute (w := exchange) (by decide +kernel)
  have hw : risen.accounts = final {} (viewed World.accounts (execute AccountOp.call exchange buying)) :=
    (@final_viewed _ _ _ World.accounts exchange (execute AccountOp.call exchange buying)).symm
  have hr' : IsRun EngineCall.Step {} (viewed World.books (execute EngineCall.call readyToBuy purchase)) :=
    isRun_execute (w := readyToBuy) (by decide +kernel)
  have hw' : risen.books = final {} (viewed World.books (execute EngineCall.call readyToBuy purchase)) :=
    (@final_viewed _ _ _ World.books readyToBuy (execute EngineCall.call readyToBuy purchase)).symm
  have hpar : Vault.AtPar (host 1000) risen alice usdc := by
    refine ⟨by decide +kernel, ⟨_, rfl, rfl, rfl⟩, ⟨_, rfl, rfl⟩⟩
  obtain ⟨r, hcall⟩ := returns_commit (x := reducePositionInternal (host 1000) alice 1 (precision / 3)
    (Vault.markOf (host 1000) risen 1) true) (s := risen) (by decide +kernel)
  obtain ⟨whole, hwhole⟩ := returns_commit (x := reducePositionInternal (host 1000) alice 1 precision
    (103 * precision) true) (s := risen) (by decide +kernel)
  obtain ⟨before, hbefore⟩ := exists_ok (x := Vault.accountHealth (host 1000) risen alice usdc)
    (by decide +kernel)
  obtain ⟨after, hafter⟩ := exists_ok (x := Vault.accountHealth (host 1000)
    (commit (reducePositionInternal (host 1000) alice 1 (precision / 3)
      (Vault.markOf (host 1000) risen 1) true) risen) alice usdc) (by decide +kernel)
  have hthirds : IsRun (Slice.Step alice 1 (103 * precision)) risen.engine.fundedBook thirdsRun :=
    isRun_perform risen thirds
  have hfind : findPosition (risen.engine.loadPositions alice) 1 = .ok (0, bought) := by
    decide +kernel
  have hlength : thirdsRun.length = 3 := by decide +kernel
  obtain ⟨hequity, hslices⟩ := realizing_keeps_value
  have hclose : Slice.Step alice 1 (103 * precision) risen.engine.fundedBook
      ({ env := host 1000, size := precision, requireInitialMargin := true }, whole)
      (commit (reducePositionInternal (host 1000) alice 1 precision (103 * precision) true)
        risen).engine.fundedBook := ⟨risen, _, rfl, rfl, hwhole⟩
  have hpay := (hslices hthirds hfind (by decide +kernel) rfl hclose).1
  rw [hlength] at hpay
  exact ⟨⟨r, _, before, after, hcall, hbefore, hafter,
    hequity hr hw hr' hw' rfl hpar hfind hcall hbefore hafter⟩, whole, _, hwhole, hlength, hpay⟩

end Kryon

import Kryon.Engine.Accrual
import Kryon.Lib.TimeWeighted

/-! # The time-weighted mark

A market's mark state is an accumulator of its standing price: trades through the gateway
quote the price they execute at, an update of the funding reads the average and closes the
window, and nothing else touches it, liquidation fills least of all. -/
namespace Kryon
open Transaction Runs TimeWeighted

/-! ## Quotes and readings -/

/-- The market of the position the user's id names. -/
def EngineStorage.marketOf (s : EngineStorage) (user : Address) (positionId : Nat) : Option Nat :=
  match Engine.findPosition (s.loadPositions user) positionId with
  | .ok (_, position) => some position.marketId
  | .error _ => none

/-- The positions and the marks. -/
def EngineStorage.markBook (s : EngineStorage) : EngineStorage :=
  { positions := s.positions, markState := s.markState }

def EngineOp.quote (marketId : Nat) (s : EngineStorage) : EngineOp → Option Event
  | openPosition env _ m _ _ price _ =>
    if m = marketId then some (.quote env.timestamp price) else none
  | increasePosition env user positionId _ price | reducePosition env user positionId _ price
  | closePosition env user positionId price =>
    if s.marketOf user positionId = some marketId then some (.quote env.timestamp price) else none
  | liquidateReduce .. => none

namespace EngineCall

/-- What a call is to the mark of a market. -/
def markEvent (marketId : Nat) (s : EngineStorage) : EngineCall → Option Event
  | trade op => op.quote marketId s
  | updateFunding env m => if m = marketId then some (.read env.timestamp) else none
  | _ => none

/-- One successful call, on positions and marks; prices, funding and everything else may
be in any state. -/
abbrev MarkStep : EngineStorage → EngineCall → EngineStorage → Prop :=
  CallStep EngineCall.call fun w => w.engine.markBook

end EngineCall

/-- The quotes and readings of a market in a run. -/
def markEvents (marketId : Nat) : EngineStorage → List (EngineCall × EngineStorage) → List Event
  | _, [] => []
  | s, (op, s') :: t => (op.markEvent marketId s).toList ++ markEvents marketId s' t

/-! ## The mark state accumulates -/

/-- The mark of the market knows the average of its open window. -/
structure MarkTracked (marketId : Nat) (es : List Event) (time : Nat)
    (marks : Store Nat MarkState) : Prop where
  nonneg : ∀ u, 0 ≤ standing es u
  tiled : Tiled es time
  untraded : marks.get marketId = none → (windows es).start = none
  traded : ∀ state, marks.get marketId = some state →
    (windows es).start = some state.windowStart ∧ 0 < state.lastPrice ∧ state.lastTs ≤ time ∧
    Accumulates es state.windowStart state.lastTs state.lastPrice state.cumulative

variable {marketId time : Nat} {es : List Event} {s s' : EngineStorage}

theorem Tiled.mono {time' : Nat} (h : Tiled es time) (htime : time ≤ time') : Tiled es time' := by
  cases h with
  | inl hnone => exact .inl hnone
  | inr hopen =>
    obtain ⟨first, a, hfirst, hstart, hle, ha, hhits⟩ := hopen
    exact .inr ⟨first, a, hfirst, hstart, hle, ha.trans htime, hhits⟩

theorem MarkTracked.mono {marks marks' : Store Nat MarkState} {time' : Nat}
    (h : MarkTracked marketId es time marks) (htime : time ≤ time')
    (hsame : marks'.get marketId = marks.get marketId) : MarkTracked marketId es time' marks' where
  nonneg := h.nonneg
  tiled := Tiled.mono h.tiled htime
  untraded hnone := h.untraded (hsame ▸ hnone)
  traded state hget := by
    obtain ⟨hstart, hpos, hlast, hacc⟩ := h.traded state (hsame ▸ hget)
    exact ⟨hstart, hpos, hlast.trans htime, hacc⟩

namespace Engine

variable {env : Env} {w w' : World} {price r : Int}

/-- Bringing an accumulator up to date. -/
theorem accrueMark_accumulates {state state' : MarkState} {now : Nat} (hpos : 0 < state.lastPrice)
    (hlast : state.lastTs ≤ now)
    (hacc : Accumulates es state.windowStart state.lastTs state.lastPrice state.cumulative)
    (h : accrueMark state now = .ok state') :
    state'.windowStart = state.windowStart ∧ state'.lastPrice = state.lastPrice ∧
      state'.lastTs = now ∧
      Accumulates es state.windowStart now state.lastPrice state'.cumulative := by
  have hadvanced := hacc.advance hlast
  unfold accrueMark at h
  split at h
  case isTrue hheld =>
    simp only [except_bind_ok, mulDiv_ok, checkedAdd_ok, except_pure_ok] at h
    obtain ⟨standing, ⟨_, _, hstanding⟩, _, ⟨_, rfl⟩, rfl⟩ := h
    refine ⟨rfl, rfl, rfl, ?_⟩
    rw [Int.tdiv_one] at hstanding
    rw [Nat.cast_sub hlast, hstanding] at hadvanced
    exact hadvanced
  case isFalse hnow =>
    obtain rfl := except_pure_ok.mp h
    obtain rfl : state.lastTs = now := by omega
    exact ⟨rfl, rfl, rfl, hacc⟩

/-- A trade quotes its price. -/
theorem MarkRecorded.tracked (h : MarkRecorded env w w' marketId price) (hprice : 0 < price)
    (ht : MarkTracked marketId es time w.engine.markState) (hnow : time ≤ env.timestamp) :
    MarkTracked marketId (es ++ [.quote env.timestamp price]) env.timestamp w'.engine.markState := by
  obtain ⟨state, hstate, hw⟩ := h
  have hget : w'.engine.markState.get marketId =
      some (tradedMark state env.timestamp price) := by
    rw [hw, Store.get_set_self]
  refine ⟨fun u => ?_, ht.tiled.next hnow, fun hnone => ?_, fun recorded hrecorded => ?_⟩
  · rw [standing_quote]
    split
    · exact hprice.le
    · exact ht.nonneg u
  · rw [hget] at hnone
    cases hnone
  · obtain rfl := Option.some.inj (hget.symm.trans hrecorded)
    rw [windows_append]
    simp only [EngineStorage.markStateOf] at hstate
    cases hold : w.engine.markState.get marketId with
    | none =>
      rw [hold, Option.getD_none] at hstate
      simp only [accrueMark, gt_iff_lt, lt_irrefl, false_and, if_false, except_pure_ok] at hstate
      obtain rfl := hstate
      have hstart := ht.untraded hold
      simp only [tradedMark, if_true, Windows.next, hstart, Option.getD_none]
      exact ⟨trivial, hprice, le_rfl, accumulates_first⟩
    | some old =>
      rw [hold, Option.getD_some] at hstate
      obtain ⟨hstart, hpos, hlast, hacc⟩ := ht.traded old hold
      obtain ⟨hwindow, hstanding, hts, hadvanced⟩ :=
        accrueMark_accumulates hpos (hlast.trans hnow) hacc hstate
      rw [← hwindow] at hadvanced
      have hne : state.lastPrice ≠ 0 := by omega
      simp only [tradedMark, if_neg hne, Windows.next, hstart, Option.getD_some]
      exact ⟨by rw [hwindow], hprice, hts.le, hts ▸ hadvanced.quote⟩

/-- A reading of a market that has not traded says nothing and closes no window; any other
says the average of the window it closes. -/
theorem consumeMarkTwap_tracked (h : Returns (consumeMarkTwap env marketId) w r w')
    (ht : MarkTracked marketId es time w.engine.markState) (hnow : time ≤ env.timestamp) :
    MarkTracked marketId (es ++ [.read env.timestamp]) env.timestamp w'.engine.markState ∧
    ((windows es).start = none → r = 0 ∧ w' = w) ∧
    ∀ a, (windows es).start = some a → r = average es a env.timestamp := by
  have htiled : Tiled (es ++ [.read env.timestamp]) env.timestamp := ht.tiled.next hnow
  have hnonneg : ∀ u, 0 ≤ standing (es ++ [.read env.timestamp]) u := fun u => by
    rw [standing_read]
    exact ht.nonneg u
  cases hold : w.engine.markState.get marketId with
  | none =>
    have hstart := ht.untraded hold
    have hzero : (w.engine.markStateOf env.timestamp marketId).lastPrice = 0 := by
      simp only [EngineStorage.markStateOf, hold, Option.getD_none]
    rcases consumeMarkTwap_cases h with ⟨_, hr, rfl⟩ | ⟨hpos, _⟩
    · refine ⟨⟨hnonneg, htiled, fun _ => ?_, fun state hstate => ?_⟩, fun _ => ⟨hr, rfl⟩,
        fun a ha => ?_⟩
      · rw [windows_append]
        simp only [Windows.next, hstart]
      · rw [hold] at hstate
        cases hstate
      · rw [hstart] at ha
        cases ha
    · omega
  | some old =>
    obtain ⟨hstart, hprice, hlast, hacc⟩ := ht.traded old hold
    have hsame : w.engine.markStateOf env.timestamp marketId = old := by
      simp only [EngineStorage.markStateOf, hold, Option.getD_some]
    rcases consumeMarkTwap_cases h with ⟨hnone, _⟩ | ⟨_, state, hstate, haverage, rfl⟩
    · rw [hsame] at hnone
      omega
    · rw [hsame] at hstate
      obtain ⟨hwindow, hstanding, hts, hadvanced⟩ :=
        accrueMark_accumulates hprice (hlast.trans hnow) hacc hstate
      have hget : (w.engine.markState.set marketId
          { state with cumulative := 0, windowStart := env.timestamp }).get marketId =
          some { state with cumulative := 0, windowStart := env.timestamp } := Store.get_set_self _ _ _
      refine ⟨⟨hnonneg, htiled, fun hnone => ?_, fun closed hclosed => ?_⟩, fun hnone => ?_,
        fun a ha => ?_⟩
      · cases hget.symm.trans hnone
      · obtain rfl := Option.some.inj (hget.symm.trans hclosed)
        rw [windows_append]
        simp only [Windows.next, hstart]
        rw [hstanding, hts]
        exact ⟨trivial, hprice, le_rfl, hadvanced.read⟩
      · rw [hstart] at hnone
        cases hnone
      · obtain rfl := Option.some.inj (hstart.symm.trans ha)
        rw [hadvanced.average]
        rw [hwindow] at haverage
        unfold windowAverage at haverage
        have hle := hadvanced.le
        split at haverage
        case isTrue hpositive =>
          obtain ⟨_, _, rfl⟩ := mulDiv_ok.mp haverage
          have hsum := hadvanced.sum_nonneg ht.nonneg
          rw [if_pos (by omega), mul_one, Int.tdiv_eq_ediv_of_nonneg hsum]
        case isFalse hempty =>
          obtain rfl := Except.ok.inj haverage
          rw [if_neg (by omega), hstanding]

/-- A trade on some market, as seen by the mark of this one. -/
theorem MarkRecorded.step {m : Nat} (h : MarkRecorded env w w' m price) (hprice : 0 < price)
    (ht : MarkTracked marketId es time w.engine.markState) (hnow : time ≤ env.timestamp) :
    MarkTracked marketId
      (es ++ (if m = marketId then some (.quote env.timestamp price) else none : Option Event).toList)
      env.timestamp w'.engine.markState := by
  by_cases hm : m = marketId
  · subst hm
    rw [if_pos rfl]
    exact h.tracked hprice ht hnow
  · rw [if_neg hm, Option.toList_none, List.append_nil]
    obtain ⟨_, _, hw⟩ := h
    exact ht.mono hnow (by rw [hw, Store.get_set_ne (Ne.symm hm)])

theorem marketOf_found {user : Address} {positionId index : Nat} {position : Position}
    (h : findPosition (s.loadPositions user) positionId = .ok (index, position)) :
    s.marketOf user positionId = some position.marketId := by
  simp only [EngineStorage.marketOf, h]

/-- A trade on the position the user's id names. -/
theorem MarkRecorded.step_of_found {user : Address} {positionId index : Nat} {position : Position}
    (h : MarkRecorded env w w' position.marketId price)
    (hfind : findPosition (w.engine.loadPositions user) positionId = .ok (index, position))
    (hprice : 0 < price) (ht : MarkTracked marketId es time w.engine.markState)
    (hnow : time ≤ env.timestamp) :
    MarkTracked marketId
      (es ++ (if w.engine.marketOf user positionId = some marketId then
        some (.quote env.timestamp price) else none : Option Event).toList)
      env.timestamp w'.engine.markState := by
  rw [marketOf_found hfind]
  simp only [Option.some.injEq]
  exact h.step hprice ht hnow

end Engine

/-! ## Steps and runs -/

open Engine

theorem EngineOp.tracked {op : EngineOp} {w w' : World} (h : Returns op.call w () w')
    (ht : MarkTracked marketId es time w.engine.markState) (hnow : time ≤ op.now) :
    MarkTracked marketId (es ++ (op.quote marketId w.engine).toList) op.now w'.engine.markState := by
  cases op with
  | openPosition env user m size isLong price mode =>
    obtain ⟨r, h⟩ := returns_void.mp h
    obtain ⟨_, _, _, hprice, _, _, _, _, _, _, _, _, _, _, _, hmark⟩ := openPosition_effect h
    exact hmark.step hprice ht hnow
  | increasePosition env user positionId size price =>
    obtain ⟨r, h⟩ := returns_void.mp h
    obtain ⟨_, hprice, _, _, _, _, _, _, _, _, _, _, _, hfind, hmark⟩ := increasePosition_effect h
    exact hmark.step_of_found hfind hprice ht hnow
  | reducePosition env user positionId size price =>
    obtain ⟨r, h⟩ := returns_void.mp h
    obtain ⟨_, hprice, _, _, _, _, _, _, _, _, _, _, _, _, _, hfind, hmark⟩ :=
      reducePositionInternal_effect (reducePosition_internal h)
    rw [if_pos rfl] at hmark
    exact hmark.step_of_found hfind hprice ht hnow
  | closePosition env user positionId price =>
    obtain ⟨r, h⟩ := returns_void.mp h
    obtain ⟨size, h⟩ := closePosition_internal h
    obtain ⟨_, hprice, _, _, _, _, _, _, _, _, _, _, _, _, _, hfind, hmark⟩ :=
      reducePositionInternal_effect h
    rw [if_pos rfl] at hmark
    exact hmark.step_of_found hfind hprice ht hnow
  | liquidateReduce env user positionId size price =>
    obtain ⟨r, h⟩ := returns_void.mp h
    obtain ⟨_, _, _, _, _, _, _, _, _, _, _, _, _, _, _, _, hmark⟩ :=
      reducePositionInternal_effect (liquidateReduce_internal h)
    rw [if_neg Bool.false_ne_true] at hmark
    rw [EngineOp.quote, Option.toList_none, List.append_nil]
    exact ht.mono hnow (by rw [hmark])

theorem EngineCall.MarkStep.tracked {op : EngineCall} (h : op.MarkStep s s')
    (ht : MarkTracked marketId es time s.markState) (hnow : time ≤ op.now) :
    MarkTracked marketId (es ++ (op.markEvent marketId s).toList) op.now s'.markState := by
  obtain ⟨w, w', rfl, rfl, h⟩ := h
  have hquiet : ∀ {op : EngineCall}, time ≤ op.now → w'.engine.markState = w.engine.markState →
      MarkTracked marketId (es ++ (none : Option Event).toList) op.now w'.engine.markState := by
    intro op hnow hsame
    rw [Option.toList_none, List.append_nil]
    exact ht.mono hnow (by rw [hsame]; rfl)
  cases op with
  | trade op => exact EngineOp.tracked h ht hnow
  | chargeTradeFee env user m size price isMaker =>
    obtain ⟨_, h⟩ := returns_void.mp h
    refine hquiet hnow ?_
    rcases chargeTradeFee_effect h with rfl | ⟨_, _, _, _, _, _, _, _, _, rfl⟩
    · rfl
    · rfl
  | setFundingConfig env m config =>
    obtain rfl := setFundingConfig_effect h
    exact hquiet hnow rfl
  | setFeeConfig env m config =>
    obtain ⟨_, rfl⟩ := setFeeConfig_effect h
    exact hquiet hnow rfl
  | setMarket env config =>
    obtain rfl := setMarket_effect h
    exact hquiet hnow rfl
  | migrateImportPositions env entries =>
    obtain ⟨_, h⟩ := returns_void.mp h
    obtain rfl := migrateImportPositions_imported h
    exact hquiet hnow rfl
  | updateFunding env m =>
    obtain ⟨_, h⟩ := returns_void.mp h
    obtain ⟨_, _, mark, w₁, _, _, _, hread, _, hsame, _⟩ := updateFunding_accrues h
    show MarkTracked marketId (es ++ (if m = marketId then some (.read env.timestamp) else none :
      Option Event).toList) env.timestamp w'.engine.markState
    rw [hsame]
    by_cases hm : m = marketId
    · subst hm
      rw [if_pos rfl]
      exact (consumeMarkTwap_tracked hread ht hnow).1
    · rw [if_neg hm, Option.toList_none, List.append_nil]
      refine ht.mono hnow ?_
      rcases consumeMarkTwap_cases hread with ⟨_, _, rfl⟩ | ⟨_, _, _, _, rfl⟩
      · rfl
      · exact Store.get_set_ne (Ne.symm hm)

/-- A run in the order of its ledger times keeps the mark tracked. -/
theorem markStep_run_tracked {finish : Nat} {t : List (EngineCall × EngineStorage)}
    (hr : IsRun EngineCall.MarkStep s t) (horder : InOrder finish time t)
    (ht : MarkTracked marketId es time s.markState) :
    MarkTracked marketId (es ++ markEvents marketId s t) finish (final s t).markState := by
  induction t generalizing s time es with
  | nil =>
    rw [markEvents, List.append_nil]
    exact ht.mono horder rfl
  | cons e t ih =>
    obtain ⟨op, s'⟩ := e
    have htail := ih hr.2 horder.2 (EngineCall.MarkStep.tracked hr.1 ht horder.1)
    rw [List.append_assoc] at htail
    exact htail

/-- **The time-weighted mark.** After every run of engine calls in the order of their ledger
times on a market that starts without a mark: a reading of a market that has not traded is
zero and changes nothing; and any other reading is the average, rounded down, of the price
standing since the reading before it or since the first quote. It lies between the prices
that stood in that window, and the windows closed so far tile the seconds before it, each
second in exactly one. What counts are the market's quotes and readings, and liquidation
fills are neither. -/
theorem mark_average {t : List (EngineCall × EngineStorage)} {env : Env} {w w' : World} {r : Int}
    (hnew : s.markState.get marketId = none) (hr : IsRun EngineCall.MarkStep s t)
    (horder : InOrder env.timestamp 0 t) (hw : w.engine.markBook = final s t)
    (h : Returns (consumeMarkTwap env marketId) w r w') :
    (firstQuote (markEvents marketId s t) = none → r = 0 ∧ w' = w) ∧
    ∀ first, firstQuote (markEvents marketId s t) = some first →
      ∃ a, (windows (markEvents marketId s t)).start = some a ∧ first ≤ a ∧ a ≤ env.timestamp ∧
        r = average (markEvents marketId s t) a env.timestamp ∧
        (∀ lo hi, (∀ u, a ≤ u → u < max env.timestamp (a + 1) →
          lo ≤ standing (markEvents marketId s t) u ∧ standing (markEvents marketId s t) u ≤ hi) →
          lo ≤ r ∧ r ≤ hi) ∧
        ∀ u, (windows (markEvents marketId s t)).hits u = if first ≤ u ∧ u < a then 1 else 0 := by
  have hstart : MarkTracked marketId [] 0 s.markState :=
    ⟨fun _ => le_rfl, tiled_nil, fun _ => rfl, fun state hget => by rw [hnew] at hget; cases hget⟩
  have ht := markStep_run_tracked hr horder hstart
  rw [List.nil_append, ← hw] at ht
  obtain ⟨_, hnone, hread⟩ := consumeMarkTwap_tracked h ht le_rfl
  constructor
  · intro hfirst
    refine hnone ?_
    cases ht.tiled with
    | inl huntraded => rw [huntraded.2]
    | inr hopen =>
      obtain ⟨_, _, hsome, _⟩ := hopen
      rw [hfirst] at hsome
      cases hsome
  · intro first hfirst
    cases ht.tiled with
    | inl huntraded =>
      rw [hfirst] at huntraded
      cases huntraded.1
    | inr hopen =>
      obtain ⟨first', a, hsome, ha, hle, hnow, hhits⟩ := hopen
      obtain rfl := Option.some.inj (hfirst.symm.trans hsome)
      have hr := hread a ha
      refine ⟨a, ha, hle, hnow, hr, fun lo hi hbounds => ?_, hhits⟩
      rw [hr]
      exact average_mem hnow hbounds

namespace Sample

/-- Two trades, an update of the funding and one more trade. -/
def marked : List EngineCall := [
  .setFundingConfig (host 1000) 1 hourly,
  .trade (.openPosition (host 1000) alice 1 precision true (100 * precision) .cross),
  .trade (.openPosition (host 1010) bob 1 precision false (101 * precision) .cross),
  .updateFunding (host 1030) 1,
  .trade (.reducePosition (host 1035) alice 1 (precision / 2) (100 * precision))]

def markedRun : List (EngineCall × EngineStorage) :=
  viewed (fun w => w.engine.markBook) (execute EngineCall.call (trading 1000) marked)

def markedWorld : World := final (trading 1000) (execute EngineCall.call (trading 1000) marked)

def markedEvents : List Event := [
  .quote 1000 (100 * precision), .quote 1010 (101 * precision), .read 1030,
  .quote 1035 (100 * precision)]

end Sample

open Sample in
/-- The price of 101 stood for five seconds since the update and that of 100 for five more. -/
theorem mark_average_marked :
    ∃ r, ((consumeMarkTwap (host 1040) 1).run markedWorld).toOption.map Prod.fst = some r ∧
      r = average markedEvents 1030 1040 := by
  obtain ⟨r, h⟩ := returns_commit (x := consumeMarkTwap (host 1040) 1) (s := markedWorld)
    (by decide +kernel)
  have hr : IsRun EngineCall.MarkStep (trading 1000).engine.markBook markedRun :=
    isRun_execute (by decide +kernel)
  have horder : InOrder (host 1040).timestamp 0 markedRun := by
    rw [inOrder_iff, markedRun, labels_viewed_execute]
    decide
  have hevents : markEvents 1 (trading 1000).engine.markBook markedRun = markedEvents := by
    decide +kernel
  have hnew : (trading 1000).engine.markBook.markState.get 1 = none := by decide +kernel
  have hfinal : final (trading 1000).engine.markBook markedRun = markedWorld.engine.markBook :=
    @final_viewed World EngineCall EngineStorage (fun w => w.engine.markBook) _ _
  have hread := (mark_average hnew hr horder hfinal.symm h).2
  rw [hevents] at hread
  obtain ⟨a, ha, _, _, hr, _⟩ := hread 1000 (by decide)
  obtain rfl := Option.some.inj (ha.symm.trans (by decide : _ = some 1030))
  have hrun : (consumeMarkTwap (host 1040) 1).run markedWorld =
    .ok (r, (consumeMarkTwap (host 1040) 1).commit markedWorld) := h
  rw [hrun]
  exact ⟨r, rfl, hr⟩

end Kryon

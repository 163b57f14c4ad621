import Kryon.Liquidation.Sizing

/-! # The close-size ladder

The keeper sizes a close with unbounded integers, the risk engine with checked ones. Where the
engine's minimum exists the keeper's is a quarter more of the same number, and the ladder is
that rung, half the position and the whole of it, upwards. -/
namespace Kryon
open Transaction

/-- `min_size_to_cover` of `plan_liquidation`, from the size, the price and the health. -/
def coverSize (size price equity maintenance : Int) : Res Int := do
  let shortfall ← checkedSub maintenance equity
  let positionNotional ← notional size price
  mulDiv size shortfall positionNotional

theorem coverSize_ok {size price equity maintenance least : Int}
    (h : coverSize size price equity maintenance = .ok least) :
    0 < size ∧ 0 < (size * price).tdiv precision ∧
      least = (size * (maintenance - equity)).tdiv ((size * price).tdiv precision) := by
  simp only [coverSize, except_bind_ok, checkedSub_ok, mulDiv_ok, and_assoc, exists_and_left,
    exists_eq_left'] at h
  obtain ⟨_, worth, hworth, hne, _, rfl⟩ := h
  obtain ⟨hsize, hprice, rfl⟩ := notional_ok hworth
  have hnn : 0 ≤ size * price / precision :=
    Int.ediv_nonneg (mul_nonneg hsize.le hprice.le) precision_pos.le
  rw [Int.tdiv_eq_ediv_of_nonneg (mul_nonneg hsize.le hprice.le)]
  exact ⟨hsize, lt_of_le_of_ne hnn hne.symm, rfl⟩

/-- The minimum of a plan is the one of its position, market and health. -/
theorem planLiquidation_coverSize {account : AccountSnapshot} {markets : Store Nat MarketSnapshot}
    {positionId bps : Nat} {plan : LiquidationPlan}
    (h : planLiquidation account markets positionId bps = .ok plan) :
    ∃ position market least most, account.findPosition positionId = .ok position ∧
      markets.get position.marketId = some market ∧
      coverSize position.size market.oraclePrice plan.expectedHealth.equity
        plan.expectedHealth.maintenanceMarginRequired = .ok least ∧
      plan.closeSize = stepSize position.size least most := by
  unfold planLiquidation at h
  obtain ⟨health, _, h⟩ := except_bind_ok.mp h
  obtain ⟨_, _, h⟩ := except_bind_ok.mp h
  obtain ⟨_, _, h⟩ := except_bind_ok.mp h
  obtain ⟨position, hfind, h⟩ := except_bind_ok.mp h
  obtain ⟨market, hmarket, h⟩ := except_bind_ok.mp h
  obtain ⟨shortfall, hshortfall, h⟩ := except_bind_ok.mp h
  obtain ⟨worth, hworth, h⟩ := except_bind_ok.mp h
  obtain ⟨most, _, h⟩ := except_bind_ok.mp h
  obtain ⟨least, hleast, h⟩ := except_bind_ok.mp h
  obtain ⟨_, _, h⟩ := except_bind_ok.mp h
  obtain ⟨_, _, h⟩ := except_bind_ok.mp h
  obtain rfl := except_pure_ok.mp h
  refine ⟨position, market, least, most, hfind, okOr_ok.mp hmarket, ?_, rfl⟩
  unfold coverSize
  rw [except_bind_of_ok hshortfall, except_bind_of_ok hworth]
  exact hleast

variable {position : SizingPosition} {price c : Int} {health : SizingHealth}

/-- Everything that is a rung: the whole, its half, and the minimum with its margin. -/
theorem mem_closeSizeLadder_iff (hsize : 0 < position.size) :
    c ∈ closeSizeLadder position price health ↔ c = position.size ∨
      0 < c ∧ c < position.size ∧ (c = position.size / 2 ∨
        0 < health.maintenanceMarginRequired - health.equity ∧
        0 < (position.size * price).tdiv precision ∧
        c = safeMinSize position.size (health.maintenanceMarginRequired - health.equity)
          ((position.size * price).tdiv precision)) := by
  have hhalf : position.size.tdiv 2 = position.size / 2 := Int.tdiv_eq_ediv_of_nonneg hsize.le
  unfold closeSizeLadder
  rw [if_neg (not_le.mpr hsize), List.mem_insertionSort, List.mem_dedup, List.mem_filter,
    decide_eq_true_eq, List.mem_append, hhalf]
  generalize safeMinSize position.size _ _ = least
  split
  · rename_i hleast
    simp only [List.mem_cons, List.not_mem_nil, or_false]
    constructor
    · rintro ⟨hrung | hrung | hrung, hpos, hle⟩
      · exact .inr ⟨hpos, by omega, .inr ⟨hleast.1, hleast.2.1, hrung⟩⟩
      · exact .inr ⟨hpos, by omega, .inl hrung⟩
      · exact .inl hrung
    · rintro (hwhole | ⟨hpos, hlt, hrung | ⟨_, _, hrung⟩⟩)
      · exact ⟨.inr (.inr hwhole), by omega, by omega⟩
      · exact ⟨.inr (.inl hrung), hpos, hlt.le⟩
      · exact ⟨.inl hrung, hpos, hlt.le⟩
  · rename_i hnone
    simp only [List.mem_cons, List.not_mem_nil, or_false, false_or]
    constructor
    · rintro ⟨hrung | hrung, hpos, hle⟩
      · exact .inr ⟨hpos, by omega, .inl hrung⟩
      · exact .inl hrung
    · rintro (hwhole | ⟨hpos, hlt, hrung | ⟨hshort, hworth, hrung⟩⟩)
      · exact ⟨.inr hwhole, by omega, by omega⟩
      · exact ⟨.inl hrung, hpos, hlt.le⟩
      · exact absurd ⟨hshort, hworth, by omega, by omega⟩ hnone

/-- The keeper's margin over the engine's minimum is a quarter, rounded down. -/
theorem safeMinSize_of_coverSize {least : Int}
    (h : coverSize position.size price health.equity health.maintenanceMarginRequired = .ok least)
    (hpos : 0 < 5 * least / 4) :
    0 < health.maintenanceMarginRequired - health.equity ∧
      safeMinSize position.size (health.maintenanceMarginRequired - health.equity)
        ((position.size * price).tdiv precision) = 5 * least / 4 := by
  obtain ⟨hsize, hworth, hleast⟩ := coverSize_ok h
  constructor
  · by_contra hnone
    have hproduct : position.size * (health.maintenanceMarginRequired - health.equity) ≤ 0 :=
      mul_nonpos_of_nonneg_of_nonpos hsize.le (not_lt.mp hnone)
    have := Truncation.tdiv_nonpos hproduct hworth
    omega
  · unfold safeMinSize
    rw [← hleast, safetyNum, safetyDen, Int.tdiv_eq_ediv_of_nonneg (by omega)]
    omega

/-- **The ladder of a position only goes up, ends at the whole of it and has the engine's minimum
on it.** For every price and health there is a rung, each rung is a part of the position and larger
than the one before, and the last is the position. Where `plan_liquidation`'s minimum for the same
size, price and health is `least`, five quarters of it, rounded down, are a rung if they are a
proper part of the position; any plan's step is sized by that minimum. -/
theorem closeSizeLadder_climbs (position : SizingPosition) (price : Int) (health : SizingHealth)
    (hsize : 0 < position.size) :
    closeSizeLadder position price health ≠ [] ∧
    (closeSizeLadder position price health).Pairwise (· < ·) ∧
    (∀ c ∈ closeSizeLadder position price health, 0 < c ∧ c ≤ position.size) ∧
    (closeSizeLadder position price health).getLast? = some position.size ∧
    (∀ least, coverSize position.size price health.equity health.maintenanceMarginRequired = .ok least →
      0 < 5 * least / 4 → 5 * least / 4 < position.size →
      5 * least / 4 ∈ closeSizeLadder position price health) ∧
    ∀ (account : AccountSnapshot) (markets : Store Nat MarketSnapshot) (positionId bps : Nat)
        (plan : LiquidationPlan), planLiquidation account markets positionId bps = .ok plan →
      ∃ target market least most, account.findPosition positionId = .ok target ∧
        markets.get target.marketId = some market ∧
        coverSize target.size market.oraclePrice plan.expectedHealth.equity
          plan.expectedHealth.maintenanceMarginRequired = .ok least ∧
        plan.closeSize = stepSize target.size least most := by
  have hwhole : position.size ∈ closeSizeLadder position price health :=
    (mem_closeSizeLadder_iff hsize).mpr (.inl rfl)
  have hne := List.ne_nil_of_mem hwhole
  have hascends := closeSizeLadder_ascends position price health
  refine ⟨hne, hascends, fun c hc => mem_closeSizeLadder hc, ?_, fun least hleast hpos hlt => ?_,
    fun _ _ _ _ _ hplan => planLiquidation_coverSize hplan⟩
  · have hlast : position.size ≤ (closeSizeLadder position price health).getLast hne :=
      (hascends.imp le_of_lt).rel_getLast hwhole
    have hmost := (mem_closeSizeLadder (List.getLast_mem hne)).2
    rw [List.getLast?_eq_some_getLast hne, le_antisymm hmost hlast]
  · obtain ⟨hshort, hsafe⟩ := safeMinSize_of_coverSize hleast hpos
    obtain ⟨_, hworth, _⟩ := coverSize_ok hleast
    exact (mem_closeSizeLadder_iff hsize).mpr (.inr ⟨hpos, hlt, .inr ⟨hshort, hworth, hsafe.symm⟩⟩)

/-- Eight hundred units at price 1, one short: five quarters of a unit come first. -/
theorem closeSizeLadder_climbs_short :
    5 * 10000000 / 4 ∈ closeSizeLadder ⟨8000000000⟩ precision ⟨790000000, 800000000⟩ ∧
      (closeSizeLadder ⟨8000000000⟩ precision ⟨790000000, 800000000⟩).getLast? = some 8000000000 := by
  obtain ⟨_, _, _, hlast, hrung, _⟩ := closeSizeLadder_climbs ⟨8000000000⟩ precision
    ⟨790000000, 800000000⟩ (by decide)
  exact ⟨hrung 10000000 (by decide +kernel) (by decide) (by decide), hlast⟩

end Kryon

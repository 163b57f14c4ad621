import Kryon.Liquidation.Deleveraging
import Kryon.Liquidation.Solvency
import Kryon.Risk.Identity

/-! # How much a liquidation closes

`plan_liquidation` of the risk engine and `closeSizeLadder` of the keeper compute the same
minimum: the part of the position whose notional is what the account lacks of maintenance
margin. Closing it leaves equity where it was, and frees the maintenance of the part, which is
a fraction of its notional. -/
namespace Kryon
open Transaction Liquidation

/-! ## The plan (`risk_engine::liquidation`) -/

inductive LiquidationMode where
  | none
  | partially
  | full
  deriving DecidableEq, Repr

structure LiquidationPlan where
  mode : LiquidationMode
  positionId : Nat
  closeSize : Int
  penalty : Int
  expectedHealth : AccountHealth
  deriving DecidableEq, Repr

namespace AccountSnapshot

def findPosition (account : AccountSnapshot) (positionId : Nat) : Res Position :=
  okOr (account.positions.find? fun p => p.positionId = positionId) .invalidConfig

end AccountSnapshot

/-- The size of one step: the whole position where the minimum takes it, else the minimum within
the cap. -/
def stepSize (size minSizeToCover maxPartialSize : Int) : Int :=
  if minSizeToCover ≥ size then size
  else if minSizeToCover ≤ maxPartialSize then minSizeToCover
  -- more than one step is needed
  else maxPartialSize

def planLiquidation (account : AccountSnapshot) (markets : Store Nat MarketSnapshot)
    (targetPositionId partialLiquidationBps : Nat) : Res LiquidationPlan := do
  let health ← accountHealth account markets
  reject (health.liquidatable = false) .notLiquidatable
  reject (partialLiquidationBps = 0 ∨ partialLiquidationBps > 10000) .invalidConfig
  let position ← account.findPosition targetPositionId
  let market ← okOr (markets.get position.marketId) .invalidConfig
  let shortfall ← checkedSub health.maintenanceMarginRequired health.equity
  let positionNotional ← notional position.size market.oraclePrice
  let maxPartialSize ← mulDiv position.size partialLiquidationBps 10000
  let minSizeToCover ← mulDiv position.size shortfall positionNotional
  let closeSize := stepSize position.size minSizeToCover maxPartialSize
  let mode := if closeSize ≥ position.size then LiquidationMode.full else LiquidationMode.partially
  let closeNotional ← notional closeSize market.oraclePrice
  let penalty ← applyBps closeNotional market.config.liquidationFeeBps
  return { mode, positionId := targetPositionId, closeSize, penalty, expectedHealth := health }

/-! ## The ladder (`lib/market/liquidation-sizing.ts`) -/

def safetyNum : Int := 125

def safetyDen : Int := 100

structure SizingPosition where
  size : Int

structure SizingHealth where
  equity : Int
  maintenanceMarginRequired : Int

/-- `minSize` of the ladder: a quarter over the minimum. -/
def safeMinSize (size shortfall notional : Int) : Int :=
  ((size * shortfall).tdiv notional * safetyNum).tdiv safetyDen

def closeSizeLadder (position : SizingPosition) (price : Int) (health : SizingHealth) : List Int :=
  let size := position.size
  if size ≤ 0 then []
  else
    let shortfall := health.maintenanceMarginRequired - health.equity
    let notional := (size * price).tdiv precision
    let minSize := safeMinSize size shortfall notional
    let minimum := if shortfall > 0 ∧ notional > 0 ∧ minSize > 0 ∧ minSize < size then [minSize] else []
    let candidates := minimum ++ [size.tdiv 2, size]
    (candidates.filter fun c => 0 < c ∧ c ≤ size).dedup.insertionSort (· ≤ ·)

theorem mem_closeSizeLadder {position : SizingPosition} {price c : Int} {health : SizingHealth}
    (h : c ∈ closeSizeLadder position price health) : 0 < c ∧ c ≤ position.size := by
  unfold closeSizeLadder at h
  by_cases hsize : position.size ≤ 0
  · rw [if_pos hsize] at h
    cases h
  · rw [if_neg hsize, List.mem_insertionSort, List.mem_dedup, List.mem_filter] at h
    exact of_decide_eq_true h.2

/-- The ladder only goes up. -/
theorem closeSizeLadder_ascends (position : SizingPosition) (price : Int) (health : SizingHealth) :
    (closeSizeLadder position price health).Pairwise (· < ·) := by
  unfold closeSizeLadder
  by_cases hsize : position.size ≤ 0
  · rw [if_pos hsize]
    exact .nil
  · rw [if_neg hsize]
    refine (List.pairwise_insertionSort (· ≤ ·) _).imp₂ (fun _ _ => lt_of_le_of_ne) ?_
    exact ((List.perm_insertionSort _ _).nodup_iff).mpr (List.nodup_dedup _)

/-! ## The size of a step -/

theorem stepSize_pos_iff {size least most : Int} (hsize : 0 < size) (hleast : 0 ≤ least) :
    0 < stepSize size least most ↔ size ≤ least ∨ 0 < least ∧ 0 < most := by
  unfold stepSize
  split
  · rename_i hwhole
    exact iff_of_true hsize (.inl hwhole)
  · split
    · omega
    · omega

theorem stepSize_le {size least most : Int} (hmost : most ≤ size) : stepSize size least most ≤ size := by
  unfold stepSize
  split
  · exact le_rfl
  · split
    · omega
    · exact hmost

/-! ## When there is a plan -/

namespace AccountHealth

/-- What the account lacks of its maintenance margin. -/
def shortfall (health : AccountHealth) : Int := health.maintenanceMarginRequired - health.equity

end AccountHealth

namespace MarketSnapshot

/-- The notional of a size at the oracle price. -/
def worth (m : MarketSnapshot) (size : Int) : Int := size * m.oraclePrice / precision

/-- The maintenance margin of a size. -/
def maintenance (m : MarketSnapshot) (size : Int) : Int :=
  m.worth size * m.config.maintenanceMarginBps / 10000

end MarketSnapshot

/-- The part of a position whose notional is the shortfall. -/
def minSizeToCover (health : AccountHealth) (m : MarketSnapshot) (size : Int) : Int :=
  size * health.shortfall / m.worth size

/-- The step that a plan takes. -/
def plannedStep (health : AccountHealth) (m : MarketSnapshot) (position : Position) (bps : Nat) : Int :=
  stepSize position.size (minSizeToCover health m position.size) (position.size * bps / 10000)

/-- The shortfall and the minimum are in range, the market's fee is a part of the notional, and
the step is not truncated to nothing: the shortfall is the whole of the notional, or both the
minimum and the cap are at least one unit. -/
structure Plannable (health : AccountHealth) (m : MarketSnapshot) (size : Int) (bps : Nat) : Prop where
  shortfall : InI128 health.shortfall
  worth : 0 < m.worth size
  minimum : InI128 (minSizeToCover health m size)
  fee : m.config.liquidationFeeBps ≤ 10000
  step : m.worth size ≤ health.shortfall ∨ m.worth size ≤ size * health.shortfall ∧ 10000 ≤ size * bps

variable {account account' : AccountSnapshot} {markets markets' : Store Nat MarketSnapshot}
  {health after : AccountHealth} {position : Position} {m : MarketSnapshot} {plan : LiquidationPlan}
  {positionId bps : Nat} {acc next : PositionPass} {positions : List Position}

/-- A cross position whose account has a health has a market, and its notional there. -/
theorem positionPass_worth (hcross : ∀ p ∈ positions, p.mode = .cross)
    (h : positionPass markets acc positions = .ok next) :
    ∀ p ∈ positions, ∃ m, markets.get p.marketId = some m ∧
      notional p.size m.oraclePrice = .ok (m.worth p.size) := by
  induction positions generalizing acc with
  | nil =>
    intro p hmem
    cases hmem
  | cons p rest ih =>
    obtain ⟨mid, hstep, hrest⟩ := except_bind_ok.mp h
    obtain ⟨hmode, hmodes⟩ := List.forall_mem_cons.mp hcross
    obtain ⟨m, _, n, _, _, hm, _, hn, _⟩ := positionStep_cross hmode hstep
    obtain ⟨_, _, rfl⟩ := notional_ok hn
    exact List.forall_mem_cons.mpr ⟨⟨m, hm, hn⟩, ih hmodes hrest⟩

theorem accountHealth_worth (hcross : ∀ p ∈ account.positions, p.mode = .cross)
    (h : accountHealth account markets = .ok health) :
    ∀ p ∈ account.positions, ∃ m, markets.get p.marketId = some m ∧
      notional p.size m.oraclePrice = .ok (m.worth p.size) := by
  obtain ⟨_, _, _, _, hpass, _⟩ := accountHealth_cross hcross h
  exact positionPass_worth hcross hpass

/-- A part of a notional in range is in range. -/
theorem notional_part {size part price n : Int} (h : notional size price = .ok n) (hpos : 0 < part)
    (hle : part ≤ size) :
    notional part price = .ok (part * price / precision) ∧ 0 ≤ part * price / precision ∧
      part * price / precision ≤ n := by
  have hvalue := h
  simp only [notional, except_bind_ok, reject_ok, mulPrecision_ok] at hvalue
  obtain ⟨_, _, ⟨_, hmost⟩, _⟩ := hvalue
  obtain ⟨_, hprice, rfl⟩ := notional_ok h
  rw [Int.tdiv_eq_ediv_of_nonneg (mul_nonneg (by omega) hprice.le)] at hmost
  have hnn : 0 ≤ part * price := mul_nonneg hpos.le hprice.le
  have hfloor : 0 ≤ part * price / precision := Int.ediv_nonneg hnn precision_pos.le
  have hmono := Int.ediv_le_ediv precision_pos (mul_le_mul_of_nonneg_right hle hprice.le)
  refine ⟨?_, hfloor, hmono⟩
  have hpositive : reject (part ≤ 0 ∨ price ≤ 0) .invalidAmount = .ok () := reject_ok.mpr (by omega)
  refine (except_bind_of_ok hpositive).trans (mulPrecision_ok.mpr ?_)
  rw [Int.tdiv_eq_ediv_of_nonneg hnn]
  exact ⟨.of_nonneg hfloor (hmono.trans hmost), rfl⟩

/-- A step's cap is within the position. -/
theorem mulDiv_part {size : Int} (hnn : 0 ≤ size) (hmost : size ≤ i128Max) (hbps : bps ≤ 10000) :
    mulDiv size bps 10000 = .ok (size * bps / 10000) := by
  have hbps' : (bps : Int) ≤ 10000 := by exact_mod_cast hbps
  have hprod : 0 ≤ size * bps := mul_nonneg hnn (Int.natCast_nonneg _)
  have hle : size * bps / 10000 ≤ size :=
    Int.ediv_le_of_le_mul (by decide) (mul_le_mul_of_nonneg_left hbps' hnn)
  rw [mulDiv_ok, Int.tdiv_eq_ediv_of_nonneg hprod]
  exact ⟨by decide, .of_nonneg (Int.ediv_nonneg hprod (by decide)) (hle.trans hmost), rfl⟩

theorem applyBps_part {n : Int} {fee : Nat} (hnn : 0 ≤ n) (hmost : n ≤ i128Max) (hfee : fee ≤ 10000) :
    ∃ penalty, applyBps n fee = .ok penalty := by
  have hfee' : ¬ (fee : Int) > bpsDenominator := by
    show ¬ (fee : Int) > 10000
    omega
  exact ⟨_, (if_neg hfee').trans (mulDiv_part hnn hmost hfee)⟩

/-- The plan of an account that can be liquidated, step by step. -/
theorem planLiquidation_ok (hhealth : accountHealth account markets = .ok health)
    (hliquidatable : health.liquidatable = true) (hbps : 0 < bps ∧ bps ≤ 10000)
    (hfind : account.findPosition positionId = .ok position)
    (hm : markets.get position.marketId = some m)
    (hn : notional position.size m.oraclePrice = .ok (m.worth position.size))
    (hsize : position.size ≤ i128Max) (hshort : 0 < health.shortfall) (plan : LiquidationPlan) :
    planLiquidation account markets positionId bps = .ok plan ↔
      InI128 health.shortfall ∧ m.worth position.size ≠ 0 ∧
        InI128 (minSizeToCover health m position.size) ∧
        ∃ closeNotional, notional (plannedStep health m position bps) m.oraclePrice = .ok closeNotional ∧
          ∃ penalty, applyBps closeNotional m.config.liquidationFeeBps = .ok penalty ∧
            { mode := if plannedStep health m position bps ≥ position.size then .full else .partially
              positionId, closeSize := plannedStep health m position bps, penalty
              expectedHealth := health } = plan := by
  obtain ⟨hpos, hprice, _⟩ := notional_ok hn
  have hworth : 0 ≤ m.worth position.size :=
    Int.ediv_nonneg (mul_nonneg hpos.le hprice.le) precision_pos.le
  have hflag : reject (health.liquidatable = false) .notLiquidatable = .ok () :=
    reject_ok.mpr (by rw [hliquidatable]; decide)
  have hstep : reject (bps = 0 ∨ bps > 10000) .invalidConfig = .ok () := reject_ok.mpr (by omega)
  have hmarket : okOr (markets.get position.marketId) .invalidConfig = .ok m := okOr_ok.mpr hm
  have hcap := mulDiv_part hpos.le hsize hbps.2
  have hmin : (position.size * (health.maintenanceMarginRequired - health.equity)).tdiv
      (m.worth position.size) = minSizeToCover health m position.size :=
    Int.tdiv_eq_ediv_of_nonneg (mul_nonneg hpos.le hshort.le)
  unfold planLiquidation
  rw [except_bind_of_ok hhealth, except_bind_of_ok hflag, except_bind_of_ok hstep,
    except_bind_of_ok hfind, except_bind_of_ok hmarket]
  simp only [except_bind_ok, checkedSub_ok, and_assoc, exists_and_left, exists_eq_left', hn, hcap,
    mulDiv_ok, hmin, except_pure_ok, Except.ok.injEq]
  rfl

theorem shortfall_pos (hcross : ∀ p ∈ account.positions, p.mode = .cross)
    (h : accountHealth account markets = .ok health) (hliquidatable : health.liquidatable = true) :
    0 < health.shortfall := by
  obtain ⟨_, hless⟩ := (accountHealth_liquidatable hcross h).mp hliquidatable
  exact Int.sub_pos_of_lt hless

/-- The step is more than nothing where neither of its bounds is truncated away. -/
theorem plannedStep_pos_iff (hsize : 0 < position.size) (hworth : 0 < m.worth position.size)
    (hshort : 0 < health.shortfall) :
    0 < plannedStep health m position bps ↔ m.worth position.size ≤ health.shortfall ∨
      m.worth position.size ≤ position.size * health.shortfall ∧ 10000 ≤ position.size * bps := by
  have hleast : 0 ≤ minSizeToCover health m position.size :=
    Int.ediv_nonneg (mul_nonneg hsize.le hshort.le) hworth.le
  have hwhole : position.size ≤ minSizeToCover health m position.size ↔
      m.worth position.size ≤ health.shortfall := by
    rw [minSizeToCover, Int.le_ediv_iff_mul_le hworth]
    exact mul_le_mul_iff_right₀ hsize
  have hsome : 0 < minSizeToCover health m position.size ↔
      m.worth position.size ≤ position.size * health.shortfall := by
    rw [minSizeToCover, ← Int.add_one_le_iff, zero_add, Int.le_ediv_iff_mul_le hworth, one_mul]
  have hcap : 0 < position.size * bps / 10000 ↔ 10000 ≤ position.size * bps := by omega
  rw [plannedStep, stepSize_pos_iff hsize hleast, hwhole, hsome, hcap]

theorem plannedStep_le (health : AccountHealth) (m : MarketSnapshot) (hsize : 0 < position.size) (hbps : bps ≤ 10000) :
    plannedStep health m position bps ≤ position.size := by
  have hbps' : (bps : Int) ≤ 10000 := by exact_mod_cast hbps
  exact stepSize_le (Int.ediv_le_of_le_mul (by decide) (mul_le_mul_of_nonneg_left hbps' hsize.le))

/-- **There is a plan with a size to close exactly when nothing is out of range or truncated
away.** -/
theorem plan_iff (hcross : ∀ p ∈ account.positions, p.mode = .cross)
    (hhealth : accountHealth account markets = .ok health)
    (hliquidatable : health.liquidatable = true) (hbps : 0 < bps ∧ bps ≤ 10000)
    (hfind : account.findPosition positionId = .ok position)
    (hm : markets.get position.marketId = some m)
    (hn : notional position.size m.oraclePrice = .ok (m.worth position.size))
    (hsize : position.size ≤ i128Max) :
    (∃ plan, planLiquidation account markets positionId bps = .ok plan ∧
      0 < plan.closeSize ∧ plan.closeSize ≤ position.size) ↔ Plannable health m position.size bps := by
  have hshort := shortfall_pos hcross hhealth hliquidatable
  have hplan := planLiquidation_ok hhealth hliquidatable hbps hfind hm hn hsize hshort
  obtain ⟨hpos, hprice, _⟩ := notional_ok hn
  have hworth : 0 ≤ m.worth position.size :=
    Int.ediv_nonneg (mul_nonneg hpos.le hprice.le) precision_pos.le
  constructor
  · intro h
    obtain ⟨plan, hok, hclose, _⟩ := h
    obtain ⟨hrange, hne, hmin, closeNotional, _, penalty, hpenalty, rfl⟩ := (hplan plan).mp hok
    have hsome : 0 < m.worth position.size := by omega
    exact ⟨hrange, hsome, hmin, (applyBps_ok.mp hpenalty).1,
      (plannedStep_pos_iff hpos hsome hshort).mp hclose⟩
  · intro h
    have hclose := (plannedStep_pos_iff hpos h.worth hshort).mpr h.step
    have hle := plannedStep_le health m hpos hbps.2
    obtain ⟨hpart, hnn, hmost⟩ := notional_part hn hclose hle
    have hrange : m.worth position.size ≤ i128Max := by
      simp only [notional, except_bind_ok, reject_ok, mulPrecision_ok] at hn
      obtain ⟨_, _, ⟨_, hmost⟩, hvalue⟩ := hn
      rwa [← hvalue]
    obtain ⟨penalty, hpenalty⟩ := applyBps_part hnn (hmost.trans hrange) h.fee
    exact ⟨_, (hplan _).mpr ⟨h.shortfall, h.worth.ne', h.minimum, _, hpart, penalty, hpenalty, rfl⟩,
      hclose, hle⟩

/-! ## A close at the oracle price -/

/-- The account once a part of a position is closed at the oracle price: the funding is settled,
the pnl of the part is realised, and the settlement collateral counts for both at par. -/
structure AccountSnapshot.Closes (m : MarketSnapshot) (positionId : Nat) (position : Position)
    (closeSize : Int) (account account' : AccountSnapshot) : Prop where
  positions : ∃ index margin, Engine.findPosition account.positions positionId = .ok (index, position) ∧
    account'.positions = Engine.replaceOrRemove account.positions index { position with
      margin, size := position.size - closeSize, lastFundingIndex := m.fundingIndex position }
  collateral : (account'.collateral.map CollateralBalance.net).sum =
    (account.collateral.map CollateralBalance.net).sum +
      (position.unsettledFunding (m.fundingIndex position) +
        { position with size := closeSize }.pnlAt m.oraclePrice)

/-- The maintenance margin that a close frees. -/
def freed (m : MarketSnapshot) (position : Position) (closeSize : Int) : Int :=
  m.maintenance position.size - m.maintenance (position.size - closeSize)

/-- What the two parts of the pnl truncate to beyond the whole. -/
def rounding (m : MarketSnapshot) (position : Position) (closeSize : Int) : Int :=
  { position with size := closeSize }.pnlAt m.oraclePrice +
    { position with size := position.size - closeSize }.pnlAt m.oraclePrice -
    position.pnlAt m.oraclePrice

/-- What the close frees is all that the account maintains, or makes up for the shortfall. -/
def Covers (health : AccountHealth) (m : MarketSnapshot) (position : Position) (closeSize : Int) : Prop :=
  health.maintenanceMarginRequired ≤ freed m position closeSize ∨
    health.shortfall ≤ freed m position closeSize + rounding m position closeSize

instance {closeSize : Int} : Decidable (Covers health m position closeSize) := inferInstanceAs (Decidable (_ ∨ _))

/-- Where both tables have a market, they have the same. -/
def MarketsAgree (markets markets' : Store Nat MarketSnapshot) : Prop :=
  ∀ k m m', markets.get k = some m → markets'.get k = some m' → m' = m

theorem MarketsAgree.refl (markets : Store Nat MarketSnapshot) : MarketsAgree markets markets :=
  fun _ _ _ h h' => Option.some.inj (h'.symm.trans h)

/-- The account that a close leaves, in its parts. -/
theorem closes_health {closeSize : Int} (hcross : ∀ p ∈ account.positions, p.mode = .cross)
    (hm : markets.get position.marketId = some m) (hagree : MarketsAgree markets markets')
    (hcloses : account.Closes m positionId position closeSize account')
    (h : accountHealth account markets = .ok health) (h' : accountHealth account' markets' = .ok after) :
    (∀ p ∈ account'.positions, p.mode = .cross) ∧
      after.maintenanceMarginRequired =
        health.maintenanceMarginRequired - freed m position closeSize ∧
      after.equity = health.equity + rounding m position closeSize := by
  obtain ⟨index, margin, hfind, hpositions⟩ := hcloses.positions
  have hcash := hcloses.collateral
  obtain ⟨hindex, _⟩ := Engine.findPosition_ok hfind
  generalize hreduced : { position with
    margin, size := position.size - closeSize
    lastFundingIndex := m.fundingIndex position } = reduced at hpositions
  have hmarket : markets.get reduced.marketId = some m := by
    rw [← hreduced]
    exact hm
  have hmode : reduced.mode = .cross := by
    rw [← hreduced]
    exact hcross position (List.mem_of_getElem? hindex)
  have hheld := (accountHealth_required h).1
  have hheld' := (accountHealth_required h').1
  -- the table of the account that is left has what the other has
  have hsame : ∀ p ∈ account'.positions, markets'.get p.marketId = markets.get p.marketId := by
    intro p hp
    obtain ⟨m₁, hvalued₁⟩ := hheld' p hp
    rw [hpositions] at hp
    rcases Engine.mem_replaceOrRemove hp with hold | ⟨rfl, _⟩
    · obtain ⟨m₀, hvalued₀⟩ := hheld p hold
      rw [hvalued₁.market, hvalued₀.market, hagree _ _ _ hvalued₀.market hvalued₁.market]
    · rw [hvalued₁.market, hmarket, hagree _ _ _ hmarket hvalued₁.market]
  have hrequired := sum_replaceOrRemove (requiredAt MarketConfig.maintenanceMarginBps markets) reduced
    hindex fun hz => by simp [requiredAt, hmarket, hz]
  have hunrealized := sum_replaceOrRemove (unrealizedAt markets) reduced hindex fun hz => by
    simp [unrealizedAt, hmarket, hz, Position.pnlAt, Position.unsettledFunding]
  have hrequired' : account'.positions.map (requiredAt MarketConfig.maintenanceMarginBps markets') =
      account'.positions.map (requiredAt MarketConfig.maintenanceMarginBps markets) :=
    List.map_congr_left fun p hp => by rw [requiredAt, requiredAt, hsame p hp]
  have hunrealized' : account'.positions.map (unrealizedAt markets') =
      account'.positions.map (unrealizedAt markets) :=
    List.map_congr_left fun p hp => by rw [unrealizedAt, unrealizedAt, hsame p hp]
  refine ⟨fun p hp => ?_, ?_, ?_⟩
  · rw [hpositions] at hp
    rcases Engine.mem_replaceOrRemove hp with hold | ⟨rfl, _⟩
    · exact hcross p hold
    · exact hmode
  · have hown : requiredAt MarketConfig.maintenanceMarginBps markets position =
        m.maintenance position.size := by rw [requiredAt, hm]; rfl
    have hleft : requiredAt MarketConfig.maintenanceMarginBps markets reduced =
        m.maintenance (position.size - closeSize) := by rw [requiredAt, hmarket, ← hreduced]; rfl
    rw [(accountHealth_required h).2.1, (accountHealth_required h').2.1, hrequired', hpositions, hrequired,
      hown, hleft, freed]
    ring
  · have hown : unrealizedAt markets position = position.pnlAt m.oraclePrice +
        position.unsettledFunding (m.fundingIndex position) := by rw [unrealizedAt, hm]; rfl
    have hleft : unrealizedAt markets reduced =
        { position with size := position.size - closeSize }.pnlAt m.oraclePrice := by
      rw [unrealizedAt, hmarket, ← hreduced]
      show Position.pnlAt { position with size := position.size - closeSize } m.oraclePrice +
        -((position.size - closeSize) * (m.fundingIndex position - m.fundingIndex position)).tdiv
          precision = _
      rw [sub_self, mul_zero, Int.zero_tdiv, neg_zero, add_zero]
    have hbefore := (collateralTotal_net (accountHealth_collateralValue h)).2
    have hafter := (collateralTotal_net (accountHealth_collateralValue h')).2
    rw [zero_add] at hbefore hafter
    rw [(accountHealth_equity h).2, (accountHealth_equity h').2, hbefore, hafter, hcash, hunrealized',
      hpositions, hunrealized, hown, hleft, rounding]
    ring

/-- **A close takes the account out of liquidation exactly when it covers the shortfall.** -/
theorem closes_restores_iff {closeSize : Int} (hcross : ∀ p ∈ account.positions, p.mode = .cross)
    (hm : markets.get position.marketId = some m) (hagree : MarketsAgree markets markets')
    (hcloses : account.Closes m positionId position closeSize account')
    (h : accountHealth account markets = .ok health) (h' : accountHealth account' markets' = .ok after) :
    after.liquidatable = false ↔ Covers health m position closeSize := by
  obtain ⟨hcross', hrequired, hequity⟩ := closes_health hcross hm hagree hcloses h h'
  rw [← Bool.not_eq_true, accountHealth_liquidatable hcross' h', hrequired, hequity, Covers,
    AccountHealth.shortfall]
  omega

/-! ## What the minimum frees -/

theorem rounding_le (m : MarketSnapshot) (position : Position) (closeSize : Int) :
    rounding m position closeSize ≤ 1 := by
  have hsplit := Truncation.abs_tdiv_add_sub_le (closeSize * position.unitGain m.oraclePrice)
    ((position.size - closeSize) * position.unitGain m.oraclePrice) precision_pos
  rw [← add_mul, add_sub_cancel] at hsplit
  have hbound := (abs_le.mp hsplit).1
  show (closeSize * position.unitGain m.oraclePrice).tdiv precision +
    ((position.size - closeSize) * position.unitGain m.oraclePrice).tdiv precision -
    (position.size * position.unitGain m.oraclePrice).tdiv precision ≤ 1
  omega

/-- The notional of the minimum is the shortfall at most, and that of the rest is whole but for
it. -/
theorem worth_minimum_le (hprice : 0 < m.oraclePrice)
    (hworth : 0 < m.worth position.size) (hshort : 0 < health.shortfall)
    (hpart : minSizeToCover health m position.size ≤ position.size) :
    m.worth position.size - m.worth (position.size - minSizeToCover health m position.size) ≤
      health.shortfall + 1 := by
  generalize hc : minSizeToCover health m position.size = c at hpart ⊢
  have hsized : c * m.worth position.size ≤ health.shortfall * position.size := by
    rw [← hc, mul_comm health.shortfall]
    exact Int.ediv_mul_le _ hworth.ne'
  have hcovered : c * m.oraclePrice / precision ≤ health.shortfall :=
    Truncation.part_ediv_le precision_pos hprice.le hpart hworth hshort.le hsized
  have hwhole := Int.ediv_mul_le (position.size * m.oraclePrice) precision_pos.ne'
  have hpartial := Int.lt_ediv_add_one_mul_self (c * m.oraclePrice) precision_pos
  have hrest := Int.lt_ediv_add_one_mul_self ((position.size - c) * m.oraclePrice) precision_pos
  refine Int.lt_add_one_iff.mp (lt_of_mul_lt_mul_right (a := precision) ?_ precision_pos.le)
  show (position.size * m.oraclePrice / precision - (position.size - c) * m.oraclePrice / precision) *
    precision < (health.shortfall + 1 + 1) * precision
  have hscaled : c * m.oraclePrice / precision * precision ≤ health.shortfall * precision :=
    mul_le_mul_of_nonneg_right hcovered precision_pos.le
  calc (position.size * m.oraclePrice / precision - (position.size - c) * m.oraclePrice / precision) *
        precision
      = position.size * m.oraclePrice / precision * precision -
          (position.size - c) * m.oraclePrice / precision * precision := sub_mul _ _ _
    _ ≤ c * m.oraclePrice + (position.size - c) * m.oraclePrice -
          (position.size - c) * m.oraclePrice / precision * precision := by
      rw [← add_mul, add_sub_cancel]
      exact sub_le_sub_right hwhole _
    _ < (health.shortfall + 1 + 1) * precision := by linarith

/-- **The minimum restores a shortfall only of a few units.** Where the maintenance margin is less
than the whole of the notional, what the minimum frees is that fraction of the shortfall. -/
theorem covers_minimum_dust (hprice : 0 < m.oraclePrice)
    (hworth : 0 < m.worth position.size) (hshort : 0 < health.shortfall)
    (hpart : minSizeToCover health m position.size ≤ position.size)
    (h : Covers health m position (minSizeToCover health m position.size)) :
    health.maintenanceMarginRequired ≤ m.maintenance position.size ∨
      health.shortfall * (10000 - m.config.maintenanceMarginBps) <
        20000 + m.config.maintenanceMarginBps := by
  have hround := rounding_le m position (minSizeToCover health m position.size)
  have hfreed := worth_minimum_le hprice hworth hshort hpart
  have hleft : 0 ≤ m.maintenance (position.size - minSizeToCover health m position.size) := by
    have hsome : 0 ≤ position.size - minSizeToCover health m position.size := by omega
    exact Int.ediv_nonneg (mul_nonneg (Int.ediv_nonneg (mul_nonneg hsome hprice.le) precision_pos.le)
      (Int.natCast_nonneg _)) (by decide)
  rcases h with hwhole | hcovers
  · left
    unfold freed at hwhole
    omega
  · right
    generalize hc : minSizeToCover health m position.size = c at hround hfreed hcovers
    generalize hbps : (m.config.maintenanceMarginBps : Int) = bps
    have hnn : 0 ≤ bps := hbps ▸ Int.natCast_nonneg _
    have hpaid : freed m position c =
        m.worth position.size * bps / 10000 - m.worth (position.size - c) * bps / 10000 := by
      rw [← hbps]
      rfl
    have hdue : m.worth position.size * bps - m.worth (position.size - c) * bps ≤
        (health.shortfall + 1) * bps := by
      rw [← sub_mul]
      exact mul_le_mul_of_nonneg_right hfreed hnn
    have hless : freed m position c * 10000 < (health.shortfall + 1) * bps + 10000 := by
      rw [hpaid]
      omega
    rw [mul_sub, mul_comm health.shortfall bps]
    rw [add_mul, one_mul, mul_comm health.shortfall bps] at hless
    omega

/-! ## The engine's close -/

/-- The collateral of the vault's snapshot is what health counts. -/
theorem snapshot_counted {env : Env} {w : World} {user asset : Address}
    (hnodup : (w.vault.recordedAssets user).Nodup)
    (hacc : Vault.accountSnapshot env w user asset = .ok account)
    (h : Vault.accountHealth env w user asset = .ok health) :
    (account.collateral.map CollateralBalance.net).sum = ∑ᶠ a, Vault.countedOf env w user asset a := by
  rw [← Vault.accountHealth_counted hnodup h]
  obtain ⟨loaded, hloaded, hrest⟩ := except_bind_ok.mp h
  obtain ⟨_, _, hhealth⟩ := except_bind_ok.mp hrest
  obtain rfl := Except.ok.inj (hloaded.symm.trans hacc)
  have htotal := (collateralTotal_net (accountHealth_collateralValue hhealth)).2
  rw [htotal, zero_add]

/-- **The engine closes a part this way** where the settlement asset counts at par and the vault has
the engine's funding index. -/
theorem liquidateReduce_closes {env : Env} {w w' : World} {user asset settlement : Address}
    {closeSize : Int} {trade : TradeResult}
    (hmirror : w.vault.loadPositions user = w.engine.loadPositions user)
    (hnodup : (w.vault.recordedAssets user).Nodup)
    (hsettlement : w.engine.settlementAsset = some settlement)
    (hpar : Vault.AtPar env w user settlement)
    (hfunding : Engine.currentFundingIndex env w.engine position = m.fundingIndex position)
    (hfind : account.findPosition positionId = .ok position)
    (h : Returns (Engine.liquidateReduce env user positionId closeSize m.oraclePrice) w trade w')
    (hacc : Vault.accountSnapshot env w user asset = .ok account)
    (hacc' : Vault.accountSnapshot env w' user asset = .ok account')
    (hhealth : Vault.accountHealth env w user asset = .ok health)
    (hafter : Vault.accountHealth env w' user asset = .ok after) :
    account.Closes m positionId position closeSize account' := by
  obtain ⟨hprices, hlist, settlement', index, reduced, margin, hs, _, hfound, hpositions, hbalance⟩ :=
    reduce_account (Engine.liquidateReduce_internal h)
  obtain rfl : settlement' = settlement := Option.some.inj (hs.symm.trans hsettlement)
  have hpositions₀ : account.positions = w.engine.loadPositions user :=
    (Vault.loaded_positions hacc).trans hmirror
  obtain rfl : reduced = position := by
    have hfirst := findPosition_find? hfound
    rw [AccountSnapshot.findPosition, okOr_ok, hpositions₀, hfirst] at hfind
    exact Option.some.inj hfind
  have hleft : leftOpen env w reduced closeSize = { reduced with
      size := reduced.size - closeSize, lastFundingIndex := m.fundingIndex reduced } := by
    rw [leftOpen, hfunding]
  have hcashed : cashed env w reduced closeSize m.oraclePrice =
      reduced.unsettledFunding (m.fundingIndex reduced) +
        { reduced with size := closeSize }.pnlAt m.oraclePrice := by
    rw [cashed, hfunding]
  refine ⟨⟨index, margin, ?_, ?_⟩, ?_⟩
  · rwa [hpositions₀]
  · rw [Vault.loaded_positions hacc', hpositions, hpositions₀, hleft]
  · have hnodup' : (w'.vault.recordedAssets user).Nodup := by
      rw [VaultStorage.recordedAssets, hlist]
      exact hnodup
    have hsettled := (hbalance user settlement').trans (if_pos ⟨rfl, rfl⟩)
    rw [snapshot_counted hnodup' hacc' hafter, snapshot_counted hnodup hacc hhealth,
      counted_change env asset hprices hlist hbalance, Vault.countedOf_at_par hpar hhealth,
      Vault.countedOf_at_par (hpar.congr hprices hlist) hafter, hsettled, hcashed]
    ring

/-- The tables that health is computed with agree where the prices do. -/
theorem loadMarkets_agree {env : Env} {w w' : World} {positions positions' : List Position}
    (hprices : SamePrices w w') (h : Vault.loadMarketsForPositions env w positions = .ok markets)
    (h' : Vault.loadMarketsForPositions env w' positions' = .ok markets') :
    MarketsAgree markets markets' := by
  have hread : ∀ {v : World} {ps : List Position} {table : Store Nat MarketSnapshot},
      Vault.loadMarketsForPositions env v ps = .ok table → ∀ k m, table.get k = some m →
        ∃ config, v.vault.marketConfig.get k = some config ∧ Vault.marketSnapshot env v config = .ok m :=
    fun hload => Vault.loadMarketsFrom_every (fun _ config _ hc hs => ⟨config, hc, hs⟩)
      (fun _ _ hget => by cases hget) hload
  intro k m m' hget hget'
  obtain ⟨config, hc, hm⟩ := hread h k m hget
  obtain ⟨config', hc', hm'⟩ := hread h' k m' hget'
  rw [hprices.marketConfig] at hc'
  obtain rfl := Option.some.inj (hc.symm.trans hc')
  rw [Vault.marketSnapshot_congr hprices] at hm'
  exact (Except.ok.inj (hm.symm.trans hm')).symm

/-- **The engine's close takes an account out of liquidation exactly when it covers the shortfall.** -/
theorem liquidateReduce_restores_iff {env : Env} {w w' : World} {user asset settlement : Address}
    {closeSize : Int} {trade : TradeResult}
    (hmirror : w.vault.loadPositions user = w.engine.loadPositions user)
    (hnodup : (w.vault.recordedAssets user).Nodup)
    (hcross : ∀ p ∈ w.vault.loadPositions user, p.mode = .cross)
    (hsettlement : w.engine.settlementAsset = some settlement)
    (hpar : Vault.AtPar env w user settlement)
    (hacc : Vault.accountSnapshot env w user asset = .ok account)
    (hload : Vault.loadMarketsForPositions env w account.positions = .ok markets)
    (hfind : account.findPosition positionId = .ok position)
    (hm : markets.get position.marketId = some m)
    (hfunding : Engine.currentFundingIndex env w.engine position = m.fundingIndex position)
    (h : Returns (Engine.liquidateReduce env user positionId closeSize m.oraclePrice) w trade w')
    (hhealth : Vault.accountHealth env w user asset = .ok health)
    (hafter : Vault.accountHealth env w' user asset = .ok after) :
    after.liquidatable = false ↔ Covers health m position closeSize := by
  obtain ⟨hprices, _⟩ := reduce_account (Engine.liquidateReduce_internal h)
  obtain ⟨account', hacc', hrest'⟩ := except_bind_ok.mp hafter
  obtain ⟨markets', hload', hhealth'⟩ := except_bind_ok.mp hrest'
  have hcloses := liquidateReduce_closes hmirror hnodup hsettlement hpar hfunding hfind h hacc hacc' hhealth
    hafter
  obtain ⟨loaded, hloaded, hrest⟩ := except_bind_ok.mp hhealth
  obtain rfl := Except.ok.inj (hloaded.symm.trans hacc)
  obtain ⟨table, htable, hhealth₀⟩ := except_bind_ok.mp hrest
  obtain rfl := Except.ok.inj (htable.symm.trans hload)
  rw [← Vault.loaded_positions hloaded] at hcross
  exact closes_restores_iff hcross hm (loadMarkets_agree hprices htable hload') hcloses hhealth₀ hhealth'

/-! ## The sizing -/

/-- **A sizing suffices exactly when the freed margin covers the shortfall.** Of an account with
cross positions that is liquidatable there is a plan with a size to close where nothing is out of
range or truncated away; and closing the minimum of a plan, or the minimum that is the first rung of
the ladder, at the oracle price takes the account out of liquidation where what it frees of the
maintenance margin, rounding included, makes up for the shortfall. -/
theorem liquidation_sizing_iff (hcross : ∀ p ∈ account.positions, p.mode = .cross)
    (hhealth : accountHealth account markets = .ok health) (hliquidatable : health.liquidatable = true)
    (hbps : 0 < bps ∧ bps ≤ 10000) (hfind : account.findPosition positionId = .ok position)
    (hsize : position.size ≤ i128Max) :
    ∃ m, markets.get position.marketId = some m ∧
      ((∃ plan, planLiquidation account markets positionId bps = .ok plan ∧
        0 < plan.closeSize ∧ plan.closeSize ≤ position.size) ↔
          Plannable health m position.size bps) ∧
      (∀ plan account' after, planLiquidation account markets positionId bps = .ok plan →
        plan.closeSize = minSizeToCover health m position.size → plan.closeSize < position.size →
        plan.closeSize ≤ position.size * bps / 10000 →
        account.Closes m positionId position plan.closeSize account' →
        accountHealth account' markets = .ok after →
        (after.liquidatable = false ↔
          Covers health m position (minSizeToCover health m position.size))) ∧
      (∀ rung account' after,
        (closeSizeLadder ⟨position.size⟩ m.oraclePrice
          ⟨health.equity, health.maintenanceMarginRequired⟩).head? = some rung →
        rung = safeMinSize position.size health.shortfall (m.worth position.size) →
        account.Closes m positionId position rung account' → accountHealth account' markets = .ok after →
        (after.liquidatable = false ↔ Covers health m position
          (safeMinSize position.size health.shortfall (m.worth position.size)))) := by
  have hmem : position ∈ account.positions := by
    rw [AccountSnapshot.findPosition, okOr_ok] at hfind
    exact List.mem_of_find?_eq_some hfind
  obtain ⟨m, hm, hn⟩ := accountHealth_worth hcross hhealth position hmem
  refine ⟨m, hm, plan_iff hcross hhealth hliquidatable hbps hfind hm hn hsize, ?_, ?_⟩
  · intro plan account' after _ hminimum _ _ hcloses hafter
    rw [hminimum] at hcloses
    exact closes_restores_iff hcross hm (.refl markets) hcloses hhealth hafter
  · intro rung account' after _ hrung hcloses hafter
    rw [hrung] at hcloses
    exact closes_restores_iff hcross hm (.refl markets) hcloses hhealth hafter

namespace Sample

/-- Collateral behind one long position, bought at 100. -/
def longAt (collateral size : Int) : AccountSnapshot where
  owner := alice
  collateral := [⟨usdc, collateral, collateral, 0⟩]
  positions := [⟨42, alice, 1, size, 100 * precision, 0, true, 0, .cross⟩]

def marketAt (maintenanceMarginBps : Nat) (price : Int) : MarketSnapshot :=
  ⟨{ market with initialMarginBps := maintenanceMarginBps, maintenanceMarginBps }, price, 0, 0⟩

def tableOf (m : MarketSnapshot) : Store Nat MarketSnapshot := (∅ : Store Nat MarketSnapshot).set 1 m

/-- The account once a part of its position is closed, its pnl with the collateral. -/
def closedAt (collateral size closeSize price : Int) : AccountSnapshot :=
  longAt (collateral + (closeSize * (price - 100 * precision)).tdiv precision) (size - closeSize)

/-- Ten units behind ten bought at 100. -/
def overextended : AccountSnapshot := longAt (10 * precision) (10 * precision)

/-- The market at 94, with a maintenance margin of five per cent. -/
def at94 : MarketSnapshot := marketAt 500 (94 * precision)

/-- One unit bought at 100, in a market whose maintenance margin is the whole of the notional. -/
def unitLong : Position := ⟨42, alice, 1, precision, 100 * precision, 0, true, 0, .cross⟩

def wholly : MarketSnapshot := marketAt 10000 (100 * precision)

theorem ok_of_toOption {α β : Type} {x : Res α} {f : α → β} {b : β} (h : x.toOption.map f = some b) :
    ∃ a, x = .ok a ∧ f a = b := by
  cases x with
  | error e => cases h
  | ok a => exact ⟨a, rfl, Option.some.inj h⟩

theorem overextended_closes {closeSize : Int}
    (hnet : ((closedAt (10 * precision) (10 * precision) closeSize (94 * precision)).collateral.map
      CollateralBalance.net).sum = (overextended.collateral.map CollateralBalance.net).sum +
        (closeSize * (94 * precision - 100 * precision)).tdiv precision)
    (hleft : 10 * precision - closeSize ≠ 0) :
    overextended.Closes at94 42 ⟨42, alice, 1, 10 * precision, 100 * precision, 0, true, 0, .cross⟩
      closeSize (closedAt (10 * precision) (10 * precision) closeSize (94 * precision)) := by
  refine ⟨⟨0, 0, rfl, (if_neg hleft).symm⟩, hnet.trans ?_⟩
  show _ = _ + (-(10 * precision * (0 - 0)).tdiv precision + _)
  rw [sub_zero, mul_zero, Int.zero_tdiv, neg_zero, zero_add]
  rfl

end Sample

open Sample

/-- At 94 the account lacks 97. Closing the minimum of 1.03 or the first rung of 1.29 leaves it short
of more than 90, and a position of one unit of the smallest size has no plan. -/
theorem minimum_leaves_liquidatable :
    (∃ health plan after, accountHealth overextended (tableOf at94) = .ok health ∧
      health.liquidatable = true ∧ planLiquidation overextended (tableOf at94) 42 5000 = .ok plan ∧
      plan.closeSize = 1031914893617021276 ∧
      minSizeToCover health at94 (10 * precision) = 1031914893617021276 ∧
      overextended.Closes at94 42 ⟨42, alice, 1, 10 * precision, 100 * precision, 0, true, 0, .cross⟩
        1031914893617021276
        (closedAt (10 * precision) (10 * precision) 1031914893617021276 (94 * precision)) ∧
      accountHealth (closedAt (10 * precision) (10 * precision) 1031914893617021276 (94 * precision))
        (tableOf at94) = .ok after ∧ after.liquidatable = true) ∧
    (∃ after, (closeSizeLadder ⟨10 * precision⟩ (94 * precision) ⟨-50 * precision, 47 * precision⟩).head? =
        some 1289893617021276595 ∧
      overextended.Closes at94 42 ⟨42, alice, 1, 10 * precision, 100 * precision, 0, true, 0, .cross⟩
        1289893617021276595
        (closedAt (10 * precision) (10 * precision) 1289893617021276595 (94 * precision)) ∧
      accountHealth (closedAt (10 * precision) (10 * precision) 1289893617021276595 (94 * precision))
        (tableOf at94) = .ok after ∧ after.liquidatable = true) ∧
    (∃ dust, accountHealth (longAt 8 1) (tableOf at94) = .ok dust ∧ dust.liquidatable = true ∧
      ¬ ∃ plan, planLiquidation (longAt 8 1) (tableOf at94) 42 5000 = .ok plan) := by
  refine ⟨?_, ?_, ?_⟩
  · obtain ⟨health, hhealth, hfacts⟩ := ok_of_toOption (x := accountHealth overextended (tableOf at94))
      (f := fun h => (h.liquidatable, minSizeToCover h at94 (10 * precision)))
      (b := (true, 1031914893617021276)) (by decide +kernel)
    obtain ⟨hliquidatable, hmin⟩ := Prod.mk.inj hfacts
    obtain ⟨plan, hplan, hclose⟩ := ok_of_toOption (f := LiquidationPlan.closeSize)
      (x := planLiquidation overextended (tableOf at94) 42 5000) (b := 1031914893617021276)
      (by decide +kernel)
    obtain ⟨after, hafter, hstill⟩ := ok_of_toOption (f := AccountHealth.liquidatable) (b := true)
      (x := accountHealth (closedAt (10 * precision) (10 * precision) 1031914893617021276 (94 * precision))
        (tableOf at94)) (by decide +kernel)
    exact ⟨health, plan, after, hhealth, hliquidatable, hplan, hclose, hmin,
      overextended_closes (by decide +kernel) (by decide), hafter, hstill⟩
  · obtain ⟨after, hafter, hstill⟩ := ok_of_toOption (f := AccountHealth.liquidatable) (b := true)
      (x := accountHealth (closedAt (10 * precision) (10 * precision) 1289893617021276595 (94 * precision))
        (tableOf at94)) (by decide +kernel)
    exact ⟨after, by decide +kernel, overextended_closes (by decide +kernel) (by decide), hafter, hstill⟩
  · obtain ⟨dust, hdust, hliquidatable⟩ := ok_of_toOption (f := AccountHealth.liquidatable) (b := true)
      (x := accountHealth (longAt 8 1) (tableOf at94)) (by decide +kernel)
    refine ⟨dust, hdust, hliquidatable, fun hplan => ?_⟩
    obtain ⟨plan, hplan⟩ := hplan
    have hnone : (planLiquidation (longAt 8 1) (tableOf at94) 42 5000).toOption.isSome = false := by
      decide +kernel
    rw [hplan] at hnone
    cases hnone

/-- Where the maintenance margin is the whole of the notional, the half that a shortfall of 50 asks
for restores the account. -/
theorem liquidation_sizing_iff_half :
    ∃ plan after, planLiquidation (longAt (50 * precision) precision) (tableOf wholly) 42 5000 = .ok plan ∧
      plan.closeSize = precision / 2 ∧
      accountHealth (closedAt (50 * precision) precision (precision / 2) (100 * precision))
        (tableOf wholly) = .ok after ∧ after.liquidatable = false := by
  obtain ⟨health, hhealth, hfacts⟩ := ok_of_toOption
    (f := fun h => (h.liquidatable, decide (Covers h wholly unitLong (precision / 2)),
      minSizeToCover h wholly precision)) (b := (true, true, precision / 2))
    (x := accountHealth (longAt (50 * precision) precision) (tableOf wholly)) (by decide +kernel)
  obtain ⟨hliquidatable, hrest⟩ := Prod.mk.inj hfacts
  obtain ⟨hcovers, hmin⟩ := Prod.mk.inj hrest
  obtain ⟨plan, hplan, hclose⟩ := ok_of_toOption (f := LiquidationPlan.closeSize) (b := precision / 2)
    (x := planLiquidation (longAt (50 * precision) precision) (tableOf wholly) 42 5000) (by decide +kernel)
  obtain ⟨after, hafter⟩ := exists_ok (x := accountHealth
    (closedAt (50 * precision) precision (precision / 2) (100 * precision)) (tableOf wholly))
    (by decide +kernel)
  have hbps : 0 < 5000 ∧ 5000 ≤ 10000 := by decide
  have hfind : (longAt (50 * precision) precision).findPosition 42 = .ok unitLong := rfl
  obtain ⟨m, hm, _, hrestores, _⟩ := liquidation_sizing_iff (by decide) hhealth hliquidatable hbps hfind
    (by decide)
  obtain rfl : m = wholly := (Option.some.inj hm).symm
  have hminimum : plan.closeSize = minSizeToCover health wholly unitLong.size := hclose.trans hmin.symm
  have hcloses : (longAt (50 * precision) precision).Closes wholly 42 unitLong plan.closeSize
      (closedAt (50 * precision) precision (precision / 2) (100 * precision)) := by
    rw [hclose]
    exact ⟨⟨0, 0, rfl, rfl⟩, by decide +kernel⟩
  refine ⟨plan, after, hplan, hclose, hafter, ?_⟩
  refine (hrestores plan _ after hplan hminimum ?_ ?_ hcloses hafter).mpr ?_
  · rw [hclose]
    decide
  · rw [hclose]
    decide
  · rw [← hminimum, hclose]
    exact of_decide_eq_true hcovers

end Kryon

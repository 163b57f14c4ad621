import Kryon.Risk.Identity

/-! # The same positions under other funding indexes

Health adds the positions up one by one in checked arithmetic. Under other funding indexes the
same positions at the same prices have the health they had exactly when the sums stay in range,
come to the same totals and leave the liquidation flag where it was. -/
namespace Kryon
open Transaction

/-! ## Checked sums -/

/-- Adding the values up one by one stays in range. -/
def SumsInRange (total : Int) : List Int → Prop
  | [] => True
  | value :: values => InI128 (total + value) ∧ SumsInRange (total + value) values

instance decidableSumsInRange (total : Int) (values : List Int) : Decidable (SumsInRange total values) :=
  match values with
  | [] => isTrue trivial
  | value :: values =>
    have := decidableSumsInRange (total + value) values
    inferInstanceAs (Decidable (InI128 (total + value) ∧ SumsInRange (total + value) values))

theorem addSignedFrom_iff {out total : Int} {values : List Int} :
    addSignedFrom out values = .ok total ↔ SumsInRange out values ∧ total = out + values.sum := by
  induction values generalizing out with
  | nil => simp [addSignedFrom, SumsInRange, eq_comm]
  | cons value values ih =>
    simp only [addSignedFrom, except_bind_ok, checkedAdd_ok, and_assoc, exists_and_left, exists_eq_left',
      ih, SumsInRange, List.sum_cons, add_assoc]

/-! ## Funding -/

/-- What the position owes against `index` is computed in range. -/
structure Position.FundsAt (p : Position) (index : Int) : Prop where
  change : InI128 (index - p.lastFundingIndex)
  owed : InI128 ((p.size * (index - p.lastFundingIndex)).tdiv precision)
  funding : InI128 (p.unsettledFunding index)

theorem fundingPnl_iff {p : Position} {index pnl : Int} :
    fundingPnl p index = .ok pnl ↔ p.FundsAt index ∧ pnl = p.unsettledFunding index := by
  simp only [fundingPnl, except_bind_ok, checkedSub_ok, mulPrecision_ok, and_assoc, exists_and_left,
    exists_eq_left', zero_sub]
  constructor
  · rintro ⟨hchange, howed, hfunding, rfl⟩
    exact ⟨⟨hchange, howed, hfunding⟩, rfl⟩
  · rintro ⟨⟨hchange, howed, hfunding⟩, rfl⟩
    exact ⟨hchange, howed, hfunding, rfl⟩

namespace Position

/-- So is its profit with the funding, and the equity of an isolated position. -/
structure InRange (p : Position) (index pnl : Int) : Prop where
  funds : p.FundsAt index
  total : InI128 pnl
  own : p.mode = .isolated → InI128 (p.margin + pnl)

/-- An isolated position whose own equity does not cover its maintenance margin. -/
def Undermargined (p : Position) (pnl required : Int) : Prop :=
  p.mode = .isolated ∧ 0 < required ∧ p.margin + pnl < required

instance (p : Position) (pnl required : Int) : Decidable (p.Undermargined pnl required) :=
  inferInstanceAs (Decidable (_ ∧ _ ∧ _))

end Position

/-- The index of the position's side in the table. -/
def indexAt (markets : Store Nat MarketSnapshot) (p : Position) : Int :=
  (markets.get p.marketId).elim 0 fun m => m.fundingIndex p

/-- What of a market's entry two vaults share. -/
def MarketSnapshot.listing (m : MarketSnapshot) : MarketConfig × Int := (m.config, m.oraclePrice)

/-- The tables have the same markets at the same prices. -/
def SameMarkets (markets markets' : Store Nat MarketSnapshot) : Prop :=
  ∀ k, (markets'.get k).map MarketSnapshot.listing = (markets.get k).map MarketSnapshot.listing

variable {markets markets' : Store Nat MarketSnapshot} {acc acc' next next' : PositionPass}
  {p : Position} {positions : List Position}

theorem SameMarkets.refl (markets : Store Nat MarketSnapshot) : SameMarkets markets markets :=
  fun _ => rfl

theorem SameMarkets.get (hm : SameMarkets markets markets') {k : Nat} {m : MarketSnapshot}
    (h : markets.get k = some m) :
    ∃ m', markets'.get k = some m' ∧ m'.config = m.config ∧ m'.oraclePrice = m.oraclePrice := by
  have hlisting := hm k
  rw [h, Option.map_some, Option.map_eq_some_iff] at hlisting
  obtain ⟨m', hget, hsame⟩ := hlisting
  exact ⟨m', hget, Prod.mk.inj hsame⟩

/-! ## The first pass -/

/-- Two passes that differ in their pnls and isolated flags alone. -/
structure SameMargins (acc acc' : PositionPass) : Prop where
  length : acc'.pnls.length = acc.pnls.length
  initial : acc'.initial = acc.initial
  maintenance : acc'.maintenance = acc.maintenance
  locked : acc'.lockedIsolatedMargin = acc.lockedIsolatedMargin

/-- One turn of the first pass, where the other table's turn is known. -/
theorem positionStep_reindexed (hm : SameMarkets markets markets') (hacc : SameMargins acc acc')
    (h : positionStep markets acc p = .ok next) : positionStep markets' acc' p = .ok next' ↔
      p.InRange (indexAt markets' p) (unrealizedAt markets' p) ∧ next' = { next with
        pnls := acc'.pnls ++ [unrealizedAt markets' p]
        anyIsolatedLiquidatable := acc'.anyIsolatedLiquidatable ||
          decide (p.Undermargined (unrealizedAt markets' p)
            (requiredAt MarketConfig.maintenanceMarginBps markets' p)) } := by
  simp only [positionStep, except_bind_ok, reject_ok, exists_const, okOr_ok, checkedAdd_ok, and_assoc,
    exists_and_left, exists_eq_left'] at h
  obtain ⟨hlen, m, hget, hactive, trade, htrade, _, _, _, n, hn, initialReq, hi, hinitial,
    maintenanceReq, hmr, hmaintenance, hrest⟩ := h
  obtain ⟨m', hget', hconfig, hprice⟩ := hm.get hget
  have hpnl : unrealizedAt markets' p = trade + p.unsettledFunding (m'.fundingIndex p) := by
    rw [unrealizedAt, hget', Option.elim_some, hprice, signedPositionPnl_ok htrade]
  have hreq : requiredAt MarketConfig.maintenanceMarginBps markets' p = maintenanceReq := by
    rw [requiredAt, hget', Option.elim_some, hprice, hconfig, ← (requirement_ok hn hmr).2]
  have hindex : indexAt markets' p = m'.fundingIndex p := by
    rw [indexAt, hget', Option.elim_some]
  rw [hreq, hindex, hpnl]
  simp only [positionStep, except_bind_ok, reject_ok, exists_const, okOr_ok, checkedAdd_ok, and_assoc,
    exists_and_left, hget', hconfig, hprice, htrade, hn, hi, hmr, hacc.length, hacc.initial,
    hacc.maintenance, hacc.locked, Option.some.injEq, Except.ok.injEq, exists_eq_left', hlen, hactive,
    hinitial, hmaintenance, Bool.true_eq_false, not_false_eq_true, true_and, fundingPnl_iff,
    exists_eq_left, MarketSnapshot.fundingIndex]
  by_cases hmode : p.mode = .isolated
  · simp only [hmode, if_true, except_bind_ok, checkedAdd_ok, except_pure_ok, and_assoc, exists_and_left,
      exists_eq_left', hmr, Except.ok.injEq] at hrest
    obtain ⟨hlocked, _, rfl⟩ := hrest
    simp only [hmode, if_true, except_bind_ok, checkedAdd_ok, except_pure_ok, and_assoc, exists_and_left,
      exists_eq_left', Except.ok.injEq, hlocked, true_and]
    constructor
    · rintro ⟨hfunds, htotal, hown, rfl⟩
      exact ⟨⟨hfunds, htotal, fun _ => hown⟩, by simp [Position.Undermargined, hmode]⟩
    · rintro ⟨⟨hfunds, htotal, hown⟩, rfl⟩
      exact ⟨hfunds, htotal, hown hmode, by simp [Position.Undermargined, hmode]⟩
  · simp only [hmode, if_false, except_pure_ok] at hrest ⊢
    obtain rfl := hrest
    constructor
    · rintro ⟨hfunds, htotal, rfl⟩
      exact ⟨⟨hfunds, htotal, fun h => absurd h hmode⟩, by simp [Position.Undermargined, hmode]⟩
    · rintro ⟨⟨hfunds, htotal, _⟩, rfl⟩
      exact ⟨hfunds, htotal, by simp [Position.Undermargined, hmode]⟩

/-- The whole first pass. -/
theorem positionPass_reindexed (hm : SameMarkets markets markets') (hacc : SameMargins acc acc')
    (h : positionPass markets acc positions = .ok next) :
    positionPass markets' acc' positions = .ok next' ↔
      (∀ p ∈ positions, p.InRange (indexAt markets' p) (unrealizedAt markets' p)) ∧ next' = { next with
        pnls := acc'.pnls ++ positions.map (unrealizedAt markets')
        anyIsolatedLiquidatable := acc'.anyIsolatedLiquidatable ||
          positions.any fun p => p.Undermargined (unrealizedAt markets' p)
            (requiredAt MarketConfig.maintenanceMarginBps markets' p) } := by
  induction positions generalizing acc acc' with
  | nil =>
    obtain rfl := Except.ok.inj h
    obtain ⟨_, hinitial, hmaintenance, hlocked⟩ := hacc
    simp [positionPass, ← hinitial, ← hmaintenance, ← hlocked, eq_comm]
  | cons p rest ih =>
    simp only [positionPass, except_bind_ok] at h ⊢
    obtain ⟨mid, hstep, hrest⟩ := h
    have hlength : mid.pnls.length = acc.pnls.length + 1 := by
      rw [(positionStep_spec hstep).2.1, List.length_append, List.length_singleton]
    have hmid : SameMargins mid { mid with
        pnls := acc'.pnls ++ [unrealizedAt markets' p]
        anyIsolatedLiquidatable := acc'.anyIsolatedLiquidatable ||
          decide (p.Undermargined (unrealizedAt markets' p)
            (requiredAt MarketConfig.maintenanceMarginBps markets' p)) } :=
      ⟨by simp [hlength, hacc.length], rfl, rfl, rfl⟩
    simp only [positionStep_reindexed hm hacc hstep, List.forall_mem_cons, and_assoc, exists_and_left,
      exists_eq_left, ih hmid hrest, List.append_assoc, List.singleton_append, Bool.or_assoc,
      List.map_cons, List.any_cons]

/-! ## The second and the third pass -/

def isolatedPositions (positions : List Position) : List Position :=
  positions.filter fun p => p.mode = .isolated

/-- The second pass adds up the equity of the isolated positions and the pnl of the others. -/
theorem splitPass_iff {pnl : Position → Int} {isolated cross : Int} {result : Int × Int} :
    splitPass isolated cross (positions.zip (positions.map pnl)) = .ok result ↔
      (∀ p ∈ positions, p.mode = .isolated → InI128 (p.margin + pnl p)) ∧
      SumsInRange isolated ((isolatedPositions positions).map fun p => p.margin + pnl p) ∧
      SumsInRange cross ((crossPositions positions).map pnl) ∧
      result = (isolated + ((isolatedPositions positions).map fun p => p.margin + pnl p).sum,
        cross + ((crossPositions positions).map pnl).sum) := by
  induction positions generalizing isolated cross with
  | nil => simp [splitPass, isolatedPositions, crossPositions, SumsInRange, eq_comm]
  | cons p rest ih =>
    cases hmode : p.mode with
    | isolated =>
      have hcross : crossPositions (p :: rest) = crossPositions rest :=
        List.filter_cons_of_neg (by simp [hmode])
      have hisolated : isolatedPositions (p :: rest) = p :: isolatedPositions rest :=
        List.filter_cons_of_pos (by simp [hmode])
      rw [hcross, hisolated]
      simp only [List.map_cons, List.zip_cons_cons, splitPass, hmode, if_true, except_bind_ok,
        checkedAdd_ok, and_assoc, exists_and_left, exists_eq_left', ih, List.forall_mem_cons,
        SumsInRange, List.sum_cons, add_assoc, forall_const]
      exact and_congr_right fun _ => and_left_comm
    | cross =>
      have hcross : crossPositions (p :: rest) = p :: crossPositions rest :=
        List.filter_cons_of_pos (by simp [hmode])
      have hisolated : isolatedPositions (p :: rest) = isolatedPositions rest :=
        List.filter_cons_of_neg (by simp [hmode])
      have hne : MarginMode.cross ≠ .isolated := by decide
      rw [hcross, hisolated]
      simp only [List.map_cons, List.zip_cons_cons, splitPass, hmode, hne, if_false, except_bind_ok,
        checkedAdd_ok, and_assoc, exists_and_left, exists_eq_left', ih, List.forall_mem_cons,
        SumsInRange, List.sum_cons, add_assoc, false_implies, true_and]
      rw [and_left_comm]
      exact and_congr_right fun _ => and_left_comm

/-- The third pass reads no funding. -/
theorem crossMaintenancePass_reindexed {total result : Int} (hm : SameMarkets markets markets')
    (h : crossMaintenancePass markets total positions = .ok result) :
    crossMaintenancePass markets' total positions = .ok result := by
  induction positions generalizing total with
  | nil => exact h
  | cons p rest ih =>
    by_cases hmode : p.mode = .cross
    · simp only [crossMaintenancePass, hmode, if_true, except_bind_ok, okOr_ok] at h ⊢
      obtain ⟨m, hget, n, hn, req, hreq, after, hafter, hrest⟩ := h
      obtain ⟨m', hget', hconfig, hprice⟩ := hm.get hget
      exact ⟨m', hget', n, hprice ▸ hn, req, hconfig ▸ hreq, after, hafter, ih hrest⟩
    · simp only [crossMaintenancePass, hmode, if_false] at h ⊢
      exact ih h

/-! ## The whole account -/

def lockedMargin (positions : List Position) : Int := (positions.map Position.isolatedMargin).sum

/-- The sums over the positions, of the given pnls behind the given collateral, stay in range. -/
structure TotalsInRange (value : Int) (pnl : Position → Int) (positions : List Position) : Prop where
  isolated : SumsInRange 0 ((isolatedPositions positions).map fun p => p.margin + pnl p)
  cross : SumsInRange 0 ((crossPositions positions).map pnl)
  all : SumsInRange 0 (positions.map pnl)
  crossEquity : InI128 (value - lockedMargin positions + ((crossPositions positions).map pnl).sum)

/-- The cross positions together do not cover their margin, or an isolated one does not. -/
def LiquidatableWith (value : Int) (pnl required : Position → Int) (positions : List Position) : Prop :=
  (0 < ((crossPositions positions).map required).sum ∧
    value - lockedMargin positions + ((crossPositions positions).map pnl).sum <
      ((crossPositions positions).map required).sum) ∨
  ∃ p ∈ positions, p.Undermargined (pnl p) (required p)

variable {account account' : AccountSnapshot} {health : AccountHealth}

/-- What the flag says, whatever the modes. -/
theorem accountHealth_flag (h : accountHealth account markets = .ok health) :
    health.liquidatable = true ↔ LiquidatableWith health.collateralValue (unrealizedAt markets)
      (requiredAt MarketConfig.maintenanceMarginBps markets) account.positions := by
  simp only [accountHealth, except_bind_ok, except_pure_ok, checkedSub_ok, checkedAdd_ok, and_assoc,
    exists_and_left, exists_eq_left'] at h
  obtain ⟨value, _, pass, hpass, _, ⟨isolated, cross⟩, hsplit, _, _, _, _, _, _, _, total, hcm, _,
    rfl⟩ := h
  obtain ⟨_, hpnls, hlocked⟩ := positionPass_spec hpass
  obtain ⟨_, hflags⟩ := (positionPass_reindexed (.refl markets) ⟨rfl, rfl, rfl, rfl⟩ hpass).mp hpass
  have hany := congrArg PositionPass.anyIsolatedLiquidatable hflags
  simp only [PositionPass.start, List.nil_append, zero_add, Bool.false_or] at hpnls hlocked hany
  rw [hpnls] at hsplit
  obtain ⟨_, _, _, hresult⟩ := splitPass_iff.mp hsplit
  obtain ⟨_, rfl⟩ := Prod.mk.inj hresult
  obtain rfl := crossMaintenancePass_total hcm
  simp only [LiquidatableWith, lockedMargin, hlocked, hany, zero_add, Bool.or_eq_true,
    Bool.and_eq_true, decide_eq_true_eq, List.any_eq_true]

theorem SameMarkets.requiredAt (hm : SameMarkets markets markets') {bps : MarketConfig → Nat}
    (hp : ∃ m, markets.get p.marketId = some m) : requiredAt bps markets' p = requiredAt bps markets p := by
  obtain ⟨m, hget⟩ := hp
  obtain ⟨m', hget', hconfig, hprice⟩ := hm.get hget
  simp only [Kryon.requiredAt, hget, hget', Option.elim_some, hconfig, hprice]

theorem TotalsInRange.congr {value : Int} {pnl pnl' : Position → Int}
    (h : ∀ p ∈ positions, pnl' p = pnl p) (ht : TotalsInRange value pnl positions) :
    TotalsInRange value pnl' positions := by
  have hisolated : ((isolatedPositions positions).map fun p => p.margin + pnl' p) =
      (isolatedPositions positions).map fun p => p.margin + pnl p :=
    List.map_congr_left fun p hp => by rw [h p (List.mem_of_mem_filter hp)]
  have hcross : (crossPositions positions).map pnl' = (crossPositions positions).map pnl :=
    List.map_congr_left fun p hp => h p (List.mem_of_mem_filter hp)
  have hall : positions.map pnl' = positions.map pnl := List.map_congr_left h
  exact ⟨hisolated ▸ ht.isolated, hcross ▸ ht.cross, hall ▸ ht.all, hcross ▸ ht.crossEquity⟩

theorem LiquidatableWith.congr {value : Int} {pnl pnl' required required' : Position → Int}
    (hpnl : ∀ p ∈ positions, pnl' p = pnl p) (hreq : ∀ p ∈ positions, required' p = required p) :
    LiquidatableWith value pnl' required' positions ↔ LiquidatableWith value pnl required positions := by
  have hcross : (crossPositions positions).map pnl' = (crossPositions positions).map pnl :=
    List.map_congr_left fun p hp => hpnl p (List.mem_of_mem_filter hp)
  have hrequired : (crossPositions positions).map required' = (crossPositions positions).map required :=
    List.map_congr_left fun p hp => hreq p (List.mem_of_mem_filter hp)
  unfold LiquidatableWith
  rw [hcross, hrequired]
  refine or_congr_right (exists_congr fun p => and_congr_right fun hp => ?_)
  rw [hpnl p hp, hreq p hp]

/-- Of cross positions the flag reads nothing but the total. -/
theorem LiquidatableWith.cross {value : Int} {pnl pnl' required : Position → Int}
    (hp : ∀ p ∈ positions, p.mode = .cross)
    (hsum : (positions.map pnl').sum = (positions.map pnl).sum) :
    LiquidatableWith value pnl' required positions ↔ LiquidatableWith value pnl required positions := by
  have hnone : ∀ f : Position → Int, ¬ ∃ p ∈ positions, p.Undermargined (f p) (required p) := by
    rintro f ⟨p, hmem, hmode, _⟩
    rw [hp p hmem] at hmode
    cases hmode
  unfold LiquidatableWith
  rw [crossPositions_eq hp, hsum, or_iff_left (hnone pnl'), or_iff_left (hnone pnl)]

/-- What was computed was in range. -/
theorem accountHealth_inRange (h : accountHealth account markets = .ok health) :
    (∀ p ∈ account.positions, p.InRange (indexAt markets p) (unrealizedAt markets p)) ∧
      TotalsInRange health.collateralValue (unrealizedAt markets) account.positions ∧
      health.unrealizedPnl = (account.positions.map (unrealizedAt markets)).sum := by
  simp only [accountHealth, except_bind_ok, except_pure_ok, checkedSub_ok, checkedAdd_ok, and_assoc,
    exists_and_left, exists_eq_left'] at h
  obtain ⟨value, _, pass, hpass, _, ⟨isolated, cross⟩, hsplit, unrealized, hsum, hcross, _, _, _, _, _, _,
    _, rfl⟩ := h
  obtain ⟨_, hpnls, hlocked⟩ := positionPass_spec hpass
  obtain ⟨hfits, _⟩ := (positionPass_reindexed (.refl markets) ⟨rfl, rfl, rfl, rfl⟩ hpass).mp hpass
  simp only [PositionPass.start, List.nil_append, zero_add] at hpnls hlocked
  rw [hpnls] at hsplit hsum
  obtain ⟨_, hisolated, hcrossSums, hresult⟩ := splitPass_iff.mp hsplit
  obtain ⟨_, rfl⟩ := Prod.mk.inj hresult
  obtain ⟨hall, hunrealized⟩ := addSignedFrom_iff.mp hsum
  rw [zero_add] at hcross hunrealized
  rw [hlocked] at hcross
  exact ⟨hfits, ⟨hisolated, hcrossSums, hall, hcross⟩, hunrealized⟩

/-- With everything in range and the old totals, only the flag can come out differently. -/
theorem accountHealth_recomputed (hpos : account'.positions = account.positions)
    (hm : SameMarkets markets markets') (h : accountHealth account markets = .ok health)
    (hcollateral : collateralTotal 0 account'.collateral = .ok health.collateralValue)
    (hfits : ∀ p ∈ account.positions, p.InRange (indexAt markets' p) (unrealizedAt markets' p))
    (htotals : TotalsInRange health.collateralValue (unrealizedAt markets') account.positions)
    (hsums : (account.positions.map (unrealizedAt markets')).sum =
      (account.positions.map (unrealizedAt markets)).sum) :
    ∃ liquidatable, accountHealth account' markets' = .ok { health with liquidatable } := by
  obtain ⟨_, _, hunrealized⟩ := accountHealth_inRange h
  simp only [accountHealth, except_bind_ok, except_pure_ok, checkedSub_ok, checkedAdd_ok, and_assoc,
    exists_and_left, exists_eq_left'] at h
  obtain ⟨value, _, pass, hpass, hrange, ⟨isolated, cross⟩, hsplit, unrealized, _, _, hequity, hfree,
    ratio, hratio, total, hcm, _, rfl⟩ := h
  obtain ⟨_, hpnls, hlocked⟩ := positionPass_spec hpass
  have hpass' := (positionPass_reindexed hm ⟨rfl, rfl, rfl, rfl⟩ hpass).mpr ⟨hfits, rfl⟩
  simp only [PositionPass.start, List.nil_append, zero_add] at hpnls hlocked hpass'
  have hsplit' := splitPass_iff.mpr ⟨fun p hp => (hfits p hp).own, htotals.isolated, htotals.cross, rfl⟩
  have hsum' : addSigned (account.positions.map (unrealizedAt markets')) = .ok unrealized :=
    addSignedFrom_iff.mpr ⟨htotals.all, by rw [zero_add, hsums]; exact hunrealized⟩
  have hcross := htotals.crossEquity
  have hold := splitPass_total (by rw [hpnls, List.length_map]) hsplit
  have hnew := splitPass_total (List.length_map _) hsplit'
  rw [hpnls, ← hsums] at hold
  simp only [zero_add] at hold hnew hsplit'
  rw [lockedMargin, ← hlocked] at hcross
  generalize ((crossPositions account.positions).map (unrealizedAt markets')).sum = cross' at *
  generalize ((isolatedPositions account.positions).map fun p =>
    p.margin + unrealizedAt markets' p).sum = isolated' at *
  have hsame : value - pass.lockedIsolatedMargin + cross' + isolated' =
      value - pass.lockedIsolatedMargin + cross + isolated := by omega
  refine ⟨decide (0 < total) && decide (value - pass.lockedIsolatedMargin + cross' < total) ||
    account.positions.any fun p => p.Undermargined (unrealizedAt markets' p)
      (requiredAt MarketConfig.maintenanceMarginBps markets' p), ?_⟩
  simp only [accountHealth, hpos, except_bind_ok, except_pure_ok, checkedSub_ok, checkedAdd_ok, and_assoc,
    exists_and_left, exists_eq_left']
  refine ⟨value, hcollateral, _, hpass', hrange, _, hsplit', _, hsum', hcross, ?_⟩
  rw [hsame]
  exact ⟨hequity, hfree, ratio, hratio, total, crossMaintenancePass_reindexed hm hcm, hcross, rfl⟩

/-- **Health under other indexes.** The same positions at the same prices have the health they had
exactly when the collateral has its old value, the funding and the sums are in range, the pnls come
to the old total and the flag says what it said. -/
theorem accountHealth_reindexed (hpos : account'.positions = account.positions)
    (hm : SameMarkets markets markets') (h : accountHealth account markets = .ok health) :
    accountHealth account' markets' = .ok health ↔
      collateralTotal 0 account'.collateral = .ok health.collateralValue ∧
      (∀ p ∈ account.positions, p.InRange (indexAt markets' p) (unrealizedAt markets' p)) ∧
      TotalsInRange health.collateralValue (unrealizedAt markets') account.positions ∧
      (account.positions.map (unrealizedAt markets')).sum =
        (account.positions.map (unrealizedAt markets)).sum ∧
      (LiquidatableWith health.collateralValue (unrealizedAt markets')
          (requiredAt MarketConfig.maintenanceMarginBps markets) account.positions ↔
        LiquidatableWith health.collateralValue (unrealizedAt markets)
          (requiredAt MarketConfig.maintenanceMarginBps markets) account.positions) := by
  have hflag := accountHealth_flag h
  have hreq : ∀ p ∈ account.positions, requiredAt MarketConfig.maintenanceMarginBps markets' p =
      requiredAt MarketConfig.maintenanceMarginBps markets p :=
    fun p hp => hm.requiredAt ((accountHealth_equity h).1 p hp)
  constructor
  · intro h'
    have hflag' := accountHealth_flag h'
    obtain ⟨hfits, htotals, hunrealized'⟩ := accountHealth_inRange h'
    rw [hpos] at hfits htotals hunrealized'
    rw [hpos, LiquidatableWith.congr (fun _ _ => rfl) hreq] at hflag'
    exact ⟨accountHealth_collateralValue h', hfits, htotals,
      hunrealized'.symm.trans (accountHealth_inRange h).2.2, hflag'.symm.trans hflag⟩
  · rintro ⟨hcollateral, hfits, htotals, hsums, hflags⟩
    obtain ⟨liquidatable, h'⟩ := accountHealth_recomputed hpos hm h hcollateral hfits htotals hsums
    have hflag' := accountHealth_flag h'
    rw [hpos, LiquidatableWith.congr (fun _ _ => rfl) hreq] at hflag'
    have hsame : liquidatable = health.liquidatable :=
      Bool.eq_iff_iff.mpr (hflag'.trans (hflags.trans hflag.symm))
    rw [h', hsame]

end Kryon

import Kryon.Deployed
import Kryon.Risk.Equity

/-! # The health identity

What `account_health` returns, from the parts of the account: the values after haircut, the
trade and funding pnl of each position and the margins its market asks for. Equity does not
depend on the modes or on the order of the lists, and without isolated positions the
liquidation flag, equity and the margin ratio say the same. -/
namespace Kryon
open Transaction

/-- A balance's value after its haircut, where it has one. -/
def CollateralBalance.net (c : CollateralBalance) : Int :=
  match collateralValueAfterHaircut c.value c.haircutBps with
  | .ok value => value
  | .error _ => 0

/-- A position without the mode and the margin that set an isolated one apart. -/
def Position.crossed (p : Position) : Position := { p with mode := .cross, margin := 0 }

def crossPositions (positions : List Position) : List Position :=
  positions.filter fun p => p.mode = .cross

theorem crossPositions_eq {positions : List Position} (hp : ∀ p ∈ positions, p.mode = .cross) :
    crossPositions positions = positions :=
  List.filter_eq_self.mpr fun p hmem => decide_eq_true (hp p hmem)

/-- The trade pnl of a position at its market in the table. -/
def tradeAt (markets : Store Nat MarketSnapshot) (p : Position) : Int :=
  (markets.get p.marketId).elim 0 fun m => p.pnlAt m.oraclePrice

/-- The fraction of a position's notional that its market asks for. -/
def requiredAt (bps : MarketConfig → Nat) (markets : Store Nat MarketSnapshot) (p : Position) : Int :=
  (markets.get p.marketId).elim 0 fun m =>
    p.size * m.oraclePrice / precision * bps m.config / 10000

/-- The pnl and the requirements of a position, as its market gives them. -/
structure Valued (markets : Store Nat MarketSnapshot) (p : Position) (m : MarketSnapshot) : Prop where
  market : markets.get p.marketId = some m
  trade : signedPositionPnl p m.oraclePrice = .ok (tradeAt markets p)
  funding : fundingPnl p (m.fundingIndex p) = .ok (fundingAt markets p)
  maintenance : 0 ≤ requiredAt MarketConfig.maintenanceMarginBps markets p

variable {markets : Store Nat MarketSnapshot} {acc next : PositionPass} {p : Position}
  {positions : List Position} {account account' : AccountSnapshot} {health health' : AccountHealth}

theorem notional_ok {size price n : Int} (h : notional size price = .ok n) :
    0 < size ∧ 0 < price ∧ n = size * price / precision := by
  simp only [notional, except_bind_ok, reject_ok, mulPrecision_ok] at h
  obtain ⟨_, hpos, _, rfl⟩ := h
  have hnn : 0 ≤ size * price := mul_nonneg (by omega) (by omega)
  exact ⟨by omega, by omega, Int.tdiv_eq_ediv_of_nonneg hnn⟩

theorem requirement_ok {size price n req : Int} {bps : Nat} (hn : notional size price = .ok n)
    (h : applyBps n bps = .ok req) :
    0 ≤ req ∧ req = size * price / precision * bps / 10000 := by
  obtain ⟨hsize, hprice, rfl⟩ := notional_ok hn
  obtain ⟨_, _, rfl⟩ := applyBps_ok.mp h
  have hvalue : 0 ≤ size * price / precision :=
    Int.ediv_nonneg (mul_nonneg hsize.le hprice.le) precision_pos.le
  have hnn : 0 ≤ size * price / precision * (bps : Int) := mul_nonneg hvalue (Int.natCast_nonneg _)
  rw [Int.tdiv_eq_ediv_of_nonneg hnn]
  exact ⟨Int.ediv_nonneg hnn (by decide), rfl⟩

/-! ## The passes -/

/-- What one turn of the first pass reads and adds to the margins, in either mode. -/
theorem positionStep_valued (h : positionStep markets acc p = .ok next) :
    (∃ m, Valued markets p m) ∧
      next.maintenance = acc.maintenance + requiredAt MarketConfig.maintenanceMarginBps markets p ∧
      next.initial = acc.initial + requiredAt MarketConfig.initialMarginBps markets p := by
  simp only [positionStep, except_bind_ok, reject_ok, exists_const, okOr_ok, checkedAdd_ok, and_assoc,
    exists_and_left, exists_eq_left'] at h
  obtain ⟨_, m, hm, _, trade, htrade, funding, hf, _, n, hn, initialReq, hi, _, maintenanceReq, hmr, _, h⟩ := h
  obtain ⟨_, hinitial⟩ := requirement_ok hn hi
  obtain ⟨hnn, hmaintenance⟩ := requirement_ok hn hmr
  have hvalued : Valued markets p m := by
    refine ⟨hm, ?_, ?_, ?_⟩
    · rwa [tradeAt, hm, Option.elim_some, ← signedPositionPnl_ok htrade]
    · rw [fundingAt, hm, Option.elim_some]
      exact hf.trans (congrArg Except.ok (fundingPnl_ok hf))
    · rwa [requiredAt, hm, Option.elim_some, ← hmaintenance]
  refine ⟨⟨m, hvalued⟩, ?_⟩
  simp only [requiredAt, hm, Option.elim_some, ← hinitial, ← hmaintenance]
  split at h
  · simp only [except_bind_ok, except_pure_ok, checkedAdd_ok, and_assoc, exists_and_left,
      exists_eq_left'] at h
    obtain ⟨_, _, _, _, rfl⟩ := h
    exact ⟨rfl, rfl⟩
  · obtain rfl := except_pure_ok.mp h
    exact ⟨rfl, rfl⟩

/-- The first pass over all positions. -/
theorem positionPass_valued (h : positionPass markets acc positions = .ok next) :
    (∀ p ∈ positions, ∃ m, Valued markets p m) ∧
      next.maintenance = acc.maintenance +
        (positions.map (requiredAt MarketConfig.maintenanceMarginBps markets)).sum ∧
      next.initial =
        acc.initial + (positions.map (requiredAt MarketConfig.initialMarginBps markets)).sum := by
  induction positions generalizing acc with
  | nil =>
    obtain rfl := Except.ok.inj h
    exact ⟨fun p hp => absurd hp List.not_mem_nil, by simp, by simp⟩
  | cons p rest ih =>
    simp only [positionPass, except_bind_ok] at h
    obtain ⟨mid, hstep, hrest⟩ := h
    obtain ⟨hvalued, hm, hi⟩ := positionStep_valued hstep
    obtain ⟨hall, hms, his⟩ := ih hrest
    refine ⟨List.forall_mem_cons.mpr ⟨hvalued, hall⟩, ?_, ?_⟩
    · rw [hms, hm, List.map_cons, List.sum_cons, add_assoc]
    · rw [his, hi, List.map_cons, List.sum_cons, add_assoc]

/-- The third pass adds up what the first one does for the cross positions. -/
theorem crossMaintenancePass_total {total result : Int}
    (h : crossMaintenancePass markets total positions = .ok result) :
    result = total +
      ((crossPositions positions).map (requiredAt MarketConfig.maintenanceMarginBps markets)).sum := by
  induction positions generalizing total with
  | nil =>
    rw [← Except.ok.inj h, crossPositions, List.filter_nil, List.map_nil, List.sum_nil, add_zero]
  | cons p rest ih =>
    by_cases hmode : p.mode = .cross
    · simp only [crossMaintenancePass, hmode, if_true, except_bind_ok, okOr_ok, checkedAdd_ok, and_assoc,
        exists_and_left, exists_eq_left'] at h
      obtain ⟨m, hm, n, hn, req, hreq, _, hrest⟩ := h
      obtain ⟨_, hreq⟩ := requirement_ok hn hreq
      have hone : requiredAt MarketConfig.maintenanceMarginBps markets p = req := by
        rw [requiredAt, hm, Option.elim_some, hreq]
      rw [ih hrest, crossPositions, crossPositions, List.filter_cons_of_pos (by simpa using hmode),
        List.map_cons, List.sum_cons, hone, add_assoc]
    · simp only [crossMaintenancePass, hmode, if_false] at h
      rw [ih h, crossPositions, crossPositions, List.filter_cons_of_neg (by simpa using hmode)]

theorem collateralTotal_net {collateral : List CollateralBalance} {total result : Int}
    (h : collateralTotal total collateral = .ok result) :
    (∀ c ∈ collateral, collateralValueAfterHaircut c.value c.haircutBps = .ok c.net) ∧
      result = total + (collateral.map CollateralBalance.net).sum := by
  induction collateral generalizing total with
  | nil =>
    refine ⟨fun c hc => absurd hc List.not_mem_nil, ?_⟩
    rw [← Except.ok.inj h, List.map_nil, List.sum_nil, add_zero]
  | cons c rest ih =>
    obtain ⟨value, hvalue, _, hrest⟩ := collateralTotal_cons.mp h
    obtain ⟨hall, hsum⟩ := ih hrest
    have hnet : c.net = value := by rw [CollateralBalance.net, hvalue]
    refine ⟨List.forall_mem_cons.mpr ⟨by rw [hnet, hvalue], hall⟩, ?_⟩
    rw [hsum, List.map_cons, List.sum_cons, hnet, add_assoc]

/-! ## The parts of a health -/

/-- The margins that health asks for are those of the positions. -/
theorem accountHealth_required (h : accountHealth account markets = .ok health) :
    (∀ p ∈ account.positions, ∃ m, Valued markets p m) ∧
      health.maintenanceMarginRequired =
        (account.positions.map (requiredAt MarketConfig.maintenanceMarginBps markets)).sum ∧
      marginRatioOf health.equity health.maintenanceMarginRequired = .ok health.marginRatio := by
  simp only [accountHealth, except_bind_ok, except_pure_ok] at h
  obtain ⟨_, _, pass, hpass, _, _, ⟨_, _⟩, _, _, _, _, _, _, _, _, _, _, hratio, _, _, _, _, rfl⟩ := h
  obtain ⟨hvalued, hm, _⟩ := positionPass_valued hpass
  exact ⟨hvalued, hm.trans (zero_add _), hratio⟩

/-- Where the maintenance margin is not covered the ratio is below one, and only there. -/
theorem marginRatioOf_lt_iff {equity maintenance ratio : Int}
    (h : marginRatioOf equity maintenance = .ok ratio) :
    (0 < maintenance ∧ equity < maintenance) ↔ (0 < maintenance ∧ ratio < precision) := by
  refine and_congr_right fun hpos => ?_
  rw [marginRatioOf, if_pos hpos, divPrecision_ok] at h
  obtain ⟨_, _, rfl⟩ := h
  by_cases hnn : 0 ≤ equity
  · rw [Int.tdiv_eq_ediv_of_nonneg (mul_nonneg hnn precision_pos.le), Int.ediv_lt_iff_lt_mul hpos,
      mul_comm precision]
    exact (mul_lt_mul_iff_left₀ precision_pos).symm
  · have hdebt : equity * precision ≤ 0 :=
      mul_nonpos_of_nonpos_of_nonneg (by omega) precision_pos.le
    have hneg := Int.tdiv_le_tdiv hpos hdebt
    rw [Int.zero_tdiv] at hneg
    exact iff_of_true (by omega) (hneg.trans_lt precision_pos)

/-- Without isolated positions the flag compares equity with the maintenance margin. -/
theorem accountHealth_liquidatable (hp : ∀ p ∈ account.positions, p.mode = .cross)
    (h : accountHealth account markets = .ok health) :
    health.liquidatable = true ↔
      0 < health.maintenanceMarginRequired ∧ health.equity < health.maintenanceMarginRequired := by
  obtain ⟨_, hrequired, _⟩ := accountHealth_required h
  obtain ⟨value, pass, crossMaintenance, ratio, _, hcm, _, rfl⟩ := accountHealth_cross hp h
  have hsame : crossMaintenance = pass.maintenance := by
    rw [crossMaintenancePass_total hcm, crossPositions_eq hp, zero_add]
    exact hrequired.symm
  subst hsame
  simp [crossHealth]

/-- Equity, as one sum over the collateral and one over the positions. -/
theorem accountHealth_parts (h : accountHealth account markets = .ok health) :
    (∀ c ∈ account.collateral, collateralValueAfterHaircut c.value c.haircutBps = .ok c.net) ∧
      health.equity = (account.collateral.map CollateralBalance.net).sum +
        (account.positions.map fun p => tradeAt markets p + fundingAt markets p).sum := by
  obtain ⟨_, hequity⟩ := accountHealth_equity h
  obtain ⟨hvalues, htotal⟩ := collateralTotal_net (accountHealth_collateralValue h)
  obtain ⟨hvalued, _⟩ := accountHealth_required h
  refine ⟨hvalues, ?_⟩
  rw [hequity, htotal, zero_add]
  refine congrArg ((account.collateral.map CollateralBalance.net).sum + List.sum ·)
    (List.map_congr_left fun p hp => ?_)
  obtain ⟨m, hm, _⟩ := hvalued p hp
  simp only [unrealizedAt, tradeAt, fundingAt, hm, Option.elim_some]

/-- The order of the lists and the modes of the positions do not matter to equity. -/
theorem accountHealth_equity_perm (hcollateral : account'.collateral.Perm account.collateral)
    (hpositions : (account'.positions.map Position.crossed).Perm
      (account.positions.map Position.crossed))
    (h : accountHealth account markets = .ok health)
    (h' : accountHealth account' markets = .ok health') : health'.equity = health.equity := by
  have hcrossed : ∀ positions : List Position, (positions.map (unrealizedAt markets)).sum =
      ((positions.map Position.crossed).map (unrealizedAt markets)).sum := by
    intro positions
    rw [List.map_map]
    rfl
  rw [(accountHealth_equity h).2, (accountHealth_equity h').2,
    (collateralTotal_net (accountHealth_collateralValue h)).2,
    (collateralTotal_net (accountHealth_collateralValue h')).2, (hcollateral.map _).sum_eq, hcrossed,
    hcrossed account.positions, (hpositions.map _).sum_eq]

/-- A withdrawal's check takes its value off the equity and judges the rest alike. -/
theorem validateWithdrawal_judges {value : Int}
    (h : accountHealth account markets = .ok health)
    (h' : validateWithdrawal account markets value = .ok health') :
    health'.equity = health.equity - value ∧ health'.initialMarginRequired ≤ health'.equity ∧
      health'.maintenanceMarginRequired = health.maintenanceMarginRequired ∧
      (health'.liquidatable = true ↔
        0 < health'.maintenanceMarginRequired ∧ health'.equity < health'.maintenanceMarginRequired) ∧
      marginRatioOf health'.equity health'.maintenanceMarginRequired = .ok health'.marginRatio := by
  simp only [validateWithdrawal, except_bind_ok, reject_ok, exists_const, checkedSub_ok, except_pure_ok,
    h, Except.ok.injEq, exists_eq_left', and_assoc, exists_and_left] at h'
  obtain ⟨_, _, _, _, ratio, hratio, hmargin, rfl⟩ := h'
  exact ⟨rfl, not_lt.mp hmargin, rfl, by simp, hratio⟩

/-! ## One judgement -/

/-- The liquidation flag, equity and the margin ratio agree on the account. -/
structure AccountHealth.Agrees (health : AccountHealth) : Prop where
  equity : health.liquidatable = true ↔
    0 < health.maintenanceMarginRequired ∧ health.equity < health.maintenanceMarginRequired
  ratio : health.liquidatable = true ↔
    0 < health.maintenanceMarginRequired ∧ health.marginRatio < precision

/-- **Health is one identity.** Equity is the sum of the collateral values after haircut and of
the trade and funding pnl of every position, whatever the modes and the order of the lists;
and of an account with cross positions only, the flag, equity and the margin ratio of its
health and of every withdrawal's check say the same. -/
theorem account_health_identity (h : accountHealth account markets = .ok health) :
    (∀ c ∈ account.collateral, collateralValueAfterHaircut c.value c.haircutBps = .ok c.net) ∧
    (∀ p ∈ account.positions, ∃ m, Valued markets p m) ∧
    health.equity = (account.collateral.map CollateralBalance.net).sum +
      (account.positions.map fun p => tradeAt markets p + fundingAt markets p).sum ∧
    (∀ account' health', account'.collateral.Perm account.collateral →
      (account'.positions.map Position.crossed).Perm (account.positions.map Position.crossed) →
      accountHealth account' markets = .ok health' → health'.equity = health.equity) ∧
    ((∀ p ∈ account.positions, p.mode = .cross) → health.Agrees ∧
      ∀ value health', validateWithdrawal account markets value = .ok health' →
        health'.equity = health.equity - value ∧
          health'.maintenanceMarginRequired = health.maintenanceMarginRequired ∧ health'.Agrees) := by
  obtain ⟨hnet, hequity⟩ := accountHealth_parts h
  obtain ⟨hvalued, _, hratio⟩ := accountHealth_required h
  refine ⟨hnet, hvalued, hequity, ?_, fun hp => ⟨?_, ?_⟩⟩
  · intro account' health' hcollateral hpositions h'
    exact accountHealth_equity_perm hcollateral hpositions h h'
  · have hflag := accountHealth_liquidatable hp h
    exact ⟨hflag, hflag.trans (marginRatioOf_lt_iff hratio)⟩
  · intro value health' h'
    obtain ⟨hless, _, hsame, hflag, hratio'⟩ := validateWithdrawal_judges h h'
    exact ⟨hless, hsame, hflag, hflag.trans (marginRatioOf_lt_iff hratio')⟩

namespace Sample

/-- Ten settlement units behind one unit, bought at 100 when the price is 94. -/
def fallen : AccountSnapshot where
  owner := alice
  collateral := [⟨usdc, 10 * precision, 10 * precision, 0⟩]
  positions := [⟨1, alice, 1, precision, 100 * precision, 0, true, 0, .cross⟩]

def quotedMarkets (price : Int) : Store Nat MarketSnapshot :=
  (∅ : Store Nat MarketSnapshot).set 1 ⟨market, price, 0, 0⟩

end Sample

open Sample in
theorem account_health_identity_fallen : ∃ health,
    accountHealth fallen (quotedMarkets (94 * precision)) = .ok health ∧ health.liquidatable = true ∧
      health.marginRatio < precision := by
  obtain ⟨health, h⟩ := exists_ok (x := accountHealth fallen (quotedMarkets (94 * precision)))
    (by decide +kernel)
  have hcross : ∀ p ∈ fallen.positions, p.mode = .cross := by decide
  have hagrees := (account_health_identity h).2.2.2.2 hcross |>.1
  have hflag : (accountHealth fallen (quotedMarkets (94 * precision))).toOption.map
      AccountHealth.liquidatable = some true := by decide +kernel
  rw [h] at hflag
  have hflag := Option.some.inj hflag
  exact ⟨health, h, hflag, (hagrees.ratio.mp hflag).2⟩

end Kryon

import Kryon.Risk.Cross

/-! # What equity is made of

Health keeps the margin of isolated positions apart from the cross collateral and adds their
own equity back: the margin cancels, and equity is the collateral value and the unrealised
pnl of every position, whatever its mode. -/
namespace Kryon
open Transaction

namespace Position

/-- What a position makes at a price, truncated. -/
def pnlAt (p : Position) (price : Int) : Int :=
  (p.size * if p.isLong then price - p.entryPrice else p.entryPrice - price).tdiv precision

/-- What each unit of its size makes. -/
def unitGain (p : Position) (price : Int) : Int :=
  if p.isLong then price - p.entryPrice else p.entryPrice - price

theorem pnlAt_sized (p : Position) (size price : Int) :
    { p with size }.pnlAt price = (size * p.unitGain price).tdiv precision := rfl

/-- The margin that a position locks. -/
def isolatedMargin (p : Position) : Int := if p.mode = .isolated then p.margin else 0

end Position

/-- The pnl of a position at its market in the table. -/
def unrealizedAt (markets : Store Nat MarketSnapshot) (p : Position) : Int :=
  (markets.get p.marketId).elim 0 fun m =>
    p.pnlAt m.oraclePrice + p.unsettledFunding (m.fundingIndex p)

variable {markets : Store Nat MarketSnapshot} {acc next : PositionPass} {p : Position}
  {positions : List Position}

theorem signedPositionPnl_ok {price pnl : Int} (h : signedPositionPnl p price = .ok pnl) :
    pnl = p.pnlAt price := by
  unfold signedPositionPnl at h
  unfold Position.pnlAt
  cases hl : p.isLong with
  | true =>
    simp only [hl, if_true, except_bind_ok, checkedSub_ok, mulPrecision_ok] at h
    obtain ⟨_, _, _, ⟨_, rfl⟩, _, rfl⟩ := h
    rfl
  | false =>
    simp only [hl, Bool.false_eq_true, if_false, except_bind_ok, checkedSub_ok, mulPrecision_ok] at h
    obtain ⟨_, _, _, ⟨_, rfl⟩, _, rfl⟩ := h
    rfl

/-- One turn of the first pass, in either mode. -/
theorem positionStep_spec (h : positionStep markets acc p = .ok next) :
    (∃ m, markets.get p.marketId = some m) ∧ next.pnls = acc.pnls ++ [unrealizedAt markets p] ∧
      next.lockedIsolatedMargin = acc.lockedIsolatedMargin + p.isolatedMargin := by
  simp only [positionStep, except_bind_ok, reject_ok, exists_const, okOr_ok, checkedAdd_ok, and_assoc,
    exists_and_left, exists_eq_left'] at h
  obtain ⟨_, m, hm, _, tradePnl, htrade, fPnl, hf, _, n, _, initialReq, _, _, maintenanceReq, _, _, h⟩ := h
  have hpnl : tradePnl + fPnl = unrealizedAt markets p := by
    rw [unrealizedAt, hm, Option.elim_some, signedPositionPnl_ok htrade]
    exact congrArg _ (fundingPnl_ok hf)
  refine ⟨⟨m, hm⟩, ?_⟩
  unfold Position.isolatedMargin
  split at h
  · rename_i hmode
    simp only [except_bind_ok, except_pure_ok, checkedAdd_ok, and_assoc, exists_and_left,
      exists_eq_left'] at h
    obtain ⟨_, _, _, _, rfl⟩ := h
    rw [if_pos hmode, hpnl]
    exact ⟨rfl, rfl⟩
  · rename_i hmode
    obtain rfl := except_pure_ok.mp h
    rw [if_neg hmode, hpnl, add_zero]
    exact ⟨rfl, rfl⟩

theorem positionPass_spec (h : positionPass markets acc positions = .ok next) :
    (∀ p ∈ positions, ∃ m, markets.get p.marketId = some m) ∧
      next.pnls = acc.pnls ++ positions.map (unrealizedAt markets) ∧
      next.lockedIsolatedMargin =
        acc.lockedIsolatedMargin + (positions.map Position.isolatedMargin).sum := by
  induction positions generalizing acc with
  | nil =>
    obtain rfl := Except.ok.inj h
    simp
  | cons p rest ih =>
    simp only [positionPass, except_bind_ok] at h
    obtain ⟨mid, hstep, hrest⟩ := h
    obtain ⟨hmarket, hpnls, hlocked⟩ := positionStep_spec hstep
    obtain ⟨hmarkets, hpnls', hlocked'⟩ := ih hrest
    refine ⟨List.forall_mem_cons.mpr ⟨hmarket, hmarkets⟩, ?_, ?_⟩
    · rw [hpnls', hpnls, List.append_assoc]
      rfl
    · rw [hlocked', hlocked, List.map_cons, List.sum_cons, add_assoc]

/-- The two halves of the second pass together: all pnl, and the margin of the isolated
positions. -/
theorem splitPass_total {pnls : List Int} {isolated cross : Int} {result : Int × Int}
    (hlen : pnls.length = positions.length)
    (h : splitPass isolated cross (positions.zip pnls) = .ok result) :
    result.1 + result.2 =
      isolated + cross + (positions.map Position.isolatedMargin).sum + pnls.sum := by
  induction positions generalizing pnls isolated cross with
  | nil =>
    obtain rfl := List.eq_nil_of_length_eq_zero hlen
    rw [← Except.ok.inj h]
    simp
  | cons p rest ih =>
    cases pnls with
    | nil => cases hlen
    | cons upnl pnls =>
      rw [List.zip_cons_cons, splitPass] at h
      rw [List.map_cons, List.sum_cons, List.sum_cons, Position.isolatedMargin]
      split at h
      · rename_i hmode
        simp only [except_bind_ok, checkedAdd_ok, and_assoc, exists_and_left, exists_eq_left'] at h
        obtain ⟨_, _, hrest⟩ := h
        rw [ih (Nat.succ.inj hlen) hrest, if_pos hmode]
        ring
      · rename_i hmode
        simp only [except_bind_ok, checkedAdd_ok, and_assoc, exists_and_left, exists_eq_left'] at h
        obtain ⟨_, hrest⟩ := h
        rw [ih (Nat.succ.inj hlen) hrest, if_neg hmode]
        ring

/-- **Equity is the collateral value and the pnl of every position.** -/
theorem accountHealth_equity {account : AccountSnapshot} {health : AccountHealth}
    (h : accountHealth account markets = .ok health) :
    (∀ p ∈ account.positions, ∃ m, markets.get p.marketId = some m) ∧
      health.equity = health.collateralValue + (account.positions.map (unrealizedAt markets)).sum := by
  simp only [accountHealth, except_bind_ok, except_pure_ok, checkedSub_ok, checkedAdd_ok, and_assoc,
    exists_and_left, exists_eq_left'] at h
  obtain ⟨value, _, pass, hpass, _, ⟨isolated, cross⟩, hsplit, _, _, _, _, _, _, _, _, _, _, rfl⟩ := h
  obtain ⟨hmarkets, hpnls, hlocked⟩ := positionPass_spec hpass
  simp only [PositionPass.start, List.nil_append, zero_add] at hpnls hlocked
  have htotal := splitPass_total (by rw [hpnls, List.length_map]) hsplit
  rw [hpnls] at htotal
  refine ⟨hmarkets, ?_⟩
  simp only [zero_add] at htotal ⊢
  omega

end Kryon

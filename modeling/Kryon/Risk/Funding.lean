import Kryon.Core.Accounting
import Kryon.Lib.Truncation

/-! # Funding accrual (`risk_engine::funding`) -/
namespace Kryon
open Transaction Truncation

structure FundingConfig where
  imbalanceCoeff : Int
  maxRatePerHour : Int
  deriving DecidableEq, Repr

structure FundingState where
  longIndex : Int
  shortIndex : Int
  ratePerHour : Int
  lastUpdate : Nat
  deriving DecidableEq, Repr

def maxFundingElapsedSecs : Nat := 3600

def clamp (value min max : Int) : Int :=
  if value < min then min else if value > max then max else value

def updateFromPremium (cfg : FundingConfig) (state : FundingState) (premium : Int) (now : Nat) :
    Res FundingState := do
  reject (cfg.imbalanceCoeff < 0 ∨ cfg.maxRatePerHour ≤ 0) .invalidConfig
  if now ≤ state.lastUpdate then
    return state
  else do
    let rawRate ← mulPrecision premium cfg.imbalanceCoeff
    let rate := clamp rawRate (-cfg.maxRatePerHour) cfg.maxRatePerHour
    let elapsed := min (now - state.lastUpdate) maxFundingElapsedSecs
    let delta ← mulDiv rate elapsed secsPerHour
    let longIndex ← checkedAdd state.longIndex delta
    let shortIndex ← checkedSub state.shortIndex delta
    return { longIndex, shortIndex, ratePerHour := rate, lastUpdate := now }

def premiumFromMark (mark index : Int) : Res Int := do
  reject (index ≤ 0) .invalidPrice
  let diff ← checkedSub mark index
  divPrecision diff index

theorem abs_clamp_le {x bound : Int} (h : 0 ≤ bound) : |clamp x (-bound) bound| ≤ bound := by
  unfold clamp
  split
  · rw [abs_neg, abs_of_nonneg h]
  · rename_i hlow
    split
    · rw [abs_of_nonneg h]
    · rename_i hhigh
      exact abs_le.mpr ⟨not_lt.mp hlow, not_lt.mp hhigh⟩

/-- The seconds an update at `now` charges for. -/
def FundingState.elapsedAt (state : FundingState) (now : Nat) : Nat :=
  min (now - state.lastUpdate) maxFundingElapsedSecs

/-- The hourly rate of a premium, clamped. -/
def fundingRate (cfg : FundingConfig) (premium : Int) : Int :=
  clamp ((premium * cfg.imbalanceCoeff).tdiv precision) (-cfg.maxRatePerHour) cfg.maxRatePerHour

/-- An update charges the rate over the capped seconds since the last one, truncated. -/
theorem updateFromPremium_spec {cfg : FundingConfig} {state next : FundingState} {premium : Int}
    {now : Nat} (hnow : state.lastUpdate ≤ now)
    (h : updateFromPremium cfg state premium now = .ok next) :
    |fundingRate cfg premium| ≤ cfg.maxRatePerHour ∧ next.lastUpdate = now ∧
      next.longIndex - state.longIndex =
        (fundingRate cfg premium * state.elapsedAt now).tdiv secsPerHour ∧
      next.longIndex + next.shortIndex = state.longIndex + state.shortIndex := by
  simp only [updateFromPremium, except_bind_ok, reject_ok] at h
  obtain ⟨_, hcfg, h⟩ := h
  have hrate : 0 ≤ cfg.maxRatePerHour := by omega
  refine ⟨abs_clamp_le hrate, ?_⟩
  split at h
  case isTrue hsame =>
    obtain rfl := except_pure_ok.mp h
    obtain rfl : state.lastUpdate = now := by omega
    simp [FundingState.elapsedAt]
  case isFalse hlater =>
    simp only [except_bind_ok, checkedAdd_ok, checkedSub_ok, except_pure_ok, mulDiv_ok,
      mulPrecision_ok] at h
    obtain ⟨raw, ⟨_, rfl⟩, delta, ⟨_, _, hdelta⟩, _, ⟨_, rfl⟩, _, ⟨_, rfl⟩, rfl⟩ := h
    refine ⟨rfl, ?_, by ring⟩
    rw [add_sub_cancel_left]
    exact hdelta.symm

/-- The indexes move apart by at most the maximal rate over the seconds charged for. -/
theorem updateFromPremium_bound {cfg : FundingConfig} {state next : FundingState} {premium : Int}
    {now : Nat} (h : updateFromPremium cfg state premium now = .ok next) :
    |next.longIndex - state.longIndex| * secsPerHour ≤ cfg.maxRatePerHour * state.elapsedAt now ∧
      |next.shortIndex - state.shortIndex| * secsPerHour ≤ cfg.maxRatePerHour * state.elapsedAt now := by
  simp only [updateFromPremium, except_bind_ok, reject_ok] at h
  obtain ⟨_, hcfg, h⟩ := h
  have hrate : 0 ≤ cfg.maxRatePerHour := by omega
  have hsecs : (0 : Int) ≤ state.elapsedAt now := Int.natCast_nonneg _
  split at h
  · obtain rfl := except_pure_ok.mp h
    rw [sub_self, sub_self, abs_zero, zero_mul]
    exact ⟨mul_nonneg hrate hsecs, mul_nonneg hrate hsecs⟩
  · simp only [except_bind_ok, checkedAdd_ok, checkedSub_ok, except_pure_ok, mulDiv_ok] at h
    obtain ⟨raw, _, delta, ⟨_, _, hdelta⟩, _, ⟨_, rfl⟩, _, ⟨_, rfl⟩, rfl⟩ := h
    have hmoved : |delta| * secsPerHour ≤ cfg.maxRatePerHour * state.elapsedAt now :=
      calc |delta| * secsPerHour
          ≤ |clamp raw (-cfg.maxRatePerHour) cfg.maxRatePerHour * (state.elapsedAt now : Int)| := by
            rw [← hdelta]
            exact abs_tdiv_mul_le _ (by decide)
        _ = |clamp raw (-cfg.maxRatePerHour) cfg.maxRatePerHour| * state.elapsedAt now := by
            rw [abs_mul, abs_of_nonneg hsecs]
        _ ≤ cfg.maxRatePerHour * state.elapsedAt now :=
            mul_le_mul_of_nonneg_right (abs_clamp_le hrate) hsecs
    constructor
    · rw [add_sub_cancel_left]
      exact hmoved
    · rw [sub_sub_cancel_left, abs_neg]
      exact hmoved

/-- An update brings the state up to its own time. -/
theorem updateFromPremium_lastUpdate {cfg : FundingConfig} {state next : FundingState} {premium : Int}
    {now : Nat} (h : updateFromPremium cfg state premium now = .ok next) : now ≤ next.lastUpdate := by
  simp only [updateFromPremium, except_bind_ok, reject_ok] at h
  obtain ⟨_, _, h⟩ := h
  split at h
  · rename_i hle
    rw [← except_pure_ok.mp h]
    exact hle
  · simp only [except_bind_ok, except_pure_ok] at h
    obtain ⟨_, _, _, _, _, _, _, _, rfl⟩ := h
    exact le_rfl

/-- What one side is charged the other side is paid. -/
theorem updateFromPremium_sum {cfg : FundingConfig} {state next : FundingState} {premium : Int}
    {now : Nat} (h : updateFromPremium cfg state premium now = .ok next) :
    next.longIndex + next.shortIndex = state.longIndex + state.shortIndex := by
  simp only [updateFromPremium, except_bind_ok, reject_ok] at h
  obtain ⟨_, _, h⟩ := h
  split at h
  · rw [except_pure_ok.mp h]
  · simp only [except_bind_ok, checkedAdd_ok, checkedSub_ok, except_pure_ok] at h
    obtain ⟨_, _, _, _, _, ⟨_, rfl⟩, _, ⟨_, rfl⟩, rfl⟩ := h
    ring

end Kryon

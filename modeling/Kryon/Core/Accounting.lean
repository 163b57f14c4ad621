import Kryon.Core.Types

/-! # Position and collateral accounting (`protocol_core::accounting`) -/
namespace Kryon
open Transaction

def collateralValueAfterHaircut (value : Int) (haircutBps : Nat) : Res Int :=
  if value < 0 then .ok value
  else do
    let haircut ← applyBps value haircutBps
    checkedSub value haircut

/-- Integer division of `u32`s rounds down. -/
def impliedMaxLeverageBps (initialMarginBps : Nat) : Res Nat := do
  reject (initialMarginBps = 0) .invalidConfig
  return 100000000 / initialMarginBps

def notional (size price : Int) : Res Int := do
  reject (size ≤ 0 ∨ price ≤ 0) .invalidAmount
  mulPrecision size price

def signedPositionPnl (position : Position) (markPrice : Int) : Res Int := do
  reject (markPrice ≤ 0 ∨ position.size ≤ 0 ∨ position.entryPrice ≤ 0) .invalidPrice
  let priceDelta ← if position.isLong then checkedSub markPrice position.entryPrice
    else checkedSub position.entryPrice markPrice
  mulPrecision position.size priceDelta

def fundingPnl (position : Position) (currentIndex : Int) : Res Int := do
  let delta ← checkedSub currentIndex position.lastFundingIndex
  let raw ← mulPrecision position.size delta
  checkedSub 0 raw

/-- `add_signed`, its running total explicit. -/
def addSignedFrom (out : Int) : List Int → Res Int
  | [] => .ok out
  | value :: values => do
    let out ← checkedAdd out value
    addSignedFrom out values

def addSigned (values : List Int) : Res Int := addSignedFrom 0 values

theorem addSignedFrom_ok {out total : Int} {values : List Int}
    (h : addSignedFrom out values = .ok total) : total = out + values.sum := by
  induction values generalizing out with
  | nil => simpa [addSignedFrom, eq_comm] using h
  | cons value values ih =>
    simp only [addSignedFrom, except_bind_ok, checkedAdd_ok] at h
    obtain ⟨_, ⟨_, rfl⟩, h⟩ := h
    rw [ih h, List.sum_cons, add_assoc]

/-- A debt has no haircut, and a zero haircut keeps the value. -/
theorem collateralValueAfterHaircut_zero {value : Int} (h : InI128 value) :
    collateralValueAfterHaircut value 0 = .ok value := by
  unfold collateralValueAfterHaircut
  split
  · rfl
  · simp [h]

/-- What is left of a non-negative value after its haircut. -/
def afterHaircut (value : Int) (haircutBps : Nat) : Int := value - value * haircutBps / 10000

theorem collateralValueAfterHaircut_of_nonneg {value net : Int} {haircutBps : Nat}
    (hvalue : 0 ≤ value) : collateralValueAfterHaircut value haircutBps = .ok net ↔
      haircutBps ≤ 10000 ∧ InI128 (value * haircutBps / 10000) ∧
        InI128 (afterHaircut value haircutBps) ∧ net = afterHaircut value haircutBps := by
  have hnn : 0 ≤ value * (haircutBps : Int) := mul_nonneg hvalue (Int.natCast_nonneg _)
  unfold collateralValueAfterHaircut
  rw [if_neg (not_lt.mpr hvalue)]
  simp only [except_bind_ok, applyBps_ok, checkedSub_ok, Int.tdiv_eq_ediv_of_nonneg hnn, afterHaircut]
  constructor
  · intro h
    obtain ⟨_, ⟨hbps, htaken, rfl⟩, hleft, rfl⟩ := h
    exact ⟨hbps, htaken, hleft, rfl⟩
  · intro h
    obtain ⟨hbps, htaken, hleft, rfl⟩ := h
    exact ⟨_, ⟨hbps, htaken, rfl⟩, hleft, rfl⟩

@[simp] theorem afterHaircut_zero (haircutBps : Nat) : afterHaircut 0 haircutBps = 0 := by
  simp [afterHaircut]

/-- A haircut grows with the value, and no faster than it. -/
theorem haircut_change {x y : Int} {haircutBps : Nat} (hbps : haircutBps ≤ 10000) (hxy : x ≤ y) :
    x * haircutBps / 10000 ≤ y * haircutBps / 10000 ∧
      y * haircutBps / 10000 ≤ x * haircutBps / 10000 + (y - x) := by
  have hnn : (0 : Int) ≤ haircutBps := Int.natCast_nonneg _
  constructor
  · exact Int.ediv_le_ediv (c := 10000) (by decide) (mul_le_mul_of_nonneg_right hxy hnn)
  · have hgrowth : y * haircutBps ≤ x * haircutBps + (y - x) * 10000 := by nlinarith
    have hdiv := Int.ediv_le_ediv (c := 10000) (by decide) hgrowth
    rwa [Int.add_mul_ediv_right _ _ (by decide)] at hdiv

theorem afterHaircut_mono {x y : Int} {haircutBps : Nat} (hbps : haircutBps ≤ 10000) (hxy : x ≤ y) :
    afterHaircut x haircutBps ≤ afterHaircut y haircutBps := by
  have := (haircut_change hbps hxy).2
  unfold afterHaircut
  omega

theorem afterHaircut_sub_le {x y : Int} {haircutBps : Nat} (hbps : haircutBps ≤ 10000) (hxy : x ≤ y) :
    afterHaircut y haircutBps - afterHaircut x haircutBps ≤ y - x := by
  have := (haircut_change hbps hxy).1
  unfold afterHaircut
  omega

theorem afterHaircut_bounds {value : Int} {haircutBps : Nat} (hbps : haircutBps ≤ 10000)
    (hvalue : 0 ≤ value) :
    0 ≤ afterHaircut value haircutBps ∧ afterHaircut value haircutBps ≤ value := by
  have hmono := afterHaircut_mono hbps hvalue
  have hsub := afterHaircut_sub_le hbps hvalue
  rw [afterHaircut_zero] at hmono hsub
  exact ⟨hmono, by omega⟩

/-- A haircut of at most everything always leaves a value. -/
theorem collateralValueAfterHaircut_eq {value : Int} {haircutBps : Nat} (hbps : haircutBps ≤ 10000)
    (hvalue : 0 ≤ value) (hmax : value ≤ i128Max) :
    collateralValueAfterHaircut value haircutBps = .ok (afterHaircut value haircutBps) := by
  have hbounds := afterHaircut_bounds hbps hvalue
  have htaken : value * haircutBps / 10000 = value - afterHaircut value haircutBps := by
    unfold afterHaircut
    omega
  refine (collateralValueAfterHaircut_of_nonneg hvalue).mpr ⟨hbps, ?_, ?_, rfl⟩
  · rw [htaken]
    exact inI128_zero.between inI128_max (by omega) (by omega)
  · exact inI128_zero.between inI128_max hbounds.1 (hbounds.2.trans hmax)

theorem fundingPnl_ok {position : Position} {index pnl : Int} (h : fundingPnl position index = .ok pnl) :
    pnl = -(position.size * (index - position.lastFundingIndex)).tdiv precision := by
  simp only [fundingPnl, except_bind_ok, checkedSub_ok, mulPrecision_ok] at h
  obtain ⟨_, ⟨_, rfl⟩, _, ⟨_, rfl⟩, _, rfl⟩ := h
  ring

/-! ## What a balance is worth -/

/-- A balance's value after truncation and haircut. -/
def assetWorth (amount price : Int) (haircutBps : Nat) : Int :=
  afterHaircut (amount * price / precision) haircutBps

def valued (amount price : Int) (haircutBps : Nat) : Res Int := do
  let value ← mulPrecision amount price
  collateralValueAfterHaircut value haircutBps

variable {amount price : Int} {haircutBps : Nat}

theorem valued_iff {value : Int} (hamount : 0 ≤ amount) (hprice : 0 < price) :
    valued amount price haircutBps = .ok value ↔ haircutBps ≤ 10000 ∧
      amount * price / precision ≤ i128Max ∧ value = assetWorth amount price haircutBps := by
  have hproduct : 0 ≤ amount * price := mul_nonneg hamount hprice.le
  have hvalue : 0 ≤ amount * price / precision := Int.ediv_nonneg hproduct precision_pos.le
  simp only [valued, except_bind_ok, mulPrecision_ok, Int.tdiv_eq_ediv_of_nonneg hproduct]
  constructor
  · intro h
    obtain ⟨_, ⟨hrange, rfl⟩, hnet⟩ := h
    obtain ⟨hbps, _, _, heq⟩ := (collateralValueAfterHaircut_of_nonneg hvalue).mp hnet
    exact ⟨hbps, hrange.2, heq⟩
  · intro h
    obtain ⟨hbps, hmax, rfl⟩ := h
    exact ⟨_, ⟨inI128_zero.between inI128_max hvalue hmax, rfl⟩,
      collateralValueAfterHaircut_eq hbps hvalue hmax⟩

/-- Taking an amount out of a balance lowers its worth by at most the truncated value of the
amount and one, and at a price in whole units by no more than that value. -/
theorem assetWorth_sub_le {balance : Int} (hbps : haircutBps ≤ 10000) (hprice : 0 < price)
    (hamount : 0 ≤ amount) :
    0 ≤ assetWorth balance price haircutBps - assetWorth (balance - amount) price haircutBps ∧
    assetWorth balance price haircutBps - assetWorth (balance - amount) price haircutBps ≤
      (amount * price).tdiv precision + 1 ∧
    (precision ∣ price →
      assetWorth balance price haircutBps - assetWorth (balance - amount) price haircutBps ≤
        (amount * price).tdiv precision) := by
  have hsplit : balance * price = (balance - amount) * price + amount * price := by ring
  have htaken : 0 ≤ amount * price := mul_nonneg hamount hprice.le
  have hmono : (balance - amount) * price / precision ≤ balance * price / precision :=
    Int.ediv_le_ediv precision_pos (by omega)
  have hlow := afterHaircut_mono hbps hmono
  have hhigh := afterHaircut_sub_le hbps hmono
  rw [Int.tdiv_eq_ediv_of_nonneg htaken]
  unfold assetWorth
  refine ⟨by omega, ?_, ?_⟩
  · have hfloor : balance * price / precision ≤
        (balance - amount) * price / precision + amount * price / precision + 1 := by
      rw [hsplit]
      unfold precision
      omega
    omega
  · intro hdvd
    have hexact : balance * price / precision =
        (balance - amount) * price / precision + amount * price / precision := by
      rw [hsplit, Int.add_ediv_of_dvd_right (Dvd.dvd.mul_left hdvd amount)]
    omega

end Kryon

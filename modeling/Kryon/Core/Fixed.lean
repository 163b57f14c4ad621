import Mathlib.Tactic.Ring
import Mathlib.Tactic.Linarith
import Kryon.Lib.Transaction

/-! # Errors and fixed-point arithmetic

`protocol_core::error` and `protocol_core::fixed`. An `i128` is an `Int` whose
range is checked where the source checks it; the contracts are built with
overflow checks, so a plain operator that leaves its range traps. -/
namespace Kryon
open Transaction

inductive CoreError where
  | mathOverflow | divisionByZero | invalidAmount | invalidPrice | invalidConfig
  | staleOracle | oracleConfidenceTooWide | accountInsolvent | insufficientCollateral
  | notLiquidatable | unauthorized | alreadyInitialized | assetDisabled | positionNotFound
  | directionMismatch | priceOutsideBand | openInterestExceeded
  | liquidationWouldNotImproveHealth | insuranceFundInsufficient | orderExpired
  | orderCancelled | orderOverfilled | selfTrade | oracleQuorumNotMet
  | oracleDeviationTooWide | duplicateOracleSource | tooManyPositions | depositCapExceeded
  | isolatedMarginDisabled | aggregateOiPolicyExceeded | noBadDebtToOffset
  | positionNotInProfit
  deriving DecidableEq, Repr

/-- Why an invocation failed: an error the contract returns, or a host trap (a
failed authorization, an arithmetic panic, a call to an address with no contract). -/
inductive Abort where
  | code (e : CoreError)
  | trap
  deriving DecidableEq, Repr

abbrev Res := Except Abort

/-- `if c { return Err(e) }`. -/
def reject (c : Prop) [Decidable c] (e : CoreError) : Res Unit := failIf c (.code e)

/-- `o.ok_or(e)?`. -/
def okOr {α : Type} (o : Option α) (e : CoreError) : Res α := someOr o (.code e)

@[simp] theorem reject_ok {c : Prop} [Decidable c] {e : CoreError} {u : Unit} :
    reject c e = .ok u ↔ ¬ c := failIf_ok

theorem reject_failsOnly (c : Prop) [Decidable c] (e : CoreError) : FailsOnly (reject c e) (.code e) :=
  failIf_failsOnly c _

@[simp] theorem okOr_ok {α : Type} {o : Option α} {e : CoreError} {a : α} :
    okOr o e = .ok a ↔ o = some a := someOr_ok

/-! ## Integer ranges -/

def i128Max : Int := 170141183460469231731687303715884105727

def u64Max : Nat := 18446744073709551615

def u32Max : Nat := 4294967295

def InI128 (x : Int) : Prop := -i128Max - 1 ≤ x ∧ x ≤ i128Max

instance (x : Int) : Decidable (InI128 x) := inferInstanceAs (Decidable (_ ∧ _))

theorem InI128.of_nonneg {x : Int} (h : 0 ≤ x) (hx : x ≤ i128Max) : InI128 x :=
  ⟨le_trans (by decide) h, hx⟩

/-- What lies between the negation of a number in range and zero is in range. -/
theorem InI128.of_between {x y : Int} (h : InI128 x) (hlow : x ≥ -y) (hhigh : y ≤ 0) : InI128 y := by
  obtain ⟨_, hx⟩ := h
  exact ⟨by omega, hhigh.trans (by decide)⟩

def toI128 (x : Int) : Res Int := if InI128 x then .ok x else .error (.code .mathOverflow)

/-- An unchecked `i128` operator: out of range it panics. -/
def toI128OrTrap (x : Int) : Res Int := if InI128 x then .ok x else .error .trap

def toU64OrTrap (x : Nat) : Res Nat := if x ≤ u64Max then .ok x else .error .trap

def toU32OrTrap (x : Nat) : Res Nat := if x ≤ u32Max then .ok x else .error .trap

/-- `u64::saturating_add`. -/
def saturatingAdd (a b : Nat) : Nat := min (a + b) u64Max

@[simp] theorem toI128_ok {x y : Int} : toI128 x = .ok y ↔ InI128 x ∧ x = y := by
  unfold toI128
  split <;> simp_all

@[simp] theorem toI128OrTrap_ok {x y : Int} : toI128OrTrap x = .ok y ↔ InI128 x ∧ x = y := by
  unfold toI128OrTrap
  split <;> simp_all

@[simp] theorem toU64OrTrap_ok {x y : Nat} : toU64OrTrap x = .ok y ↔ x ≤ u64Max ∧ x = y := by
  unfold toU64OrTrap
  split <;> simp_all

@[simp] theorem toU32OrTrap_ok {x y : Nat} : toU32OrTrap x = .ok y ↔ x ≤ u32Max ∧ x = y := by
  unfold toU32OrTrap
  split <;> simp_all

/-- A value between two `i128`s is an `i128`. -/
theorem InI128.between {a b x : Int} (ha : InI128 a) (hb : InI128 b) (hax : a ≤ x) (hxb : x ≤ b) :
    InI128 x := ⟨ha.1.trans hax, hxb.trans hb.2⟩

theorem inI128_zero : InI128 0 := by decide

theorem inI128_max : InI128 i128Max := ⟨by decide, le_rfl⟩

/-! ## Checked operations -/

def precision : Int := 1000000000000000000

def bpsDenominator : Int := 10000

def secsPerHour : Nat := 3600

theorem precision_pos : 0 < precision := by decide

def checkedAdd (a b : Int) : Res Int := toI128 (a + b)

def checkedSub (a b : Int) : Res Int := toI128 (a - b)

/-- The product of two `i128`s fits the 256-bit intermediate, so only the
quotient is range checked. Division truncates towards zero. -/
def mulDiv (a b denominator : Int) : Res Int :=
  if denominator = 0 then .error (.code .divisionByZero) else toI128 ((a * b).tdiv denominator)

def mulPrecision (a b : Int) : Res Int := mulDiv a b precision

def divPrecision (a b : Int) : Res Int := mulDiv a precision b

def applyBps (amount : Int) (bps : Nat) : Res Int :=
  if (bps : Int) > bpsDenominator then .error (.code .invalidConfig)
  else mulDiv amount bps bpsDenominator

@[simp] theorem checkedAdd_ok {a b c : Int} :
    checkedAdd a b = .ok c ↔ InI128 (a + b) ∧ a + b = c := toI128_ok

@[simp] theorem checkedSub_ok {a b c : Int} :
    checkedSub a b = .ok c ↔ InI128 (a - b) ∧ a - b = c := toI128_ok

theorem mulDiv_ok {a b d c : Int} :
    mulDiv a b d = .ok c ↔ d ≠ 0 ∧ InI128 ((a * b).tdiv d) ∧ (a * b).tdiv d = c := by
  unfold mulDiv
  split <;> simp_all

theorem mulPrecision_ok {a b c : Int} :
    mulPrecision a b = .ok c ↔
      InI128 ((a * b).tdiv precision) ∧ (a * b).tdiv precision = c := by
  simp [mulPrecision, mulDiv_ok, precision_pos.ne']

theorem divPrecision_ok {a b c : Int} :
    divPrecision a b = .ok c ↔
      b ≠ 0 ∧ InI128 ((a * precision).tdiv b) ∧ (a * precision).tdiv b = c := mulDiv_ok

theorem applyBps_ok {a c : Int} {bps : Nat} :
    applyBps a bps = .ok c ↔
      bps ≤ 10000 ∧ InI128 ((a * bps).tdiv 10000) ∧ (a * bps).tdiv 10000 = c := by
  unfold applyBps
  split
  · rename_i h
    have hn : ¬ bps ≤ 10000 := by unfold bpsDenominator at h; omega
    simp [hn]
  · rename_i h
    have hn : bps ≤ 10000 := by unfold bpsDenominator at h; omega
    simp [mulDiv_ok, bpsDenominator, hn]

theorem toI128_failsOnly (x : Int) : FailsOnly (toI128 x) (.code .mathOverflow) := by
  intro e he
  unfold toI128 at he
  split at he
  · cases he
  · exact (Except.error.inj he).symm

theorem checkedAdd_failsOnly (a b : Int) : FailsOnly (checkedAdd a b) (.code .mathOverflow) :=
  toI128_failsOnly _

theorem checkedSub_failsOnly (a b : Int) : FailsOnly (checkedSub a b) (.code .mathOverflow) :=
  toI128_failsOnly _

theorem mulDiv_failsOnly (a b : Int) {d : Int} (hd : d ≠ 0) :
    FailsOnly (mulDiv a b d) (.code .mathOverflow) := by
  unfold mulDiv
  rw [if_neg hd]
  exact toI128_failsOnly _

theorem divPrecision_failsOnly (a : Int) {b : Int} (hb : b ≠ 0) :
    FailsOnly (divPrecision a b) (.code .mathOverflow) := mulDiv_failsOnly a precision hb

theorem applyBps_failsOnly (a : Int) {bps : Nat} (h : bps ≤ 10000) :
    FailsOnly (applyBps a bps) (.code .mathOverflow) := by
  have hrange : ¬ (bps : Int) > bpsDenominator := by
    unfold bpsDenominator
    omega
  unfold applyBps
  rw [if_neg hrange]
  exact mulDiv_failsOnly a bps (by decide)

/-- More than the whole cannot be taken. -/
theorem applyBps_error (a : Int) {bps : Nat} (h : 10000 < bps) :
    applyBps a bps = .error (.code .invalidConfig) := by
  have hrange : (bps : Int) > bpsDenominator := by
    unfold bpsDenominator
    omega
  unfold applyBps
  rw [if_pos hrange]

/-- A zero rate takes nothing. -/
@[simp] theorem applyBps_zero (a : Int) : applyBps a 0 = .ok 0 := by
  simp [applyBps_ok, inI128_zero]

/-- Scaling by one unit of price is exact. -/
theorem mulPrecision_precision {a : Int} (h : InI128 a) : mulPrecision a precision = .ok a := by
  have : (a * precision).tdiv precision = a := Int.mul_tdiv_cancel a precision_pos.ne'
  simp [mulPrecision_ok, this, h]

end Kryon

import Kryon.Deployed
import Kryon.Engine.Effects
import Kryon.Gateway
import Kryon.Lib.Runs
import Kryon.Liquidation
import Kryon.Vault.Seizure

/-! # Bad debt over several liquidations

`absorb_bad_debt` records what a deficit leaves uncovered and leaves it on the balance
as well. The next liquidation of the account finds it there and, if the account is
still under water, records it again with whatever its own trade lost. -/
namespace Kryon
open Transaction Runs

namespace Liquidation

variable {env : Env} {w w' : World} {liquidator user asset : Address} {positionId : Nat}
  {closeSize price : Int}

theorem callEngine_returns {α : Type} {call : Env → Tx α} {a : α} :
    Returns (callEngine env call) w a w' ↔ w.liquidation.engine = some w.deployed.engine ∧
      Returns (call (env.callFrom w.deployed.liquidation)) w a w' := by
  simp only [callEngine, engineAddress, returns_readWith_bind, returns_get_bind, invoke_returns,
    okOr_ok]
  constructor
  · rintro ⟨_, hv, rfl, h⟩; exact ⟨hv, h⟩
  · rintro ⟨hv, h⟩; exact ⟨_, hv, rfl, h⟩

theorem callVault_returns {α : Type} {call : Env → Tx α} {a : α} :
    Returns (callVault env call) w a w' ↔ w.liquidation.vault = some w.deployed.vault ∧
      Returns (call (env.callFrom w.deployed.liquidation)) w a w' := by
  simp only [callVault, vaultAddress, returns_readWith_bind, returns_get_bind, invoke_returns,
    okOr_ok]
  constructor
  · rintro ⟨_, hv, rfl, h⟩; exact ⟨hv, h⟩
  · rintro ⟨hv, h⟩; exact ⟨_, hv, rfl, h⟩

theorem callInsurance_returns {α : Type} {call : Env → Tx α} {a : α} :
    Returns (callInsurance env call) w a w' ↔
      w.liquidation.insurance = some w.deployed.insurance ∧
      Returns (call (env.callFrom w.deployed.liquidation)) w a w' := by
  simp only [callInsurance, insuranceAddress, returns_readWith_bind, returns_get_bind,
    invoke_returns, okOr_ok]
  constructor
  · rintro ⟨_, hv, rfl, h⟩; exact ⟨hv, h⟩
  · rintro ⟨hv, h⟩; exact ⟨_, hv, rfl, h⟩

/-- The reward comes out of the fund's balance, not out of the recorded bad debt. -/
theorem payReward_effect {reward : Int} {u : Unit}
    (h : Returns (payReward env liquidator asset reward) w u w') :
    ∃ tokens balance, w' = { w with tokens, insurance := { w.insurance with balance } } := by
  rcases returns_ite.mp h with ⟨_, hpay⟩ | ⟨_, hnone⟩
  · obtain ⟨_, _, hcall, hret⟩ := returns_bind.mp hpay
    obtain ⟨_, rfl⟩ := returns_pure.mp hret
    obtain ⟨_, _, tokens, _, rfl⟩ := Insurance.payLiquidator_effect (callInsurance_returns.mp hcall).2
    exact ⟨tokens, _, rfl⟩
  · obtain ⟨_, rfl⟩ := returns_pure.mp hnone
    exact ⟨_, _, rfl⟩

/-- The fund's balance falls by a positive reward, and its bad debt stays. -/
theorem payReward_balance {reward : Int} {u : Unit}
    (h : Returns (payReward env liquidator asset reward) w u w') :
    w'.insurance.badDebt = w.insurance.badDebt ∧
      w'.insurance.balanceOf asset = w.insurance.balanceOf asset - max reward 0 := by
  rcases returns_ite.mp h with ⟨hpos, hpay⟩ | ⟨hnone, hskip⟩
  · obtain ⟨_, _, hcall, hret⟩ := returns_bind.mp hpay
    obtain ⟨_, rfl⟩ := returns_pure.mp hret
    obtain ⟨_, _, _, _, rfl⟩ := Insurance.payLiquidator_effect (callInsurance_returns.mp hcall).2
    refine ⟨rfl, ?_⟩
    rw [InsuranceStorage.balanceOf_addBalance, if_pos rfl, max_eq_left (by omega), Int.sub_eq_add_neg]
  · obtain ⟨_, rfl⟩ := returns_pure.mp hskip
    exact ⟨rfl, by omega⟩

/-- What a liquidation records of the account's deficit: nothing, or the whole of the
balance it leaves. -/
structure Records (w w' : World) (user asset : Address) (recorded : Int) : Prop where
  nonneg : 0 ≤ recorded
  deficit : recorded = 0 ∨ w'.vault.balanceOf user asset = -recorded
  badDebt : ∀ a, w'.insurance.badDebtOf a =
    w.insurance.badDebtOf a + if a = asset then recorded else 0

theorem absorbUnderwater_records {health : AccountHealth} {u : Unit}
    (h : Returns (absorbUnderwater env user asset health) w u w') :
    ∃ recorded, Records w w' user asset recorded := by
  have nothing : ∀ v : World, Records v v user asset 0 := fun v =>
    ⟨le_rfl, .inl rfl, fun a => by simp⟩
  rcases returns_ite.mp h with ⟨_, habsorb⟩ | ⟨_, hnone⟩
  · obtain ⟨r, _, hcall, hret⟩ := returns_bind.mp habsorb
    obtain ⟨_, rfl⟩ := returns_pure.mp hret
    rcases Vault.absorbBadDebt_effect (callVault_returns.mp hcall).2 with ⟨_, rfl⟩ |
      ⟨_, vault, tokens, insurance, _, hle, hcredit, rfl, hbad⟩
    · exact ⟨0, nothing _⟩
    · refine ⟨-(w.vault.balanceOf user asset + r), by omega, .inr ?_, hbad⟩
      rw [neg_neg]
      exact hcredit.self
  · obtain ⟨_, rfl⟩ := returns_pure.mp hnone
    exact ⟨0, nothing _⟩

/-- A liquidation step by step: the trade between the two healths, the reward, the seizure and
what insurance absorbs. -/
theorem liquidate_steps {r : LiquidationReceipt}
    (h : Returns (liquidate env liquidator user positionId closeSize price) w r w') :
    ∃ settled trade w₁ w₂ seized w₃, w.liquidation.settlementAsset = some settled ∧
      vaultHealth env w user = .ok r.healthBefore ∧
      Returns (engineLiquidateReduce env user positionId closeSize price) w trade w₁ ∧
      vaultHealth env w₁ user = .ok r.healthAfter ∧ improved r.healthBefore r.healthAfter ∧
      Returns (payReward env liquidator settled r.reward) w₁ () w₂ ∧
      Returns (vaultSeizeForDeficit env user settled) w₂ seized w₃ ∧
      Returns (absorbUnderwater env user settled r.healthAfter) w₃ () w' ∧
      0 < closeSize ∧ 0 < price ∧ liquidationReward w₁ closeSize price = .ok r.reward := by
  simp only [liquidate, returns_lift_bind, returns_readWith_bind, settlementAsset, okOr_ok] at h
  obtain ⟨_, _, _, _, _, hpositive, settled, hs, healthBefore, hbefore, _, _, hrun⟩ := h
  obtain ⟨trade, w₁, hreduce, hrun⟩ := returns_bind.mp hrun
  simp only [returns_lift_bind, returns_readWith_bind, reject_ok, not_not] at hrun
  obtain ⟨healthAfter, hafter, _, himproved, reward, hreward, hrun⟩ := hrun
  obtain ⟨_, w₂, hpay, hrun⟩ := returns_bind.mp hrun
  obtain ⟨seized, w₃, hseize, hrun⟩ := returns_bind.mp hrun
  obtain ⟨_, w₄, habsorb, hret⟩ := returns_bind.mp hrun
  obtain ⟨rfl, rfl⟩ := returns_pure.mp hret
  obtain ⟨hsize, hprice⟩ := not_or.mp (reject_ok.mp hpositive)
  exact ⟨settled, trade, w₁, w₂, seized, w₃, hs, hbefore, hreduce, hafter, himproved, hpay, hseize,
    habsorb, not_le.mp hsize, not_le.mp hprice, hreward⟩

/-- Only the last step of a liquidation touches the recorded bad debt. -/
theorem liquidate_records {r : LiquidationReceipt}
    (h : Returns (liquidate env liquidator user positionId closeSize price) w r w') :
    ∃ settled recorded, w.liquidation.settlementAsset = some settled ∧
      Records w w' user settled recorded := by
  obtain ⟨settled, _, w₁, w₂, _, w₃, hs, _, hreduce, _, _, hpay, hseize, habsorb, _⟩ := liquidate_steps h
  obtain ⟨recorded, hrec⟩ := absorbUnderwater_records habsorb
  obtain ⟨_, _, _, _, _, _, _, _, _, _, _, _, ht, _⟩ := Engine.reducePositionInternal_effect
    (Engine.liquidateReduce_internal (callEngine_returns.mp hreduce).2)
  obtain ⟨_, _, hw₁⟩ := ht.world
  obtain ⟨_, _, hw₂⟩ := payReward_effect hpay
  obtain ⟨_, _, _, hw₃⟩ := Vault.seizeForDeficitInner_effect
    (Vault.seizeForDeficit_inner (callVault_returns.mp hseize).2)
  have hsame : w₃.insurance.badDebt = w.insurance.badDebt := by
    rw [hw₃, hw₂, hw₁]
  refine ⟨settled, recorded, hs, hrec.nonneg, hrec.deficit, fun a => ?_⟩
  rw [hrec.badDebt]
  simp only [InsuranceStorage.badDebtOf, hsame]

end Liquidation

/-! ## Runs -/

/-- The liquidations of one account, and the funding accruals between them. -/
inductive UnwindOp where
  | liquidate (env : Env) (liquidator : Address) (positionId : Nat) (closeSize executionPrice : Int)
  | updateFunding (env : Env) (marketId : Nat)

/-- Everything but the prices, the order gateway and the token ledgers. -/
def World.unpriced (w : World) : World :=
  { w with oracle := {}, gateway := {}, tokens := ∅, events := [] }

namespace UnwindOp

def call (user : Address) : UnwindOp → Tx Unit
  | liquidate env liquidator positionId closeSize executionPrice =>
    void (Liquidation.liquidate env liquidator user positionId closeSize executionPrice)
  | updateFunding env marketId => void (Engine.updateFunding env marketId)

/-- One successful call; prices move freely between calls. -/
abbrev Step (user : Address) : World → UnwindOp → World → Prop :=
  CallStep (UnwindOp.call user) World.unpriced

/-- A liquidation comes before any record of the run, and an accrual too unless its
surplus goes to another account. -/
def FirstRecord (user asset : Address) (before : Int) (s : World) : UnwindOp → Prop
  | liquidate .. => s.insurance.badDebtOf asset ≤ before
  | updateFunding .. =>
    s.insurance.badDebtOf asset ≤ before ∨ s.engine.insurance ≠ some user

end UnwindOp

/-- The bad debt recorded since `before` is no more than the account's deficit. -/
def RecordedOnce (user asset : Address) (before : Int) (s : World) : Prop :=
  s.insurance.badDebtOf asset - before ≤ max 0 (-(s.vault.balanceOf user asset))

instance (user asset : Address) (before : Int) (s : World) :
    Decidable (RecordedOnce user asset before s) := inferInstanceAs (Decidable (_ ≤ _))

variable {user asset : Address} {before : Int} {s s' : World} {op : UnwindOp}

theorem UnwindOp.Step.liquidate_records {env : Env} {liquidator : Address} {positionId : Nat}
    {closeSize price : Int}
    (h : (UnwindOp.liquidate env liquidator positionId closeSize price).Step user s s') :
    ∃ settled recorded, Liquidation.Records s s' user settled recorded := by
  obtain ⟨w, w', rfl, rfl, hcall⟩ := h
  obtain ⟨r, hr⟩ := returns_void.mp hcall
  obtain ⟨settled, recorded, _, hrec⟩ := Liquidation.liquidate_records hr
  exact ⟨settled, recorded, hrec.nonneg, hrec.deficit, hrec.badDebt⟩

/-- An accrual records nothing and pays nobody but the insurance account. -/
theorem UnwindOp.Step.updateFunding_keeps {env : Env} {marketId : Nat}
    (h : (UnwindOp.updateFunding env marketId).Step user s s') (asset : Address) :
    s'.insurance.badDebtOf asset = s.insurance.badDebtOf asset ∧
      (s.engine.insurance ≠ some user →
        s'.vault.balanceOf user asset = s.vault.balanceOf user asset) := by
  obtain ⟨w, w', rfl, rfl, hcall⟩ := h
  obtain ⟨next, hr⟩ := returns_void.mp hcall
  obtain ⟨_, _, vault, rfl, _, hothers, _⟩ := Engine.updateFunding_effect hr
  exact ⟨rfl, fun hne => hothers user asset hne⟩

theorem RecordedOnce.step (hp : RecordedOnce user asset before s)
    (hc : op.FirstRecord user asset before s) (h : op.Step user s s') :
    RecordedOnce user asset before s' := by
  unfold RecordedOnce at hp ⊢
  cases op with
  | liquidate env liquidator positionId closeSize price =>
    obtain ⟨settled, recorded, hnn, hdeficit, hbad⟩ := h.liquidate_records
    have hfirst : s.insurance.badDebtOf asset ≤ before := hc
    rw [hbad asset]
    by_cases ha : asset = settled
    · subst ha
      rw [if_pos rfl]
      rcases hdeficit with hzero | hleft
      · omega
      · rw [hleft, neg_neg, max_eq_right hnn]
        omega
    · rw [if_neg ha]
      omega
  | updateFunding env marketId =>
    obtain ⟨hbad, hbalance⟩ := h.updateFunding_keeps asset
    rw [hbad]
    rcases hc with hfirst | hother
    · omega
    · rw [hbalance hother]
      exact hp

/-- A second record counts the first one again. -/
theorem RecordedOnce.not_twice (hfirst : before < s.insurance.badDebtOf asset)
    (hsecond : s.insurance.badDebtOf asset < s'.insurance.badDebtOf asset) (h : op.Step user s s') :
    ¬ RecordedOnce user asset before s' := by
  unfold RecordedOnce
  cases op with
  | liquidate env liquidator positionId closeSize price =>
    obtain ⟨settled, recorded, hnn, hdeficit, hbad⟩ := h.liquidate_records
    rw [hbad asset] at hsecond ⊢
    by_cases ha : asset = settled
    · subst ha
      rw [if_pos rfl] at hsecond ⊢
      rcases hdeficit with hzero | hleft
      · omega
      · rw [hleft, neg_neg, max_eq_right hnn]
        omega
    · rw [if_neg ha] at hsecond
      omega
  | updateFunding env marketId =>
    obtain ⟨hbad, _⟩ := h.updateFunding_keeps asset
    omega

/-- **Bad debt is recorded once when only one liquidation of the run records any.** In a
run of liquidations of one account with price moves and accruals in between, where no
liquidation follows a record, the recorded increase stays within the account's deficit
in every state; a liquidation that records after an earlier record always exceeds it. -/
theorem bad_debt_recorded_once {t : List (UnwindOp × World)} (hr : IsRun (UnwindOp.Step user) s t) :
    (AllSteps (fun s' op => op.FirstRecord user asset (s.insurance.badDebtOf asset) s') s t →
      AllStates (RecordedOnce user asset (s.insurance.badDebtOf asset)) s t) ∧
    ∀ (op : UnwindOp) s', op.Step user (final s t) s' →
      s.insurance.badDebtOf asset < (final s t).insurance.badDebtOf asset →
      (final s t).insurance.badDebtOf asset < s'.insurance.badDebtOf asset →
      ¬ RecordedOnce user asset (s.insurance.badDebtOf asset) s' := by
  have hstart : RecordedOnce user asset (s.insurance.badDebtOf asset) s := by
    unfold RecordedOnce
    omega
  have hstep : ∀ v (op : UnwindOp) v', RecordedOnce user asset (s.insurance.badDebtOf asset) v →
      op.FirstRecord user asset (s.insurance.badDebtOf asset) v → op.Step user v v' →
      RecordedOnce user asset (s.insurance.badDebtOf asset) v' :=
    fun v op v' hp hc h => hp.step hc h
  refine ⟨fun hc => invariant hstep hstart hr hc, ?_⟩
  intro op s' h hfirst hsecond
  exact RecordedOnce.not_twice hfirst hsecond h

namespace Sample

/-- Alice is long fifty from bob when the price halves; the fund is empty and pays no rewards. -/
def underwater : World :=
  let w := trading 1000
  let filled := commit (Gateway.settleFill (host 1000)
    (matched (bid (50 * precision) 1 2000) (ask (50 * precision) 1 2000) (50 * precision))) w
  { filled with
    oracle := prices (50 * precision) 1000
    liquidation := { filled.liquidation with maxRewardBps := some 0 } }

/-- A part of alice's position closed at the halved price. -/
def closeOut (size : Int) : UnwindOp :=
  .liquidate (host 1000) keeper 1 (size * precision) (50 * precision)

def unwind (ops : List UnwindOp) : List (UnwindOp × World) :=
  viewed World.unpriced (execute (UnwindOp.call alice) underwater ops)

end Sample

open Sample in
/-- Two liquidations of 250 and 1500 uncovered: 1750 recorded for a deficit of 1500. -/
theorem second_liquidation_records_again :
    0 ≤ underwater.vault.balanceOf alice usdc ∧
    IsRun (UnwindOp.Step alice) underwater.unpriced (unwind [closeOut 25, closeOut 25]) ∧
    ¬ AllStates (RecordedOnce alice usdc (underwater.insurance.badDebtOf usdc)) underwater.unpriced
      (unwind [closeOut 25, closeOut 25]) := by
  refine ⟨by decide +kernel, isRun_execute (w := underwater) (by decide +kernel), fun h => ?_⟩
  have hlast := h.at_final
  revert hlast
  decide +kernel

open Sample in
/-- The first liquidation leaves half of the collateral, the second records 1500 for a deficit of 1500. -/
theorem bad_debt_recorded_once_first :
    AllStates (RecordedOnce alice usdc (underwater.insurance.badDebtOf usdc)) underwater.unpriced
      (unwind [closeOut 10, closeOut 40]) ∧
    (final underwater.unpriced (unwind [closeOut 10, closeOut 40])).insurance.badDebtOf usdc =
      1500 * precision := by
  have hr : IsRun (UnwindOp.Step alice) underwater.unpriced (unwind [closeOut 10, closeOut 40]) :=
    isRun_execute (w := underwater) (by decide +kernel)
  refine ⟨(bad_debt_recorded_once hr).1 ⟨le_rfl, ?_, trivial⟩, by decide +kernel⟩
  show InsuranceStorage.badDebtOf _ usdc ≤ _
  decide +kernel

end Kryon

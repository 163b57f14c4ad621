import Kryon.Liquidation.Exhaustion
import Kryon.Liquidation.Lockstep
import Kryon.Liquidation.Reward
import Kryon.Insurance.Custody

/-! # A liquidation with another insurance balance

The reward is the one step of a liquidation that asks what the insurance fund has: it is paid
whole or the call is refused. Past it a fund with another balance covers more of the deficit or
less and what it does not cover is recorded; the position is closed the same way. -/
namespace Kryon
open Transaction

/-- The same world but for what the insurance fund has. -/
def Refunded (w v : World) : Prop :=
  ∃ balance tokens, v = { w with insurance := { w.insurance with balance }, tokens }

/-- A transfer from `source` goes through when it holds the amount. -/
def Env.CoveredTransfers (env : Env) (asset source : Address) : Prop :=
  ∀ {tokens : Tokens} {target : Address} {amount : Int}, 0 < amount →
    amount ≤ tokens.held asset source →
    ∃ tokens', env.transfer tokens asset source target amount = some tokens'

/-- The fund's balance is a number the contract can store, and the fund holds that many tokens. -/
structure Backed (v : World) (asset : Address) : Prop where
  nonneg : 0 ≤ v.insurance.balanceOf asset
  bounded : v.insurance.balanceOf asset ≤ i128Max
  held : v.insurance.balanceOf asset ≤ v.tokens.held asset v.deployed.insurance

section
variable {env : Env} {w v w' : World} {user asset liquidator : Address} {amount reward : Int}

/-- A transfer out of the fund that its balance pays for. -/
theorem Backed.transfer (hb : Backed v asset) (hideal : env.IdealTransfers)
    (hcovered : env.CoveredTransfers asset v.deployed.insurance) (target : Address) (hpos : 0 < amount)
    (hle : amount ≤ v.insurance.balanceOf asset) :
    ∃ tokens, env.transfer v.tokens asset v.deployed.insurance target amount = some tokens ∧
      Backed { v with tokens, insurance := v.insurance.addBalance asset (-amount) } asset := by
  obtain ⟨tokens, ht⟩ : ∃ tokens, env.transfer v.tokens asset v.deployed.insurance target amount =
      some tokens := hcovered hpos (hle.trans hb.held)
  have hmoved := hideal ht asset v.deployed.insurance
  have hheld := hb.held
  have hbound := hb.bounded
  have hleft : (v.insurance.addBalance asset (-amount)).balanceOf asset =
      v.insurance.balanceOf asset - amount := by
    rw [InsuranceStorage.balanceOf_addBalance, if_pos rfl, Int.sub_eq_add_neg]
  refine ⟨tokens, ht, ?_, ?_, ?_⟩
  · show 0 ≤ (v.insurance.addBalance asset (-amount)).balanceOf asset
    omega
  · show (v.insurance.addBalance asset (-amount)).balanceOf asset ≤ i128Max
    omega
  · show (v.insurance.addBalance asset (-amount)).balanceOf asset ≤ tokens.held asset v.deployed.insurance
    have hsource : (if asset = asset ∧ v.deployed.insurance = v.deployed.insurance then amount else 0) =
        amount := if_pos ⟨rfl, rfl⟩
    rw [hleft, hmoved, hsource]
    split <;> omega

theorem Backed.congr (hb : Backed v asset) (h : w'.insurance = v.insurance ∧ w'.tokens = v.tokens ∧
    w'.deployed = v.deployed) : Backed w' asset := by
  obtain ⟨hinsurance, htokens, hdeployed⟩ := h
  refine ⟨?_, ?_, ?_⟩
  · rw [hinsurance]
    exact hb.nonneg
  · rw [hinsurance]
    exact hb.bounded
  · rw [hinsurance, htokens, hdeployed]
    exact hb.held

namespace Insurance

theorem decreaseBalance_backed (hb : Backed v asset) (hnn : 0 ≤ amount)
    (hle : amount ≤ v.insurance.balanceOf asset) :
    Returns (decreaseBalance asset amount) v (v.insurance.balanceOf asset - amount)
      { v with insurance := v.insurance.addBalance asset (-amount) } := by
  have hbound := hb.bounded
  have hsub : checkedSub (v.insurance.balanceOf asset) amount = .ok (v.insurance.balanceOf asset - amount) :=
    checkedSub_ok.mpr ⟨.of_nonneg (by omega) (by omega), rfl⟩
  refine returns_readWith_bind.mpr ⟨_, hsub, ?_⟩
  exact returns_modify_bind.mpr (returns_pure.mpr ⟨rfl, rfl⟩)

/-- The reward is paid whole or not at all. -/
theorem payLiquidator_backed (liquidator : Address) {l : Address} (hauth : requireLiquidation env v.insurance = .ok l)
    (hb : Backed v asset) (hideal : env.IdealTransfers)
    (hcovered : env.CoveredTransfers asset v.deployed.insurance) (hpos : 0 < amount)
    (hle : amount ≤ v.insurance.balanceOf asset) :
    ∃ tokens next, Returns (payLiquidator env liquidator asset amount) v next
        { v with tokens, insurance := v.insurance.addBalance asset (-amount) } ∧
      Backed { v with tokens, insurance := v.insurance.addBalance asset (-amount) } asset := by
  obtain ⟨tokens, ht, hafter⟩ := hb.transfer hideal hcovered liquidator hpos hle
  refine ⟨tokens, v.insurance.balanceOf asset - amount, ?_, hafter⟩
  refine returns_readWith_bind.mpr ⟨l, hauth, returns_lift_bind.mpr ⟨(), reject_ok.mpr (by omega), ?_⟩⟩
  refine returns_get_bind.mpr (returns_lift_bind.mpr ⟨(), reject_ok.mpr (by omega), ?_⟩)
  refine returns_bind.mpr ⟨_, _, decreaseBalance_backed hb hpos.le hle, ?_⟩
  exact returns_bind.mpr ⟨(), _, tokenTransfer_returns.mpr ⟨tokens, ht, rfl⟩, returns_pure.mpr ⟨rfl, rfl⟩⟩

theorem payLiquidator_short {l : Address} (hauth : requireLiquidation env v.insurance = .ok l)
    (hpos : 0 < amount) (hshort : v.insurance.balanceOf asset < amount) :
    (payLiquidator env liquidator asset amount).run v = .error (.code .insuranceFundInsufficient) := by
  have hpositive : reject (amount ≤ 0) .invalidAmount = .ok () := reject_ok.mpr (by omega)
  have hshorter : reject (v.insurance.balanceOf asset < amount) .insuranceFundInsufficient =
      .error (.code .insuranceFundInsufficient) := if_pos hshort
  refine (run_readWith_bind (g := fun w : World => requireLiquidation env w.insurance) hauth).trans ?_
  refine (run_lift_bind hpositive).trans ?_
  exact run_get_bind.trans (run_bind_of_error (run_lift_error hshorter))

/-- The fund covers what it can of a deficit. -/
theorem coverDeficit_backed {vault : Address} (hauth : requireVault env v.insurance = .ok vault)
    (hb : Backed v asset) (hideal : env.IdealTransfers)
    (hcovered : env.CoveredTransfers asset v.deployed.insurance) (hpos : 0 < amount) :
    ∃ tokens balance, Returns (coverDeficit env asset amount) v
      (min (v.insurance.balanceOf asset) amount)
      { v with tokens, insurance := { v.insurance with balance } } := by
  have hnn := hb.nonneg
  have hpositive : reject (amount ≤ 0) .invalidAmount = .ok () := reject_ok.mpr (by omega)
  have hmin : (if v.insurance.balanceOf asset < amount then v.insurance.balanceOf asset else amount) =
      min (v.insurance.balanceOf asset) amount := by
    split <;> omega
  have hstart : (coverDeficit env asset amount).run v =
      (if min (v.insurance.balanceOf asset) amount ≤ 0 then return 0
        else do
          let _ ← decreaseBalance asset (min (v.insurance.balanceOf asset) amount)
          tokenTransfer env asset v.deployed.insurance vault (min (v.insurance.balanceOf asset) amount)
          return min (v.insurance.balanceOf asset) amount : Tx Int).run v := by
    refine (run_readWith_bind (g := fun w : World => requireVault env w.insurance) hauth).trans ?_
    refine (run_lift_bind hpositive).trans (run_get_bind.trans ?_)
    simp only [hmin]
  by_cases hnone : min (v.insurance.balanceOf asset) amount ≤ 0
  · refine ⟨v.tokens, v.insurance.balance, hstart.trans ?_⟩
    rw [if_pos hnone, show min (v.insurance.balanceOf asset) amount = 0 by omega]
    rfl
  · have hsome : 0 < min (v.insurance.balanceOf asset) amount := by omega
    have hmost : min (v.insurance.balanceOf asset) amount ≤ v.insurance.balanceOf asset := by omega
    obtain ⟨tokens, ht, _⟩ := hb.transfer hideal hcovered vault hsome hmost
    refine ⟨tokens, (v.insurance.addBalance asset (-min (v.insurance.balanceOf asset) amount)).balance,
      hstart.trans ?_⟩
    rw [if_neg hnone]
    refine returns_bind.mpr ⟨_, _, decreaseBalance_backed hb (by omega) (by omega), ?_⟩
    exact returns_bind.mpr ⟨(), _, tokenTransfer_returns.mpr ⟨tokens, ht, rfl⟩, returns_pure.mpr ⟨rfl, rfl⟩⟩

theorem coverDeficit_auth {r : Int} (h : Returns (coverDeficit env asset amount) w r w') :
    ∃ vault, requireVault env w.insurance = .ok vault := by
  obtain ⟨vault, hauth, _⟩ := returns_readWith_bind.mp h
  exact ⟨vault, hauth⟩

/-- A debt is recorded unless that overflows. -/
theorem recordBadDebt_backed (asset : Address) {vault : Address} (hauth : requireVault env v.insurance = .ok vault)
    (hpos : 0 < amount) :
    Returns (recordBadDebt env asset amount) v (v.insurance.badDebtOf asset + amount)
        { v with insurance := v.insurance.setBadDebt asset (v.insurance.badDebtOf asset + amount) } ∨
      (recordBadDebt env asset amount).run v = .error (.code .mathOverflow) ∧
        ¬ InI128 (v.insurance.badDebtOf asset + amount) := by
  have hpositive : reject (amount ≤ 0) .invalidAmount = .ok () := reject_ok.mpr (by omega)
  by_cases hroom : InI128 (v.insurance.badDebtOf asset + amount)
  · left
    refine returns_readWith_bind.mpr ⟨vault, hauth, returns_lift_bind.mpr ⟨(), hpositive, ?_⟩⟩
    refine returns_readWith_bind.mpr ⟨_, checkedAdd_ok.mpr ⟨hroom, rfl⟩, ?_⟩
    exact returns_modify_bind.mpr (returns_pure.mpr ⟨rfl, rfl⟩)
  · right
    have hover : checkedAdd (v.insurance.badDebtOf asset) amount = .error (.code .mathOverflow) := if_neg hroom
    refine ⟨?_, hroom⟩
    refine (run_readWith_bind (g := fun w : World => requireVault env w.insurance) hauth).trans ?_
    refine (run_lift_bind hpositive).trans (run_bind_of_error ?_)
    show (checkedAdd (v.insurance.badDebtOf asset) amount).map _ = _
    rw [hover]
    rfl

end Insurance

/-! ## The deficit -/

/-- Two worlds after the same close: nothing but the funds, what the deficit was credited and what
was recorded of it differs. -/
structure SameClose (user asset : Address) (w v : World) : Prop where
  engine : v.engine = w.engine
  positions : v.vault.positions = w.vault.positions
  balances : ∀ holder a, ¬ (holder = user ∧ a = asset) → v.vault.balanceOf holder a = w.vault.balanceOf holder a
  badDebts : ∀ a, a ≠ asset → v.insurance.badDebtOf a = w.insurance.badDebtOf a
  deficit : v.vault.balanceOf user asset + v.insurance.badDebtOf asset =
    w.vault.balanceOf user asset + w.insurance.badDebtOf asset

theorem Env.CoveredTransfers.callFrom {source : Address} (h : env.CoveredTransfers asset source)
    (contract : Address) : (env.callFrom contract).CoveredTransfers asset source := fun hpos hle => h hpos hle

theorem Env.IdealTransfers.callFrom (h : env.IdealTransfers) (contract : Address) :
    (env.callFrom contract).IdealTransfers := fun ht => h ht

theorem Refunded.sameClose (h : Refunded w v) (user asset : Address) : SameClose user asset w v := by
  obtain ⟨balance, tokens, rfl⟩ := h
  exact ⟨rfl, rfl, fun _ _ _ => rfl, fun _ _ => rfl, rfl⟩

namespace Vault

theorem creditPositive_ok (hnn : 0 ≤ amount) (hroom : InI128 (v.vault.balanceOf user asset + amount)) :
    ∃ vault, Returns (creditPositive user asset amount) v () { v with vault } ∧
      v.vault.Credited vault user asset amount := by
  by_cases hpos : amount > 0
  · refine ⟨_, returns_ite.mpr (.inl ⟨hpos, ?_⟩), .setBalance _ _ _ _⟩
    exact returns_bind.mpr ⟨_, _, increaseBalance_returns.mpr ⟨hroom, rfl, rfl⟩, returns_pure.mpr ⟨rfl, rfl⟩⟩
  · obtain rfl : amount = 0 := by omega
    exact ⟨v.vault, returns_ite.mpr (.inr ⟨hpos, returns_pure.mpr ⟨rfl, rfl⟩⟩), .refl _ _ _⟩

/-- The record of what is left uncovered, unless it is out of range. -/
theorem recordUncovered_backed (env : Env) (asset : Address) {vault : Address} (hwired : v.vault.insurance = some v.deployed.insurance)
    (hauth : Insurance.requireVault (env.callFrom v.deployed.vault) v.insurance = .ok vault)
    (hnn : 0 ≤ amount) :
    (∃ insurance, Returns (recordUncovered env asset amount) v () { v with insurance } ∧
      ∀ a, insurance.badDebtOf a = v.insurance.badDebtOf a + if a = asset then amount else 0) ∨
    (recordUncovered env asset amount).run v = .error (.code .mathOverflow) ∧ 0 < amount ∧
      ¬ InI128 (v.insurance.badDebtOf asset + amount) := by
  by_cases hpos : amount > 0
  · rcases Insurance.recordBadDebt_backed asset hauth hpos with hrecord | ⟨herror, hroom⟩
    · refine .inl ⟨v.insurance.setBadDebt asset (v.insurance.badDebtOf asset + amount),
        returns_ite.mpr (.inl ⟨hpos, ?_⟩), fun a => ?_⟩
      · refine returns_bind.mpr ⟨v.insurance.badDebtOf asset + amount, _, ?_, returns_pure.mpr ⟨rfl, rfl⟩⟩
        refine returns_readWith_bind.mpr ⟨_, okOr_ok.mpr hwired, returns_get_bind.mpr ?_⟩
        exact invoke_returns.mpr ⟨rfl, hrecord⟩
      · rw [InsuranceStorage.badDebtOf_setBadDebt]
        split
        · rename_i ha
          rw [ha]
        · rw [add_zero]
    · refine .inr ⟨?_, hpos, hroom⟩
      unfold recordUncovered
      rw [if_pos hpos]
      refine run_bind_of_error ?_
      refine (run_readWith_bind (g := insuranceAddress) (okOr_ok.mpr hwired)).trans (run_get_bind.trans ?_)
      exact (invoke_run rfl).trans herror
  · obtain rfl : amount = 0 := by omega
    refine .inl ⟨v.insurance, returns_ite.mpr (.inr ⟨hpos, returns_pure.mpr ⟨rfl, rfl⟩⟩), fun a => ?_⟩
    rw [ite_self, add_zero]

theorem coverAndRecord_backed {fundVault : Address} {deficit : Int}
    (hwired : v.vault.insurance = some v.deployed.insurance)
    (hfund : Insurance.requireVault (env.callFrom v.deployed.vault) v.insurance = .ok fundVault)
    (hb : Backed v asset) (hideal : env.IdealTransfers)
    (hcovered : env.CoveredTransfers asset v.deployed.insurance)
    (hdeficit : checkedSub 0 (v.vault.balanceOf user asset) = .ok deficit) (hpos : 0 < deficit) :
    (∃ r vault tokens insurance, Returns (coverAndRecord env user asset deficit) v r
        { v with vault, tokens, insurance } ∧ v.vault.Credited vault user asset r ∧
      ∀ a, insurance.badDebtOf a = v.insurance.badDebtOf a + if a = asset then deficit - r else 0) ∨
    (coverAndRecord env user asset deficit).run v = .error (.code .mathOverflow) ∧
      ∃ uncovered, 0 < uncovered ∧ uncovered ≤ deficit ∧
        ¬ InI128 (v.insurance.badDebtOf asset + uncovered) := by
  have hnn := hb.nonneg
  obtain ⟨hrange, hvalue⟩ := checkedSub_ok.mp hdeficit
  have hmost := hrange.2
  obtain ⟨tokens, balance, hcover⟩ := Insurance.coverDeficit_backed hfund hb
    (hideal.callFrom _) (hcovered.callFrom _) hpos
  generalize hc : min (v.insurance.balanceOf asset) deficit = covered at hcover
  have hcall : Returns (insuranceCoverDeficit env asset deficit) v covered
      { v with tokens, insurance := { v.insurance with balance } } :=
    returns_readWith_bind.mpr ⟨_, okOr_ok.mpr hwired,
      returns_get_bind.mpr (invoke_returns.mpr ⟨rfl, hcover⟩)⟩
  have hroom : InI128 (v.vault.balanceOf user asset + covered) :=
    hrange.of_between (by omega) (by omega)
  have hcovers : 0 ≤ covered := by omega
  obtain ⟨vault, hcredit, hcredited⟩ := creditPositive_ok
    (v := { v with tokens, insurance := { v.insurance with balance } }) hcovers hroom
  have hleft : checkedSub deficit covered = .ok (deficit - covered) :=
    checkedSub_ok.mpr ⟨.of_nonneg (by omega) (by omega), rfl⟩
  have hwired' : vault.insurance = some v.deployed.insurance := by
    obtain ⟨_, hrest⟩ := hcredited.rest
    rw [hrest]
    exact hwired
  have hnext : (coverAndRecord env user asset deficit).run v =
      (recordUncovered env asset (deficit - covered) >>= fun _ => pure covered : Tx Int).run
        { v with vault, tokens, insurance := { v.insurance with balance } } :=
    hcall.run_bind.trans (hcredit.run_bind.trans (run_lift_bind hleft))
  have huncovered : 0 ≤ deficit - covered := by omega
  rcases recordUncovered_backed env asset
    (v := { v with vault, tokens, insurance := { v.insurance with balance } }) hwired' hfund huncovered with
    ⟨insurance, hrecord, hbad⟩ | ⟨herror, huncovered, hover⟩
  · exact .inl ⟨covered, vault, tokens, insurance, hnext.trans hrecord.run_bind, hcredited, hbad⟩
  · exact .inr ⟨hnext.trans (run_bind_of_error herror), _, huncovered, by omega, hover⟩

/-- A fund with another balance takes on the same deficit, unless the debt it has to record for
that is out of range. -/
theorem absorbBadDebt_backed {r : Int} (hv : Refunded w v) (hb : Backed v asset)
    (hideal : env.IdealTransfers) (hcovered : env.CoveredTransfers asset v.deployed.insurance)
    (h : Returns (absorbBadDebt env user asset) w r w') :
    (∃ r' v', Returns (absorbBadDebt env user asset) v r' v' ∧ SameClose user asset w' v') ∨
      (absorbBadDebt env user asset).run v = .error (.code .mathOverflow) ∧
        ∃ uncovered, 0 < uncovered ∧ uncovered ≤ -v.vault.balanceOf user asset ∧
          ¬ InI128 (v.insurance.badDebtOf asset + uncovered) := by
  have heffect := absorbBadDebt_effect h
  have hsame := hv.sameClose user asset
  obtain ⟨l, hauth, hbody⟩ := returns_readWith_bind.mp h
  rw [returns_get_bind] at hbody
  obtain ⟨balance, tokens, rfl⟩ := hv
  rcases heffect with ⟨hnn, rfl⟩ | ⟨hneg, vault, _, insurance, _, _, hcredited, rfl, hdebt⟩
  · refine .inl ⟨0, _, ?_, hsame⟩
    exact returns_readWith_bind.mpr ⟨l, hauth, returns_get_bind.mpr
      (returns_ite.mpr (.inl ⟨hnn, returns_pure.mpr ⟨rfl, rfl⟩⟩))⟩
  · rcases returns_ite.mp hbody with ⟨hnn, _⟩ | ⟨hdebtor, hbody⟩
    · omega
    obtain ⟨deficit, hdeficit, hrun⟩ := returns_lift_bind.mp hbody
    obtain ⟨_, _, hcall, _⟩ := returns_bind.mp hrun
    obtain ⟨target, htarget, hcall⟩ := returns_readWith_bind.mp hcall
    obtain ⟨hreached, hcover⟩ := invoke_returns.mp (returns_get_bind.mp hcall)
    obtain ⟨fundVault, hfund⟩ := Insurance.coverDeficit_auth hcover
    obtain ⟨_, hvalue⟩ := checkedSub_ok.mp hdeficit
    have hwired : w.vault.insurance = some w.deployed.insurance := hreached ▸ okOr_ok.mp htarget
    rcases coverAndRecord_backed (v := { w with insurance := { w.insurance with balance }, tokens }) hwired
      hfund hb hideal hcovered hdeficit (by omega) with
      ⟨r', vault', tokens', insurance', hcovers, hcredited', hdebt'⟩ | ⟨herror, uncovered, hpos, hle, hover⟩
    · refine .inl ⟨r', { w with vault := vault', tokens := tokens', insurance := insurance' }, ?_, rfl, ?_,
        fun holder a hne => ?_, fun a hne => ?_, ?_⟩
      · exact returns_readWith_bind.mpr ⟨l, hauth, returns_get_bind.mpr
          (returns_ite.mpr (.inr ⟨hdebtor, returns_lift_bind.mpr ⟨deficit, hdeficit, hcovers⟩⟩))⟩
      · obtain ⟨_, hrest⟩ := hcredited.rest
        obtain ⟨_, hrest'⟩ := hcredited'.rest
        rw [hrest, hrest']
      · rw [hcredited'.balanceOf, hcredited.balanceOf, if_neg hne, if_neg hne]
      · rw [hdebt', hdebt, if_neg hne, if_neg hne]
        rfl
      · show vault'.balanceOf user asset + insurance'.badDebtOf asset =
          vault.balanceOf user asset + insurance.badDebtOf asset
        rw [hcredited'.self, hcredited.self, hdebt', hdebt, if_pos rfl, if_pos rfl]
        change w.vault.balanceOf user asset + r' + (w.insurance.badDebtOf asset + (deficit - r')) = _
        omega
    · have hwhole : uncovered ≤ -w.vault.balanceOf user asset := by omega
      refine .inr ⟨?_, uncovered, hpos, hwhole, hover⟩
      refine (run_readWith_bind (s := { w with insurance := { w.insurance with balance }, tokens })
        (g := fun w : World => requireLiquidation env w.vault) hauth).trans (run_get_bind.trans ?_)
      rw [if_neg hdebtor]
      exact (run_lift_bind hdeficit).trans herror

theorem absorbBadDebt_covers {r : Int} (h : Returns (absorbBadDebt env user asset) w r w') :
    r ≤ max 0 (w.insurance.balanceOf asset) := by
  obtain ⟨_, _, hbody⟩ := returns_readWith_bind.mp h
  rw [returns_get_bind] at hbody
  rcases returns_ite.mp hbody with ⟨_, hnone⟩ | ⟨_, hbody⟩
  · obtain ⟨rfl, _⟩ := returns_pure.mp hnone
    exact le_max_left _ _
  · obtain ⟨_, _, hrun⟩ := returns_lift_bind.mp hbody
    obtain ⟨covered, _, hcall, hrun⟩ := returns_bind.mp hrun
    obtain ⟨_, _, _, hrun⟩ := returns_bind.mp hrun
    obtain ⟨_, _, hrun⟩ := returns_lift_bind.mp hrun
    obtain ⟨_, _, _, hret⟩ := returns_bind.mp hrun
    obtain ⟨rfl, _⟩ := returns_pure.mp hret
    obtain ⟨_, _, hcall⟩ := returns_readWith_bind.mp hcall
    obtain ⟨_, _, hcover⟩ := Insurance.coverDeficit_effect (invoke_returns.mp (returns_get_bind.mp hcall)).2
    rcases hcover with ⟨rfl, _⟩ | ⟨hle, _⟩
    · exact le_max_left _ _
    · exact hle.trans (le_max_right _ _)

end Vault

/-! ## The liquidation -/

theorem Akin.refunded {F : Store Address Int × Tokens → Store Address Int × Tokens → Prop}
    (h : Akin F Eq w v) : Refunded w v := by
  obtain ⟨balance, tokens, market, marketConfig, hv⟩ := h.frame
  have hvault : v.vault.marketConfig = w.vault.marketConfig :=
    KeyedStore.ext fun k => related_eq (h.marketConfig k) fun _ _ hsame => hsame.symm
  have hengine : v.engine.market = w.engine.market := by
    refine KeyedStore.ext fun k => related_eq (h.market k) fun market market' hsame => ?_
    obtain ⟨hconfig, hband⟩ := hsame
    cases market
    cases market'
    cases hconfig
    cases hband
    rfl
  have hmarket : market = w.engine.market := by rw [← hengine, hv]; rfl
  have hconfig : marketConfig = w.vault.marketConfig := by rw [← hvault, hv]; rfl
  exact ⟨balance, tokens, by rw [hv, hmarket, hconfig]; rfl⟩

theorem Refunded.akin (h : Refunded w v) : Akin (fun _ _ => True) Eq w v := by
  obtain ⟨balance, tokens, rfl⟩ := h
  refine ⟨⟨balance, tokens, _, _, rfl⟩, trivial, fun k => ?_, fun k => ?_⟩
  · show Option.Rel _ (w.engine.market.get k) (w.engine.market.get k)
    cases w.engine.market.get k with
    | none => exact .none
    | some market => exact .some ⟨rfl, rfl⟩
  · show Option.Rel _ (w.vault.marketConfig.get k) (w.vault.marketConfig.get k)
    cases w.vault.marketConfig.get k with
    | none => exact .none
    | some config => exact .some rfl

theorem accountHealth_refunded (h : Refunded w v) (env : Env) (user asset : Address) :
    Vault.accountHealth env v user asset = Vault.accountHealth env w user asset := by
  obtain ⟨balance, tokens, rfl⟩ := h
  exact Vault.accountHealth_congr ⟨rfl, rfl, rfl, rfl, rfl, rfl, rfl⟩ ⟨rfl, rfl, fun _ => rfl⟩

theorem healthFollows_refunded :
    HealthFollows (fun _ => False) (fun _ _ => True) Eq := by
  intro env w v user asset h health hok
  exact .inr ⟨health, (accountHealth_refunded h.refunded env user asset).trans hok, rfl⟩

namespace Liquidation

theorem payReward_backed (hv : Refunded w v) (hb : Backed v asset) (hideal : env.IdealTransfers)
    (hcovered : env.CoveredTransfers asset v.deployed.insurance)
    (h : Returns (payReward env liquidator asset reward) w () w')
    (henough : reward ≤ 0 ∨ reward ≤ v.insurance.balanceOf asset) :
    ∃ v', Returns (payReward env liquidator asset reward) v () v' ∧ Refunded w' v' ∧ Backed v' asset ∧
      v'.deployed = v.deployed := by
  obtain ⟨balance, tokens, rfl⟩ := hv
  rcases returns_ite.mp h with ⟨hpos, hpay⟩ | ⟨hnone, hskip⟩
  · obtain ⟨_, _, hcall, hret⟩ := returns_bind.mp hpay
    obtain ⟨_, rfl⟩ := returns_pure.mp hret
    obtain ⟨hwired, hcall⟩ := callInsurance_returns.mp hcall
    obtain ⟨l, hauth, _⟩ := returns_readWith_bind.mp hcall
    obtain ⟨_, _, _, _, rfl⟩ := Insurance.payLiquidator_effect hcall
    obtain ⟨tokens', next, hpaid, hafter⟩ := Insurance.payLiquidator_backed liquidator
      (v := { w with insurance := { w.insurance with balance }, tokens }) hauth hb (hideal.callFrom _)
      (hcovered.callFrom _) hpos (by omega)
    refine ⟨_, returns_ite.mpr (.inl ⟨hpos, ?_⟩), ⟨_, tokens', rfl⟩, hafter, rfl⟩
    exact returns_bind.mpr ⟨next, _, callInsurance_returns.mpr ⟨hwired, hpaid⟩, returns_pure.mpr ⟨rfl, rfl⟩⟩
  · obtain ⟨_, rfl⟩ := returns_pure.mp hskip
    exact ⟨_, returns_ite.mpr (.inr ⟨hnone, returns_pure.mpr ⟨rfl, rfl⟩⟩), ⟨balance, tokens, rfl⟩, hb, rfl⟩

theorem payReward_short (hv : Refunded w v)
    (h : Returns (payReward env liquidator asset reward) w () w') (hpos : 0 < reward)
    (hshort : v.insurance.balanceOf asset < reward) :
    (payReward env liquidator asset reward).run v = .error (.code .insuranceFundInsufficient) := by
  obtain ⟨balance, tokens, rfl⟩ := hv
  rcases returns_ite.mp h with ⟨_, hpay⟩ | ⟨hnone, _⟩
  · obtain ⟨_, _, hcall, _⟩ := returns_bind.mp hpay
    obtain ⟨insurance, hinsurance, hcall⟩ := returns_readWith_bind.mp hcall
    obtain ⟨hreached, hcall⟩ := invoke_returns.mp (returns_get_bind.mp hcall)
    obtain ⟨l, hauth, _⟩ := returns_readWith_bind.mp hcall
    unfold payReward
    rw [if_pos hpos]
    refine run_bind_of_error ?_
    refine (run_readWith_bind (s := { w with insurance := { w.insurance with balance }, tokens })
      (g := insuranceAddress) hinsurance).trans (run_get_bind.trans ?_)
    refine (invoke_run hreached).trans ?_
    exact Insurance.payLiquidator_short (v := { w with insurance := { w.insurance with balance }, tokens })
      hauth hpos hshort
  · exact absurd hpos hnone

/-- The deficit that insurance is asked for. -/
theorem absorbUnderwater_backed {health : AccountHealth} (hv : Refunded w v) (hb : Backed v asset)
    (hideal : env.IdealTransfers) (hcovered : env.CoveredTransfers asset v.deployed.insurance)
    (h : Returns (absorbUnderwater env user asset health) w () w') :
    (∃ v', Returns (absorbUnderwater env user asset health) v () v' ∧ SameClose user asset w' v') ∨
      (absorbUnderwater env user asset health).run v = .error (.code .mathOverflow) ∧
        ∃ uncovered, 0 < uncovered ∧
          uncovered ≤ max 0 (w.insurance.balanceOf asset) - w'.vault.balanceOf user asset ∧
          ¬ InI128 (w.insurance.badDebtOf asset + uncovered) := by
  rcases returns_ite.mp h with ⟨hunder, habsorb⟩ | ⟨hsolvent, hskip⟩
  · obtain ⟨r, _, hcall, hret⟩ := returns_bind.mp habsorb
    obtain ⟨_, rfl⟩ := returns_pure.mp hret
    obtain ⟨vault, hvault, hcall⟩ := returns_readWith_bind.mp hcall
    obtain ⟨hreached, hcall⟩ := invoke_returns.mp (returns_get_bind.mp hcall)
    have hcovers := Vault.absorbBadDebt_covers hcall
    have heffect := Vault.absorbBadDebt_effect hcall
    have habsorbs := Vault.absorbBadDebt_backed hv hb (hideal.callFrom _) (hcovered.callFrom _) hcall
    obtain ⟨balance, tokens, rfl⟩ := hv
    rcases habsorbs with ⟨r', v', hcall', hsame⟩ | ⟨herror, uncovered, hpos, hle, hover⟩
    · refine .inl ⟨v', returns_ite.mpr (.inl ⟨hunder, returns_bind.mpr ⟨r', v', ?_, ?_⟩⟩), hsame⟩
      · refine callVault_returns.mpr ⟨?_, hcall'⟩
        exact hreached ▸ okOr_ok.mp hvault
      · exact returns_pure.mpr ⟨rfl, rfl⟩
    · change uncovered ≤ -w.vault.balanceOf user asset at hle
      refine .inr ⟨?_, uncovered, hpos, ?_, hover⟩
      · unfold absorbUnderwater
        rw [if_pos hunder]
        refine run_bind_of_error ?_
        refine (run_readWith_bind (s := { w with insurance := { w.insurance with balance }, tokens })
          (g := vaultAddress) hvault).trans (run_get_bind.trans ?_)
        exact (invoke_run hreached).trans herror
      · rcases heffect with ⟨hnn, rfl⟩ | ⟨_, after, _, _, _, _, hcredited, rfl, _⟩
        · omega
        · have hself := hcredited.self
          show uncovered ≤ max 0 (w.insurance.balanceOf asset) - after.balanceOf user asset
          omega
  · obtain ⟨_, rfl⟩ := returns_pure.mp hskip
    exact .inl ⟨v, returns_ite.mpr (.inr ⟨hsolvent, returns_pure.mpr ⟨rfl, rfl⟩⟩), hv.sameClose user asset⟩

theorem vaultHealth_refunded (h : Refunded w v) (env : Env) (user : Address) :
    vaultHealth env v user = vaultHealth env w user := by
  have hhealth := accountHealth_refunded h
  obtain ⟨balance, tokens, rfl⟩ := h
  simp only [vaultHealth, hhealth]
  rfl

/-- Only the vault and the engine take part in a close. -/
theorem engineLiquidateReduce_funds {positionId : Nat} {closeSize price : Int} {trade : TradeResult}
    (h : Returns (engineLiquidateReduce env user positionId closeSize price) v trade w') :
    w'.insurance = v.insurance ∧ w'.tokens = v.tokens ∧ w'.deployed = v.deployed := by
  obtain ⟨_, _, _, _, _, _, _, _, _, _, _, _, ht, _⟩ := Engine.reducePositionInternal_effect
    (Engine.liquidateReduce_internal (callEngine_returns.mp h).2)
  obtain ⟨_, _, rfl⟩ := ht.world
  exact ⟨rfl, rfl, rfl⟩

theorem vaultSeizeForDeficit_funds {seized : Int}
    (h : Returns (vaultSeizeForDeficit env user asset) v seized w') :
    w'.insurance = v.insurance ∧ w'.tokens = v.tokens ∧ w'.deployed = v.deployed := by
  obtain ⟨_, _, _, rfl⟩ := Vault.seizeForDeficitInner_effect
    (Vault.seizeForDeficit_inner (callVault_returns.mp h).2)
  exact ⟨rfl, rfl, rfl⟩

/-- The receipt of a call that goes on from the reward. -/
theorem liquidate_backed {positionId : Nat} {closeSize price : Int} {r : LiquidationReceipt}
    (hv : Refunded w v) (hb : Backed v asset) (hideal : env.IdealTransfers)
    (hcovered : env.CoveredTransfers asset v.deployed.insurance)
    (hasset : w.liquidation.settlementAsset = some asset)
    (h : Returns (liquidate env liquidator user positionId closeSize price) w r w') :
    (0 < r.reward ∧ v.insurance.balanceOf asset < r.reward ∧
      (liquidate env liquidator user positionId closeSize price).run v =
        .error (.code .insuranceFundInsufficient)) ∨
    (r.reward ≤ 0 ∨ r.reward ≤ v.insurance.balanceOf asset) ∧
      ((∃ v', Returns (liquidate env liquidator user positionId closeSize price) v r v' ∧
        SameClose user asset w' v') ∨
      (liquidate env liquidator user positionId closeSize price).run v = .error (.code .mathOverflow) ∧
        ∃ uncovered, 0 < uncovered ∧
          uncovered ≤ max 0 (w.insurance.balanceOf asset) - w'.vault.balanceOf user asset ∧
          ¬ InI128 (w.insurance.badDebtOf asset + uncovered)) := by
  simp only [liquidate, returns_lift_bind, returns_readWith_bind] at h
  obtain ⟨_, hauth, _, hself, _, hpositive, settled, hs, healthBefore, hbefore, _, hliquidatable, h⟩ := h
  obtain ⟨trade, w₁, hreduce, h⟩ := returns_bind.mp h
  simp only [returns_readWith_bind, returns_lift_bind] at h
  obtain ⟨healthAfter, hafter, _, himproved, reward, hreward, h⟩ := h
  obtain ⟨_, w₂, hpay, h⟩ := returns_bind.mp h
  obtain ⟨seized, w₃, hseize, h⟩ := returns_bind.mp h
  obtain ⟨_, w₄, habsorb, hret⟩ := returns_bind.mp h
  obtain ⟨rfl, rfl⟩ := returns_pure.mp hret
  obtain rfl : settled = asset := Option.some.inj ((okOr_ok.mp hs).symm.trans hasset)
  have hretunes : ∀ config config' : MarketConfig, config = config' → config.Retunes config' := by
    rintro config _ rfl
    exact .refl config
  obtain ⟨trade', v₁, hreduce', rfl, hakin⟩ := (follows_engineLiquidateReduce hretunes
    healthFollows_refunded env user positionId closeSize price).returns hv.akin hreduce
  have hv₁ := hakin.refunded
  have hfunds₁ := engineLiquidateReduce_funds hreduce'
  have hb₁ := hb.congr hfunds₁
  obtain ⟨hinsurance₁, htokens₁, hdeployed₁⟩ := hfunds₁
  have hsettled : settlementAsset v = .ok settled := by
    obtain ⟨_, _, rfl⟩ := hv
    exact hs
  have hreward' : liquidationReward v₁ closeSize price = .ok reward := by
    obtain ⟨_, _, rfl⟩ := hv₁
    exact hreward
  have hstart : (liquidate env liquidator user positionId closeSize price).run v =
      (do
        payReward env liquidator settled reward
        let _ ← vaultSeizeForDeficit env user settled
        absorbUnderwater env user settled healthAfter
        return {
          user, liquidator, positionId, closeSize, realizedPnl := trade.realizedPnl, reward
          healthBefore, healthAfter } : Tx LiquidationReceipt).run v₁ := by
    refine (run_lift_bind hauth).trans ((run_lift_bind hself).trans ((run_lift_bind hpositive).trans ?_))
    refine (run_readWith_bind hsettled).trans ?_
    refine (run_readWith_bind (g := fun w : World => vaultHealth env w user)
      ((vaultHealth_refunded hv env user).trans hbefore)).trans ?_
    refine (run_lift_bind hliquidatable).trans (hreduce'.run_bind.trans ?_)
    refine (run_readWith_bind (g := fun w : World => vaultHealth env w user)
      ((vaultHealth_refunded hv₁ env user).trans hafter)).trans ?_
    exact (run_lift_bind himproved).trans (run_readWith_bind hreward')
  by_cases hshort : 0 < reward ∧ v.insurance.balanceOf settled < reward
  · obtain ⟨hpos, hless⟩ := hshort
    have hless₁ : v₁.insurance.balanceOf settled < reward := by rwa [hinsurance₁]
    exact .inl ⟨hpos, hless, hstart.trans (run_bind_of_error (payReward_short hv₁ hpay hpos hless₁))⟩
  have henough : reward ≤ 0 ∨ reward ≤ v.insurance.balanceOf settled := by omega
  have hcovered₁ : env.CoveredTransfers settled v₁.deployed.insurance := by rwa [hdeployed₁]
  obtain ⟨v₂, hpay', hv₂, hb₂, hdeployed₂⟩ :=
    payReward_backed hv₁ hb₁ hideal hcovered₁ hpay (by rwa [hinsurance₁])
  obtain ⟨_, v₃, hseize', rfl, hakin₃⟩ := (follows_vaultSeizeForDeficit env user settled).returns
    hv₂.akin hseize
  have hfunds₃ := vaultSeizeForDeficit_funds hseize'
  have hcovered₂ : env.CoveredTransfers settled v₂.deployed.insurance := by rwa [hdeployed₂]
  have hcovered₃ : env.CoveredTransfers settled v₃.deployed.insurance := by
    rw [hfunds₃.2.2]
    exact hcovered₂
  have hstart₃ := hstart.trans (hpay'.run_bind.trans hseize'.run_bind)
  obtain ⟨hinsurance₃, _, _⟩ := vaultSeizeForDeficit_funds hseize
  have hinsurance₁' := (engineLiquidateReduce_funds hreduce).1
  obtain ⟨hdebt₂, hless₂⟩ := payReward_balance hpay
  refine .inr ⟨henough, ?_⟩
  rcases absorbUnderwater_backed hakin₃.refunded (hb₂.congr hfunds₃) hideal hcovered₃ habsorb with
    ⟨v', habsorb', hsame⟩ | ⟨herror, uncovered, hpos, hle, hover⟩
  · refine .inl ⟨v', hstart₃.trans ?_, hsame⟩
    exact returns_bind.mpr ⟨(), v', habsorb', returns_pure.mpr ⟨rfl, rfl⟩⟩
  · refine .inr ⟨hstart₃.trans (run_bind_of_error herror), uncovered, hpos, ?_, ?_⟩
    · rw [hinsurance₃] at hle
      rw [hinsurance₁'] at hless₂
      omega
    · have hrecorded : w₂.insurance.badDebtOf settled = w.insurance.badDebtOf settled := by
        simp only [InsuranceStorage.badDebtOf, hdebt₂, hinsurance₁']
      rw [hinsurance₃, hrecorded] at hover
      exact hover

end Liquidation

open Liquidation

/-- The liquidation with another insurance balance: a fund that has less than the reward refuses
it. Any other closes the position as before, and fails only where the bad debt to record is out of
range. -/
theorem liquidation_without_fund {positionId : Nat} {closeSize price : Int} {r : LiquidationReceipt}
    (hv : Refunded w v) (hb : Backed v asset) (hideal : env.IdealTransfers)
    (hcovered : env.CoveredTransfers asset v.deployed.insurance)
    (hasset : w.liquidation.settlementAsset = some asset)
    (h : Returns (liquidate env liquidator user positionId closeSize price) w r w') :
    (0 < r.reward ∧ v.insurance.balanceOf asset < r.reward →
      (liquidate env liquidator user positionId closeSize price).run v =
        .error (.code .insuranceFundInsufficient)) ∧
    (r.reward ≤ 0 ∨ r.reward ≤ v.insurance.balanceOf asset →
      (∃ v', Returns (liquidate env liquidator user positionId closeSize price) v r v' ∧
        SameClose user asset w' v') ∨
      (liquidate env liquidator user positionId closeSize price).run v = .error (.code .mathOverflow) ∧
        ∃ uncovered, 0 < uncovered ∧
          uncovered ≤ max 0 (w.insurance.balanceOf asset) - w'.vault.balanceOf user asset ∧
          ¬ InI128 (w.insurance.badDebtOf asset + uncovered)) := by
  rcases liquidate_backed hv hb hideal hcovered hasset h with ⟨hpos, hless, herror⟩ | ⟨henough, hgoes⟩
  · refine ⟨fun _ => herror, fun henough => ?_⟩
    rcases henough with hnone | hpaid
    · omega
    · omega
  · refine ⟨fun hshort => ?_, fun _ => hgoes⟩
    obtain ⟨hpos, hless⟩ := hshort
    rcases henough with hnone | hpaid
    · omega
    · omega

end

/-! ## A fund without the reward -/

namespace Sample

/-- The strained account at 90.2 with rewards of half a per cent, and what the insurance fund has,
in its books and in tokens. -/
def insured (balance : Int) : World :=
  { bounty (902 * 10 ^ 17) with
    insurance := { (bounty (902 * 10 ^ 17)).insurance with
      balance := (∅ : Store Address Int).set usdc balance }
    tokens := (∅ : Tokens).set (usdc, deployment.insurance) balance }

/-- Half of alice's unit closed at the mark. -/
def rescue : Tx LiquidationReceipt :=
  Liquidation.liquidate (bank 1000) keeper alice 1 (precision / 2) (902 * 10 ^ 17)

theorem insured_refunded (balance balance' : Int) : Refunded (insured balance) (insured balance') :=
  ⟨_, _, rfl⟩

theorem insured_backed {balance : Int} (h : 0 ≤ balance) (hle : balance ≤ i128Max) :
    Backed (insured balance) usdc := by
  have hbalance : (insured balance).insurance.balanceOf usdc = balance := by
    show (((∅ : Store Address Int).set usdc balance).get usdc).getD 0 = balance
    rw [Store.get_set_self]
    rfl
  have hheld : (insured balance).tokens.held usdc deployment.insurance = balance := by
    show Tokens.held ((∅ : Tokens).set (usdc, deployment.insurance) balance) _ _ = balance
    rw [held_set, if_pos ⟨rfl, rfl⟩]
  refine ⟨?_, ?_, ?_⟩
  · rwa [hbalance]
  · rwa [hbalance]
  · show _ ≤ (insured balance).tokens.held usdc deployment.insurance
    rw [hbalance, hheld]

theorem bank_covered (now : Nat) (asset source : Address) : (bank now).CoveredTransfers asset source := by
  intro tokens target amount _ hle
  refine ⟨_, if_neg ?_⟩
  omega

end Sample

open Sample

/-- With a thousand in the fund half of alice's unit is closed; with nothing the same call fails. -/
theorem refused_without_fund :
    ∃ r w', Returns rescue (insured (1000 * precision)) r w' ∧
      ¬ ∃ r' v', Returns rescue (insured 0) r' v' ∧ v'.engine = w'.engine := by
  have hvalue : (rescue.value (insured (1000 * precision))).map (·.reward) = some (2255 * 10 ^ 14) := by
    decide +kernel
  obtain ⟨r, hr, _⟩ := Option.map_eq_some_iff.mp hvalue
  refine ⟨r, _, returns_of_value hr, fun hsame => ?_⟩
  obtain ⟨r', v', hcall, _⟩ := hsame
  have hnone : rescue.value (insured 0) = none := by decide +kernel
  rw [value, hcall] at hnone
  cases hnone

/-- A fund of 0.3 pays the reward of 0.2255. -/
theorem liquidation_without_fund_three_tenths :
    ∃ r w' v', Returns rescue (insured (1000 * precision)) r w' ∧
      Returns rescue (insured (3 * 10 ^ 17)) r v' ∧ SameClose alice usdc w' v' := by
  have hvalue : (rescue.value (insured (1000 * precision))).map (·.reward) = some (2255 * 10 ^ 14) := by
    decide +kernel
  have hvalue' : (rescue.value (insured (3 * 10 ^ 17))).isSome = true := by decide +kernel
  obtain ⟨r, hr, hreward⟩ := Option.map_eq_some_iff.mp hvalue
  obtain ⟨_, hr'⟩ := Option.isSome_iff_exists.mp hvalue'
  have hcall := returns_of_value hr
  have hpays : r.reward ≤ (insured (3 * 10 ^ 17)).insurance.balanceOf usdc := by
    rw [hreward]
    decide +kernel
  have hgoes := (liquidation_without_fund (insured_refunded _ (3 * 10 ^ 17))
    (insured_backed (by decide) (by decide)) (bank_hostOf 1000).ideal (bank_covered 1000 _ _) rfl hcall).2
  rcases hgoes (.inr hpays) with ⟨v', hcall', hsame⟩ | ⟨herror, _⟩
  · exact ⟨r, _, v', hcall, hcall', hsame⟩
  · exact absurd ((returns_of_value hr').symm.trans herror) (by simp)

end Kryon

import Kryon.Liquidation.Reward
import Kryon.Vault.Deficit

/-! # The account's own collateral first

A liquidation seizes the account's other assets before insurance covers what is missing. The
seizure scans the first sixteen recorded assets. While a debt is left it takes each of them
whole, or as far as the debt then asks, or passes it over where a unit of it or of the asset
owed is worth more than what is at stake; the seventeenth asset it does not see. -/
namespace Kryon
open Transaction Runs Collection

namespace Vault

variable {env : Env} {w w' : World} {user asset a : Address} {r : Int}
  {config : CollateralConfig} {snapshot : OracleSnapshot}

/-- Of each of the assets that is active and priced no more is left than the debt that is left, the
value of one base unit of it and of one of the asset owed, and a constant. -/
def Exhausted (env : Env) (w w' : World) (user asset : Address) (assets : List Address)
    (uncovered : Int) : Prop :=
  ∀ a ∈ assets, a ≠ asset → ∀ config snapshot, w.vault.collateral.get a = some config →
    config.active = true → collateralPrice env w a = .ok snapshot → 0 < w'.vault.balanceOf user a →
    min uncovered (assetWorth (w'.vault.balanceOf user a) snapshot.price config.haircutBps) ≤
      snapshot.price / precision + deficitPrice env w asset / precision + 3

/-- A haircut of more than everything leaves nothing. -/
theorem assetWorth_nonpos {amount price : Int} {haircutBps : Nat} (hbps : 10000 < haircutBps)
    (hamount : 0 ≤ amount) (hprice : 0 < price) : assetWorth amount price haircutBps ≤ 0 := by
  have hvalue : 0 ≤ amount * price / precision :=
    Int.ediv_nonneg (mul_nonneg hamount hprice.le) precision_pos.le
  have htaken : amount * price / precision ≤ amount * price / precision * haircutBps / 10000 := by
    refine (Int.le_ediv_iff_mul_le (by decide)).mpr ?_
    exact mul_le_mul_of_nonneg_left (by omega) hvalue
  unfold assetWorth afterHaircut
  omega

/-- **What a seizure leaves of a scanned asset.** -/
theorem seizure_exhausts (hnodup : (w.vault.recordedAssets user).Nodup)
    (hneg : w.vault.balanceOf user asset < 0)
    (h : Returns (seizeForDeficitInner env user asset) w r w') :
    ∃ uncovered, w'.events = w.events ++ [⟨user, asset, r, max uncovered 0⟩] ∧
      -w'.vault.balanceOf user asset * deficitPrice env w asset <
        (uncovered + 1) * precision + maxSeizeScan * deficitPrice env w asset ∧
      Exhausted env w w' user asset ((w.vault.recordedAssets user).take maxSeizeScan) uncovered := by
  obtain ⟨hcredited, hbalance, htaken, _⟩ := seizeForDeficitInner_takes hnodup hneg h
  refine ⟨_, seizeForDeficitInner_published hnodup hneg h, ?_, ?_⟩
  · have hcounted := (seizureTerms env w user asset).value_mul_le (seizureTakes env w user asset)
    rw [← hcredited] at hcounted
    have hlength : ((seizureTakes env w user asset).length : Int) ≤ maxSeizeScan := by
      have hitems := congrArg List.length ((seizureTerms env w user asset).takes_items
        (-w.vault.balanceOf user asset * deficitPrice env w asset / precision)
        (seizureOrder w.vault user asset))
      rw [List.length_map] at hitems
      exact_mod_cast hitems.trans_le (seizureOrder_length w.vault user asset)
    have hscanned := mul_le_mul_of_nonneg_right hlength (deficitPrice_pos env w asset).le
    have howed := Int.lt_ediv_add_one_mul_self
      (-w.vault.balanceOf user asset * deficitPrice env w asset) precision_pos
    change Terms.value (seizureTakes env w user asset) * precision ≤
      r * deficitPrice env w asset + _ * deficitPrice env w asset at hcounted
    rw [hbalance]
    linarith
  · intro a ha hne config snapshot hc hactive hprice hheld
    have hunit : 0 ≤ snapshot.price / precision :=
      Int.ediv_nonneg (collateralPrice_pos hprice).le precision_pos.le
    have howing : 0 ≤ deficitPrice env w asset / precision :=
      Int.ediv_nonneg (deficitPrice_pos env w asset).le precision_pos.le
    rcases Nat.lt_or_ge 10000 config.haircutBps with hall | hbps
    · have := assetWorth_nonpos hall hheld.le (collateralPrice_pos hprice)
      omega
    · have hworth := collateralWorth_eq hc hprice hbps
      obtain ⟨owed, hx, hleft⟩ := Terms.takes_left (t := seizureTerms env w user asset)
        (-w.vault.balanceOf user asset * deficitPrice env w asset / precision)
        (mem_seizureOrder.mpr ⟨ha, hne, config, hc, hactive⟩)
      have hkept : w'.vault.balanceOf user a = (seizureTerms env w user asset).held a -
          (seizureTerms env w user asset).amountTaken owed a := htaken _ hx
      have hgrain : ∀ owed, 0 < owed →
          owed < (seizureTerms env w user asset).worth a ((seizureTerms env w user asset).held a) →
          owed ≤ (seizureTerms env w user asset).worth a ((seizureTerms env w user asset).held a * owed /
            (seizureTerms env w user asset).worth a ((seizureTerms env w user asset).held a)) +
              (snapshot.price / precision + 2) := by
        intro owed howed hpart
        simp only [seizureTerms, hworth] at hpart ⊢
        exact le_assetWorth_share hbps (collateralPrice_pos hprice) howed hpart
      have hbound := Terms.left_le hgrain (by omega) (hkept ▸ hheld)
      rw [← hkept] at hbound
      change min _ (collateralWorth env w a _) ≤ _ + deficitPrice env w asset / precision at hbound
      rw [hworth] at hbound
      unfold seizureTakes
      omega

end Vault

namespace Liquidation

variable {env : Env} {w w' : World} {liquidator user asset : Address} {positionId : Nat}
  {closeSize price : Int}

/-- The call in its steps: the close and the reward lead to `v`, the seizure from `v` to `v'`, and
what insurance does for a deficit comes last. -/
structure SeizesFrom (env : Env) (liquidator user : Address) (positionId : Nat) (closeSize price : Int)
    (r : LiquidationReceipt) (asset : Address) (w v v' w' : World) : Prop where
  settlement : w.liquidation.settlementAsset = some asset
  closed : ∃ trade w₁, Returns (engineLiquidateReduce env user positionId closeSize price) w trade w₁ ∧
    Returns (payReward env liquidator asset r.reward) w₁ () v
  seized : ∃ seized, Returns (vaultSeizeForDeficit env user asset) v seized v'
  absorbed : Returns (absorbUnderwater env user asset r.healthAfter) v' () w'

/-- Insurance is left alone, or covers and records a debt while no more than dust is left of what
the seizure from `v` to `v'` had scanned. -/
def DrawsLast (env : Env) (v v' w' : World) (user asset : Address) : Prop :=
  w'.insurance = v'.insurance ∨ v'.vault.balanceOf user asset < 0 ∧
    ∃ uncovered, -v'.vault.balanceOf user asset * Vault.deficitPrice env v asset <
        (uncovered + 1) * precision + Vault.maxSeizeScan * Vault.deficitPrice env v asset ∧
      Vault.Exhausted env v v' user asset ((v.vault.recordedAssets user).take Vault.maxSeizeScan)
        uncovered

theorem absorbUnderwater_debt {health : AccountHealth} {u : Unit}
    (h : Returns (absorbUnderwater env user asset health) w u w') :
    w'.insurance = w.insurance ∨ w.vault.balanceOf user asset < 0 := by
  rcases returns_ite.mp h with ⟨_, habsorb⟩ | ⟨_, hnone⟩
  · obtain ⟨_, _, hcall, hret⟩ := returns_bind.mp habsorb
    obtain ⟨_, rfl⟩ := returns_pure.mp hret
    rcases Vault.absorbBadDebt_effect (callVault_returns.mp hcall).2 with ⟨_, rfl⟩ | ⟨hneg, _⟩
    · exact .inl rfl
    · exact .inr hneg
  · obtain ⟨_, rfl⟩ := returns_pure.mp hnone
    exact .inl rfl

/-- Insurance comes after the seizure; what it has paid before that is the reward. -/
theorem liquidate_drawsLast {r : LiquidationReceipt} (hnodup : (w.vault.recordedAssets user).Nodup)
    (h : Returns (liquidate env liquidator user positionId closeSize price) w r w') :
    ∃ asset v v', SeizesFrom env liquidator user positionId closeSize price r asset w v v' w' ∧
      v.vault.userAssets = w.vault.userAssets ∧
      v'.insurance.badDebt = w.insurance.badDebt ∧
      v'.insurance.balanceOf asset = w.insurance.balanceOf asset - r.reward ∧
      DrawsLast env v v' w' user asset := by
  obtain ⟨asset, trade, w₁, v, seized, v', hs, _, hreduce, _, _, hpay, hseize, habsorb, hsize, hprice,
    hreward⟩ := liquidate_steps h
  obtain ⟨_, _, _, _, _, _, _, _, _, _, _, _, ht, _⟩ := Engine.reducePositionInternal_effect
    (Engine.liquidateReduce_internal (callEngine_returns.mp hreduce).2)
  obtain ⟨_, hassets, _⟩ := ht.account
  obtain ⟨_, _, hw₁⟩ := ht.world
  obtain ⟨_, _, hv⟩ := payReward_effect hpay
  have hassets' : v.vault.userAssets = w.vault.userAssets := by rw [hv, hassets]
  have hinner := Vault.seizeForDeficit_inner (callVault_returns.mp hseize).2
  obtain ⟨_, _, _, hv'⟩ := Vault.seizeForDeficitInner_effect hinner
  have hfund : v'.insurance = v.insurance := by rw [hv']
  obtain ⟨hsame, hless⟩ := payReward_balance hpay
  have hdebt : v'.insurance.badDebt = w.insurance.badDebt := by rw [hfund, hsame, hw₁]
  have hpaid : v'.insurance.balanceOf asset = w.insurance.balanceOf asset - r.reward := by
    rw [hfund, hless, hw₁, max_eq_left (liquidationReward_nonneg hsize hprice hreward)]
  refine ⟨asset, v, v', ⟨hs, ⟨trade, w₁, hreduce, hpay⟩, ⟨seized, hseize⟩, habsorb⟩, hassets', hdebt,
    hpaid, ?_⟩
  rcases absorbUnderwater_debt habsorb with hkept | hdeficit
  · exact .inl hkept
  · have hnodup' : (v.vault.recordedAssets user).Nodup := by
      rw [VaultStorage.recordedAssets, hassets']
      exact hnodup
    rcases Vault.seizeForDeficitInner_cases hinner with ⟨hnn, _, rfl⟩ | ⟨hneg, _⟩
    · exact absurd hdeficit (not_lt.mpr hnn)
    · obtain ⟨uncovered, _, hbound, hleft⟩ := Vault.seizure_exhausts hnodup' hneg hinner
      exact .inr ⟨hdeficit, uncovered, hbound, hleft⟩

end Liquidation

/-- **The scanned collateral is exhausted before insurance.** Whatever calls on the vault made the
lists of assets, a seizure that leaves a debt uncovered leaves of each of the first sixteen recorded
assets no more than the debt that is left, or dust. A liquidation closes, pays
its reward and seizes; where it then draws on insurance or records bad debt, it does so for the debt that its
seizure left, but for the roundings of the credits. -/
theorem scanned_collateral_first {t : List (VaultOp × Store Address (List Address))} {env : Env}
    {w w' : World} {user : Address} (hr : IsRun ListStep ∅ t) (hw : w.vault.userAssets = final ∅ t) :
    (∀ {asset : Address} {r : Int},
      (Returns (Vault.seizeForDeficit env user asset) w r w' ∨
        ∃ caller, Returns (Vault.settleDeficit env caller user asset) w r w') →
      w.vault.balanceOf user asset < 0 →
      ∃ uncovered, w'.events = w.events ++ [⟨user, asset, r, max uncovered 0⟩] ∧
        Vault.Exhausted env w w' user asset ((w.vault.recordedAssets user).take Vault.maxSeizeScan)
          uncovered) ∧
    ∀ {liquidator : Address} {positionId : Nat} {closeSize price : Int} {r : LiquidationReceipt},
      Returns (Liquidation.liquidate env liquidator user positionId closeSize price) w r w' →
      ∃ asset v v',
        Liquidation.SeizesFrom env liquidator user positionId closeSize price r asset w v v' w' ∧
        v.vault.userAssets = w.vault.userAssets ∧
        v'.insurance.badDebt = w.insurance.badDebt ∧
        v'.insurance.balanceOf asset = w.insurance.balanceOf asset - r.reward ∧
        Liquidation.DrawsLast env v v' w' user asset := by
  have hnodup := recordedAssets_nodup hr hw user
  refine ⟨?_, fun h => Liquidation.liquidate_drawsLast hnodup h⟩
  intro asset r h hneg
  have hseize := Vault.seizure_inner h
  obtain ⟨uncovered, hevents, _, hleft⟩ := Vault.seizure_exhausts hnodup hneg hseize
  exact ⟨uncovered, hevents, hleft⟩

/-! ## The seventeenth asset -/

namespace Sample

def token (i : Nat) : Address := .contract (BitVec.ofNat 256 (200 + i))

/-- Seventeen more tokens are listed, each worth one. -/
def bazaar : World :=
  { exchange with vault := { exchange.vault with
    collateral := (List.range 17).foldl (fun listed i => listed.set
      { asset := token i, oracleAsset := "XLM", haircutBps := 0, active := true })
      exchange.vault.collateral } }

/-- Alice deposits ten base units of each of sixteen tokens, a thousand of the seventeenth, and
loses five hundred in settlement. -/
def scatter : List VaultOp :=
  (List.range 16).map (fun i => .deposit (host 1000) alice (token i) 10) ++
    [.deposit (host 1000) alice (token 16) (1000 * precision),
      .applyPnl (host 1000) alice usdc (-(500 * precision))]

def scattered : World := final bazaar (execute VaultOp.call bazaar scatter)

end Sample

open Sample

/-- The sixteen deposits of ten go, and insurance is asked for the rest of the five hundred while
the thousand of the seventeenth token stay where they are. -/
theorem seventeenth_asset_untouched :
    ∃ t : List (VaultOp × Store Address (List Address)), IsRun ListStep ∅ t ∧
      scattered.vault.userAssets = final ∅ t ∧
    ∃ r w' uncovered, Returns (Vault.seizeForDeficit (host 1000) alice usdc) scattered r w' ∧
      w'.events = scattered.events ++ [⟨alice, usdc, r, uncovered⟩] ∧
      uncovered = 500 * precision - 160 ∧ w'.vault.balanceOf alice (token 16) = 1000 * precision ∧
      ¬ Vault.Exhausted (host 1000) scattered w' alice usdc (scattered.vault.recordedAssets alice)
        uncovered := by
  have hr : IsRun ListStep ∅ (viewed (fun w => w.vault.userAssets)
      (execute VaultOp.call bazaar scatter)) := isRun_execute (w := bazaar) (by decide +kernel)
  have hw : scattered.vault.userAssets =
      final ∅ (viewed (fun w => w.vault.userAssets) (execute VaultOp.call bazaar scatter)) := by
    unfold scattered
    exact (@final_viewed _ _ _ (fun w : World => w.vault.userAssets) bazaar
      (execute VaultOp.call bazaar scatter)).symm
  refine ⟨_, hr, hw, ?_⟩
  have hseize := returns_of_value (x := Vault.seizeForDeficit (host 1000) alice usdc) (s := scattered)
    (a := 160) (by decide +kernel)
  have hkept : (commit (Vault.seizeForDeficit (host 1000) alice usdc) scattered).vault.balanceOf alice
      (token 16) = 1000 * precision := by decide +kernel
  refine ⟨160, _, _, hseize, by decide +kernel, rfl, hkept, fun hexhausted => ?_⟩
  have hlisted : scattered.vault.collateral.get (token 16) =
      some { asset := token 16, oracleAsset := "XLM", haircutBps := 0, active := true } := by
    decide +kernel
  obtain ⟨snapshot, hprice⟩ := exists_ok (x := Vault.collateralPrice (host 1000) scattered (token 16))
    (by decide +kernel)
  have hone : snapshot.price = precision := by
    have hvalue : (Vault.collateralPrice (host 1000) scattered (token 16)).map OracleSnapshot.price =
        .ok precision := by decide +kernel
    rw [hprice] at hvalue
    exact Except.ok.inj hvalue
  have howed : Vault.deficitPrice (host 1000) scattered usdc = precision := by decide +kernel
  have hdust := hexhausted (token 16) (by decide +kernel) (by decide +kernel) _ snapshot hlisted rfl hprice
    (by rw [hkept]; decide)
  rw [hkept, hone, howed] at hdust
  revert hdust
  decide

namespace Sample

/-- Alice deposits four hundred in settlement and a hundred of the volatile token, bob a thousand. -/
def nestEgg : List VaultOp := [.deposit (host 1000) alice usdc (400 * precision),
  .deposit (host 1000) alice xlm (100 * precision), .deposit (host 1000) bob usdc (1000 * precision)]

def endowed : World := final exchange (execute VaultOp.call exchange nestEgg)

/-- Alice is long five from bob at 100 when the price falls to one; the fund holds three. -/
def collapsed : World :=
  let filled := commit (Gateway.settleFill (host 1000)
    (matched (bid (5 * precision) 1 2000) (ask (5 * precision) 1 2000) (5 * precision))) endowed
  { filled with
    oracle := prices precision 1000
    insurance := { filled.insurance with balance := filled.insurance.balance.set usdc (3 * precision) } }

end Sample

/-- Of her seven units alice keeps what the debt of 5 left to her. Of the 95 she owes after the
collapse her token covers 90, and insurance pays what the reward has left of the fund for the
other five. -/
theorem scanned_collateral_first_pledged :
    (∃ r w' uncovered, Returns (Vault.seizeForDeficit (host 1000) alice usdc) (pledged 5) r w' ∧
      w'.events = (pledged 5).events ++ [⟨alice, usdc, r, max uncovered 0⟩] ∧
      Vault.Exhausted (host 1000) (pledged 5) w' alice usdc
        (((pledged 5).vault.recordedAssets alice).take Vault.maxSeizeScan) uncovered) ∧
    ∃ r w' v v',
      Returns (Liquidation.liquidate (host 1000) keeper alice 1 (5 * precision) precision) collapsed r w' ∧
      Liquidation.SeizesFrom (host 1000) keeper alice 1 (5 * precision) precision r usdc collapsed v v' w' ∧
      w'.insurance ≠ v'.insurance ∧ Liquidation.DrawsLast (host 1000) v v' w' alice usdc := by
  constructor
  · have hr : IsRun ListStep ∅ (viewed (fun w => w.vault.userAssets)
        (execute VaultOp.call dearer (pledge 5))) := isRun_execute (w := dearer) (by decide +kernel)
    have hw := (@final_viewed _ _ _ (fun w : World => w.vault.userAssets) dearer
      (execute VaultOp.call dearer (pledge 5))).symm
    obtain ⟨r, hseize⟩ := returns_commit (x := Vault.seizeForDeficit (host 1000) alice usdc)
      (s := pledged 5) (by decide +kernel)
    obtain ⟨uncovered, hevents, hleft⟩ :=
      (scanned_collateral_first hr hw).1 (.inl hseize) (by decide +kernel)
    exact ⟨r, _, uncovered, hseize, hevents, hleft⟩
  · have hr : IsRun ListStep ∅ (viewed (fun w => w.vault.userAssets)
        (execute VaultOp.call exchange nestEgg)) := isRun_execute (w := exchange) (by decide +kernel)
    have hlisted := (@final_viewed _ _ _ (fun w : World => w.vault.userAssets) exchange
      (execute VaultOp.call exchange nestEgg)).symm
    have hw : collapsed.vault.userAssets = endowed.vault.userAssets := rfl
    obtain ⟨r, hcall⟩ := returns_commit
      (x := Liquidation.liquidate (host 1000) keeper alice 1 (5 * precision) precision) (s := collapsed)
      (by decide +kernel)
    obtain ⟨asset, v, v', hsteps, _, hdebt, hpaid, hlast⟩ :=
      (scanned_collateral_first hr (hw.trans hlisted)).2 hcall
    obtain rfl : usdc = asset := Option.some.inj hsteps.settlement
    refine ⟨r, _, v, v', hcall, hsteps, fun heq => ?_, hlast⟩
    -- the fund is out of money and has recorded what it was short of
    have hrecorded := congrArg (fun s : InsuranceStorage => s.badDebtOf usdc) heq
    simp only [InsuranceStorage.badDebtOf, hdebt] at hrecorded
    exact absurd hrecorded (by decide +kernel)

end Kryon

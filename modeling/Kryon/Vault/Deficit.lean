import Kryon.Vault.AssetIndex

/-! # What a seizure credits

The part that is taken of one asset is rounded down and then valued again, so that no credit
exceeds what was taken. But the haircut of the part is rounded down as well, and the part can
come out worth one more than the debt that was left: then more than the debt is credited. -/
namespace Kryon
open Transaction Runs Collection

namespace Vault

variable {env : Env} {w w' : World} {user asset : Address} {r : Int}

/-- What was credited is worth no more than what was taken, each asset at its price after its
haircut, and nobody was left with less than nothing of an asset that was taken. -/
structure FairlyTaken (env : Env) (w w' : World) (user asset : Address) (r : Int) : Prop where
  value : r * deficitPrice env w asset ≤
    ((seizureOrder w.vault user asset).map fun a =>
      collateralWorth env w a (w.vault.balanceOf user a - w'.vault.balanceOf user a)).sum * precision
  others : ∀ a, a ≠ asset → a ∉ seizureOrder w.vault user asset →
    w'.vault.balanceOf user a = w.vault.balanceOf user a
  nonneg : ∀ a, a ≠ asset → w'.vault.balanceOf user a ≠ w.vault.balanceOf user a →
    0 ≤ w'.vault.balanceOf user a

/-- And no more than the debt was credited. -/
structure NeverOverCredits (env : Env) (w w' : World) (user asset : Address) (r : Int) : Prop
    extends FairlyTaken env w w' user asset r where
  credited : r ≤ max (-w.vault.balanceOf user asset) 0
  deficit : w.vault.balanceOf user asset < 0 → w'.vault.balanceOf user asset ≤ 0

/-- In the state before the call: each part that is to be taken is worth no more than what is
owed at its turn, or the price of the asset owed rounds the excess away. -/
def SeizureCovered (env : Env) (w : World) (user asset : Address) : Prop :=
  (seizureTerms env w user asset).Covered
    (-w.vault.balanceOf user asset * deficitPrice env w asset / precision)
    (-w.vault.balanceOf user asset) (seizureTakes env w user asset)

instance : Decidable (SeizureCovered env w user asset) := Terms.decidableCovered _ _ _ _

/-- The value of the takes, from the balances before and after. -/
theorem value_takes (terms : Terms Address) {items : List Address} {owed : Int} {after : Address → Int}
    (h : ∀ x ∈ terms.takes owed items, after x.item = terms.held x.item - x.amount) :
    Terms.value (terms.takes owed items) =
      (items.map fun a => terms.worth a (terms.held a - after a)).sum := by
  conv_rhs => rw [← terms.takes_items owed items, List.map_map]
  refine congrArg List.sum (List.map_congr_left fun x hx => ?_)
  rw [Function.comp_apply, h x hx, sub_sub_cancel]
  obtain ⟨_, _, _, rfl⟩ := Terms.mem_takes hx
  rfl

theorem fairlyTaken_of_debt (hnodup : (w.vault.recordedAssets user).Nodup)
    (hneg : w.vault.balanceOf user asset < 0)
    (h : Returns (seizeForDeficitInner env user asset) w r w') :
    FairlyTaken env w w' user asset r := by
  obtain ⟨hcredited, _, htaken, hothers⟩ := seizeForDeficitInner_takes hnodup hneg h
  refine ⟨?_, hothers, fun a ha hmoved => ?_⟩
  · have hvalue := (seizureTerms env w user asset).credited_mul_le (seizureTakes env w user asset)
    rw [← hcredited] at hvalue
    refine hvalue.trans_eq (congrArg (· * precision) ?_)
    exact value_takes (seizureTerms env w user asset) htaken
  · by_cases hmem : a ∈ seizureOrder w.vault user asset
    · obtain ⟨owed, hx⟩ := (seizureTerms env w user asset).take_mem_takes hmem
      have hleft : w'.vault.balanceOf user a = w.vault.balanceOf user a -
          (seizureTerms env w user asset).amountTaken owed a := htaken _ hx
      have hmax : (seizureTerms env w user asset).amountTaken owed a ≤ max (w.vault.balanceOf user a) 0 :=
        ((seizureTerms env w user asset).amountTaken_bounds owed a).2
      have hnn := ((seizureTerms env w user asset).amountTaken_bounds owed a).1
      omega
    · exact absurd (hothers a ha hmem) hmoved

/-- Where nothing is owed nothing happens. -/
theorem neverOverCredits_self (h : 0 ≤ w.vault.balanceOf user asset) :
    NeverOverCredits env w w user asset 0 := by
  have hsum : ((seizureOrder w.vault user asset).map fun a => collateralWorth env w a
      (w.vault.balanceOf user a - w.vault.balanceOf user a)).sum = 0 := by
    refine List.sum_eq_zero fun value hvalue => ?_
    obtain ⟨a, _, rfl⟩ := List.mem_map.mp hvalue
    rw [sub_self]
    exact (seizureTerms env w user asset).worth_zero a
  refine ⟨⟨?_, fun _ _ _ => rfl, fun a _ hmoved => absurd rfl hmoved⟩, le_max_right _ _, fun hneg => ?_⟩
  · rw [hsum, zero_mul, zero_mul]
  · omega

theorem seizureCovered_of_nonneg (h : 0 ≤ w.vault.balanceOf user asset) :
    SeizureCovered env w user asset := by
  have hpaid : -w.vault.balanceOf user asset * deficitPrice env w asset / precision ≤ 0 := by
    refine Int.ediv_nonpos_of_nonpos_of_neg ?_ precision_pos
    exact mul_nonpos_of_nonpos_of_nonneg (by omega) (deficitPrice_pos env w asset).le
  exact ((seizureTerms env w user asset).paid _ _ hpaid).2.2

/-- A seizure credits within the debt exactly when its takes are covered. -/
theorem credited_le_iff (hnodup : (w.vault.recordedAssets user).Nodup)
    (hneg : w.vault.balanceOf user asset < 0)
    (h : Returns (seizeForDeficitInner env user asset) w r w') :
    r ≤ -w.vault.balanceOf user asset ↔ SeizureCovered env w user asset := by
  obtain ⟨rfl, _⟩ := seizeForDeficitInner_takes hnodup hneg h
  by_cases howed : 0 < -w.vault.balanceOf user asset * deficitPrice env w asset / precision
  · exact (seizureTerms env w user asset).credited_le_iff howed (Int.ediv_mul_le _ precision_pos.ne')
  · obtain ⟨_, hnone, hcovered⟩ := (seizureTerms env w user asset).paid
      (seizureOrder w.vault user asset) (-w.vault.balanceOf user asset) (not_lt.mp howed)
    refine iff_of_true ?_ hcovered
    show (seizureTerms env w user asset).credited ((seizureTerms env w user asset).takes _ _) ≤ _
    rw [hnone]
    omega

theorem neverOverCredits_iff (hnodup : (w.vault.recordedAssets user).Nodup)
    (h : Returns (seizeForDeficitInner env user asset) w r w') :
    FairlyTaken env w w' user asset r ∧
      (NeverOverCredits env w w' user asset r ↔ SeizureCovered env w user asset) := by
  by_cases hneg : w.vault.balanceOf user asset < 0
  · have hfair := fairlyTaken_of_debt hnodup hneg h
    have hiff := credited_le_iff hnodup hneg h
    obtain ⟨_, hbalance, _⟩ := seizeForDeficitInner_takes hnodup hneg h
    refine ⟨hfair, ?_⟩
    rw [← hiff]
    constructor
    · intro hnever
      have := hnever.deficit hneg
      omega
    · intro hle
      exact ⟨hfair, le_max_of_le_left hle, fun _ => by omega⟩
  · have hnn := not_lt.mp hneg
    cases seizeForDeficitInner_cases h with
    | inl hnone =>
      obtain ⟨_, rfl, rfl⟩ := hnone
      have hnever : NeverOverCredits env w' w' user asset 0 := neverOverCredits_self hnn
      exact ⟨hnever.toFairlyTaken, iff_of_true hnever (seizureCovered_of_nonneg hnn)⟩
    | inr hseize => exact absurd hseize.1 hneg

end Vault

/-- **A seizure over-credits exactly when a part that is taken comes out above what is owed.**
Whatever calls on the vault made the lists of assets, `seize_for_deficit` and
`settle_deficit` credit no more, at the price of the asset owed, than the value after haircut
of what they take, and leave no balance below zero; and they credit at most the debt if and
only if each part that they take is worth no more than what is owed at its turn, or the price
of the asset owed rounds the excess away. -/
theorem seizure_credit {t : List (VaultOp × Store Address (List Address))} {env : Env} {w w' : World}
    {user asset : Address} {r : Int} (hr : IsRun ListStep ∅ t) (hw : w.vault.userAssets = final ∅ t)
    (h : Returns (Vault.seizeForDeficit env user asset) w r w' ∨
      ∃ caller, Returns (Vault.settleDeficit env caller user asset) w r w') :
    Vault.FairlyTaken env w w' user asset r ∧
      (Vault.NeverOverCredits env w w' user asset r ↔ Vault.SeizureCovered env w user asset) := by
  have hnodup := recordedAssets_nodup hr hw user
  exact Vault.neverOverCredits_iff hnodup (Vault.seizure_inner h)

/-! ## Seven units at one and a half -/

namespace Sample

/-- The volatile token, with a haircut of a tenth, at one and a half. -/
def dearer : World :=
  { exchange with oracle := { exchange.oracle with
    price := exchange.oracle.price.set "XLM" (quote "XLM" (15 * 10 ^ 17) 1000) } }

/-- Alice deposits seven units of the token and loses the amount in settlement. -/
def pledge (loss : Int) : List VaultOp :=
  [.deposit (host 1000) alice xlm 7, .applyPnl (host 1000) alice usdc (-loss)]

def pledged (loss : Int) : World := final dearer (execute VaultOp.call dearer (pledge loss))

end Sample

open Sample

/-- Alice owes 8 and her seven units are worth 9 after the haircut. Six of them are asked for
and worth 9 as well, so 9 is credited. -/
theorem credited_above_debt :
    (pledged 8).vault.balanceOf alice usdc = -8 ∧
    Vault.seizureTakes (host 1000) (pledged 8) alice usdc = [⟨xlm, 6, 9⟩] ∧
    ∃ w', Returns (Vault.seizeForDeficit (host 1000) alice usdc) (pledged 8) 9 w' ∧
      w'.vault.balanceOf alice usdc = 1 ∧ ¬ Vault.NeverOverCredits (host 1000) (pledged 8) w' alice usdc 9 := by
  have hseize := returns_of_value (x := Vault.seizeForDeficit (host 1000) alice usdc) (s := pledged 8)
    (a := 9) (by decide +kernel)
  have hafter : (commit (Vault.seizeForDeficit (host 1000) alice usdc) (pledged 8)).vault.balanceOf
      alice usdc = 1 := by decide +kernel
  have hbefore : (pledged 8).vault.balanceOf alice usdc = -8 := by decide +kernel
  refine ⟨hbefore, by decide +kernel, _, hseize, hafter, fun hnever => ?_⟩
  have hdeficit := hnever.deficit (by omega)
  omega

/-- Of a debt of 5 the part taken covers 4. -/
theorem seizure_credit_pledged :
    ∃ r w', Returns (Vault.seizeForDeficit (host 1000) alice usdc) (pledged 5) r w' ∧
      Vault.NeverOverCredits (host 1000) (pledged 5) w' alice usdc r := by
  have hr : IsRun ListStep ∅ (viewed (fun w => w.vault.userAssets)
      (execute VaultOp.call dearer (pledge 5))) := isRun_execute (w := dearer) (by decide +kernel)
  have hw := (@final_viewed _ _ _ (fun w : World => w.vault.userAssets) dearer
    (execute VaultOp.call dearer (pledge 5))).symm
  obtain ⟨r, hseize⟩ := returns_commit (x := Vault.seizeForDeficit (host 1000) alice usdc)
    (s := pledged 5) (by decide +kernel)
  have hcovered : Vault.SeizureCovered (host 1000) (pledged 5) alice usdc := by decide +kernel
  exact ⟨r, _, hseize, (seizure_credit hr hw (.inl hseize)).2.mpr hcovered⟩

end Kryon

import Kryon.Vault.Deficit
import Kryon.Vault.Equity
import Kryon.Vault.Withdrawal

/-! # What a seizure does to equity

The loop values what it takes and health values what is left, each rounded by itself. At par
the credit is the value of the takes, so equity keeps within one unit for each asset that was
seized, and one more where the credit passed the debt. -/
namespace Kryon
open Transaction Runs Collection

/-! ## Sums over the assets -/

/-- What differs by at most one where `p` holds, and nowhere else, adds up to at most their number. -/
theorem abs_sum_map_le_length_filter {α : Type} {l : List α} {g : α → Int} {p : α → Bool}
    (h : ∀ a ∈ l, |g a| ≤ if p a then 1 else 0) : |(l.map g).sum| ≤ (l.filter p).length := by
  induction l with
  | nil => simp
  | cons a rest ih =>
    obtain ⟨hone, hrest⟩ := List.forall_mem_cons.mp h
    have htail := ih hrest
    have hsum := abs_add_le (g a) (rest.map g).sum
    rw [List.map_cons, List.sum_cons, List.filter_cons]
    split at hone
    · rename_i hp
      rw [if_pos hp, List.length_cons]
      push_cast
      linarith
    · rename_i hp
      rw [if_neg hp]
      linarith

theorem sum_map_sub {α : Type} (l : List α) (f g : α → Int) :
    (l.map fun a => f a - g a).sum = (l.map f).sum - (l.map g).sum := by
  rw [eq_sub_iff_add_eq, ← List.sum_map_add]
  simp only [sub_add_cancel]

/-- A sum over a list without repetition, of which only one entry and those of a sublist count. -/
theorem sum_map_of_support {α : Type} [DecidableEq α] {l order : List α} {first : α} {f : α → Int}
    (hl : l.Nodup) (horder : order.Nodup) (hfirst : first ∈ l) (hsub : ∀ a ∈ order, a ∈ l)
    (hnot : first ∉ order) (hzero : ∀ a ∈ l, a ≠ first → a ∉ order → f a = 0) :
    (l.map f).sum = f first + (order.map f).sum := by
  rw [← List.sum_toFinset f hl, ← List.sum_toFinset f horder,
    ← Finset.sum_insert (mt List.mem_toFinset.mp hnot)]
  refine (Finset.sum_subset (fun a ha => ?_) fun a ha hout => ?_).symm
  · rcases Finset.mem_insert.mp ha with rfl | hmem
    · exact List.mem_toFinset.mpr hfirst
    · exact List.mem_toFinset.mpr (hsub a (List.mem_toFinset.mp hmem))
  · obtain ⟨hne, hmem⟩ := not_or.mp (mt Finset.mem_insert.mpr hout)
    exact hzero a (List.mem_toFinset.mp ha) hne (mt List.mem_toFinset.mpr hmem)

namespace Vault

variable {env : Env} {w w' : World} {user asset listed a : Address} {r : Int}
  {config : CollateralConfig} {snapshot : OracleSnapshot}

/-- What a balance that is no debt contributes is its worth. -/
theorem contribution_worth {value : Int} (hc : w.vault.collateral.get a = some config)
    (hactive : config.active = true) (hnn : 0 ≤ w.vault.balanceOf user a)
    (h : contribution env w user a = .ok value) :
    value = collateralWorth env w a (w.vault.balanceOf user a) := by
  by_cases hz : w.vault.balanceOf user a = 0
  · rw [contribution_of_zero hz] at h
    rw [hz, ← Except.ok.inj h, collateralWorth_zero]
  · have hprice : ∃ snapshot, collateralPrice env w a = .ok snapshot := by
      simp only [contribution, collateralEntry, if_neg hz, hc, hactive, Bool.true_eq_false, if_false,
        except_bind_ok] at h
      obtain ⟨_, ⟨oracle, ho, snapshot, hs, _⟩, _⟩ := h
      exact ⟨snapshot, (collateralPrice_of_config ho hc).trans hs⟩
    obtain ⟨snapshot, hprice⟩ := hprice
    rw [contribution_eq_valued hc hactive hprice hz] at h
    obtain ⟨hbps, _, hvalue⟩ := (valued_iff hnn (collateralPrice_pos hprice)).mp h
    rw [collateralWorth_eq hc hprice hbps, hvalue]

/-- An active asset at par contributes its debt in full, and a single unit at most as one. -/
theorem contribution_near_par {value : Int} (hc : w.vault.collateral.get a = some config)
    (hactive : config.active = true) (hprice : collateralPrice env w a = .ok snapshot)
    (hpar : snapshot.price = precision) (hle : w.vault.balanceOf user a ≤ 1)
    (h : contribution env w user a = .ok value) :
    value ≤ w.vault.balanceOf user a ∧ w.vault.balanceOf user a - 1 ≤ value ∧
      (w.vault.balanceOf user a ≤ 0 → value = w.vault.balanceOf user a) := by
  by_cases hz : w.vault.balanceOf user a = 0
  · rw [contribution_of_zero hz] at h
    rw [hz, ← Except.ok.inj h]
    omega
  · rw [contribution_eq_valued hc hactive hprice hz, hpar] at h
    by_cases hdebt : w.vault.balanceOf user a < 0
    · simp only [valued, except_bind_ok, mulPrecision_ok, Int.mul_tdiv_cancel _ precision_pos.ne',
        collateralValueAfterHaircut] at h
      obtain ⟨_, ⟨_, rfl⟩, h⟩ := h
      rw [if_pos hdebt] at h
      rw [← Except.ok.inj h]
      omega
    · obtain ⟨hbps, _, hvalue⟩ := (valued_iff (not_lt.mp hdebt) precision_pos).mp h
      rw [assetWorth, Int.mul_ediv_cancel _ precision_pos.ne'] at hvalue
      have hbounds := afterHaircut_bounds hbps (not_lt.mp hdebt)
      omega

/-- The assets of which a seizure took something. -/
def seizedAssets (w w' : World) (user asset : Address) : List Address :=
  (seizureOrder w.vault user asset).filter fun a =>
    w'.vault.balanceOf user a ≠ w.vault.balanceOf user a

/-- A seizure writes balances, and publishes an event. -/
theorem seizure_account (h : Returns (seizeForDeficitInner env user asset) w r w') :
    SamePrices w w' ∧ w'.vault.loadPositions user = w.vault.loadPositions user ∧
      w'.vault.userAssets = w.vault.userAssets := by
  obtain ⟨_, _, ⟨⟨_, rfl⟩, _⟩, rfl⟩ := seizeForDeficitInner_effect h
  exact ⟨⟨rfl, rfl, rfl, rfl, rfl, rfl, rfl⟩, rfl, rfl⟩

/-- Of an asset that is taken health loses what was taken, within one. -/
theorem contribution_taken {value value' : Int} (hprices : SamePrices w w')
    (hc : w.vault.collateral.get a = some config) (hactive : config.active = true)
    (hnn : 0 ≤ w'.vault.balanceOf user a)
    (hle : w'.vault.balanceOf user a ≤ w.vault.balanceOf user a)
    (hbefore : contribution env w user a = .ok value)
    (hafter : contribution env w' user a = .ok value') :
    |value' - value +
      collateralWorth env w a (w.vault.balanceOf user a - w'.vault.balanceOf user a)| ≤ 1 := by
  have hc' : w'.vault.collateral.get a = some config := by rw [hprices.collateral, hc]
  have hworth : collateralWorth env w' a = collateralWorth env w a := by
    funext amount
    simp only [collateralWorth, hprices.collateral, collateralPrice_congr hprices]
  rw [contribution_worth hc hactive (hnn.trans hle) hbefore,
    contribution_worth hc' hactive hnn hafter, hworth]
  cases collateralWorth_cases env w a with
  | inl hnone =>
    simp only [hnone]
    decide
  | inr hpriced =>
    obtain ⟨price, haircutBps, _, hbps, hpriced⟩ := hpriced
    have hparts := abs_assetWorth_add_sub_le price
      (x := w'.vault.balanceOf user a)
      (y := w.vault.balanceOf user a - w'.vault.balanceOf user a) hbps
    rw [add_sub_cancel] at hparts
    simp only [hpriced]
    rw [abs_le] at hparts ⊢
    constructor <;> linarith

/-- What each asset of the order loses, against what was taken of it. -/
theorem contribution_drift (hnodup : (w.vault.recordedAssets user).Nodup)
    (hneg : w.vault.balanceOf user asset < 0)
    (h : Returns (seizeForDeficitInner env user asset) w r w')
    (hvalued : ∀ a ∈ w.vault.recordedAssets user, ∃ value, contribution env w user a = .ok value)
    (hvalued' : ∀ a ∈ w.vault.recordedAssets user, ∃ value, contribution env w' user a = .ok value) :
    ∀ a ∈ seizureOrder w.vault user asset,
      |contributionOf env w' user a - contributionOf env w user a +
        collateralWorth env w a (w.vault.balanceOf user a - w'.vault.balanceOf user a)| ≤
      if decide (w'.vault.balanceOf user a ≠ w.vault.balanceOf user a) = true then 1 else 0 := by
  intro a ha
  obtain ⟨hprices, _, _⟩ := seizure_account h
  obtain ⟨_, _, htaken, _⟩ := seizeForDeficitInner_takes hnodup hneg h
  obtain ⟨hscanned, hne, config, hc, hactive⟩ := mem_seizureOrder.mp ha
  by_cases hsame : w'.vault.balanceOf user a = w.vault.balanceOf user a
  · rw [contributionOf_congr hprices hsame, hsame, sub_self, sub_self, zero_add, collateralWorth_zero]
    simp
  · rw [if_pos (decide_eq_true hsame)]
    obtain ⟨owed, hx⟩ := (seizureTerms env w user asset).take_mem_takes ha
    have hleft : w'.vault.balanceOf user a =
        w.vault.balanceOf user a - (seizureTerms env w user asset).amountTaken owed a := htaken _ hx
    obtain ⟨hamount, _⟩ := (seizureTerms env w user asset).amountTaken_bounds owed a
    have hmem := List.mem_of_mem_take hscanned
    obtain ⟨value, hbefore⟩ := hvalued a hmem
    obtain ⟨value', hafter⟩ := hvalued' a hmem
    rw [contributionOf_eq hbefore, contributionOf_eq hafter]
    exact contribution_taken hprices hc hactive ((fairlyTaken_of_debt hnodup hneg h).nonneg a hne hsame)
      (by omega) hbefore hafter

/-- At par the credit is the value of what was taken, and passes the debt by at most one. -/
theorem credited_at_par (hnodup : (w.vault.recordedAssets user).Nodup)
    (hneg : w.vault.balanceOf user asset < 0)
    (h : Returns (seizeForDeficitInner env user asset) w r w')
    (hprice : collateralPrice env w asset = .ok snapshot) (hpar : snapshot.price = precision) :
    r = ((seizureOrder w.vault user asset).map fun a =>
        collateralWorth env w a (w.vault.balanceOf user a - w'.vault.balanceOf user a)).sum ∧
      w.vault.balanceOf user asset + r ≤ 1 := by
  obtain ⟨hcredited, _, htaken, _⟩ := seizeForDeficitInner_takes hnodup hneg h
  have hrate := (deficitPrice_eq hprice).trans hpar
  rw [Terms.credited_at_par hrate] at hcredited
  refine ⟨hcredited.trans (value_takes (seizureTerms env w user asset) htaken), ?_⟩
  have hwithin : Terms.value ((seizureTerms env w user asset).takes (-w.vault.balanceOf user asset)
      (seizureOrder w.vault user asset)) ≤ -w.vault.balanceOf user asset + 1 :=
    Terms.value_le (by omega)
  rw [seizureTakes, hrate, Int.mul_ediv_cancel _ precision_pos.ne'] at hcredited
  omega

/-- **A seizure of a debt at par is neutral**, within one unit for each asset it takes and one for
the credit that passed the debt. -/
theorem seizure_at_par {listed : Address} {before after : AccountHealth}
    (hnodup : (w.vault.recordedAssets user).Nodup) (hneg : w.vault.balanceOf user asset < 0)
    (h : Returns (seizeForDeficitInner env user asset) w r w')
    (hmem : asset ∈ w.vault.recordedAssets user) (hc : w.vault.collateral.get asset = some config)
    (hactive : config.active = true) (hprice : collateralPrice env w asset = .ok snapshot)
    (hpar : snapshot.price = precision) (hbefore : accountHealth env w user listed = .ok before)
    (hafter : accountHealth env w' user listed = .ok after) :
    |after.collateralValue - before.collateralValue| ≤ 2 * (seizedAssets w w' user asset).length := by
  obtain ⟨hprices, _, hassets⟩ := seizure_account h
  obtain ⟨_, hbalance, _, hothers⟩ := seizeForDeficitInner_takes hnodup hneg h
  obtain ⟨howing, horder⟩ := seizureOrder_spec w.vault user asset
  obtain ⟨hpaid, hwithin⟩ := credited_at_par hnodup hneg h hprice hpar
  -- the list of the user, before and after
  obtain ⟨assets, hlist⟩ : ∃ assets, w.vault.userAssets.get user = some assets := by
    cases hlist : w.vault.userAssets.get user with
    | none =>
      rw [VaultStorage.recordedAssets, hlist] at hmem
      cases hmem
    | some assets => exact ⟨assets, rfl⟩
  have hrec : w.vault.recordedAssets user = assets := by
    rw [VaultStorage.recordedAssets, hlist, Option.getD_some]
  obtain ⟨hvalued, hvalue⟩ := accountHealth_recorded hlist hbefore
  obtain ⟨hvalued', hvalue'⟩ := accountHealth_recorded (by rw [hassets, hlist]) hafter
  rw [← hrec] at hvalued hvalued' hvalue hvalue'
  -- the asset owed
  obtain ⟨owed, howed⟩ := hvalued asset hmem
  obtain ⟨settled, hsettled⟩ := hvalued' asset hmem
  have hprice' : collateralPrice env w' asset = .ok snapshot := by
    rw [collateralPrice_congr hprices, hprice]
  obtain ⟨_, _, hdebt⟩ := contribution_near_par hc hactive hprice hpar (by omega) howed
  obtain ⟨hupper, hlower, hexact⟩ := contribution_near_par (by rw [hprices.collateral, hc]) hactive
    hprice' hpar (by omega) hsettled
  have hdebt := hdebt hneg.le
  -- the others
  have hdrift := abs_sum_map_le_length_filter (contribution_drift hnodup hneg h hvalued hvalued')
  rw [List.sum_map_add, ← hpaid] at hdrift
  have hsupport := sum_map_of_support
    (f := fun a => contributionOf env w' user a - contributionOf env w user a) hnodup (horder hnodup)
    hmem (fun a ha => List.mem_of_mem_take (mem_seizureOrder.mp ha).1) howing
    (fun a _ hne hout => by rw [contributionOf_congr hprices (hothers a hne hout), sub_self])
  rw [sum_map_sub, ← hvalue, ← hvalue', contributionOf_eq howed, contributionOf_eq hsettled] at hsupport
  by_cases hnone : seizedAssets w w' user asset = []
  · have hunpaid : r = 0 := by
      rw [hpaid]
      refine List.sum_eq_zero fun value hv => ?_
      obtain ⟨a, ha, rfl⟩ := List.mem_map.mp hv
      have hsame : w'.vault.balanceOf user a = w.vault.balanceOf user a := by
        by_contra hmoved
        have : a ∈ seizedAssets w w' user asset :=
          List.mem_filter.mpr ⟨ha, decide_eq_true hmoved⟩
        rw [hnone] at this
        cases this
      rw [hsame, sub_self, collateralWorth_zero]
    have hcount : ((seizureOrder w.vault user asset).filter fun a =>
        decide (w'.vault.balanceOf user a ≠ w.vault.balanceOf user a)).length = 0 := by
      rw [List.length_eq_zero_iff]
      exact hnone
    rw [hcount] at hdrift
    rw [hnone, List.length_nil]
    have hkept := hexact (by omega)
    rw [abs_le] at hdrift ⊢
    push_cast at hdrift ⊢
    omega
  · have hsome := List.length_pos_iff.mpr hnone
    have hcount : ((seizureOrder w.vault user asset).filter fun a =>
        decide (w'.vault.balanceOf user a ≠ w.vault.balanceOf user a)).length =
        (seizedAssets w w' user asset).length := rfl
    rw [hcount] at hdrift
    rw [abs_le] at hdrift ⊢
    omega

end Vault
/-- **A seizure is equity-neutral.** Whatever calls on the vault made the lists of assets, a seizure
of a recorded and active asset at the price of one leaves an account's requirements as they are and
moves its equity by at most two base units for each asset that it seizes. -/
theorem seizure_keeps_equity {t : List (VaultOp × Store Address (List Address))} {env : Env}
    {w w' : World} {user asset listed : Address} {r : Int} {config : CollateralConfig}
    {snapshot : OracleSnapshot} {before after : AccountHealth} (hr : IsRun ListStep ∅ t)
    (hw : w.vault.userAssets = final ∅ t)
    (h : Returns (Vault.seizeForDeficit env user asset) w r w' ∨
      ∃ caller, Returns (Vault.settleDeficit env caller user asset) w r w')
    (hmem : asset ∈ w.vault.recordedAssets user) (hc : w.vault.collateral.get asset = some config)
    (hactive : config.active = true) (hprice : Vault.collateralPrice env w asset = .ok snapshot)
    (hpar : snapshot.price = precision) (hbefore : Vault.accountHealth env w user listed = .ok before)
    (hafter : Vault.accountHealth env w' user listed = .ok after) :
    after.initialMarginRequired = before.initialMarginRequired ∧
      after.maintenanceMarginRequired = before.maintenanceMarginRequired ∧
      |after.equity - before.equity| ≤ 2 * (Vault.seizedAssets w w' user asset).length := by
  have hseize := Vault.seizure_inner h
  have hnodup := recordedAssets_nodup hr hw user
  obtain ⟨hprices, hpositions, _⟩ := Vault.seizure_account hseize
  obtain ⟨hinitial, hmaintenance, hequity⟩ :=
    Vault.accountHealth_same_positions hprices hpositions hbefore hafter
  refine ⟨hinitial, hmaintenance, ?_⟩
  rw [hequity]
  by_cases hneg : w.vault.balanceOf user asset < 0
  · exact Vault.seizure_at_par hnodup hneg hseize hmem hc hactive hprice hpar hbefore hafter
  · cases Vault.seizeForDeficitInner_cases hseize with
    | inl hnone =>
      obtain ⟨_, _, rfl⟩ := hnone
      obtain rfl := Except.ok.inj (hbefore.symm.trans hafter)
      rw [sub_self, abs_zero]
      positivity
    | inr hdebt => exact absurd hdebt.1 hneg

namespace Sample

/-- Alice has both tokens and loses 6 in settlement, one more than she has. -/
def lose : List VaultOp :=
  [.deposit (host 1000) alice usdc 1, .deposit (host 1000) alice xlm 7,
    .applyPnl (host 1000) alice usdc (-6)]

def owing : World := final dearer (execute VaultOp.call dearer lose)

end Sample

open Sample in
/-- Alice owes 5 and her seven units are worth 9. Three of them are taken for 4, and the four that
are left are worth 6: her equity rises from 4 to 5. -/
theorem seizure_keeps_equity_owing :
    ∃ r w' before after, Returns (Vault.seizeForDeficit (host 1000) alice usdc) owing r w' ∧
      Vault.accountHealth (host 1000) owing alice usdc = .ok before ∧
      Vault.accountHealth (host 1000) w' alice usdc = .ok after ∧ before.equity = 4 ∧
      (Vault.seizedAssets owing w' alice usdc).length = 1 ∧ after.equity ≤ 6 := by
  have hr : IsRun ListStep ∅ (viewed (fun w => w.vault.userAssets)
      (execute VaultOp.call dearer lose)) := isRun_execute (w := dearer) (by decide +kernel)
  have hw := (@final_viewed _ _ _ (fun w : World => w.vault.userAssets) dearer
    (execute VaultOp.call dearer lose)).symm
  obtain ⟨r, hseize⟩ := returns_commit (x := Vault.seizeForDeficit (host 1000) alice usdc)
    (s := owing) (by decide +kernel)
  obtain ⟨before, hbefore⟩ := exists_ok (x := Vault.accountHealth (host 1000) owing alice usdc)
    (by decide +kernel)
  obtain ⟨after, hafter⟩ := exists_ok (x := Vault.accountHealth (host 1000)
    (commit (Vault.seizeForDeficit (host 1000) alice usdc) owing) alice usdc) (by decide +kernel)
  have hequity : before.equity = 4 := by
    have hvalue : (Vault.accountHealth (host 1000) owing alice usdc).map AccountHealth.equity = .ok 4 := by
      decide +kernel
    rw [hbefore] at hvalue
    exact Except.ok.inj hvalue
  have hone : (Vault.seizedAssets owing (commit (Vault.seizeForDeficit (host 1000) alice usdc) owing) alice
      usdc).length = 1 := by decide +kernel
  have hmem : usdc ∈ owing.vault.recordedAssets alice := by decide +kernel
  obtain ⟨_, _, hbound⟩ :=
    seizure_keeps_equity (w := owing) hr hw (.inl hseize) hmem rfl rfl rfl rfl hbefore hafter
  rw [hone, abs_le] at hbound
  exact ⟨r, _, before, after, hseize, hbefore, hafter, hequity, hone, by omega⟩

end Kryon

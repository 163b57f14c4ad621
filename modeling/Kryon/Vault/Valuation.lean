import Kryon.Vault.Health

/-! # What health counts

The collateral value is the sum of what health counts for each asset: what a recorded one is
worth, and nothing for one that the user's list leaves out. -/
namespace Kryon
open Transaction

namespace Vault

variable {env : Env} {w w' : World} {user asset : Address}

theorem ok_bind {α β : Type} (a : α) (f : α → Res β) : (Except.ok a >>= f) = f a := rfl

theorem contribution_of_zero (h : w.vault.balanceOf user asset = 0) :
    contribution env w user asset = .ok 0 := by
  simp only [contribution, collateralEntry, h, if_true]
  rfl

theorem contribution_of_unlisted (h : w.vault.collateral.get asset = none) :
    contribution env w user asset = .ok 0 := by
  by_cases hz : w.vault.balanceOf user asset = 0
  · exact contribution_of_zero hz
  · simp only [contribution, collateralEntry, h, hz, if_false]
    rfl

theorem contributionOf_of_zero (h : w.vault.balanceOf user asset = 0) :
    contributionOf env w user asset = 0 := contributionOf_eq (contribution_of_zero h)

theorem contributionOf_of_unlisted (h : w.vault.collateral.get asset = none) :
    contributionOf env w user asset = 0 := contributionOf_eq (contribution_of_unlisted h)

/-- What the asset health is asked about adds for a user without a list. -/
def soleContribution (env : Env) (w : World) (user asset : Address) : Res Int := do
  let config ← w.vault.loadCollateral asset
  let price ← collateralPrice env w asset
  let value ← mulPrecision (w.vault.balanceOf user asset) price.price
  collateralValueAfterHaircut value config.haircutBps

def soleContributionOf (env : Env) (w : World) (user asset : Address) : Int :=
  match soleContribution env w user asset with
  | .ok value => value
  | .error _ => 0

/-- What health counts for asset `a` when it is asked about `asset`. -/
def countedOf (env : Env) (w : World) (user asset a : Address) : Int :=
  match w.vault.userAssets.get user with
  | some assets => if a ∈ assets then contributionOf env w user a else 0
  | none => if a = asset then soleContributionOf env w user asset else 0

/-- What is counted of an asset follows its own balance. -/
theorem countedOf_congr {a : Address} (h : SamePrices w w')
    (hlist : w'.vault.userAssets.get user = w.vault.userAssets.get user)
    (hb : w'.vault.balanceOf user a = w.vault.balanceOf user a) :
    countedOf env w' user asset a = countedOf env w user asset a := by
  simp only [countedOf, hlist]
  cases w.vault.userAssets.get user with
  | some assets => rw [contributionOf_congr h hb]
  | none =>
    by_cases ha : a = asset
    · subst ha
      simp only [if_true, soleContributionOf, soleContribution, VaultStorage.loadCollateral, h.collateral,
        collateralPrice_congr h, hb]
    · simp only [if_neg ha]

/-- What the asset is worth beyond what health counts for it: nothing for a recorded
asset, all of it for an active one that the list leaves out. -/
def leftOutOf (env : Env) (w : World) (user asset a : Address) : Int :=
  contributionOf env w user a - countedOf env w user asset a

theorem soleContribution_of_snapshot {config : CollateralConfig} {positions : List Position}
    {account : AccountSnapshot} {total : Int} (hc : w.vault.loadCollateral asset = .ok config)
    (h : accountSnapshotForAsset env w user asset (w.vault.balanceOf user asset) config positions =
      .ok account) (ht : collateralTotal 0 account.collateral = .ok total) :
    soleContribution env w user asset = .ok total := by
  simp only [accountSnapshotForAsset, except_bind_ok, except_pure_ok] at h
  obtain ⟨oracle, ho, price, hprice, value, hvalue, _, _, rfl⟩ := h
  obtain ⟨after, hafter, _, hrest⟩ := collateralTotal_cons.mp ht
  rw [zero_add] at hrest
  obtain rfl := Except.ok.inj hrest
  simp only [soleContribution, collateralPrice, except_bind_ok]
  exact ⟨config, hc, price, ⟨config, hc, oracle, ho, hprice⟩, value, hvalue, hafter⟩

/-- The collateral value is what health counts, over all assets. -/
theorem accountHealth_counted {health : AccountHealth} (hn : (w.vault.recordedAssets user).Nodup)
    (h : accountHealth env w user asset = .ok health) :
    health.collateralValue = ∑ᶠ a, countedOf env w user asset a := by
  simp only [accountHealth, except_bind_ok] at h
  obtain ⟨account, hacc, markets, _, hh⟩ := h
  have htotal := accountHealth_collateralValue hh
  cases hlist : w.vault.userAssets.get user with
  | some assets =>
    have hrec : w.vault.recordedAssets user = assets := by
      simp only [VaultStorage.recordedAssets, hlist, Option.getD_some]
    simp only [accountSnapshot, hlist, Option.isSome_some, if_true, accountSnapshotAllAssets,
      except_bind_ok, except_pure_ok, hrec] at hacc
    obtain ⟨entries, he, _, _, rfl⟩ := hacc
    obtain ⟨_, hsum⟩ := collateralEntries_total he htotal
    rw [hrec] at hn
    simp only [countedOf, hlist]
    rw [hsum, zero_add, finsum_mem_list hn]
  | none =>
    simp only [accountSnapshot, hlist, Option.isSome_none, Bool.false_eq_true, if_false,
      except_bind_ok] at hacc
    obtain ⟨config, hc, hacc⟩ := hacc
    have hsole := soleContribution_of_snapshot hc hacc htotal
    simp only [countedOf, hlist]
    rw [finsum_eq_single _ asset fun a ha => if_neg ha, if_pos rfl, soleContributionOf, hsole]

theorem soleContributionOf_of_zero (h : w.vault.balanceOf user asset = 0) :
    soleContributionOf env w user asset = 0 := by
  unfold soleContributionOf
  split
  · rename_i value hv
    simp only [soleContribution, except_bind_ok, h, mulPrecision_ok, zero_mul, Int.zero_tdiv, and_assoc,
      exists_and_left, exists_eq_left', collateralValueAfterHaircut, lt_irrefl, if_false, applyBps_ok,
      checkedSub_ok, sub_zero] at hv
    obtain ⟨_, _, _, _, _, _, _, _, hv⟩ := hv
    exact hv.symm
  · rfl

theorem soleContributionOf_of_unlisted (h : w.vault.collateral.get asset = none) :
    soleContributionOf env w user asset = 0 := by
  simp only [soleContributionOf, soleContribution, VaultStorage.loadCollateral, h]
  rfl

/-- A user all of whose listed balances are recorded is counted in full. -/
theorem countedOf_of_indexed
    (h : ∀ a, w.vault.collateral.get a ≠ none → w.vault.balanceOf user a ≠ 0 →
      a ∈ w.vault.recordedAssets user) (a : Address) :
    countedOf env w user asset a = contributionOf env w user a := by
  have hout : a ∉ w.vault.recordedAssets user → contributionOf env w user a = 0 := by
    intro hmem
    by_cases hc : w.vault.collateral.get a = none
    · exact contributionOf_of_unlisted hc
    · exact contributionOf_of_zero (not_not.mp fun hb => hmem (h a hc hb))
  cases hlist : w.vault.userAssets.get user with
  | some assets =>
    have hrec : w.vault.recordedAssets user = assets := by
      simp only [VaultStorage.recordedAssets, hlist, Option.getD_some]
    rw [hrec] at hout
    simp only [countedOf, hlist]
    split
    · rfl
    · rename_i hmem
      rw [hout hmem]
  | none =>
    have hrec : a ∉ w.vault.recordedAssets user := by
      simp only [VaultStorage.recordedAssets, hlist, Option.getD_none, List.not_mem_nil,
        not_false_eq_true]
    simp only [countedOf, hlist, hout hrec]
    split
    · rename_i ha
      subst ha
      by_cases hc : w.vault.collateral.get a = none
      · exact soleContributionOf_of_unlisted hc
      · exact soleContributionOf_of_zero (not_not.mp fun hb => hrec (h a hc hb))
    · rfl

theorem finite_support_contributionOf (env : Env) (w : World) (user : Address) :
    (Function.support (contributionOf env w user)).Finite := by
  refine Store.finite_support_of_row (s := w.vault.balance) user fun a hnone => ?_
  have hz : w.vault.balanceOf user a = 0 := by
    simp only [VaultStorage.balanceOf, hnone, Option.getD_none]
  exact contributionOf_of_zero hz

theorem finite_support_countedOf (env : Env) (w : World) (user asset : Address) :
    (Function.support (countedOf env w user asset)).Finite := by
  unfold countedOf
  cases w.vault.userAssets.get user with
  | some assets =>
    refine assets.finite_toSet.subset fun a ha => ?_
    by_contra hmem
    exact ha (if_neg hmem)
  | none =>
    refine (Set.finite_singleton asset).subset fun a ha => ?_
    by_contra hne
    exact ha (if_neg hne)

/-- The balances are worth what health counts and what it leaves out. -/
theorem finsum_leftOutOf : ∑ᶠ a, leftOutOf env w user asset a =
    ∑ᶠ a, contributionOf env w user a - ∑ᶠ a, countedOf env w user asset a :=
  finsum_sub_distrib (finite_support_contributionOf env w user)
    (finite_support_countedOf env w user asset)

end Vault
end Kryon

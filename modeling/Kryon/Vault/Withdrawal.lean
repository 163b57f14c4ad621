import Kryon.Vault.AssetIndex
import Kryon.Vault.Valuation

/-! # What a withdrawal leaves behind

`validate_withdrawal` takes the truncated value of the amount off the health from before the
withdrawal. The account is never valued again, so what it is worth afterwards is compared
with that check here: the balance is truncated twice and its haircut shrinks with it. -/
namespace Kryon
open Transaction Runs

namespace Vault

variable {env : Env} {w w' : World} {user asset : Address} {config : CollateralConfig}
  {snapshot : OracleSnapshot}

/-- A listed and active asset contributes what its balance is valued at. -/
theorem contribution_eq_valued (hc : w.vault.collateral.get asset = some config)
    (hactive : config.active = true) (hprice : collateralPrice env w asset = .ok snapshot)
    (hne : w.vault.balanceOf user asset ≠ 0) : contribution env w user asset =
      valued (w.vault.balanceOf user asset) snapshot.price config.haircutBps := by
  simp only [collateralPrice, VaultStorage.loadCollateral, except_bind_ok, okOr_ok, hc,
    Option.some.injEq, exists_eq_left'] at hprice
  obtain ⟨oracle, ho, hp⟩ := hprice
  simp only [contribution, collateralEntry, if_neg hne, hc, hactive, Bool.true_eq_false, if_false, ho,
    ok_bind, hp, valued]
  cases mulPrecision (w.vault.balanceOf user asset) snapshot.price <;> rfl

theorem soleContribution_eq_valued (hc : w.vault.collateral.get asset = some config)
    (hprice : collateralPrice env w asset = .ok snapshot) : soleContribution env w user asset =
      valued (w.vault.balanceOf user asset) snapshot.price config.haircutBps := by
  simp only [soleContribution, VaultStorage.loadCollateral, hc, hprice]
  rfl

/-- What a withdrawal has checked. -/
theorem withdraw_checks {amount : Int} {health : AccountHealth}
    (h : Returns (withdraw env user asset amount) w health w') :
    ∃ config snapshot before, w.vault.collateral.get asset = some config ∧ config.active = true ∧
      collateralPrice env w asset = .ok snapshot ∧ accountHealth env w user asset = .ok before ∧
      before.initialMarginRequired ≤ before.equity - (amount * snapshot.price).tdiv precision := by
  simp only [withdraw, returns_lift_bind, returns_readWith_bind, returns_get_bind, reject_ok] at h
  obtain ⟨_, _, _, _, _, _, config, hconfig, _, hactive, _, _, account, hacc, markets, hm, snapshot,
    hprice, value, hvalue, checked, hchecked, _⟩ := h
  simp only [validateWithdrawal, except_bind_ok, reject_ok, checkedSub_ok] at hchecked
  obtain ⟨_, _, before, hbefore, _, _, _, ⟨_, rfl⟩, _, _, _, _, _, hmargin, _⟩ := hchecked
  obtain ⟨_, rfl⟩ := mulPrecision_ok.mp hvalue
  refine ⟨config, snapshot, before, okOr_ok.mp hconfig, by simpa using hactive, hprice, ?_,
    not_lt.mp hmargin⟩
  simp only [accountHealth, except_bind_ok]
  exact ⟨account, hacc, markets, hm, hbefore⟩

/-- The entry of an active asset that is valued. -/
theorem collateralEntry_of_valued {value : Int} (hc : w.vault.collateral.get asset = some config)
    (hactive : config.active = true) (hprice : collateralPrice env w asset = .ok snapshot)
    (hne : w.vault.balanceOf user asset ≠ 0)
    (hvalue : mulPrecision (w.vault.balanceOf user asset) snapshot.price = .ok value) :
    collateralEntry env w user asset =
      .ok (some ⟨asset, w.vault.balanceOf user asset, value, config.haircutBps⟩) := by
  simp only [collateralPrice, VaultStorage.loadCollateral, except_bind_ok, okOr_ok, hc,
    Option.some.injEq, exists_eq_left'] at hprice
  obtain ⟨oracle, ho, hp⟩ := hprice
  simp only [collateralEntry, if_neg hne, hc, hactive, Bool.true_eq_false, if_false, ho, ok_bind, hp,
    hvalue]
  rfl

/-! ## The account with less of the asset -/

/-- The same account at the same prices, with less of the asset and not in debt in it. -/
structure Lowered (w w' : World) (user asset : Address) : Prop where
  prices : SamePrices w w'
  positions : w'.vault.loadPositions user = w.vault.loadPositions user
  userAssets : w'.vault.userAssets.get user = w.vault.userAssets.get user
  others : ∀ a, a ≠ asset → w'.vault.balanceOf user a = w.vault.balanceOf user a
  nonneg : 0 ≤ w'.vault.balanceOf user asset
  lower : w'.vault.balanceOf user asset < w.vault.balanceOf user asset

theorem Lowered.recordedAssets (h : Lowered w w' user asset) :
    w'.vault.recordedAssets user = w.vault.recordedAssets user := by
  simp only [VaultStorage.recordedAssets, h.userAssets]

/-- What could be valued can still be valued. -/
theorem Lowered.valued {price value : Int} {haircutBps : Nat} (h : Lowered w w' user asset)
    (hprice : 0 < price)
    (hvalued : Kryon.valued (w.vault.balanceOf user asset) price haircutBps = .ok value) :
    Kryon.valued (w'.vault.balanceOf user asset) price haircutBps =
      .ok (assetWorth (w'.vault.balanceOf user asset) price haircutBps) := by
  have hnn := h.nonneg
  have hlt := h.lower
  obtain ⟨hbps, hmax, _⟩ := (valued_iff (by omega) hprice).mp hvalued
  have hmono : w'.vault.balanceOf user asset * price / precision ≤
      w.vault.balanceOf user asset * price / precision :=
    Int.ediv_le_ediv precision_pos (mul_le_mul_of_nonneg_right hlt.le hprice.le)
  exact (valued_iff hnn hprice).mpr ⟨hbps, hmono.trans hmax, rfl⟩

/-- The lowered balance contributes its worth. -/
theorem Lowered.contribution {value : Int} (h : Lowered w w' user asset)
    (hc : w.vault.collateral.get asset = some config) (hactive : config.active = true)
    (hprice : collateralPrice env w asset = .ok snapshot)
    (hold : Vault.contribution env w user asset = .ok value) :
    value = assetWorth (w.vault.balanceOf user asset) snapshot.price config.haircutBps ∧
      config.haircutBps ≤ 10000 ∧ Vault.contribution env w' user asset =
        .ok (assetWorth (w'.vault.balanceOf user asset) snapshot.price config.haircutBps) := by
  have hnn := h.nonneg
  have hlt := h.lower
  have hpos := collateralPrice_pos hprice
  rw [contribution_eq_valued hc hactive hprice (by omega)] at hold
  obtain ⟨hbps, _, heq⟩ := (valued_iff (by omega) hpos).mp hold
  refine ⟨heq, hbps, ?_⟩
  by_cases hz : w'.vault.balanceOf user asset = 0
  · rw [contribution_of_zero hz, hz]
    simp [assetWorth]
  · have hc' : w'.vault.collateral.get asset = some config := by rw [h.prices.collateral, hc]
    have hprice' : collateralPrice env w' asset = .ok snapshot := by
      rw [collateralPrice_congr h.prices, hprice]
    rw [contribution_eq_valued hc' hactive hprice' hz]
    exact h.valued hpos hold

theorem Lowered.contribution_other {a : Address} (h : Lowered w w' user asset) (ha : a ≠ asset) :
    Vault.contribution env w' user a = Vault.contribution env w user a := by
  simp only [Vault.contribution, collateralEntry_congr h.prices (h.others a ha)]

/-- Entries that all have a value add up unless they overflow. -/
theorem collateralEntries_of_contributions {assets : List Address}
    (h : ∀ a ∈ assets, ∃ value, contribution env w user a = .ok value) :
    ∃ entries, collateralEntries env w user assets = .ok entries ∧
      ∀ total, FailsOnly (collateralTotal total entries) (.code .mathOverflow) := by
  induction assets with
  | nil => exact ⟨[], rfl, fun total => .of_ok rfl⟩
  | cons asset rest ih =>
    obtain ⟨⟨value, hvalue⟩, hrest⟩ := List.forall_mem_cons.mp h
    obtain ⟨entries, hentries, htotal⟩ := ih hrest
    simp only [contribution, except_bind_ok] at hvalue
    obtain ⟨entry, hentry, hnet⟩ := hvalue
    refine ⟨entry.toList ++ entries, ?_, ?_⟩
    · simp only [collateralEntries, hentry, hentries, ok_bind]
      rfl
    · intro total
      cases entry with
      | none => exact htotal total
      | some c => exact (FailsOnly.of_ok hnet).bind fun net _ =>
          (checkedAdd_failsOnly _ _).bind fun sum _ => htotal sum

/-- The lowered account has a snapshot, and its collateral adds up unless it overflows. -/
theorem Lowered.accountSnapshot {before : AccountSnapshot} {total : Int}
    (h : Lowered w w' user asset) (hc : w.vault.collateral.get asset = some config)
    (hactive : config.active = true) (hprice : collateralPrice env w asset = .ok snapshot)
    (hsnapshot : Vault.accountSnapshot env w user asset = .ok before)
    (ht : collateralTotal 0 before.collateral = .ok total) :
    ∃ after, Vault.accountSnapshot env w' user asset = .ok after ∧
      after.positions = before.positions ∧ after.owner = before.owner ∧
      FailsOnly (collateralTotal 0 after.collateral) (.code .mathOverflow) := by
  by_cases hsome : (w.vault.userAssets.get user).isSome = true
  · simp only [Vault.accountSnapshot, hsome, if_true, accountSnapshotAllAssets, except_bind_ok,
      except_pure_ok] at hsnapshot
    obtain ⟨entries, hentries, u, howner, rfl⟩ := hsnapshot
    have hall : ∀ a ∈ w.vault.recordedAssets user, ∃ value,
        Vault.contribution env w' user a = .ok value := by
      intro a ha
      obtain ⟨value, hvalue⟩ := (collateralEntries_total hentries ht).1 a ha
      by_cases he : a = asset
      · subst he
        exact ⟨_, (h.contribution hc hactive hprice hvalue).2.2⟩
      · exact ⟨value, (h.contribution_other he).trans hvalue⟩
    obtain ⟨entries', hentries', htotal⟩ := collateralEntries_of_contributions hall
    refine ⟨⟨user, entries', w.vault.loadPositions user⟩, ?_, rfl, rfl, htotal 0⟩
    simp only [Vault.accountSnapshot, h.userAssets, hsome, if_true, accountSnapshotAllAssets,
      h.recordedAssets, h.positions, hentries', howner, ok_bind]
    rfl
  · have hlisted : w.vault.loadCollateral asset = .ok config := okOr_ok.mpr hc
    have hlisted' : w'.vault.loadCollateral asset = .ok config := by
      rw [VaultStorage.loadCollateral, h.prices.collateral]
      exact hlisted
    have hprice' : collateralPrice env w' asset = .ok snapshot := by
      rw [collateralPrice_congr h.prices, hprice]
    have hpos := collateralPrice_pos hprice
    simp only [collateralPrice, except_bind_ok, hlisted, hlisted', Except.ok.injEq,
      exists_eq_left'] at hprice hprice'
    obtain ⟨oracle, ho, hp⟩ := hprice
    obtain ⟨oracle', ho', hp'⟩ := hprice'
    simp only [Vault.accountSnapshot, hsome, Bool.false_eq_true, if_false, hlisted, ok_bind,
      accountSnapshotForAsset, ho, hp, except_bind_ok, except_pure_ok] at hsnapshot
    obtain ⟨value, hvalue, u, howner, rfl⟩ := hsnapshot
    obtain ⟨net, hnet, _, _⟩ := collateralTotal_cons.mp ht
    have hvalued : Kryon.valued (w.vault.balanceOf user asset) snapshot.price config.haircutBps =
        .ok net := by
      simp only [Kryon.valued, hvalue, ok_bind]
      exact hnet
    have hvalued' := h.valued hpos hvalued
    simp only [Kryon.valued, except_bind_ok] at hvalued'
    obtain ⟨value', hvalue', hnet'⟩ := hvalued'
    refine ⟨⟨user, [⟨asset, w'.vault.balanceOf user asset, value', config.haircutBps⟩],
      w.vault.loadPositions user⟩, ?_, rfl, rfl, ?_⟩
    · simp only [Vault.accountSnapshot, h.userAssets, hsome, Bool.false_eq_true, if_false, hlisted',
        ok_bind, accountSnapshotForAsset, ho', hp', hvalue', h.positions, howner]
      rfl
    · exact (FailsOnly.of_ok hnet').bind fun net _ =>
        (checkedAdd_failsOnly _ _).bind fun sum _ => .of_ok rfl

/-- Less of the asset: the account still has a health unless it overflows. -/
theorem Lowered.accountHealth {before : AccountHealth} (h : Lowered w w' user asset)
    (hc : w.vault.collateral.get asset = some config) (hactive : config.active = true)
    (hprice : collateralPrice env w asset = .ok snapshot)
    (hbefore : Vault.accountHealth env w user asset = .ok before) :
    FailsOnly (Vault.accountHealth env w' user asset) (.code .mathOverflow) := by
  simp only [Vault.accountHealth, except_bind_ok] at hbefore
  obtain ⟨account, hacc, markets, hm, hh⟩ := hbefore
  obtain ⟨account', hacc', hpositions, _, htotal⟩ :=
    h.accountSnapshot hc hactive hprice hacc (accountHealth_collateralValue hh)
  refine (FailsOnly.of_ok hacc').bind fun a ha => ?_
  obtain rfl := Except.ok.inj (hacc'.symm.trans ha)
  have hm' : loadMarketsForPositions env w' account'.positions = .ok markets := by
    rw [loadMarketsForPositions_congr h.prices, hpositions, hm]
  refine (FailsOnly.of_ok hm').bind fun m hmarkets => ?_
  obtain rfl := Except.ok.inj (hm'.symm.trans hmarkets)
  obtain ⟨owner, collateral, positions⟩ := account
  obtain ⟨owner', collateral', positions'⟩ := account'
  obtain rfl : positions' = positions := hpositions
  exact accountHealth_failsOnly hh htotal

/-- Healths of the same positions at the same prices differ by the collateral. -/
theorem accountHealth_same_positions {listed : Address} {before after : AccountHealth}
    (hprices : SamePrices w w') (hsame : w'.vault.loadPositions user = w.vault.loadPositions user)
    (hbefore : Vault.accountHealth env w user listed = .ok before)
    (hafter : Vault.accountHealth env w' user listed = .ok after) :
    after.initialMarginRequired = before.initialMarginRequired ∧
      after.maintenanceMarginRequired = before.maintenanceMarginRequired ∧
      after.equity - before.equity = after.collateralValue - before.collateralValue := by
  simp only [Vault.accountHealth, except_bind_ok] at hbefore hafter
  obtain ⟨account, hacc, markets, hm, hh⟩ := hbefore
  obtain ⟨account', hacc', markets', hm', hh'⟩ := hafter
  have hpositions : account'.positions = account.positions := by
    rw [loaded_positions hacc, loaded_positions hacc', hsame]
  rw [loadMarketsForPositions_congr hprices, hpositions, hm] at hm'
  obtain rfl := Except.ok.inj hm'
  obtain ⟨owner, collateral, positions⟩ := account
  obtain ⟨owner', collateral', positions'⟩ := account'
  obtain rfl : positions' = positions := hpositions
  obtain ⟨hinitial, hmaintenance⟩ := accountHealth_requirements hh hh'
  exact ⟨hinitial, hmaintenance, accountHealth_equity_change hh hh'⟩

/-- What health counts of the asset itself: its worth, or nothing. -/
theorem Lowered.countedOf_self {before : AccountHealth} (h : Lowered w w' user asset)
    (hc : w.vault.collateral.get asset = some config) (hactive : config.active = true)
    (hprice : collateralPrice env w asset = .ok snapshot)
    (hbefore : Vault.accountHealth env w user asset = .ok before) :
    countedOf env w' user asset asset = countedOf env w user asset asset ∨
    config.haircutBps ≤ 10000 ∧
      countedOf env w user asset asset =
        assetWorth (w.vault.balanceOf user asset) snapshot.price config.haircutBps ∧
      countedOf env w' user asset asset =
        assetWorth (w'.vault.balanceOf user asset) snapshot.price config.haircutBps := by
  simp only [Vault.accountHealth, except_bind_ok] at hbefore
  obtain ⟨account, hacc, markets, _, hh⟩ := hbefore
  have htotal := accountHealth_collateralValue hh
  have hpos := collateralPrice_pos hprice
  have hnn := h.nonneg
  have hlt := h.lower
  cases hlist : w.vault.userAssets.get user with
  | some assets =>
    by_cases hmem : asset ∈ assets
    · have hrec : w.vault.recordedAssets user = assets := by
        simp only [VaultStorage.recordedAssets, hlist, Option.getD_some]
      simp only [Vault.accountSnapshot, hlist, Option.isSome_some, if_true, accountSnapshotAllAssets,
        except_bind_ok, except_pure_ok, hrec] at hacc
      obtain ⟨entries, hentries, _, _, rfl⟩ := hacc
      obtain ⟨value, hvalue⟩ := (collateralEntries_total hentries htotal).1 asset hmem
      obtain ⟨heq, hbps, hvalue'⟩ := h.contribution hc hactive hprice hvalue
      refine .inr ⟨hbps, ?_, ?_⟩
      · simp only [countedOf, hlist, if_pos hmem, contributionOf_eq hvalue, heq]
      · simp only [countedOf, h.userAssets, hlist, if_pos hmem, contributionOf_eq hvalue']
    · refine .inl ?_
      simp only [countedOf, h.userAssets, hlist, if_neg hmem]
  | none =>
    simp only [Vault.accountSnapshot, hlist, Option.isSome_none, Bool.false_eq_true, if_false,
      except_bind_ok] at hacc
    obtain ⟨listed, hlisted, hacc⟩ := hacc
    have hsole := soleContribution_of_snapshot hlisted hacc htotal
    rw [soleContribution_eq_valued hc hprice] at hsole
    obtain ⟨hbps, _, heq⟩ := (valued_iff (by omega) hpos).mp hsole
    have hc' : w'.vault.collateral.get asset = some config := by rw [h.prices.collateral, hc]
    have hprice' : collateralPrice env w' asset = .ok snapshot := by
      rw [collateralPrice_congr h.prices, hprice]
    refine .inr ⟨hbps, ?_, ?_⟩
    · simp only [countedOf, hlist, if_true, soleContributionOf, soleContribution_eq_valued hc hprice,
        hsole, heq]
    · simp only [countedOf, h.userAssets, hlist, if_true, soleContributionOf,
        soleContribution_eq_valued hc' hprice', h.valued hpos hsole]

/-- What the account loses is what the asset loses in worth, or nothing when health does not
count the asset; its requirements stay. -/
theorem Lowered.accountHealth_change {before after : AccountHealth} (h : Lowered w w' user asset)
    (hc : w.vault.collateral.get asset = some config) (hactive : config.active = true)
    (hprice : collateralPrice env w asset = .ok snapshot)
    (hnodup : (w.vault.recordedAssets user).Nodup)
    (hbefore : Vault.accountHealth env w user asset = .ok before)
    (hafter : Vault.accountHealth env w' user asset = .ok after) :
    after.initialMarginRequired = before.initialMarginRequired ∧
    (after.equity = before.equity ∨ config.haircutBps ≤ 10000 ∧ after.equity = before.equity -
      (assetWorth (w.vault.balanceOf user asset) snapshot.price config.haircutBps -
        assetWorth (w'.vault.balanceOf user asset) snapshot.price config.haircutBps)) := by
  obtain ⟨hinitial, _, hequity⟩ := accountHealth_same_positions h.prices h.positions hbefore hafter
  have hvalue := accountHealth_counted hnodup hbefore
  have hvalue' := accountHealth_counted (h.recordedAssets.symm ▸ hnodup) hafter
  have hchange := finsum_change (finite_support_countedOf env w user asset) asset
    (fun a ha => countedOf_congr h.prices h.userAssets (h.others a ha))
  refine ⟨hinitial, ?_⟩
  cases h.countedOf_self hc hactive hprice hbefore with
  | inl hsame =>
    left
    omega
  | inr hworth =>
    obtain ⟨hbps, hold, hnew⟩ := hworth
    exact .inr ⟨hbps, by omega⟩

theorem withdraw_lowers {amount : Int} {health : AccountHealth}
    (h : Returns (withdraw env user asset amount) w health w') :
    0 < amount ∧ Lowered w w' user asset ∧
      w'.vault.balanceOf user asset = w.vault.balanceOf user asset - amount := by
  obtain ⟨hpos, hle, tokens, totalDeposited, rfl⟩ := withdraw_effect h
  have hbalance : ∀ a, (w.vault.setBalance user asset (w.vault.balanceOf user asset - amount)).balanceOf
      user a = if a = asset then w.vault.balanceOf user asset - amount else w.vault.balanceOf user a := by
    intro a
    rw [VaultStorage.balanceOf_setBalance]
    simp
  have hself := (hbalance asset).trans (if_pos rfl)
  refine ⟨hpos, ⟨⟨rfl, rfl, rfl, rfl, rfl, rfl, rfl⟩, rfl, rfl, fun a ha => ?_, ?_, ?_⟩, hself⟩
  · exact (hbalance a).trans (if_neg ha)
  · exact hself.symm ▸ (by omega)
  · exact hself.symm ▸ (by omega)

/-- Valued again, the account is at most one unit below its initial margin, and not below it
when the price is in whole units. -/
theorem withdraw_safe {amount : Int} {health after : AccountHealth}
    (hnodup : (w.vault.recordedAssets user).Nodup)
    (hprice : collateralPrice env w asset = .ok snapshot)
    (h : Returns (withdraw env user asset amount) w health w')
    (hafter : accountHealth env w' user asset = .ok after) :
    after.initialMarginRequired - 1 ≤ after.equity ∧
      (precision ∣ snapshot.price → after.initialMarginRequired ≤ after.equity) := by
  obtain ⟨config, snapshot', before, hc, hactive, hprice', hbefore, hmargin⟩ := withdraw_checks h
  obtain rfl := Except.ok.inj (hprice.symm.trans hprice')
  obtain ⟨hamount, hlowered, hbalance⟩ := withdraw_lowers h
  obtain ⟨hinitial, hchange⟩ :=
    hlowered.accountHealth_change hc hactive hprice hnodup hbefore hafter
  have hpos := collateralPrice_pos hprice
  have hvalue : 0 ≤ (amount * snapshot.price).tdiv precision :=
    Int.tdiv_nonneg (mul_nonneg hamount.le hpos.le) precision_pos.le
  cases hchange with
  | inl hsame => exact ⟨by omega, fun _ => by omega⟩
  | inr hworth =>
    obtain ⟨hbps, hequity⟩ := hworth
    rw [hbalance] at hequity
    obtain ⟨_, hloss, hexact⟩ := @assetWorth_sub_le amount snapshot.price config.haircutBps
      (w.vault.balanceOf user asset) hbps hpos hamount.le
    refine ⟨by omega, fun hdvd => ?_⟩
    have := hexact hdvd
    omega

end Vault

/-! ## Prices at which withdrawals are safe -/

/-- At this price of the asset no withdrawal leaves an account short of its initial margin. -/
def WithdrawalSafeAt (price : Int) : Prop :=
  ∀ {env : Env} {w w' : World} {user asset : Address} {amount : Int} {snapshot : OracleSnapshot}
    {health after : AccountHealth}, (w.vault.recordedAssets user).Nodup →
    Vault.collateralPrice env w asset = .ok snapshot → snapshot.price = price →
    Returns (Vault.withdraw env user asset amount) w health w' →
    Vault.accountHealth env w' user asset = .ok after →
    after.initialMarginRequired ≤ after.equity

/-! ## A price between two units -/

namespace Sample

/-- Alice holds some of the volatile token at the price and owes the settlement token. -/
def indebted (price amount debt : Int) : World :=
  let w := world (100 * precision) 1000
  { w with
    oracle := { w.oracle with price := w.oracle.price.set "XLM" (quote "XLM" price 1000) }
    vault := { w.vault with
      collateral := w.vault.collateral.set
        { asset := xlm, oracleAsset := "XLM", haircutBps := 0, active := true }
      balance := (w.vault.balance.set (alice, xlm) amount).set (alice, usdc) (-debt)
      userAssets := w.vault.userAssets.set alice [xlm, usdc] } }

end Sample

open Sample

/-- The health of an account that holds no position. -/
def restingHealth (total : Int) : AccountHealth where
  collateralValue := total
  unrealizedPnl := 0
  equity := total
  initialMarginRequired := 0
  maintenanceMarginRequired := 0
  freeCollateral := total
  marginRatio := i128Max
  liquidatable := false

theorem accountHealth_resting {owner : Address} {collateral : List CollateralBalance} {total : Int}
    {markets : Store Nat MarketSnapshot} (hrange : InI128 total)
    (h : collateralTotal 0 collateral = .ok total) :
    accountHealth ⟨owner, collateral, []⟩ markets = .ok (restingHealth total) := by
  have hadd : checkedAdd total 0 = .ok total := by simp [hrange]
  have hsub : checkedSub total 0 = .ok total := by simp [hrange]
  simp only [accountHealth, h, Vault.ok_bind, positionPass, PositionPass.start, List.zip_nil_left,
    splitPass, addSigned, addSignedFrom, hadd, hsub, marginRatioOf, crossMaintenancePass]
  rfl

/-- What the sample states take for granted of a price, an amount and a debt. -/
structure Owing (price amount debt : Int) : Prop where
  pricePos : 0 < price
  priceMax : price ≤ i128Max
  amountPos : 0 < amount
  amountMax : amount ≤ precision
  debtPos : 0 < debt
  debtMax : debt ≤ i128Max

variable {amount debt : Int}

theorem indebted_quoted {asset : Address} {config : CollateralConfig} {quoted : Int}
    (hprice : 0 < quoted) (hmax : quoted ≤ i128Max)
    (hlisted : (indebted price amount debt).vault.collateral.get asset = some config)
    (hfeed : (indebted price amount debt).oracle.config.get config.oracleAsset = some feed)
    (hquoted : (indebted price amount debt).oracle.price.get config.oracleAsset =
      some (quote config.oracleAsset quoted 1000)) :
    Vault.collateralPrice (host 1000) (indebted price amount debt) asset =
      .ok (quote config.oracleAsset quoted 1000) := by
  have hconf : applyBps quoted 100 = .ok (quoted * 100 / 10000) := by
    have hnn : 0 ≤ quoted * ((100 : Nat) : Int) := by omega
    rw [applyBps_ok, Int.tdiv_eq_ediv_of_nonneg hnn]
    exact ⟨by decide, inI128_zero.between inI128_max (by omega) (by omega), rfl⟩
  have hvalid : (quote config.oracleAsset quoted 1000).validate 1000 feed.guard = .ok () := by
    simp only [OracleSnapshot.validate, except_bind_ok, reject_ok]
    refine ⟨(), not_le.mpr hprice, (), (by decide : ¬ ((1000 : Nat) > 1000 ∨ (1000 : Nat) > 1000)), (),
      (by decide : ¬ ((0 : Nat) > 60 ∨ (0 : Nat) > 60)), (), (by decide : ¬ (0 : Int) < 0), _, hconf, ?_⟩
    show ¬ 0 > quoted * 100 / 10000
    omega
  simp only [Vault.collateralPrice, VaultStorage.loadCollateral, except_bind_ok, Vault.oracleGetPrice,
    OracleAdapter.getPrice, OracleAdapter.loadConfig]
  exact ⟨config, okOr_ok.mpr hlisted, deployment.oracle, rfl, (), rfl, feed, okOr_ok.mpr hfeed, (), rfl,
    _, okOr_ok.mpr hquoted, (), rfl, (), hvalid, rfl⟩

theorem indebted_xlm (h : Owing price amount debt) :
    Vault.collateralPrice (host 1000) (indebted price amount debt) xlm =
      .ok (quote "XLM" price 1000) := by
  have hlisted : (indebted price amount debt).vault.collateral.get xlm =
      some { asset := xlm, oracleAsset := "XLM", haircutBps := 0, active := true } := rfl
  exact indebted_quoted h.pricePos h.priceMax hlisted rfl rfl

theorem indebted_usdc :
    Vault.collateralPrice (host 1000) (indebted price amount debt) usdc =
      .ok (quote "USDC" precision 1000) := by
  have hlisted : (indebted price amount debt).vault.collateral.get usdc =
      some { asset := usdc, oracleAsset := "USDC", haircutBps := 0, active := true } := rfl
  exact indebted_quoted precision_pos (by decide) hlisted rfl rfl

/-- Alice's collateral as health sees it. -/
def owed (price amount debt : Int) : List CollateralBalance :=
  [⟨xlm, amount, amount * price / precision, 0⟩, ⟨usdc, -debt, -debt, 0⟩]

theorem Owing.ranges (h : Owing price amount debt) : InI128 (amount * price / precision) ∧
    InI128 (-debt) ∧ InI128 (amount * price / precision - debt) := by
  obtain ⟨hprice, hmax, hamount, hunit, hdebt, hdebtMax⟩ := h
  have hvalue : 0 ≤ amount * price / precision :=
    Int.ediv_nonneg (mul_nonneg hamount.le hprice.le) precision_pos.le
  have hworth : amount * price / precision ≤ price := by
    refine Int.ediv_le_of_le_mul precision_pos ?_
    rw [mul_comm price]
    exact mul_le_mul_of_nonneg_right hunit hprice.le
  refine ⟨inI128_zero.between inI128_max hvalue (hworth.trans hmax), ?_, ?_⟩
  · exact ⟨by omega, by omega⟩
  · exact ⟨by omega, by omega⟩

theorem indebted_snapshot (h : Owing price amount debt) :
    Vault.accountSnapshot (host 1000) (indebted price amount debt) alice xlm =
      .ok ⟨alice, owed price amount debt, []⟩ := by
  obtain ⟨hvalueRange, hdebtRange, _⟩ := h.ranges
  have hxlm : Vault.collateralEntry (host 1000) (indebted price amount debt) alice xlm =
      .ok (some ⟨xlm, amount, amount * price / precision, 0⟩) := by
    have hvalued : mulPrecision amount price = .ok (amount * price / precision) := by
      rw [mulPrecision_ok, Int.tdiv_eq_ediv_of_nonneg (mul_nonneg h.amountPos.le h.pricePos.le)]
      exact ⟨hvalueRange, rfl⟩
    have hlisted : (indebted price amount debt).vault.collateral.get xlm =
        some { asset := xlm, oracleAsset := "XLM", haircutBps := 0, active := true } := rfl
    have hheld : (indebted price amount debt).vault.balanceOf alice xlm ≠ 0 := h.amountPos.ne'
    exact Vault.collateralEntry_of_valued hlisted rfl (indebted_xlm h) hheld hvalued
  have husdc : Vault.collateralEntry (host 1000) (indebted price amount debt) alice usdc =
      .ok (some ⟨usdc, -debt, -debt, 0⟩) := by
    have hvalued : mulPrecision (-debt) precision = .ok (-debt) := mulPrecision_precision hdebtRange
    have hlisted : (indebted price amount debt).vault.collateral.get usdc =
        some { asset := usdc, oracleAsset := "USDC", haircutBps := 0, active := true } := rfl
    have hheld : (indebted price amount debt).vault.balanceOf alice usdc ≠ 0 :=
      neg_ne_zero.mpr h.debtPos.ne'
    exact Vault.collateralEntry_of_valued hlisted rfl indebted_usdc hheld hvalued
  have hlist : (indebted price amount debt).vault.recordedAssets alice = [xlm, usdc] := rfl
  have hsome : ((indebted price amount debt).vault.userAssets.get alice).isSome = true := rfl
  simp only [Vault.accountSnapshot, if_pos hsome, Vault.accountSnapshotAllAssets, hlist,
    Vault.collateralEntries, hxlm, husdc]
  rfl

theorem owed_total (h : Owing price amount debt) :
    collateralTotal 0 (owed price amount debt) = .ok (amount * price / precision - debt) := by
  obtain ⟨hvalueRange, hdebtRange, htotalRange⟩ := h.ranges
  have hdebit : 0 + amount * price / precision + -debt = amount * price / precision - debt := by ring
  refine collateralTotal_cons.mpr ⟨_, collateralValueAfterHaircut_zero hvalueRange, by rwa [zero_add],
    collateralTotal_cons.mpr ⟨_, collateralValueAfterHaircut_zero hdebtRange, ?_, ?_⟩⟩
  · rwa [hdebit]
  · rw [hdebit]
    rfl

/-- One unit of the token is out. -/
def taken (price debt : Int) : World :=
  let w := indebted price precision debt
  { w with vault := { w.vault.setBalance alice xlm (precision - 1) with
    totalDeposited := w.vault.totalDeposited.set xlm 0 } }

theorem taken_samePrices : SamePrices (indebted price (precision - 1) debt) (taken price debt) :=
  ⟨rfl, rfl, rfl, rfl, rfl, rfl, rfl⟩

theorem taken_sameAccount :
    SameAccount (indebted price (precision - 1) debt) (taken price debt) alice where
  positions := rfl
  userAssets := rfl
  balanceOf asset := by
    by_cases hu : asset = usdc
    · subst hu
      rfl
    · by_cases hx : asset = xlm
      · subst hx
        rfl
      · simp [taken, indebted, VaultStorage.balanceOf, VaultStorage.setBalance, hx, hu]

/-- At a price that is not in whole units, one unit out of a whole balance costs the unit that
its truncated value leaves and one more. -/
theorem indebted_withdraw (hprice : 0 < price) (hmax : price ≤ i128Max) (hfraction : ¬ precision ∣ price) :
    Returns (Vault.withdraw (host 1000) alice xlm 1)
      (indebted price precision (price - price / precision)) (restingHealth 0)
      (taken price (price - price / precision)) ∧
    Vault.accountHealth (host 1000) (taken price (price - price / precision)) alice xlm =
      .ok (restingHealth (-1)) := by
  have hfloor : price / precision < price := by
    unfold precision
    omega
  have hfloor_nn : 0 ≤ price / precision := Int.ediv_nonneg hprice.le precision_pos.le
  have howing : Owing price precision (price - price / precision) :=
    ⟨hprice, hmax, precision_pos, le_rfl, by omega, by omega⟩
  have howing' : Owing price (precision - 1) (price - price / precision) :=
    ⟨hprice, hmax, by decide, by decide, by omega, by omega⟩
  constructor
  · have htotal := owed_total howing
    have hequity : precision * price / precision - (price - price / precision) = price / precision := by
      rw [Int.mul_ediv_cancel_left _ precision_pos.ne']
      omega
    rw [hequity] at htotal
    have hrange : InI128 (price / precision) := inI128_zero.between inI128_max hfloor_nn (by omega)
    have hvalue : mulPrecision 1 price = .ok (price / precision) := by
      rw [mulPrecision_ok, one_mul, Int.tdiv_eq_ediv_of_nonneg hprice.le]
      exact ⟨hrange, rfl⟩
    have hchecked : validateWithdrawal ⟨alice, owed price precision (price - price / precision), []⟩ ∅
        (price / precision) = .ok (restingHealth 0) := by
      have hhealth : accountHealth ⟨alice, owed price precision (price - price / precision), []⟩ ∅ =
          .ok (restingHealth (price / precision)) := accountHealth_resting hrange htotal
      have hnn : reject (price / precision < 0) .invalidAmount = .ok () :=
        reject_ok.mpr (not_lt.mpr hfloor_nn)
      have hzero : checkedSub (price / precision) (price / precision) = .ok 0 := by
        rw [checkedSub_ok, sub_self]
        exact ⟨inI128_zero, rfl⟩
      simp only [validateWithdrawal, hnn, hhealth, Vault.ok_bind, restingHealth, hzero]
      rfl
    simp only [Vault.withdraw, returns_lift_bind, returns_readWith_bind, returns_get_bind]
    refine ⟨(), rfl, (), rfl, (), rfl, _, rfl, (), rfl, (), rfl, _, indebted_snapshot howing, ∅, rfl, _,
      indebted_xlm howing, _, hvalue, _, hchecked, ?_⟩
    simp only [returns_bind, Vault.decreaseBalance_returns, returns_lift, Vault.store_returns,
      tokenTransfer_returns, returns_pure]
    exact ⟨_, _, ⟨(by decide : InI128 (precision - 1)), rfl, rfl⟩, -1, _, ⟨rfl, rfl⟩, (), _, rfl, (), _,
      ⟨_, rfl, rfl⟩, trivial, rfl⟩
  · have hleft : (precision - 1) * price / precision - (price - price / precision) = -1 := by
      have hrest : price % precision ≠ 0 := fun hz => hfraction (Int.dvd_of_emod_eq_zero hz)
      have hsplit : (precision - 1) * price = -price + precision * price := by ring
      rw [hsplit, Int.add_mul_ediv_left _ _ precision_pos.ne']
      unfold precision at hrest ⊢
      omega
    have htotal := owed_total howing'
    rw [hleft] at htotal
    have hm : Vault.loadMarketsForPositions (host 1000)
      (indebted price (precision - 1) (price - price / precision)) [] = .ok ∅ := rfl
    rw [Vault.accountHealth_congr taken_samePrices taken_sameAccount]
    simp only [Vault.accountHealth, indebted_snapshot howing', Vault.ok_bind, hm]
    exact accountHealth_resting (by decide) htotal

/-- Withdrawals are safe at exactly the prices in whole units. -/
theorem withdrawalSafeAt_iff (hprice : 0 < price) (hmax : price ≤ i128Max) :
    WithdrawalSafeAt price ↔ precision ∣ price := by
  constructor
  · intro hsafe
    by_contra hfraction
    obtain ⟨hwithdraw, hafter⟩ := indebted_withdraw hprice hmax hfraction
    have hnodup : ((indebted price precision (price - price / precision)).vault.recordedAssets
        alice).Nodup := by
      show [xlm, usdc].Nodup
      decide
    have howing : Owing price precision (price - price / precision) := by
      refine ⟨hprice, hmax, precision_pos, le_rfl, ?_, ?_⟩
      · unfold precision
        omega
      · unfold precision
        omega
    have hshort : (0 : Int) ≤ -1 := hsafe hnodup (indebted_xlm howing) rfl hwithdraw hafter
    exact absurd hshort (by decide)
  · intro hdvd env w w' user asset amount snapshot health after hnodup hquoted heq hwithdraw hafter
    exact (Vault.withdraw_safe hnodup hquoted hwithdraw hafter).2 (heq ▸ hdvd)

/-- **A withdrawal is safe up to one unit.** After a successful withdrawal the balance is not
negative and the account, valued again at the same prices, does not overflow or has at least
its initial margin less one; and the prices at which no withdrawal leaves an account short
are exactly the whole multiples of the precision. -/
theorem withdrawal_safety {t : List (VaultOp × Store Address (List Address))}
    {env : Env} {w w' : World} {user asset : Address} {amount : Int} {health : AccountHealth}
    (hr : IsRun ListStep ∅ t) (hw : w.vault.userAssets = final ∅ t)
    (h : Returns (Vault.withdraw env user asset amount) w health w') :
    0 ≤ w'.vault.balanceOf user asset ∧
    (Vault.accountHealth env w' user asset = .error (.code .mathOverflow) ∨
      ∃ after, Vault.accountHealth env w' user asset = .ok after ∧
        after.initialMarginRequired - 1 ≤ after.equity ∧
        ∀ snapshot, Vault.collateralPrice env w asset = .ok snapshot → precision ∣ snapshot.price →
          after.initialMarginRequired ≤ after.equity) ∧
    ∀ price, 0 < price → price ≤ i128Max → (WithdrawalSafeAt price ↔ precision ∣ price) := by
  have hnodup := recordedAssets_nodup hr hw user
  obtain ⟨config, snapshot, before, hc, hactive, hprice, hbefore, _⟩ := Vault.withdraw_checks h
  obtain ⟨_, hlowered, _⟩ := Vault.withdraw_lowers h
  refine ⟨hlowered.nonneg, ?_, fun price hpos hmax => withdrawalSafeAt_iff hpos hmax⟩
  cases (hlowered.accountHealth hc hactive hprice hbefore).cases with
  | inl hoverflow => exact .inl hoverflow
  | inr hafter =>
    obtain ⟨after, hafter⟩ := hafter
    obtain ⟨hshort, _⟩ := Vault.withdraw_safe hnodup hprice h hafter
    exact .inr ⟨after, hafter, hshort, fun snapshot' hquoted hdvd =>
      (Vault.withdraw_safe hnodup hquoted h hafter).2 hdvd⟩

/-- At twice the precision no withdrawal leaves an account short, and one that takes all that
Alice can spare leaves her exactly at her initial margin. -/
theorem safe_at_two_units :
    ¬ (∀ price, 0 < price → price ≤ i128Max → (WithdrawalSafeAt price ↔ price = precision)) ∧
    ¬ ∀ (env : Env) (w w' : World) (user asset : Address) (amount : Int) (snapshot : OracleSnapshot)
      (health after : AccountHealth), (w.vault.recordedAssets user).Nodup →
      Vault.collateralPrice env w asset = .ok snapshot →
      Returns (Vault.withdraw env user asset amount) w health w' →
      Vault.accountHealth env w' user asset = .ok after →
      (after.initialMarginRequired ≤ after.equity ↔ snapshot.price = precision) := by
  constructor
  · intro hclaim
    have hsafe : WithdrawalSafeAt (2 * precision) :=
      (withdrawalSafeAt_iff (by decide) (by decide)).mpr (Dvd.intro_left 2 rfl)
    exact absurd ((hclaim _ (by decide) (by decide)).mp hsafe) (by decide)
  · intro hclaim
    have howing : Owing (2 * precision) precision (2 * precision - 2) :=
      ⟨by decide, by decide, by decide, le_rfl, by decide, by decide⟩
    obtain ⟨health, hwithdraw⟩ := returns_commit (x := Vault.withdraw (host 1000) alice xlm 1)
      (s := indebted (2 * precision) precision (2 * precision - 2)) (by decide +kernel)
    obtain ⟨after, hafter⟩ := exists_ok (x := Vault.accountHealth (host 1000)
      (commit (Vault.withdraw (host 1000) alice xlm 1)
        (indebted (2 * precision) precision (2 * precision - 2))) alice xlm) (by decide +kernel)
    have hnodup : ((indebted (2 * precision) precision (2 * precision - 2)).vault.recordedAssets
        alice).Nodup := by
      show [xlm, usdc].Nodup
      decide
    have hmargin := (Vault.withdraw_safe hnodup (indebted_xlm howing) hwithdraw hafter).2
      (Dvd.intro_left 2 rfl)
    exact absurd ((hclaim _ _ _ _ _ _ _ _ _ hnodup (indebted_xlm howing) hwithdraw hafter).mp hmargin)
      (by decide)

/-- Alice deposits the volatile token and takes a part of it out. -/
theorem withdrawal_safety_deposited :
    0 ≤ (exchangeAfter [depositXlm, .withdraw (host 1000) alice xlm 40]).vault.balanceOf alice xlm ∧
    ∃ after, Vault.accountHealth (host 1000)
      (exchangeAfter [depositXlm, .withdraw (host 1000) alice xlm 40]) alice xlm = .ok after ∧
      after.initialMarginRequired - 1 ≤ after.equity := by
  have hr : IsRun ListStep ∅ (viewed (fun w => w.vault.userAssets)
      (execute VaultOp.call exchange [depositXlm])) :=
    isRun_execute (w := exchange) (by decide +kernel)
  have hw := (@final_viewed _ _ _ (fun w : World => w.vault.userAssets) exchange
    (execute VaultOp.call exchange [depositXlm])).symm
  obtain ⟨health, hwithdraw⟩ := returns_commit (x := Vault.withdraw (host 1000) alice xlm 40)
    (s := exchangeAfter [depositXlm]) (by decide +kernel)
  obtain ⟨hbalance, hsafe, _⟩ := withdrawal_safety hr hw hwithdraw
  refine ⟨hbalance, ?_⟩
  cases hsafe with
  | inl hoverflow => exact absurd hoverflow (by decide +kernel)
  | inr hafter =>
    obtain ⟨after, hafter, hmargin, _⟩ := hafter
    exact ⟨after, hafter, hmargin⟩

end Kryon

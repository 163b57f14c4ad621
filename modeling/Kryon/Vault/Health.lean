import Kryon.Vault.Effects

/-! # What account health reads

`account_health` is a function of the prices, the configuration and the account's
own slice of the vault. The congruence lemmas say so; the rest takes the collateral
value apart into what each recorded asset contributes. -/
namespace Kryon
open Transaction

/-- The two worlds value every account by the same prices, listings and indexes. -/
structure SamePrices (w w' : World) : Prop where
  deployed : w'.deployed = w.deployed
  oracle : w'.oracle = w.oracle
  vaultOracle : w'.vault.oracle = w.vault.oracle
  collateral : w'.vault.collateral = w.vault.collateral
  marketConfig : w'.vault.marketConfig = w.vault.marketConfig
  fundingLong : w'.vault.fundingLong = w.vault.fundingLong
  fundingShort : w'.vault.fundingShort = w.vault.fundingShort

/-- The two worlds hold the same account. -/
structure SameAccount (w w' : World) (user : Address) : Prop where
  positions : w'.vault.loadPositions user = w.vault.loadPositions user
  userAssets : w'.vault.userAssets.get user = w.vault.userAssets.get user
  balanceOf : ∀ asset, w'.vault.balanceOf user asset = w.vault.balanceOf user asset

theorem VaultStorage.Credited.samePrices {w : World} {vault : VaultStorage} {user asset : Address}
    {amount : Int} (h : w.vault.Credited vault user asset amount) :
    SamePrices w { w with vault } := by
  obtain ⟨⟨_, rfl⟩, _⟩ := h
  exact ⟨rfl, rfl, rfl, rfl, rfl, rfl, rfl⟩

namespace Vault

variable {env : Env} {w w' : World} {user asset : Address}

theorem oracleGetPrice_congr (h : SamePrices w w') (oracle : Address) (symbol : Symbol)
    (guard : Option OracleGuard) :
    oracleGetPrice env w' oracle symbol guard = oracleGetPrice env w oracle symbol guard := by
  simp only [oracleGetPrice, h.deployed, h.oracle]

theorem oracleAddress_congr (h : SamePrices w w') : oracleAddress w' = oracleAddress w := by
  simp only [oracleAddress, h.vaultOracle]

theorem collateralPrice_congr (h : SamePrices w w') :
    collateralPrice env w' asset = collateralPrice env w asset := by
  simp only [collateralPrice, VaultStorage.loadCollateral, h.collateral, oracleAddress_congr h,
    oracleGetPrice_congr h]

theorem collateralEntry_congr (h : SamePrices w w')
    (hb : w'.vault.balanceOf user asset = w.vault.balanceOf user asset) :
    collateralEntry env w' user asset = collateralEntry env w user asset := by
  simp only [collateralEntry, hb, h.collateral, oracleAddress_congr h, oracleGetPrice_congr h]

theorem collateralEntries_congr (h : SamePrices w w')
    (hb : ∀ a, w'.vault.balanceOf user a = w.vault.balanceOf user a) (assets : List Address) :
    collateralEntries env w' user assets = collateralEntries env w user assets := by
  induction assets with
  | nil => rfl
  | cons asset rest ih => simp only [collateralEntries, collateralEntry_congr h (hb asset), ih]

theorem marketSnapshot_congr (h : SamePrices w w') (config : MarketConfig) :
    marketSnapshot env w' config = marketSnapshot env w config := by
  simp only [marketSnapshot, VaultStorage.fundingLongOf, VaultStorage.fundingShortOf,
    h.fundingLong, h.fundingShort, oracleAddress_congr h, oracleGetPrice_congr h]

theorem loadMarketsFrom_congr (h : SamePrices w w') (markets : Store Nat MarketSnapshot)
    (positions : List Position) :
    loadMarketsFrom env w' markets positions = loadMarketsFrom env w markets positions := by
  induction positions generalizing markets with
  | nil => rfl
  | cons position rest ih =>
    simp only [loadMarketsFrom, h.marketConfig, marketSnapshot_congr h, ih]

theorem loadMarketsForPositions_congr (h : SamePrices w w') (positions : List Position) :
    loadMarketsForPositions env w' positions = loadMarketsForPositions env w positions :=
  loadMarketsFrom_congr h ∅ positions

theorem accountSnapshot_congr (h : SamePrices w w') (ha : SameAccount w w' user) :
    accountSnapshot env w' user asset = accountSnapshot env w user asset := by
  simp only [accountSnapshot, accountSnapshotAllAssets, accountSnapshotForAsset,
    VaultStorage.recordedAssets, VaultStorage.loadCollateral, ha.positions, ha.userAssets,
    ha.balanceOf, h.collateral, collateralEntries_congr h ha.balanceOf, oracleAddress_congr h,
    oracleGetPrice_congr h]

theorem loaded_positions {account : AccountSnapshot}
    (h : accountSnapshot env w user asset = .ok account) :
    account.positions = w.vault.loadPositions user := by
  unfold accountSnapshot at h
  split at h
  · simp only [accountSnapshotAllAssets, except_bind_ok, except_pure_ok] at h
    obtain ⟨_, _, _, _, rfl⟩ := h
    rfl
  · simp only [accountSnapshotForAsset, except_bind_ok, except_pure_ok] at h
    obtain ⟨_, _, _, _, _, _, _, _, _, _, rfl⟩ := h
    rfl

/-- What holds of every market's entry holds of every entry of a table. -/
theorem loadMarketsFrom_every {P : Nat → MarketSnapshot → Prop} {markets result : Store Nat MarketSnapshot}
    {positions : List Position} (hentry : ∀ marketId config m, w.vault.marketConfig.get marketId = some config →
      marketSnapshot env w config = .ok m → P marketId m)
    (hmarkets : ∀ k m, markets.get k = some m → P k m)
    (h : loadMarketsFrom env w markets positions = .ok result) :
    ∀ k m, result.get k = some m → P k m := by
  induction positions generalizing markets with
  | nil =>
    obtain rfl := Except.ok.inj h
    exact hmarkets
  | cons p rest ih =>
    by_cases hloaded : (markets.get p.marketId).isSome = true
    · simp only [loadMarketsFrom, hloaded, if_true] at h
      exact ih hmarkets h
    · simp only [loadMarketsFrom, hloaded, Bool.false_eq_true, if_false, except_bind_ok, okOr_ok] at h
      obtain ⟨config, hc, snapshot, hs, hrest⟩ := h
      refine ih ?_ hrest
      intro k m hget
      rw [Store.get_set, w.vault.marketConfig.key_of_get hc] at hget
      split at hget
      · rename_i hk
        rw [← Option.some.inj hget, hk]
        exact hentry _ config snapshot hc hs
      · exact hmarkets k m hget

/-- Health sees nothing but the prices and the account. -/
theorem accountHealth_congr (h : SamePrices w w') (ha : SameAccount w w' user) :
    accountHealth env w' user asset = accountHealth env w user asset := by
  simp only [accountHealth, accountSnapshot_congr h ha, loadMarketsForPositions_congr h]

/-! ## Whoever asks -/

theorem collateralEntries_callFrom (caller : Address) (assets : List Address) :
    collateralEntries (env.callFrom caller) w user assets = collateralEntries env w user assets := by
  induction assets with
  | nil => rfl
  | cons asset rest ih =>
    simp only [collateralEntries, ih]
    rfl

theorem loadMarketsFrom_callFrom (caller : Address) (markets : Store Nat MarketSnapshot)
    (positions : List Position) :
    loadMarketsFrom (env.callFrom caller) w markets positions =
      loadMarketsFrom env w markets positions := by
  induction positions generalizing markets with
  | nil => rfl
  | cons position rest ih =>
    simp only [loadMarketsFrom, ih]
    rfl

/-- Health does not depend on the caller. -/
theorem accountHealth_callFrom (caller : Address) :
    accountHealth (env.callFrom caller) w user asset = accountHealth env w user asset := by
  simp only [accountHealth, accountSnapshot, accountSnapshotAllAssets, collateralEntries_callFrom,
    loadMarketsForPositions, loadMarketsFrom_callFrom]
  rfl

/-! ## Contributions to the collateral value -/

/-- What one recorded asset adds to the collateral value. -/
def contribution (env : Env) (w : World) (user asset : Address) : Res Int := do
  match ← collateralEntry env w user asset with
  | none => return 0
  | some c => collateralValueAfterHaircut c.value c.haircutBps

/-- The contribution as a number, where it is one. -/
def contributionOf (env : Env) (w : World) (user asset : Address) : Int :=
  match contribution env w user asset with
  | .ok value => value
  | .error _ => 0

theorem contributionOf_eq {value : Int} (h : contribution env w user asset = .ok value) :
    contributionOf env w user asset = value := by
  simp [contributionOf, h]

theorem contributionOf_congr (h : SamePrices w w')
    (hb : w'.vault.balanceOf user asset = w.vault.balanceOf user asset) :
    contributionOf env w' user asset = contributionOf env w user asset := by
  simp only [contributionOf, contribution, collateralEntry_congr h hb]

/-- The collateral value is the sum of the recorded assets' contributions. -/
theorem collateralEntries_total {assets : List Address} {entries : List CollateralBalance}
    {total result : Int} (h : collateralEntries env w user assets = .ok entries)
    (ht : collateralTotal total entries = .ok result) :
    (∀ a ∈ assets, ∃ value, contribution env w user a = .ok value) ∧
      result = total + (assets.map (contributionOf env w user)).sum := by
  induction assets generalizing entries total with
  | nil =>
    obtain rfl := Except.ok.inj h
    obtain rfl := Except.ok.inj ht
    simp
  | cons asset rest ih =>
    simp only [collateralEntries, except_bind_ok, except_pure_ok] at h
    obtain ⟨entry, he, entries', hrest, rfl⟩ := h
    have hone : ∃ value, contribution env w user asset = .ok value ∧
        collateralTotal (total + value) entries' = .ok result := by
      cases entry with
      | none =>
        refine ⟨0, ?_, by simpa using ht⟩
        simp only [contribution, he]
        rfl
      | some c =>
        obtain ⟨value, hv, _, ht⟩ := collateralTotal_cons.mp ht
        refine ⟨value, ?_, ht⟩
        simp only [contribution, he]
        exact hv
    obtain ⟨value, hv, htotal⟩ := hone
    obtain ⟨hall, hsum⟩ := ih hrest htotal
    refine ⟨List.forall_mem_cons.mpr ⟨⟨value, hv⟩, hall⟩, ?_⟩
    rw [hsum, List.map_cons, List.sum_cons, contributionOf_eq hv, add_assoc]

/-- An active asset priced one for one without a haircut contributes its balance. -/
theorem contribution_at_par {config : CollateralConfig} {snapshot : OracleSnapshot} {value : Int}
    (hc : w.vault.collateral.get asset = some config) (hactive : config.active = true)
    (hhaircut : config.haircutBps = 0) (hprice : collateralPrice env w asset = .ok snapshot)
    (hpar : snapshot.price = precision) (h : contribution env w user asset = .ok value) :
    value = w.vault.balanceOf user asset := by
  simp only [collateralPrice, VaultStorage.loadCollateral, except_bind_ok, okOr_ok, hc,
    Option.some.injEq, exists_eq_left'] at hprice
  obtain ⟨oracle, ho, hp⟩ := hprice
  simp only [contribution, collateralEntry, hc, except_bind_ok] at h
  obtain ⟨entry, he, hv⟩ := h
  split at he
  · rename_i hz
    obtain rfl := Except.ok.inj he
    rw [hz]
    exact (Except.ok.inj hv).symm
  · simp only [hactive, Bool.true_eq_false, if_false, except_bind_ok, ho, hp, except_pure_ok,
      Except.ok.injEq, exists_eq_left', hpar, mulPrecision_ok,
      Int.mul_tdiv_cancel _ precision_pos.ne'] at he
    obtain ⟨_, ⟨hb, rfl⟩, rfl⟩ := he
    simp only [hhaircut, collateralValueAfterHaircut_zero hb] at hv
    exact (Except.ok.inj hv).symm

/-! ## Equity after a credit -/

/-- The one-asset snapshot values the asset at its amount, at par. -/
theorem accountSnapshotForAsset_at_par {config : CollateralConfig} {snapshot : OracleSnapshot}
    {amount total : Int} {positions : List Position} {account : AccountSnapshot}
    (hc : w.vault.collateral.get asset = some config) (hhaircut : config.haircutBps = 0)
    (hprice : collateralPrice env w asset = .ok snapshot) (hpar : snapshot.price = precision)
    (h : accountSnapshotForAsset env w user asset amount config positions = .ok account)
    (ht : collateralTotal 0 account.collateral = .ok total) :
    account.positions = positions ∧ total = amount := by
  simp only [collateralPrice, VaultStorage.loadCollateral, except_bind_ok, okOr_ok, hc,
    Option.some.injEq, exists_eq_left'] at hprice
  obtain ⟨oracle, ho, hp⟩ := hprice
  simp only [accountSnapshotForAsset, except_bind_ok, ho, hp, except_pure_ok, Except.ok.injEq,
    exists_eq_left', hpar, mulPrecision_ok, Int.mul_tdiv_cancel _ precision_pos.ne'] at h
  obtain ⟨_, ⟨hb, rfl⟩, _, _, rfl⟩ := h
  refine ⟨rfl, ?_⟩
  obtain ⟨value, hv, _, hr⟩ := collateralTotal_cons.mp ht
  simp only [hhaircut, collateralValueAfterHaircut_zero hb] at hv
  obtain rfl := Except.ok.inj hv
  rw [← Except.ok.inj hr, zero_add]

/-- Adding to a balance that the list records, or to the only asset of a user with
no list, moves equity by the amount at par; an unrecorded balance is not seen. -/
theorem accountHealth_credit {amount : Int} {health health' : AccountHealth}
    {config : CollateralConfig} {snapshot : OracleSnapshot} (hsame : SamePrices w w')
    (hpos : w'.vault.loadPositions user = w.vault.loadPositions user)
    (hlist : w'.vault.userAssets.get user = w.vault.userAssets.get user)
    (hbal : ∀ a, w'.vault.balanceOf user a =
      if a = asset then w.vault.balanceOf user a + amount else w.vault.balanceOf user a)
    (hnodup : (w.vault.recordedAssets user).Nodup)
    (hc : w.vault.collateral.get asset = some config) (hactive : config.active = true)
    (hhaircut : config.haircutBps = 0) (hprice : collateralPrice env w asset = .ok snapshot)
    (hpar : snapshot.price = precision)
    (h : accountHealth env w user asset = .ok health)
    (h' : accountHealth env w' user asset = .ok health') :
    health'.equity = health.equity +
      if (w.vault.userAssets.get user).isSome = true ∧ asset ∉ w.vault.recordedAssets user then 0
      else amount := by
  have hc' : w'.vault.collateral.get asset = some config := by rw [hsame.collateral, hc]
  have hprice' : collateralPrice env w' asset = .ok snapshot := by
    rw [collateralPrice_congr hsame, hprice]
  have hself : w'.vault.balanceOf user asset = w.vault.balanceOf user asset + amount := by
    rw [hbal, if_pos rfl]
  simp only [accountHealth, except_bind_ok, loadMarketsForPositions_congr hsame] at h h'
  obtain ⟨account, hacc, markets, hm, hh⟩ := h
  obtain ⟨account', hacc', markets', hm', hh'⟩ := h'
  have htotal := accountHealth_collateralValue hh
  have htotal' := accountHealth_collateralValue hh'
  have hequity : account'.positions = account.positions →
      health'.equity - health.equity = health'.collateralValue - health.collateralValue := by
    intro hp
    rw [hp, hm] at hm'
    obtain rfl := Except.ok.inj hm'
    obtain ⟨owner, collateral, positions⟩ := account
    obtain ⟨owner', collateral', positions'⟩ := account'
    obtain rfl : positions' = positions := hp
    exact accountHealth_equity_change hh hh'
  by_cases hsome : (w.vault.userAssets.get user).isSome = true
  · have hrec : w'.vault.recordedAssets user = w.vault.recordedAssets user := by
      simp only [VaultStorage.recordedAssets, hlist]
    simp only [accountSnapshot, hlist, hsome, if_true, accountSnapshotAllAssets, except_bind_ok,
      except_pure_ok, hpos, hrec] at hacc hacc'
    obtain ⟨entries, he, _, _, rfl⟩ := hacc
    obtain ⟨entries', he', _, _, rfl⟩ := hacc'
    have hequity := hequity rfl
    obtain ⟨hall, hsum⟩ := collateralEntries_total he htotal
    obtain ⟨hall', hsum'⟩ := collateralEntries_total he' htotal'
    have hoff : ∀ a ∈ w.vault.recordedAssets user, a ≠ asset →
        contributionOf env w' user a = contributionOf env w user a := fun a _ hne =>
      contributionOf_congr hsame (by rw [hbal, if_neg hne])
    have hchange := sum_map_change hnodup asset hoff
    by_cases hmem : asset ∈ w.vault.recordedAssets user
    · obtain ⟨value, hv⟩ := hall asset hmem
      obtain ⟨value', hv'⟩ := hall' asset hmem
      have hvalue := contribution_at_par hc hactive hhaircut hprice hpar hv
      have hvalue' := contribution_at_par hc' hactive hhaircut hprice' hpar hv'
      rw [if_pos hmem, contributionOf_eq hv, contributionOf_eq hv'] at hchange
      rw [if_neg fun hk => hk.2 hmem]
      omega
    · rw [if_neg hmem] at hchange
      rw [if_pos ⟨hsome, hmem⟩]
      omega
  · simp only [accountSnapshot, hlist, hsome, Bool.false_eq_true, if_false, except_bind_ok,
      VaultStorage.loadCollateral, okOr_ok, hc, hc', Option.some.injEq, exists_eq_left',
      hpos] at hacc hacc'
    obtain ⟨hp, ht⟩ := accountSnapshotForAsset_at_par hc hhaircut hprice hpar hacc htotal
    obtain ⟨hp', ht'⟩ := accountSnapshotForAsset_at_par hc' hhaircut hprice' hpar hacc' htotal'
    have hequity := hequity (hp'.trans hp.symm)
    rw [if_neg fun hk => hsome hk.1]
    omega

end Vault
end Kryon

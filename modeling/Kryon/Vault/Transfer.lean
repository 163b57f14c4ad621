import Kryon.Risk.Range
import Kryon.Vault.Equity

/-! # An account in another vault

Two vaults with the same listings and prices may hold an account under different indexes:
other funding indexes, and another list of recorded assets. The positions are valued by the
same markets, and whatever the lists hold by the same prices. -/
namespace Kryon
open Transaction

/-- The two worlds list the same collateral and markets and read the same prices. -/
structure SameConfiguration (w w' : World) : Prop where
  oracle : w'.oracle = w.oracle
  wired : w.vault.oracle = some w.deployed.oracle
  wired' : w'.vault.oracle = some w'.deployed.oracle
  collateral : w'.vault.collateral = w.vault.collateral
  marketConfig : w'.vault.marketConfig = w.vault.marketConfig

/-- The funding the positions have not settled, at the vault's indexes. -/
def VaultStorage.unsettledFunding (s : VaultStorage) (positions : List Position) : Int :=
  (positions.map fun p => p.unsettledFunding (s.fundingIndexOf p)).sum

namespace Vault

variable {env : Env} {w w' : World} {user asset : Address}

/-! ## Prices -/

theorem oracleAddress_wired (h : w.vault.oracle = some w.deployed.oracle) :
    oracleAddress w = .ok w.deployed.oracle := okOr_ok.mpr h

theorem oracleGetPrice_wired (symbol : Symbol) (guard : Option OracleGuard) :
    oracleGetPrice env w w.deployed.oracle symbol guard =
      OracleAdapter.getPrice env w.oracle symbol guard := by
  have hreach : reach w.deployed.oracle w.deployed.oracle = .ok () := reach_ok.mpr rfl
  simp only [oracleGetPrice, hreach]
  exact OracleAdapter.getPrice_congr (Env.callFrom_timestamp env w.deployed.vault) _ _ _

/-! ## Collateral -/

theorem contribution_same (h : SameConfiguration w w')
    (hb : w.vault.collateral.get asset ≠ none →
      w'.vault.balanceOf user asset = w.vault.balanceOf user asset) :
    contribution env w' user asset = contribution env w user asset := by
  by_cases hc : w.vault.collateral.get asset = none
  · rw [contribution_of_unlisted hc, contribution_of_unlisted (by rw [h.collateral, hc])]
  · simp only [contribution, collateralEntry, hb hc, h.collateral, oracleAddress_wired h.wired,
      oracleAddress_wired h.wired', ok_bind, oracleGetPrice_wired, h.oracle]

theorem soleContribution_same (h : SameConfiguration w w')
    (hb : w.vault.collateral.get asset ≠ none →
      w'.vault.balanceOf user asset = w.vault.balanceOf user asset) :
    soleContribution env w' user asset = soleContribution env w user asset := by
  by_cases hc : w.vault.collateral.get asset = none
  · simp only [soleContribution, VaultStorage.loadCollateral, h.collateral, hc, okOr]
    rfl
  · simp only [soleContribution, collateralPrice, VaultStorage.loadCollateral, hb hc, h.collateral,
      oracleAddress_wired h.wired, oracleAddress_wired h.wired', ok_bind, oracleGetPrice_wired, h.oracle]

/-- A user with a health owns the positions that the vault holds for them. -/
theorem accountHealth_owner {health : AccountHealth} (h : accountHealth env w user asset = .ok health) :
    requireOwner user (w.vault.loadPositions user) = .ok () := by
  simp only [accountHealth, accountSnapshot, except_bind_ok] at h
  obtain ⟨_, h, _⟩ := h
  split at h
  · simp only [accountSnapshotAllAssets, except_bind_ok, except_pure_ok] at h
    obtain ⟨_, _, _, howner, _⟩ := h
    exact howner
  · simp only [accountSnapshotForAsset, except_bind_ok, except_pure_ok] at h
    obtain ⟨_, _, _, _, _, _, _, _, _, howner, _⟩ := h
    exact howner

/-- The account has a snapshot, and its collateral adds up to `value`. -/
def AddsUpTo (env : Env) (w : World) (user asset : Address) (value : Int) : Prop :=
  ∃ account, accountSnapshot env w user asset = .ok account ∧
    collateralTotal 0 account.collateral = .ok value

theorem collateralTotal_entry {entry : Option CollateralBalance} {entries : List CollateralBalance}
    {total value : Int} (htotal : InI128 total) (h : collateralEntry env w user asset = .ok entry) :
    collateralTotal total (entry.toList ++ entries) = .ok value ↔
      ∃ net, contribution env w user asset = .ok net ∧ InI128 (total + net) ∧
        collateralTotal (total + net) entries = .ok value := by
  cases entry with
  | none =>
    have hzero : contribution env w user asset = .ok 0 := by simp only [contribution, h, ok_bind]; rfl
    simp [hzero, htotal]
  | some c =>
    have hnet : contribution env w user asset = collateralValueAfterHaircut c.value c.haircutBps := by
      simp only [contribution, h, ok_bind]
    rw [hnet]
    exact collateralTotal_cons

/-- Entries add up when each has a value and the sums stay in range. -/
theorem collateralEntries_iff {assets : List Address} {total value : Int} (htotal : InI128 total) :
    (∃ entries, collateralEntries env w user assets = .ok entries ∧
        collateralTotal total entries = .ok value) ↔
      (∀ a ∈ assets, ∃ net, contribution env w user a = .ok net) ∧
      SumsInRange total (assets.map (contributionOf env w user)) ∧
      value = total + (assets.map (contributionOf env w user)).sum := by
  induction assets generalizing total with
  | nil => simp [collateralEntries, collateralTotal, SumsInRange, eq_comm]
  | cons a rest ih =>
    simp only [collateralEntries, except_bind_ok, except_pure_ok, List.forall_mem_cons, List.map_cons,
      List.sum_cons, SumsInRange]
    constructor
    · rintro ⟨_, ⟨entry, he, entries, hrest, rfl⟩, hsum⟩
      obtain ⟨net, hnet, hrange, hsum⟩ := (collateralTotal_entry htotal he).mp hsum
      obtain ⟨hall, hsums, rfl⟩ := (ih hrange).mp ⟨entries, hrest, hsum⟩
      rw [contributionOf_eq hnet]
      exact ⟨⟨⟨net, hnet⟩, hall⟩, ⟨hrange, hsums⟩, add_assoc _ _ _⟩
    · rintro ⟨⟨⟨net, hnet⟩, hall⟩, hsums, hvalue⟩
      rw [contributionOf_eq hnet] at hsums hvalue
      rw [← add_assoc] at hvalue
      obtain ⟨entries, hrest, hsum⟩ := (ih hsums.1).mpr ⟨hall, hsums.2, hvalue⟩
      have hentry := hnet
      simp only [contribution, except_bind_ok] at hentry
      obtain ⟨entry, he, _⟩ := hentry
      exact ⟨_, ⟨entry, he, entries, hrest, rfl⟩,
        (collateralTotal_entry htotal he).mpr ⟨net, hnet, hsums.1, hsum⟩⟩

/-- A user with a list: the recorded assets add up. -/
theorem addsUpTo_recorded {assets : List Address} {value : Int}
    (hlist : w.vault.userAssets.get user = some assets)
    (howner : requireOwner user (w.vault.loadPositions user) = .ok ()) :
    AddsUpTo env w user asset value ↔
      (∀ a ∈ assets, ∃ net, contribution env w user a = .ok net) ∧
      SumsInRange 0 (assets.map (contributionOf env w user)) ∧
      value = (assets.map (contributionOf env w user)).sum := by
  have hiff : (∃ entries, collateralEntries env w user assets = .ok entries ∧
      collateralTotal 0 entries = .ok value) ↔ _ := collateralEntries_iff inI128_zero
  rw [zero_add] at hiff
  rw [← hiff, AddsUpTo]
  simp only [accountSnapshot, hlist, Option.isSome_some, if_true, accountSnapshotAllAssets,
    VaultStorage.recordedAssets, Option.getD_some, howner, ok_bind, except_bind_ok, except_pure_ok]
  constructor
  · rintro ⟨_, ⟨entries, hentries, rfl⟩, hsum⟩
    exact ⟨entries, hentries, hsum⟩
  · rintro ⟨entries, hentries, hsum⟩
    exact ⟨_, ⟨entries, hentries, rfl⟩, hsum⟩

/-- A user without one: the asset asked about. -/
theorem addsUpTo_sole {value : Int} (hlist : w.vault.userAssets.get user = none)
    (howner : requireOwner user (w.vault.loadPositions user) = .ok ()) :
    AddsUpTo env w user asset value ↔
      soleContribution env w user asset = .ok value ∧ InI128 value := by
  simp only [AddsUpTo, accountSnapshot, hlist, Option.isSome_none, Bool.false_eq_true, if_false,
    accountSnapshotForAsset, soleContribution, collateralPrice, howner, ok_bind, except_bind_ok,
    except_pure_ok]
  constructor
  · rintro ⟨_, ⟨config, hc, oracle, ho, price, hprice, amount, hamount, rfl⟩, hsum⟩
    obtain ⟨net, hnet, hrange, hrest⟩ := collateralTotal_cons.mp hsum
    rw [zero_add] at hrange hrest
    obtain rfl := Except.ok.inj hrest
    exact ⟨⟨config, hc, price, ⟨config, hc, oracle, ho, hprice⟩, amount, hamount, hnet⟩, hrange⟩
  · rintro ⟨⟨config, hc, price, ⟨config', hc', oracle, ho, hprice⟩, amount, hamount, hnet⟩, hrange⟩
    obtain rfl := Except.ok.inj (hc.symm.trans hc')
    refine ⟨_, ⟨config, hc, oracle, ho, price, hprice, amount, hamount, rfl⟩, ?_⟩
    refine collateralTotal_cons.mpr ⟨value, hnet, ?_, ?_⟩
    · rwa [zero_add]
    · rw [zero_add]
      rfl

/-! ## Markets -/

/-- The maintenance margin that a position's market asks for. -/
def maintenanceOf (env : Env) (w : World) (p : Position) : Int :=
  match w.vault.marketConfig.get p.marketId with
  | none => 0
  | some config =>
    p.size * markOf env w p.marketId / precision * config.maintenanceMarginBps / 10000

theorem indexAt_loaded {markets : Store Nat MarketSnapshot} {positions : List Position} {p : Position}
    (h : loadMarketsForPositions env w positions = .ok markets)
    (hp : ∃ m, markets.get p.marketId = some m) : indexAt markets p = w.vault.fundingIndexOf p := by
  obtain ⟨m, hm⟩ := hp
  rw [indexAt, hm, Option.elim_some, (loadMarketsForPositions_entries h _ m hm).fundingIndex p rfl]

theorem requiredAt_loaded {markets : Store Nat MarketSnapshot} {positions : List Position} {p : Position}
    (h : loadMarketsForPositions env w positions = .ok markets)
    (hp : ∃ m, markets.get p.marketId = some m) :
    requiredAt MarketConfig.maintenanceMarginBps markets p = maintenanceOf env w p := by
  obtain ⟨m, hm⟩ := hp
  obtain ⟨hconfig, hmark, _⟩ := loadMarketsForPositions_entries h _ m hm
  rw [requiredAt, hm, Option.elim_some, maintenanceOf, hconfig, hmark]

theorem marketSnapshot_same (hw : SameConfiguration w w') {config : MarketConfig} {m : MarketSnapshot}
    (h : marketSnapshot env w config = .ok m) :
    ∃ m', marketSnapshot env w' config = .ok m' ∧ m'.listing = m.listing := by
  simp only [marketSnapshot, oracleAddress_wired hw.wired, oracleAddress_wired hw.wired', ok_bind,
    oracleGetPrice_wired, hw.oracle, except_bind_ok, except_pure_ok] at h ⊢
  obtain ⟨snapshot, hprice, rfl⟩ := h
  exact ⟨_, ⟨snapshot, hprice, rfl⟩, rfl⟩

/-- The other vault loads the same markets. -/
theorem loadMarketsFrom_same (hw : SameConfiguration w w') {markets markets' result : Store Nat MarketSnapshot}
    {positions : List Position} (hm : SameMarkets markets markets')
    (h : loadMarketsFrom env w markets positions = .ok result) :
    ∃ result', loadMarketsFrom env w' markets' positions = .ok result' ∧ SameMarkets result result' := by
  induction positions generalizing markets markets' with
  | nil =>
    obtain rfl := Except.ok.inj h
    exact ⟨markets', rfl, hm⟩
  | cons p rest ih =>
    have hloaded : (markets'.get p.marketId).isSome = (markets.get p.marketId).isSome := by
      rw [← Option.isSome_map, hm, Option.isSome_map]
    by_cases hsome : (markets.get p.marketId).isSome = true
    · simp only [loadMarketsFrom, hloaded, hsome, if_true] at h ⊢
      exact ih hm h
    · simp only [loadMarketsFrom, hloaded, hsome, Bool.false_eq_true, if_false, except_bind_ok, okOr_ok,
        hw.marketConfig] at h ⊢
      obtain ⟨config, hc, m, hsnapshot, hrest⟩ := h
      obtain ⟨m', hsnapshot', hlisting⟩ := marketSnapshot_same hw hsnapshot
      have hset : SameMarkets (markets.set config.marketId m) (markets'.set config.marketId m') := by
        intro k
        simp only [Store.get_set]
        split
        · simp only [Option.map_some, hlisting]
        · exact hm k
      obtain ⟨result', hresult, hsame⟩ := ih hset hrest
      exact ⟨result', ⟨config, hc, m', hsnapshot', hresult⟩, hsame⟩

theorem markOf_same (hw : SameConfiguration w w') (marketId : Nat) :
    markOf env w' marketId = markOf env w marketId := by
  simp only [markOf, hw.marketConfig]
  cases w.vault.marketConfig.get marketId with
  | none => rfl
  | some config =>
    simp only [marketSnapshot, oracleAddress_wired hw.wired, oracleAddress_wired hw.wired', ok_bind,
      oracleGetPrice_wired, hw.oracle]
    cases OracleAdapter.getPrice env w.oracle config.baseAsset _ with
    | ok snapshot => rfl
    | error e => rfl

/-! ## Health -/

/-- **Health in the other vault.** An account with the same positions has the health it had exactly
when its collateral adds up to the old value, its positions are measured in range at the other
indexes, their pnls come to the old total and the flag says what it said. -/
theorem accountHealth_transfer {health : AccountHealth} (hw : SameConfiguration w w')
    (hpos : w'.vault.loadPositions user = w.vault.loadPositions user)
    (h : accountHealth env w user asset = .ok health) :
    accountHealth env w' user asset = .ok health ↔
      AddsUpTo env w' user asset health.collateralValue ∧
      (∀ p ∈ w.vault.loadPositions user, p.InRange (w'.vault.fundingIndexOf p) (unrealizedOf env w' p)) ∧
      TotalsInRange health.collateralValue (unrealizedOf env w') (w.vault.loadPositions user) ∧
      ((w.vault.loadPositions user).map (unrealizedOf env w')).sum =
        ((w.vault.loadPositions user).map (unrealizedOf env w)).sum ∧
      (LiquidatableWith health.collateralValue (unrealizedOf env w') (maintenanceOf env w)
          (w.vault.loadPositions user) ↔
        LiquidatableWith health.collateralValue (unrealizedOf env w) (maintenanceOf env w)
          (w.vault.loadPositions user)) := by
  simp only [accountHealth, except_bind_ok] at h ⊢
  obtain ⟨account, hacc, markets, hm, hh⟩ := h
  have hpositions := loaded_positions hacc
  obtain ⟨markets', hm', hsame⟩ := loadMarketsFrom_same hw (.refl ∅) hm
  have hload : loadMarketsForPositions env w' account.positions = .ok markets' := hm'
  obtain ⟨hheld, _⟩ := Kryon.accountHealth_equity hh
  have hheld' : ∀ p ∈ account.positions, ∃ m, markets'.get p.marketId = some m := by
    intro p hp
    obtain ⟨m, hget⟩ := hheld p hp
    obtain ⟨m', hget', _⟩ := hsame.get hget
    exact ⟨m', hget'⟩
  have hindex : ∀ p ∈ account.positions, indexAt markets' p = w'.vault.fundingIndexOf p :=
    fun p hp => indexAt_loaded hload (hheld' p hp)
  have hnew : ∀ p ∈ account.positions, unrealizedOf env w' p = unrealizedAt markets' p :=
    fun p hp => (unrealizedAt_loaded hload (hheld' p hp)).symm
  have hold : ∀ p ∈ account.positions, unrealizedOf env w p = unrealizedAt markets p :=
    fun p hp => (unrealizedAt_loaded hm (hheld p hp)).symm
  have hreq : ∀ p ∈ account.positions, maintenanceOf env w p =
      requiredAt MarketConfig.maintenanceMarginBps markets p :=
    fun p hp => (requiredAt_loaded hm (hheld p hp)).symm
  rw [← hpositions, LiquidatableWith.congr hnew hreq, LiquidatableWith.congr hold hreq,
    List.map_congr_left hnew, List.map_congr_left hold]
  constructor
  · rintro ⟨account', hacc', markets'', hm'', hh'⟩
    have hpos' : account'.positions = account.positions := by
      rw [loaded_positions hacc', hpos, hpositions]
    rw [hpos', hload] at hm''
    obtain rfl := Except.ok.inj hm''
    obtain ⟨htotal, hfits, htotals, hrest⟩ := (accountHealth_reindexed hpos' hsame hh).mp hh'
    refine ⟨⟨account', hacc', htotal⟩, fun p hp => ?_, htotals.congr hnew, hrest⟩
    rw [← hindex p hp, hnew p hp]
    exact hfits p hp
  · rintro ⟨⟨account', hacc', htotal⟩, hfits, htotals, hrest⟩
    have hpos' : account'.positions = account.positions := by
      rw [loaded_positions hacc', hpos, hpositions]
    refine ⟨account', hacc', markets', by rw [hpos', hload], ?_⟩
    refine (accountHealth_reindexed hpos' hsame hh).mpr ⟨htotal, fun p hp => ?_,
      htotals.congr fun p hp => (hnew p hp).symm, hrest⟩
    rw [hindex p hp, ← hnew p hp]
    exact hfits p hp

end Vault
end Kryon

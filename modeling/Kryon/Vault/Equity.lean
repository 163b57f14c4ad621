import Kryon.Risk.Equity
import Kryon.Vault.Valuation

/-! # What an account is worth

Equity in terms of the vault: what health counts for each asset, and what each position makes
at its market's mark and funding index. -/
namespace Kryon
open Transaction

namespace VaultStorage

/-- The stored funding index of the position's side. -/
def fundingIndexOf (s : VaultStorage) (p : Position) : Int :=
  if p.isLong then s.fundingLongOf p.marketId else s.fundingShortOf p.marketId

end VaultStorage

namespace Vault

variable {env : Env} {w w' : World} {user asset : Address} {p : Position}

/-- The mark of a market that is listed and priced. -/
def markOf (env : Env) (w : World) (marketId : Nat) : Int :=
  match w.vault.marketConfig.get marketId with
  | none => 0
  | some config =>
    match marketSnapshot env w config with
    | .ok m => m.oraclePrice
    | .error _ => 0

/-- What a position has made and not realised, at its mark and the vault's funding index. -/
def unrealizedOf (env : Env) (w : World) (p : Position) : Int :=
  p.pnlAt (markOf env w p.marketId) + p.unsettledFunding (w.vault.fundingIndexOf p)

theorem unrealizedOf_congr (h : SamePrices w w') (p : Position) :
    unrealizedOf env w' p = unrealizedOf env w p := by
  simp only [unrealizedOf, markOf, VaultStorage.fundingIndexOf, VaultStorage.fundingLongOf,
    VaultStorage.fundingShortOf, h.marketConfig, h.fundingLong, h.fundingShort, marketSnapshot_congr h]

/-- A position of nothing makes nothing. -/
theorem unrealizedOf_of_size (h : p.size = 0) : unrealizedOf env w p = 0 := by
  simp [unrealizedOf, Position.pnlAt, Position.unsettledFunding, h]

/-- A market's entry in a table of this world. -/
structure MarketEntry (env : Env) (w : World) (marketId : Nat) (m : MarketSnapshot) : Prop where
  config : w.vault.marketConfig.get marketId = some m.config
  mark : markOf env w marketId = m.oraclePrice
  fundingIndex : ∀ p : Position, p.marketId = marketId → m.fundingIndex p = w.vault.fundingIndexOf p

theorem marketSnapshot_entry {marketId : Nat} {config : MarketConfig} {m : MarketSnapshot}
    (hc : w.vault.marketConfig.get marketId = some config)
    (h : marketSnapshot env w config = .ok m) : MarketEntry env w marketId m := by
  have hkey : config.marketId = marketId := w.vault.marketConfig.key_of_get hc
  have hmark : markOf env w marketId = m.oraclePrice := by simp only [markOf, hc, h]
  simp only [marketSnapshot, except_bind_ok, except_pure_ok] at h
  obtain ⟨_, _, _, _, rfl⟩ := h
  refine ⟨hc, hmark, ?_⟩
  intro p hp
  simp only [MarketSnapshot.fundingIndex, VaultStorage.fundingIndexOf, hp, hkey]

theorem loadMarketsForPositions_entries {markets : Store Nat MarketSnapshot} {positions : List Position}
    (h : loadMarketsForPositions env w positions = .ok markets) :
    ∀ k m, markets.get k = some m → MarketEntry env w k m :=
  loadMarketsFrom_every (fun _ _ _ hc hs => marketSnapshot_entry hc hs) (fun _ _ hget => by cases hget) h

/-- A position makes in the table what it makes in the vault. -/
theorem unrealizedAt_loaded {markets : Store Nat MarketSnapshot} {positions : List Position}
    (h : loadMarketsForPositions env w positions = .ok markets)
    (hp : ∃ m, markets.get p.marketId = some m) : unrealizedAt markets p = unrealizedOf env w p := by
  obtain ⟨m, hm⟩ := hp
  obtain ⟨_, hmark, hindex⟩ := loadMarketsForPositions_entries h _ m hm
  rw [unrealizedAt, hm, Option.elim_some, unrealizedOf, hmark, hindex p rfl]

/-- **Equity is what health counts of the assets and what the positions make.** -/
theorem accountHealth_equity {health : AccountHealth} (hnodup : (w.vault.recordedAssets user).Nodup)
    (h : accountHealth env w user asset = .ok health) :
    health.equity = ∑ᶠ a, countedOf env w user asset a +
      ((w.vault.loadPositions user).map (unrealizedOf env w)).sum := by
  rw [← accountHealth_counted hnodup h]
  simp only [accountHealth, except_bind_ok] at h
  obtain ⟨account, hacc, markets, hm, hh⟩ := h
  obtain ⟨hmarkets, hequity⟩ := Kryon.accountHealth_equity hh
  rw [hequity, ← loaded_positions hacc]
  exact congrArg (health.collateralValue + List.sum ·)
    (List.map_congr_left fun p hp => unrealizedAt_loaded hm (hmarkets p hp))

/-! ## An asset at par -/

/-- The user's list has the asset, and it is active, without a haircut and priced one for one. -/
structure AtPar (env : Env) (w : World) (user asset : Address) : Prop where
  recorded : asset ∈ w.vault.recordedAssets user
  listed : ∃ config, w.vault.collateral.get asset = some config ∧ config.active = true ∧
    config.haircutBps = 0
  price : ∃ snapshot, collateralPrice env w asset = .ok snapshot ∧ snapshot.price = precision

theorem AtPar.congr {a : Address} (h : AtPar env w user a) (hprices : SamePrices w w')
    (hlist : w'.vault.userAssets = w.vault.userAssets) : AtPar env w' user a where
  recorded := by
    rw [VaultStorage.recordedAssets, hlist]
    exact h.recorded
  listed := by
    rw [hprices.collateral]
    exact h.listed
  price := by
    rw [collateralPrice_congr hprices]
    exact h.price

/-- Health counts the recorded assets of a user who has any, once each. -/
theorem accountHealth_recorded {assets : List Address} {health : AccountHealth}
    (hlist : w.vault.userAssets.get user = some assets)
    (h : accountHealth env w user asset = .ok health) :
    (∀ a ∈ assets, ∃ value, contribution env w user a = .ok value) ∧
      health.collateralValue = (assets.map (contributionOf env w user)).sum := by
  simp only [accountHealth, except_bind_ok] at h
  obtain ⟨account, hacc, markets, _, hh⟩ := h
  simp only [accountSnapshot, hlist, Option.isSome_some, if_true, accountSnapshotAllAssets,
    except_bind_ok, except_pure_ok, VaultStorage.recordedAssets, Option.getD_some] at hacc
  obtain ⟨entries, he, _, _, rfl⟩ := hacc
  obtain ⟨hall, htotal⟩ := collateralEntries_total he (accountHealth_collateralValue hh)
  exact ⟨hall, htotal.trans (zero_add _)⟩

/-- An asset at par counts for its balance. -/
theorem countedOf_at_par {a : Address} {health : AccountHealth} (hpar : AtPar env w user a)
    (h : accountHealth env w user asset = .ok health) :
    countedOf env w user asset a = w.vault.balanceOf user a := by
  obtain ⟨config, hc, hactive, hhaircut⟩ := hpar.listed
  obtain ⟨snapshot, hprice, hone⟩ := hpar.price
  have hmem := hpar.recorded
  rw [VaultStorage.recordedAssets] at hmem
  unfold countedOf
  cases hlist : w.vault.userAssets.get user with
  | none =>
    rw [hlist] at hmem
    cases hmem
  | some assets =>
    rw [hlist, Option.getD_some] at hmem
    obtain ⟨value, hvalue⟩ := (accountHealth_recorded hlist h).1 a hmem
    simp only [if_pos hmem]
    rw [contributionOf_eq hvalue]
    exact contribution_at_par hc hactive hhaircut hprice hone hvalue

end Vault
end Kryon

import Kryon.Risk.Admissible
import Kryon.Liquidation

/-! # The same liquidation in two worlds

Two worlds that differ in what the insurance fund has and in how the markets are configured.
What a liquidation does to the account follows in both, as far as the health of the account
follows; the fund is read by the reward and by the absorption of the deficit alone. -/
namespace Kryon
open Transaction

def VaultStorage.relist (s : VaultStorage) (marketConfig : KeyedStore MarketConfig.marketId) :
    VaultStorage := { s with marketConfig }

def EngineStorage.relist (s : EngineStorage) (market : KeyedStore EngineMarketConfig.marketId) :
    EngineStorage := { s with market }

/-- The world with other insurance balances, token ledgers and market configurations. -/
def World.refit (w : World) (balance : Store Address Int) (tokens : Tokens)
    (market : KeyedStore EngineMarketConfig.marketId)
    (marketConfig : KeyedStore MarketConfig.marketId) : World :=
  { w with
    insurance := { w.insurance with balance }
    tokens
    engine := w.engine.relist market
    vault := w.vault.relist marketConfig }

def EngineMarketConfig.Retunes (config config' : EngineMarketConfig) : Prop :=
  config.market.Retunes config'.market ∧
    config'.maxExecutionDeviationBps = config.maxExecutionDeviationBps

/-- Two worlds that differ in the insurance balances, the token ledgers and the configuration of
the markets alone. `F` relates the former, `N` the latter. -/
structure Akin (F : Store Address Int × Tokens → Store Address Int × Tokens → Prop)
    (N : MarketConfig → MarketConfig → Prop) (w w' : World) : Prop where
  frame : ∃ balance tokens market marketConfig, w' = w.refit balance tokens market marketConfig
  funds : F (w.insurance.balance, w.tokens) (w'.insurance.balance, w'.tokens)
  market : ∀ marketId, Option.Rel (fun market market' => N market.market market'.market ∧
      market'.maxExecutionDeviationBps = market.maxExecutionDeviationBps)
    (w.engine.market.get marketId) (w'.engine.market.get marketId)
  marketConfig : ∀ marketId, Option.Rel N (w.vault.marketConfig.get marketId)
    (w'.vault.marketConfig.get marketId)

section
variable {F : Store Address Int × Tokens → Store Address Int × Tokens → Prop}
  {N : MarketConfig → MarketConfig → Prop} {E : Abort → Prop} {α β : Type}

/-- What reads none of the differences is read alike. -/
theorem Akin.read {w w' : World} (h : Akin F N w w') (g : World → α)
    (hg : ∀ w balance tokens market marketConfig,
      g (w.refit balance tokens market marketConfig) = g w) : g w' = g w := by
  obtain ⟨balance, tokens, market, marketConfig, rfl⟩ := h.frame
  exact hg ..

theorem follows_read {g : World → Res α} (hg : ∀ w balance tokens market marketConfig,
    g (w.refit balance tokens market marketConfig) = g w) :
    Follows E (Akin F N) Eq (readWith g) (readWith g) := by
  refine follows_readWith fun w w' h => ?_
  rw [h.read g hg]
  exact .refl _

/-- A transaction that goes on from a state read in full, but uses none of the differences. -/
theorem follows_get_bind {V : α → β → Prop} {k : World → Tx α} {k' : World → Tx β}
    (hk' : ∀ w balance tokens market marketConfig,
      k' (w.refit balance tokens market marketConfig) = k' w)
    (hk : ∀ w, Follows E (Akin F N) V (k w) (k' w)) :
    Follows E (Akin F N) V (get >>= k) (get >>= k') := by
  refine follows_get.bind fun w w' h => ?_
  rw [h.read k' hk']
  exact hk w

theorem follows_vault_store {f : VaultStorage → VaultStorage}
    (hf : ∀ s marketConfig, f (s.relist marketConfig) = (f s).relist marketConfig) :
    Follows E (Akin F N) Eq (Vault.store f) (Vault.store f) := by
  refine follows_modify fun w w' h => ?_
  obtain ⟨balance, tokens, market, marketConfig, rfl⟩ := h.frame
  have hkept : ∀ s : VaultStorage, (f s).marketConfig = s.marketConfig :=
    fun s => (congrArg VaultStorage.marketConfig (hf s s.marketConfig) :)
  refine ⟨⟨balance, tokens, market, marketConfig, ?_⟩, h.funds, h.market, fun marketId => ?_⟩
  · simp only [World.refit, hf]
  · simp only [hkept]
    exact h.marketConfig marketId

theorem follows_engine_store {f : EngineStorage → EngineStorage}
    (hf : ∀ s market, f (s.relist market) = (f s).relist market) :
    Follows E (Akin F N) Eq (Engine.store f) (Engine.store f) := by
  refine follows_modify fun w w' h => ?_
  obtain ⟨balance, tokens, market, marketConfig, rfl⟩ := h.frame
  have hkept : ∀ s : EngineStorage, (f s).market = s.market :=
    fun s => (congrArg EngineStorage.market (hf s s.market) :)
  refine ⟨⟨balance, tokens, market, marketConfig, ?_⟩, h.funds, fun marketId => ?_, h.marketConfig⟩
  · simp only [World.refit, hf]
  · simp only [hkept]
    exact h.market marketId

theorem follows_invoke {V : α → β → Prop} {target deployed : Address} {x : Tx α} {y : Tx β}
    (h : Follows E (Akin F N) V x y) :
    Follows E (Akin F N) V (invoke target deployed x) (invoke target deployed y) :=
  Follows.check fun _ => h

/-! ## The vault -/

namespace Vault

theorem follows_increaseBalance (user asset : Address) (amount : Int) :
    Follows E (Akin F N) Eq (increaseBalance user asset amount) (increaseBalance user asset amount) := by
  refine (follows_read fun _ _ _ _ _ => rfl).seq fun next => ?_
  exact (follows_vault_store fun _ _ => rfl).seq fun _ => follows_pure rfl

theorem follows_decreaseBalance (user asset : Address) (amount : Int) :
    Follows E (Akin F N) Eq (decreaseBalance user asset amount) (decreaseBalance user asset amount) := by
  refine (follows_read fun _ _ _ _ _ => rfl).seq fun next => ?_
  exact (follows_vault_store fun _ _ => rfl).seq fun _ => follows_pure rfl

theorem follows_creditPositive (user asset : Address) (amount : Int) :
    Follows E (Akin F N) Eq (creditPositive user asset amount) (creditPositive user asset amount) := by
  refine Follows.ite Iff.rfl ?_ (follows_pure rfl)
  exact (follows_increaseBalance user asset amount).seq fun _ => follows_pure rfl

theorem follows_applyPnl (env : Env) (user asset : Address) (pnl : Int) :
    Follows E (Akin F N) Eq (applyPnl env user asset pnl) (applyPnl env user asset pnl) := by
  refine (follows_read fun _ _ _ _ _ => rfl).seq fun _ => ?_
  refine (follows_read fun _ _ _ _ _ => rfl).seq fun _ => ?_
  refine Follows.ite Iff.rfl (follows_increaseBalance user asset pnl) ?_
  exact Follows.check fun loss => follows_decreaseBalance user asset loss

theorem follows_syncPositions (env : Env) (user : Address) (positions : List Position) :
    Follows E (Akin F N) Eq (syncPositions env user positions) (syncPositions env user positions) := by
  refine (follows_read fun _ _ _ _ _ => rfl).seq fun _ => ?_
  exact Follows.check fun _ => follows_vault_store fun _ _ => rfl

theorem follows_seizeAsset (env : Env) (user oracle : Address) (deficitPrice : Int) (totals : SeizeTotals)
    (asset : Address) :
    Follows E (Akin F N) Eq (seizeAsset env user oracle deficitPrice totals asset)
      (seizeAsset env user oracle deficitPrice totals asset) := by
  refine follows_get_bind (fun _ _ _ _ _ => rfl) fun w => ?_
  refine Follows.ite Iff.rfl (follows_pure rfl) ?_
  cases w.vault.collateral.get asset with
  | none => exact follows_pure rfl
  | some config =>
    refine Follows.check fun price => Follows.check fun grossValue => Follows.check fun netValue => ?_
    refine Follows.ite Iff.rfl (follows_pure rfl) (Follows.check fun seized => ?_)
    refine Follows.ite Iff.rfl (follows_pure rfl) ?_
    refine Follows.check fun grossSeized => Follows.check fun seizedValue => Follows.check fun credit => ?_
    refine Follows.ite Iff.rfl (follows_pure rfl) ?_
    refine (follows_decreaseBalance user asset seized).seq fun _ => ?_
    exact Follows.check fun credited => Follows.check fun remainingValue => follows_pure rfl

theorem follows_seizeAssets (env : Env) (user oracle : Address) (deficitPrice : Int) (totals : SeizeTotals)
    (assets : List Address) :
    Follows E (Akin F N) Eq (seizeAssets env user oracle deficitPrice totals assets)
      (seizeAssets env user oracle deficitPrice totals assets) := by
  induction assets generalizing totals with
  | nil => exact follows_pure rfl
  | cons asset rest ih =>
    refine Follows.ite Iff.rfl (follows_pure rfl) ?_
    exact (follows_seizeAsset env user oracle deficitPrice totals asset).seq fun totals => ih totals

/-- The order of a seizure is read off the recorded assets and the listed collateral. -/
theorem seizureOrderFrom_relist (s : VaultStorage) (marketConfig : KeyedStore MarketConfig.marketId)
    (deficitAsset : Address) (ordered : List (Address × Nat)) (assets : List Address) :
    seizureOrderFrom (s.relist marketConfig) deficitAsset ordered assets =
      seizureOrderFrom s deficitAsset ordered assets := by
  induction assets generalizing ordered with
  | nil => rfl
  | cons asset rest ih =>
    simp only [seizureOrderFrom, ih]
    rfl

theorem follows_publish (event : CollateralSeized) :
    Follows E (Akin F N) Eq (publish event) (publish event) := by
  refine follows_modify fun w w' h => ?_
  obtain ⟨balance, tokens, market, marketConfig, rfl⟩ := h.frame
  exact ⟨⟨balance, tokens, market, marketConfig, rfl⟩, h.funds, h.market, h.marketConfig⟩

theorem follows_seizeForDeficit (env : Env) (user deficitAsset : Address) :
    Follows E (Akin F N) Eq (seizeForDeficit env user deficitAsset)
      (seizeForDeficit env user deficitAsset) := by
  refine (follows_read fun _ _ _ _ _ => rfl).seq fun _ => ?_
  refine follows_get_bind (fun w balance tokens market marketConfig => ?_) fun w => ?_
  · simp only [World.refit, seizureOrder, seizureOrderFrom_relist]
    rfl
  · refine Follows.ite Iff.rfl (follows_pure rfl) (Follows.check fun deficitAmount => ?_)
    refine Follows.check fun price => Follows.check fun _ => Follows.check fun remainingValue => ?_
    refine Follows.check fun oracle => (follows_seizeAssets _ _ _ _ _ _).seq fun totals => ?_
    refine (follows_creditPositive _ _ _).seq fun _ => (follows_publish _).seq fun _ => follows_pure rfl

end Vault

/-! ## The engine and the health of the account -/

/-- Health is as computable in the second world as in the first, with the same equity. -/
def HealthFollows (E : Abort → Prop)
    (F : Store Address Int × Tokens → Store Address Int × Tokens → Prop)
    (N : MarketConfig → MarketConfig → Prop) : Prop :=
  ∀ env w w' user asset, Akin F N w w' →
    Tracks E (fun health health' => health'.equity = health.equity)
      (Vault.accountHealth env w user asset) (Vault.accountHealth env w' user asset)

namespace Engine

theorem follows_callVault {V : α → β → Prop} {env : Env} {call : Env → Tx α} {call' : Env → Tx β}
    (h : ∀ env, Follows E (Akin F N) V (call env) (call' env)) :
    Follows E (Akin F N) V (callVault env call) (callVault env call') := by
  refine (follows_read fun _ _ _ _ _ => rfl).seq fun vault => ?_
  exact follows_get_bind (fun _ _ _ _ _ => rfl) fun w => follows_invoke (h _)

theorem tracks_vaultHealth (hhealth : HealthFollows E F N) (env : Env) {w w' : World}
    (h : Akin F N w w') (user : Address) :
    Tracks E (fun health health' => health'.equity = health.equity) (vaultHealth env w user)
      (vaultHealth env w' user) := by
  have hasset : settlementAsset w' = settlementAsset w := h.read settlementAsset fun _ _ _ _ _ => rfl
  have hvault : vaultAddress w' = vaultAddress w := h.read vaultAddress fun _ _ _ _ _ => rfl
  have hdeployed : w'.deployed = w.deployed := h.read World.deployed fun _ _ _ _ _ => rfl
  unfold vaultHealth vaultAccountHealth
  rw [hasset, hvault, hdeployed]
  refine (Tracks.refl _).bind fun asset _ _ _ hsame => ?_
  subst hsame
  refine (Tracks.refl _).bind fun vault _ _ _ hsame => ?_
  subst hsame
  exact (Tracks.refl _).bind fun _ _ _ _ _ => hhealth _ _ _ user asset h

theorem follows_vaultHealth (hhealth : HealthFollows E F N) (env : Env) (user : Address) :
    Follows E (Akin F N) (fun health health' => health'.equity = health.equity)
      (readWith fun w => vaultHealth env w user) (readWith fun w => vaultHealth env w user) :=
  follows_readWith fun _ _ h => tracks_vaultHealth hhealth env h user

/-- A retuned market is loaded where the market is. -/
theorem follows_loadMarket (hN : ∀ config config', N config config' → config.Retunes config')
    (marketId : Nat) :
    Follows E (Akin F N) EngineMarketConfig.Retunes (readWith fun w => w.engine.loadMarket marketId)
      (readWith fun w => w.engine.loadMarket marketId) :=
  follows_readWith fun _ _ h =>
    (Tracks.of_rel (h.market marketId) _).mono (fun _ => id) fun _ _ h => ⟨hN _ _ h.1, h.2⟩

/-- The band of execution prices is not one of the parameters that are retuned. -/
theorem validateExecutionPrice_retuned {market market' : EngineMarketConfig} (h : market.Retunes market')
    (env : Env) (w : World) (price : Int) :
    validateExecutionPrice env w market' price = validateExecutionPrice env w market price := by
  obtain ⟨hconfig, hband⟩ := h
  unfold validateExecutionPrice marketGuard
  rw [hconfig, hband]

theorem follows_validateExecutionPrice {market market' : EngineMarketConfig} (h : market.Retunes market')
    (env : Env) (price : Int) :
    Follows E (Akin F N) Eq (readWith fun w => validateExecutionPrice env w market price)
      (readWith fun w => validateExecutionPrice env w market' price) := by
  simp only [validateExecutionPrice_retuned h]
  exact follows_read fun _ _ _ _ _ => rfl

theorem follows_settlePositionFunding (env : Env) (user : Address) (position : Position) :
    Follows E (Akin F N) Eq (settlePositionFunding env user position)
      (settlePositionFunding env user position) := by
  refine follows_get_bind (fun _ _ _ _ _ => rfl) fun w => Follows.check fun pnl => ?_
  refine Follows.seq (x := applyFundingPnl env user pnl) ?_ fun _ => follows_pure rfl
  refine Follows.ite Iff.rfl ?_ (follows_pure rfl)
  refine (follows_read fun _ _ _ _ _ => rfl).seq fun asset => ?_
  exact (follows_callVault fun env => Vault.follows_applyPnl env user asset pnl).seq fun _ => follows_pure rfl

theorem follows_liquidateReduce (hN : ∀ config config', N config config' → config.Retunes config')
    (hhealth : HealthFollows E F N) (env : Env) (user : Address)
    (positionId : Nat) (sizeDelta executionPrice : Int) :
    Follows E (Akin F N) Eq (liquidateReduce env user positionId sizeDelta executionPrice)
      (liquidateReduce env user positionId sizeDelta executionPrice) := by
  refine (follows_read fun _ _ _ _ _ => rfl).seq fun _ => Follows.check fun _ => ?_
  refine follows_get_bind (fun _ _ _ _ _ => rfl) fun w => Follows.check fun found => ?_
  obtain ⟨index, position⟩ := found
  refine Follows.check fun _ => (follows_loadMarket hN _).bind fun market market' hretunes => ?_
  have hid : market'.market.marketId = market.market.marketId := by rw [hretunes.1]
  refine (follows_validateExecutionPrice hretunes env executionPrice).seq fun _ => ?_
  refine Follows.seq (follows_pure rfl) fun _ => (follows_settlePositionFunding env user _).seq fun settled => ?_
  obtain ⟨settledFunding, position⟩ := settled
  refine Follows.check fun pnl => Follows.check fun margin => Follows.check fun size => ?_
  refine (follows_engine_store fun _ _ => rfl).seq fun _ => ?_
  rw [hid]
  refine (follows_read fun _ _ _ _ _ => rfl).seq fun oi => ?_
  refine (follows_engine_store fun _ _ => rfl).seq fun _ => ?_
  refine (follows_read fun _ _ _ _ _ => ?_).seq fun sideOi => ?_
  · rfl
  refine (follows_engine_store fun _ _ => ?_).seq fun _ => ?_
  · rfl
  refine (follows_read fun _ _ _ _ _ => rfl).seq fun asset => ?_
  refine (follows_callVault fun env => Vault.follows_applyPnl env user asset pnl).seq fun _ => ?_
  refine Follows.seq (follows_callVault fun env => Vault.follows_syncPositions env user _) fun _ => ?_
  refine (follows_vaultHealth hhealth env user).bind fun health health' hequity => ?_
  rw [hequity]
  exact follows_pure rfl

end Engine

namespace Liquidation

theorem follows_callEngine {V : α → β → Prop} {env : Env} {call : Env → Tx α} {call' : Env → Tx β}
    (h : ∀ env, Follows E (Akin F N) V (call env) (call' env)) :
    Follows E (Akin F N) V (callEngine env call) (callEngine env call') := by
  refine (follows_read fun _ _ _ _ _ => rfl).seq fun engine => ?_
  exact follows_get_bind (fun _ _ _ _ _ => rfl) fun w => follows_invoke (h _)

theorem follows_callVault {V : α → β → Prop} {env : Env} {call : Env → Tx α} {call' : Env → Tx β}
    (h : ∀ env, Follows E (Akin F N) V (call env) (call' env)) :
    Follows E (Akin F N) V (callVault env call) (callVault env call') := by
  refine (follows_read fun _ _ _ _ _ => rfl).seq fun vault => ?_
  exact follows_get_bind (fun _ _ _ _ _ => rfl) fun w => follows_invoke (h _)

theorem follows_vaultHealth (hhealth : HealthFollows E F N) (env : Env) (user : Address) :
    Follows E (Akin F N) (fun health health' => health'.equity = health.equity)
      (readWith fun w => vaultHealth env w user) (readWith fun w => vaultHealth env w user) := by
  refine follows_readWith fun w w' h => ?_
  have hasset : settlementAsset w' = settlementAsset w := h.read settlementAsset fun _ _ _ _ _ => rfl
  have hvault : vaultAddress w' = vaultAddress w := h.read vaultAddress fun _ _ _ _ _ => rfl
  have hdeployed : w'.deployed = w.deployed := h.read World.deployed fun _ _ _ _ _ => rfl
  unfold vaultHealth
  rw [hasset, hvault, hdeployed]
  refine (Tracks.refl _).bind fun vault _ _ _ hsame => ?_
  subst hsame
  refine (Tracks.refl _).bind fun asset _ _ _ hsame => ?_
  subst hsame
  exact (Tracks.refl _).bind fun _ _ _ _ _ => hhealth _ _ _ user asset h

theorem follows_engineLiquidateReduce (hN : ∀ config config', N config config' → config.Retunes config')
    (hhealth : HealthFollows E F N) (env : Env) (user : Address) (positionId : Nat)
    (closeSize executionPrice : Int) :
    Follows E (Akin F N) Eq (engineLiquidateReduce env user positionId closeSize executionPrice)
      (engineLiquidateReduce env user positionId closeSize executionPrice) :=
  follows_callEngine fun env =>
    Engine.follows_liquidateReduce hN hhealth env user positionId closeSize executionPrice

theorem follows_vaultSeizeForDeficit (env : Env) (user asset : Address) :
    Follows E (Akin F N) Eq (vaultSeizeForDeficit env user asset) (vaultSeizeForDeficit env user asset) :=
  follows_callVault fun env => Vault.follows_seizeForDeficit env user asset

end Liquidation

end
/-! ## The same funds -/

section
variable {N : MarketConfig → MarketConfig → Prop} {E : Abort → Prop} {α β : Type}

theorem Akin.read_funds {w w' : World} (h : Akin Eq N w w') (g : World → α)
    (hg : ∀ w market marketConfig,
      g (w.refit w.insurance.balance w.tokens market marketConfig) = g w) : g w' = g w := by
  obtain ⟨balance, tokens, market, marketConfig, rfl⟩ := h.frame
  obtain ⟨rfl, rfl⟩ := Prod.mk.inj h.funds
  exact hg ..

theorem follows_read_funds {g : World → Res α} (hg : ∀ w market marketConfig,
    g (w.refit w.insurance.balance w.tokens market marketConfig) = g w) :
    Follows E (Akin Eq N) Eq (readWith g) (readWith g) := by
  refine follows_readWith fun w w' h => ?_
  rw [h.read_funds g hg]
  exact .refl _

theorem follows_get_bind_funds {V : α → β → Prop} {k : World → Tx α} {k' : World → Tx β}
    (hk' : ∀ w market marketConfig,
      k' (w.refit w.insurance.balance w.tokens market marketConfig) = k' w)
    (hk : ∀ w, Follows E (Akin Eq N) V (k w) (k' w)) :
    Follows E (Akin Eq N) V (get >>= k) (get >>= k') := by
  refine follows_get.bind fun w w' h => ?_
  rw [h.read_funds k' hk']
  exact hk w

theorem follows_insurance_store (f : InsuranceStorage → InsuranceStorage) :
    Follows E (Akin Eq N) Eq (Insurance.store f) (Insurance.store f) := by
  refine follows_modify fun w w' h => ?_
  obtain ⟨balance, tokens, market, marketConfig, rfl⟩ := h.frame
  obtain ⟨rfl, rfl⟩ := Prod.mk.inj h.funds
  exact ⟨⟨_, _, market, marketConfig, rfl⟩, rfl, h.market, h.marketConfig⟩

theorem follows_tokenTransfer (env : Env) (asset source target : Address) (amount : Int) :
    Follows E (Akin Eq N) Eq (tokenTransfer env asset source target amount)
      (tokenTransfer env asset source target amount) := by
  refine follows_get_bind_funds (fun _ _ _ => rfl) fun w => Follows.check fun tokens => ?_
  refine follows_modify fun w w' h => ?_
  obtain ⟨balance, tokens, market, marketConfig, rfl⟩ := h.frame
  obtain ⟨hbalance, _⟩ := Prod.mk.inj h.funds
  exact ⟨⟨balance, _, market, marketConfig, rfl⟩, Prod.ext hbalance rfl, h.market, h.marketConfig⟩

namespace Insurance

theorem follows_decreaseBalance (asset : Address) (amount : Int) :
    Follows E (Akin Eq N) Eq (decreaseBalance asset amount) (decreaseBalance asset amount) := by
  refine (follows_read_funds fun _ _ _ => rfl).seq fun next => ?_
  exact (follows_insurance_store _).seq fun _ => follows_pure rfl

theorem follows_payLiquidator (env : Env) (liquidator asset : Address) (amount : Int) :
    Follows E (Akin Eq N) Eq (payLiquidator env liquidator asset amount)
      (payLiquidator env liquidator asset amount) := by
  refine (follows_read_funds fun _ _ _ => rfl).seq fun _ => Follows.check fun _ => ?_
  refine follows_get_bind_funds (fun _ _ _ => rfl) fun w => Follows.check fun _ => ?_
  refine (follows_decreaseBalance asset amount).seq fun next => ?_
  exact (follows_tokenTransfer env asset _ liquidator amount).seq fun _ => follows_pure rfl

theorem follows_coverDeficit (env : Env) (asset : Address) (amount : Int) :
    Follows E (Akin Eq N) Eq (coverDeficit env asset amount) (coverDeficit env asset amount) := by
  refine (follows_read_funds fun _ _ _ => rfl).seq fun vault => Follows.check fun _ => ?_
  refine follows_get_bind_funds (fun _ _ _ => rfl) fun w => ?_
  refine Follows.ite Iff.rfl (follows_pure rfl) ((follows_decreaseBalance asset _).seq fun _ => ?_)
  exact (follows_tokenTransfer env asset _ vault _).seq fun _ => follows_pure rfl

theorem follows_recordBadDebt (env : Env) (asset : Address) (amount : Int) :
    Follows E (Akin Eq N) Eq (recordBadDebt env asset amount) (recordBadDebt env asset amount) := by
  refine (follows_read_funds fun _ _ _ => rfl).seq fun _ => Follows.check fun _ => ?_
  refine (follows_read_funds fun _ _ _ => rfl).seq fun next => ?_
  exact (follows_insurance_store _).seq fun _ => follows_pure rfl

end Insurance

namespace Vault

theorem follows_insuranceCoverDeficit (env : Env) (asset : Address) (amount : Int) :
    Follows E (Akin Eq N) Eq (insuranceCoverDeficit env asset amount)
      (insuranceCoverDeficit env asset amount) := by
  refine (follows_read_funds fun _ _ _ => rfl).seq fun insurance => ?_
  exact follows_get_bind_funds (fun _ _ _ => rfl) fun w =>
    follows_invoke (Insurance.follows_coverDeficit _ asset amount)

theorem follows_insuranceRecordBadDebt (env : Env) (asset : Address) (amount : Int) :
    Follows E (Akin Eq N) Eq (insuranceRecordBadDebt env asset amount)
      (insuranceRecordBadDebt env asset amount) := by
  refine (follows_read_funds fun _ _ _ => rfl).seq fun insurance => ?_
  exact follows_get_bind_funds (fun _ _ _ => rfl) fun w =>
    follows_invoke (Insurance.follows_recordBadDebt _ asset amount)

theorem follows_absorbBadDebt (env : Env) (user asset : Address) :
    Follows E (Akin Eq N) Eq (absorbBadDebt env user asset) (absorbBadDebt env user asset) := by
  refine (follows_read_funds fun _ _ _ => rfl).seq fun _ => ?_
  refine follows_get_bind_funds (fun _ _ _ => rfl) fun w => ?_
  refine Follows.ite Iff.rfl (follows_pure rfl) (Follows.check fun deficit => ?_)
  refine (follows_insuranceCoverDeficit env asset deficit).seq fun covered => ?_
  refine (follows_creditPositive user asset covered).seq fun _ => Follows.check fun remaining => ?_
  refine Follows.seq (x := recordUncovered env asset remaining) ?_ fun _ => follows_pure rfl
  refine Follows.ite Iff.rfl ?_ (follows_pure rfl)
  exact (follows_insuranceRecordBadDebt env asset remaining).seq fun _ => follows_pure rfl

end Vault

namespace Liquidation

theorem follows_payReward (env : Env) (liquidator asset : Address) (reward : Int) :
    Follows E (Akin Eq N) Eq (payReward env liquidator asset reward)
      (payReward env liquidator asset reward) := by
  refine Follows.ite Iff.rfl ?_ (follows_pure rfl)
  refine Follows.seq (x := insurancePayLiquidator env liquidator asset reward) ?_ fun _ => follows_pure rfl
  refine (follows_read_funds fun _ _ _ => rfl).seq fun insurance => ?_
  exact follows_get_bind_funds (fun _ _ _ => rfl) fun w =>
    follows_invoke (Insurance.follows_payLiquidator _ liquidator asset reward)

theorem follows_absorbUnderwater (env : Env) (user asset : Address) {health health' : AccountHealth}
    (hequity : health'.equity = health.equity) :
    Follows E (Akin Eq N) Eq (absorbUnderwater env user asset health)
      (absorbUnderwater env user asset health') := by
  refine Follows.ite (by rw [hequity]) ?_ (follows_pure rfl)
  exact (follows_callVault fun env => Vault.follows_absorbBadDebt env user asset).seq fun _ => follows_pure rfl

end Liquidation
end

end Kryon

import Kryon.Vault.Backing
import Kryon.Vault.Valuation

/-! # A market without a fresh price

Every trade is held against the oracle's price, and so is every account that has a position.
When the price of a market's asset grows too old, nobody trades in it; and whoever holds a
position in it neither trades, nor withdraws, nor is liquidated, in any market. -/
namespace Kryon
open Transaction Runs

/-- From `since` on the asset has no price that is young enough. -/
def OracleStorage.Expired (s : OracleStorage) (asset : Symbol) (maxAgeSecs since : Nat) : Prop :=
  ∀ snapshot, s.price.get asset = some snapshot → snapshot.publishTime + maxAgeSecs < since

theorem OracleAdapter.getPrice_expired {s : OracleStorage} {asset : Symbol} {env : Env}
    {guard : OracleGuard} {since : Nat} {snapshot : OracleSnapshot}
    (h : getPrice env s asset (some guard) = .ok snapshot) (hs : s.Expired asset guard.maxAgeSecs since)
    (hnow : since ≤ env.timestamp) : False := by
  simp only [getPrice, except_bind_ok, okOr_ok, except_pure_ok, Option.getD_some] at h
  obtain ⟨_, _, _, _, _, hprice, _, _, _, hvalid, rfl⟩ := h
  have hexpired := hs _ hprice
  have hage := (OracleSnapshot.validate_valid hvalid).publishAge
  omega

/-- Neither contract finds a fresh price for the market. -/
structure World.Unpriced (w : World) (marketId : Nat) (asset : Symbol) (since : Nat) : Prop where
  engine : ∀ market, w.engine.market.get marketId = some market → market.market.baseAsset = asset ∧
    w.oracle.Expired asset market.market.maxOracleAgeSecs since
  vault : ∀ config, w.vault.marketConfig.get marketId = some config → config.baseAsset = asset ∧
    w.oracle.Expired asset config.maxOracleAgeSecs since

section Unpriced

variable {env : Env} {w w' : World} {marketId since : Nat} {asset : Symbol} {user : Address}

theorem World.Unpriced.execution (hw : w.Unpriced marketId asset since) (hnow : since ≤ env.timestamp)
    {market : EngineMarketConfig} {price : Int} {u : Unit}
    (hmarket : w.engine.loadMarket marketId = .ok market) :
    Engine.validateExecutionPrice env w market price ≠ .ok u := by
  intro h
  simp only [Engine.validateExecutionPrice, Engine.oracleGetPrice, except_bind_ok] at h
  obtain ⟨snapshot, ⟨_, _, _, _, hprice⟩, _⟩ := h
  obtain ⟨hasset, hexpired⟩ := hw.engine market (okOr_ok.mp hmarket)
  rw [hasset] at hprice
  exact OracleAdapter.getPrice_expired hprice hexpired hnow

/-- Valuing a position takes a price of its market. -/
theorem Vault.loadMarketsFrom_priced {markets result : Store Nat MarketSnapshot}
    {positions : List Position} (h : Vault.loadMarketsFrom env w markets positions = .ok result)
    {p : Position} (hp : p ∈ positions) : (markets.get p.marketId).isSome = true ∨
      ∃ config m, w.vault.marketConfig.get p.marketId = some config ∧
        Vault.marketSnapshot env w config = .ok m := by
  induction positions generalizing markets with
  | nil => cases hp
  | cons q rest ih =>
    by_cases hloaded : (markets.get q.marketId).isSome = true
    · simp only [Vault.loadMarketsFrom, hloaded, if_true] at h
      rcases List.mem_cons.mp hp with rfl | hp
      · exact .inl hloaded
      · exact ih h hp
    · simp only [Vault.loadMarketsFrom, hloaded, Bool.false_eq_true, if_false, except_bind_ok, okOr_ok] at h
      obtain ⟨config, hc, snapshot, hs, hrest⟩ := h
      rcases List.mem_cons.mp hp with rfl | hp
      · exact .inr ⟨config, snapshot, hc, hs⟩
      · rcases ih hrest hp with hsome | hpriced
        · rw [Store.get_set, w.vault.marketConfig.key_of_get hc] at hsome
          split at hsome
          · rename_i hk
            rw [hk]
            exact .inr ⟨config, snapshot, hc, hs⟩
          · exact .inl hsome
        · exact .inr hpriced

/-- A position in the market. -/
def World.Holds (w : World) (user : Address) (marketId : Nat) : Prop :=
  ∃ p ∈ w.engine.loadPositions user, p.marketId = marketId

theorem World.Unpriced.loadMarkets (hw : w.Unpriced marketId asset since) (hnow : since ≤ env.timestamp)
    {positions : List Position} {markets : Store Nat MarketSnapshot} {p : Position}
    (hp : p ∈ positions) (hm : p.marketId = marketId) :
    Vault.loadMarketsForPositions env w positions ≠ .ok markets := by
  intro h
  rcases Vault.loadMarketsFrom_priced h hp with hsome | ⟨config, m, hc, hs⟩
  · cases hsome
  · rw [hm] at hc
    obtain ⟨hasset, hexpired⟩ := hw.vault config hc
    simp only [Vault.marketSnapshot, Vault.oracleGetPrice, except_bind_ok] at hs
    obtain ⟨_, _, _, ⟨_, _, hprice⟩, _⟩ := hs
    rw [hasset] at hprice
    exact OracleAdapter.getPrice_expired hprice hexpired hnow

/-- Whoever holds a position in the market cannot be valued. -/
theorem World.Unpriced.valuation (hw : w.Unpriced marketId asset since) (hmirror : w.accounts.Mirrored)
    (hnow : since ≤ env.timestamp) (hholds : w.Holds user marketId) {listed : Address}
    {account : AccountSnapshot} {markets : Store Nat MarketSnapshot}
    (haccount : Vault.accountSnapshot env w user listed = .ok account) :
    Vault.loadMarketsForPositions env w account.positions ≠ .ok markets := by
  obtain ⟨p, hp, hm⟩ := hholds
  rw [Vault.loaded_positions haccount, hmirror.loadPositions]
  exact hw.loadMarkets hnow hp hm

theorem World.Unpriced.accountHealth (hw : w.Unpriced marketId asset since) {listed : Address}
    {health : AccountHealth} (h : Vault.accountHealth env w user listed = .ok health)
    (hmirror : w.accounts.Mirrored) (hnow : since ≤ env.timestamp) (hholds : w.Holds user marketId) :
    False := by
  simp only [Vault.accountHealth, except_bind_ok] at h
  obtain ⟨account, haccount, markets, hmarkets, _⟩ := h
  exact hw.valuation hmirror hnow hholds haccount hmarkets

end Unpriced

/-! ## What a trade checks -/

namespace Engine

variable {env : Env} {w w' : World} {user : Address} {marketId positionId : Nat} {size price : Int}
  {isLong : Bool}

/-- A trade is held against the market's price before, and the account is valued after. -/
structure Checked (env : Env) (w w' : World) (user : Address) (marketId : Nat) : Prop where
  priced : ∃ market price u, w.engine.loadMarket marketId = .ok market ∧
    validateExecutionPrice env w market price = .ok u
  valued : ∃ health, vaultHealth env w' user = .ok health

theorem openPosition_checked {mode : MarginMode} {r : TradeResult}
    (h : Returns (openPosition env user marketId size isLong price mode) w r w') :
    Checked env w w' user marketId := by
  simp only [openPosition, returns_readWith_bind, returns_lift_bind] at h
  obtain ⟨_, _, _, _, _, _, market, hmarket, _, hprice, hrun⟩ := h
  obtain ⟨_, _, _, hrun⟩ := returns_bind.mp hrun
  simp only [returns_lift_bind, returns_get_bind] at hrun
  obtain ⟨_, _, _, _, _, _, _, _, _, _, _, _, hrun⟩ := hrun
  obtain ⟨_, _, _, hrun⟩ := returns_bind.mp hrun
  simp only [returns_store_bind, returns_readWith_bind] at hrun
  obtain ⟨_, _, hrun⟩ := hrun
  obtain ⟨_, _, _, hrun⟩ := returns_bind.mp hrun
  simp only [returns_readWith_bind, returns_pure] at hrun
  obtain ⟨health, hhealth, _, rfl⟩ := hrun
  exact ⟨⟨market, price, _, hmarket, hprice⟩, health, hhealth⟩

theorem increasePosition_checked {r : TradeResult}
    (h : Returns (increasePosition env user positionId size price) w r w') :
    ∃ index position, findPosition (w.engine.loadPositions user) positionId = .ok (index, position) ∧
      Checked env w w' user position.marketId := by
  simp only [increasePosition, returns_readWith_bind, returns_lift_bind, returns_get_bind] at h
  obtain ⟨_, _, _, _, ⟨index, position⟩, hfind, hrun⟩ := h
  simp only at hrun
  obtain ⟨market, hmarket, _, hprice, hrun⟩ := hrun
  obtain ⟨_, _, _, hrun⟩ := returns_bind.mp hrun
  obtain ⟨⟨settled, position'⟩, _, _, hrun⟩ := returns_bind.mp hrun
  simp only [returns_lift_bind, returns_get_bind, returns_store_bind, returns_readWith_bind] at hrun
  obtain ⟨_, _, _, _, _, _, _, _, _, _, _, _, hrun⟩ := hrun
  obtain ⟨_, _, _, hrun⟩ := returns_bind.mp hrun
  simp only [returns_readWith_bind, returns_pure] at hrun
  obtain ⟨health, hhealth, _, rfl⟩ := hrun
  exact ⟨index, position, hfind, ⟨market, price, _, hmarket, hprice⟩, health, hhealth⟩

theorem reducePositionInternal_checked {requireInitialMargin : Bool} {r : TradeResult}
    (h : Returns (reducePositionInternal env user positionId size price requireInitialMargin) w r w') :
    ∃ index position, findPosition (w.engine.loadPositions user) positionId = .ok (index, position) ∧
      Checked env w w' user position.marketId := by
  simp only [reducePositionInternal, returns_lift_bind, returns_get_bind] at h
  obtain ⟨_, _, ⟨index, position⟩, hfind, _, _, hrun⟩ := h
  simp only [returns_readWith_bind] at hrun
  obtain ⟨market, hmarket, _, hprice, hrun⟩ := hrun
  obtain ⟨_, _, _, hrun⟩ := returns_bind.mp hrun
  obtain ⟨⟨settled, position'⟩, _, _, hrun⟩ := returns_bind.mp hrun
  simp only [returns_lift_bind, returns_store_bind, returns_readWith_bind] at hrun
  obtain ⟨_, _, _, _, _, _, _, _, _, _, _, _, hrun⟩ := hrun
  obtain ⟨_, _, _, hrun⟩ := returns_bind.mp hrun
  obtain ⟨_, _, _, hrun⟩ := returns_bind.mp hrun
  simp only [returns_readWith_bind, returns_pure] at hrun
  obtain ⟨health, hhealth, _, rfl⟩ := hrun
  exact ⟨index, position, hfind, ⟨market, price, _, hmarket, hprice⟩, health, hhealth⟩

end Engine

/-- Every trade changes one position, of a market that has a price, and leaves its owner's
account with a value. -/
theorem EngineOp.checked {op : EngineOp} {w w' : World} (h : Returns op.call w () w') :
    ∃ positions before after marketId isLong change pnl,
      Engine.Traded w w' op.user positions marketId isLong change pnl ∧
      OneChange (w.engine.loadPositions op.user) positions before after ∧
      (∀ p, before = some p ∨ after = some p → p.marketId = marketId) ∧
      Engine.Checked op.env w w' op.user marketId := by
  have reduced : ∀ {env user positionId size price requireInitialMargin r},
      Returns (Engine.reducePositionInternal env user positionId size price requireInitialMargin) w r w' →
      ∃ positions before after marketId isLong change pnl,
        Engine.Traded w w' user positions marketId isLong change pnl ∧
        OneChange (w.engine.loadPositions user) positions before after ∧
        (∀ p, before = some p ∨ after = some p → p.marketId = marketId) ∧
        Engine.Checked env w w' user marketId := by
    intro env user positionId size price requireInitialMargin r h
    obtain ⟨_, _, index, position, _, _, margin, hindex, _, _, _, _, ht, _, _, hfind, _⟩ :=
      Engine.reducePositionInternal_effect h
    obtain ⟨_, found, hfound, hchecked⟩ := Engine.reducePositionInternal_checked h
    obtain ⟨_, rfl⟩ := Prod.mk.inj (Except.ok.inj (hfind.symm.trans hfound))
    unfold Engine.replaceOrRemove at ht
    split at ht
    · refine ⟨_, _, _, _, _, _, _, ht, .erase hindex, ?_, hchecked⟩
      rintro p (hp | hp)
      · rw [← Option.some.inj hp]
      · cases hp
    · refine ⟨_, _, _, _, _, _, _, ht, .set _ hindex, ?_, hchecked⟩
      rintro p (hp | hp) <;> rw [← Option.some.inj hp]
  cases op with
  | openPosition env user marketId size isLong price mode =>
    obtain ⟨_, h⟩ := returns_void.mp h
    obtain ⟨_, _, _, _, position, hmarket, _, _, _, _, _, _, _, ht, _⟩ := Engine.openPosition_effect h
    refine ⟨_, _, _, _, _, _, _, ht, .append position, ?_, Engine.openPosition_checked h⟩
    rintro p (hp | hp)
    · cases hp
    · rw [← Option.some.inj hp, hmarket]
  | increasePosition env user positionId size price =>
    obtain ⟨_, h⟩ := returns_void.mp h
    obtain ⟨_, _, index, position, _, _, hindex, _, _, _, ht, _, _, hfind, _⟩ :=
      Engine.increasePosition_effect h
    obtain ⟨_, found, hfound, hchecked⟩ := Engine.increasePosition_checked h
    obtain ⟨_, rfl⟩ := Prod.mk.inj (Except.ok.inj (hfind.symm.trans hfound))
    refine ⟨_, _, _, _, _, _, _, ht, .set _ hindex, ?_, hchecked⟩
    rintro p (hp | hp) <;> rw [← Option.some.inj hp]
  | reducePosition env user positionId size price =>
    obtain ⟨_, h⟩ := returns_void.mp h
    exact reduced (Engine.reducePosition_internal h)
  | closePosition env user positionId price =>
    obtain ⟨_, h⟩ := returns_void.mp h
    obtain ⟨_, h⟩ := Engine.closePosition_internal h
    exact reduced h
  | liquidateReduce env user positionId size price =>
    obtain ⟨_, h⟩ := returns_void.mp h
    exact reduced (Engine.liquidateReduce_internal h)

/-! ## The frozen market -/

/-- No position of the market has moved, and nobody who holds one has traded in any market. -/
structure Frozen (marketId : Nat) (w w' : World) : Prop where
  deployed : w'.deployed = w.deployed
  holders : ∀ user, w.Holds user marketId → w'.engine.loadPositions user = w.engine.loadPositions user
  others : ∀ user, ¬ w.Holds user marketId → ¬ w'.Holds user marketId
  openInterest : w'.engine.openInterestOf marketId = w.engine.openInterestOf marketId
  sides : ∀ isLong, w'.engine.sideOpenInterest marketId isLong = w.engine.sideOpenInterest marketId isLong

/-- The market has no fresh price, and nobody brings positions but by trading. -/
structure World.Dark (w : World) (marketId : Nat) (asset : Symbol) (since : Nat) : Prop where
  unpriced : w.Unpriced marketId asset since
  mirrored : w.accounts.Mirrored
  wired : w.vault.engine = some w.deployed.engine
  closed : w.engine.migrationSealed = true
  distinct : w.deployed.contracts.Nodup

section Freeze

variable {w w' w'' : World} {marketId since : Nat} {asset : Symbol} {user : Address}

theorem Frozen.refl (w : World) : Frozen marketId w w :=
  ⟨rfl, fun _ _ => rfl, fun _ h => h, rfl, fun _ => rfl⟩

theorem Frozen.holds (h : Frozen marketId w w') : w'.Holds user marketId ↔ w.Holds user marketId := by
  by_cases hholds : w.Holds user marketId
  · simp only [World.Holds, h.holders user hholds]
  · exact ⟨fun h' => absurd h' (h.others user hholds), fun h' => absurd h' hholds⟩

theorem Frozen.trans (h : Frozen marketId w w') (h' : Frozen marketId w' w'') : Frozen marketId w w'' where
  deployed := h'.deployed.trans h.deployed
  holders user hu := (h'.holders user (h.holds.mpr hu)).trans (h.holders user hu)
  others _ hu := fun h'' => hu (h.holds.mp (h'.holds.mp h''))
  openInterest := h'.openInterest.trans h.openInterest
  sides isLong := (h'.sides isLong).trans (h.sides isLong)

/-- The part of the engine's storage that the market's positions are in. -/
theorem Frozen.of_book (hdeployed : w'.deployed = w.deployed)
    (hpositions : w'.engine.positions = w.engine.positions)
    (htotal : w'.engine.openInterest = w.engine.openInterest)
    (hlong : w'.engine.longOpenInterest = w.engine.longOpenInterest)
    (hshort : w'.engine.shortOpenInterest = w.engine.shortOpenInterest) : Frozen marketId w w' := by
  have hload : ∀ user, w'.engine.loadPositions user = w.engine.loadPositions user := fun user => by
    simp only [EngineStorage.loadPositions, hpositions]
  refine ⟨hdeployed, fun user _ => hload user, fun user => ?_, ?_, fun isLong => ?_⟩
  · simp only [World.Holds, hload user, imp_self]
  · simp only [EngineStorage.openInterestOf, htotal]
  · simp only [EngineStorage.sideOpenInterest, hlong, hshort]

theorem Frozen.of_engine (hdeployed : w'.deployed = w.deployed) (hengine : w'.engine = w.engine) :
    Frozen marketId w w' := by
  refine .of_book hdeployed ?_ ?_ ?_ ?_ <;> rw [hengine]

theorem World.Unpriced.of_terms (hw : w.Unpriced marketId asset since) (h : w'.terms = w.terms) :
    w'.Unpriced marketId asset since := by
  have hconfig := config_of_terms h
  have hengine := config_congr (fun v => v.engine.market) (fun _ => rfl) hconfig
  have hvault := config_congr (fun v => v.vault.marketConfig) (fun _ => rfl) hconfig
  refine ⟨?_, ?_⟩
  · rw [hengine, oracle_of_terms h]
    exact hw.engine
  · rw [hvault, oracle_of_terms h]
    exact hw.vault

theorem World.Dark.of_terms (hw : w.Dark marketId asset since) (h : w'.terms = w.terms)
    (hmirrored : w'.accounts.Mirrored) : w'.Dark marketId asset since where
  unpriced := hw.unpriced.of_terms h
  mirrored := hmirrored
  wired := by
    rw [deployed_of_config (config_of_terms h), ← hw.wired]
    exact config_congr (fun v => v.vault.engine) (fun _ => rfl) (config_of_terms h)
  closed := (config_congr (fun v => v.engine.migrationSealed) (fun _ => rfl) (config_of_terms h)).trans
    hw.closed
  distinct := by
    rw [deployed_of_config (config_of_terms h)]
    exact hw.distinct

/-- A trade is in another market, and by somebody who holds nothing in this one. -/
theorem EngineOp.frozen {op : EngineOp} (hw : w.Dark marketId asset since)
    (hw' : w'.Dark marketId asset since) (hnow : since ≤ op.env.timestamp)
    (h : Returns op.call w () w') : Frozen marketId w w' := by
  obtain ⟨positions, before, after, traded, isLong, change, pnl, ht, hone, hside, hchecked⟩ :=
    EngineOp.checked h
  have hne : traded ≠ marketId := by
    rintro rfl
    obtain ⟨market, price, u, hmarket, hprice⟩ := hchecked.priced
    exact hw.unpriced.execution hnow hmarket hprice
  have hfilter : positions.filter (fun p => p.marketId = marketId) =
      (w.engine.loadPositions op.user).filter fun p => p.marketId = marketId :=
    hone.filter_eq fun p hp => decide_eq_false (by rw [hside p hp]; exact hne)
  have hholds : ∀ user, w'.Holds user marketId ↔ w.Holds user marketId := by
    intro user
    unfold World.Holds
    rw [ht.loadPositions]
    split
    · rename_i heq
      have hmem : ∀ p, p ∈ positions ∧ p.marketId = marketId ↔
          p ∈ w.engine.loadPositions user ∧ p.marketId = marketId := by
        intro p
        have hp := congrArg (p ∈ ·) hfilter
        simp only [List.mem_filter, decide_eq_true_eq, eq_iff_iff] at hp
        rw [heq]
        exact hp
      exact exists_congr hmem
    · exact Iff.rfl
  obtain ⟨_, _, hdeployed⟩ := ht.world
  refine ⟨by rw [hdeployed], fun user hu => ?_, fun user => (not_congr (hholds user)).mpr, ?_,
    fun side => ?_⟩
  · rw [ht.loadPositions, if_neg]
    rintro rfl
    obtain ⟨health, hhealth⟩ := hchecked.valued
    obtain ⟨_, _, hhealth⟩ := Engine.vaultHealth_ok hhealth
    exact hw'.unpriced.accountHealth hhealth hw'.mirrored hnow ((hholds _).mpr hu)
  · rw [ht.openInterestOf, if_neg hne.symm]
  · rw [ht.sideOpenInterest, if_neg fun he => hne he.1.symm]

theorem AccountOp.frozen {op : AccountOp} (hw : w.Dark marketId asset since)
    (hnow : since ≤ op.env.timestamp) (h : Returns op.call w () w') :
    Frozen marketId w w' ∧ w'.Dark marketId asset since := by
  have hdark : w'.Dark marketId asset since :=
    hw.of_terms (AccountOp.terms h) (AccountOp.Step.mirrored hw.mirrored ⟨w, w', rfl, rfl, h⟩)
  refine ⟨?_, hdark⟩
  cases op with
  | trade op => exact EngineOp.frozen hw hdark hnow h
  | chargeTradeFee env user marketId size executionPrice isMaker =>
    obtain ⟨_, h⟩ := returns_void.mp h
    rcases Engine.chargeTradeFee_effect h with rfl | ⟨_, _, _, _, _, _, _, _, _, rfl⟩
    · exact .refl _
    · exact .of_engine rfl rfl
  | updateFunding env marketId =>
    obtain ⟨_, h⟩ := returns_void.mp h
    obtain ⟨_, _, _, rfl, _⟩ := Engine.updateFunding_effect h
    exact .of_book rfl rfl rfl rfl rfl
  | migrateImportPositions env entries =>
    obtain ⟨_, h⟩ := returns_void.mp h
    simp only [Engine.migrateImportPositions, returns_readWith_bind, returns_get_bind,
      returns_lift_bind, reject_ok] at h
    obtain ⟨_, _, _, hopen, _⟩ := h
    exact absurd hw.closed hopen
  | vault op =>
    have hconfig := config_of_terms (terms_of_valuation (VaultOp.valuation h))
    exact .of_engine (deployed_of_config hconfig) (VaultOp.keepsPositions h).1

/-! ## Setters, the oracle and the fund -/

/-- The calls that may give the market a price again: a new price of its asset, a listing of it,
or another engine or oracle for the vault. -/
def ContractCall.Reprices (d : Deployment) (marketId : Nat) (asset : Symbol) : ContractCall → Prop
  | .oracle op => ∃ x, op.write = some (asset, x)
  | .configure _ (.engine (.setMarket config)) => config.market.marketId = marketId
  | .configure _ (.vault (.setMarketConfig config)) => config.marketId = marketId
  | .configure _ (.vault (.setOracle other)) => other ≠ d.oracle
  | .configure _ (.vault (.setEngine other)) => other ≠ d.engine
  | _ => False

def ProtocolOp.Reprices (d : Deployment) (marketId : Nat) (asset : Symbol) : ProtocolOp → Prop
  | .direct call => call.Reprices d marketId asset
  | _ => False

/-- The listing that the prices of the market are taken by. -/
theorem World.Unpriced.congr (hw : w.Unpriced marketId asset since) (horacle : w'.oracle = w.oracle)
    (hengine : w'.engine.market.get marketId = w.engine.market.get marketId)
    (hvault : w'.vault.marketConfig.get marketId = w.vault.marketConfig.get marketId) :
    w'.Unpriced marketId asset since := by
  refine ⟨fun market hmarket => ?_, fun config hconfig => ?_⟩
  · rw [horacle]
    exact hw.engine market (hengine ▸ hmarket)
  · rw [horacle]
    exact hw.vault config (hvault ▸ hconfig)

theorem Setting.dark {env : Env} {setting : Setting} {u : Unit} (hw : w.Dark marketId asset since)
    (hkeeps : ¬ (ContractCall.configure env setting).Reprices w.deployed marketId asset)
    (h : Returns (setting.call env) w u w') : Frozen marketId w w' ∧ w'.Dark marketId asset since := by
  have hkept := Setting.kept h
  obtain ⟨-, -, horacle, hledger⟩ := Setting.effect h
  have hdeployed : w'.deployed = w.deployed := ledger_congr World.deployed (fun _ => rfl) hledger
  have hmirrored : w'.accounts.Mirrored := by
    rw [ledger_congr World.accounts (fun _ => rfl) hledger]
    exact hw.mirrored
  have hdistinct : w'.deployed.contracts.Nodup := hdeployed ▸ hw.distinct
  refine ⟨.of_book hdeployed (ledger_congr (fun v => v.engine.positions) (fun _ => rfl) hledger)
    (ledger_congr (fun v => v.engine.openInterest) (fun _ => rfl) hledger)
    (ledger_congr (fun v => v.engine.longOpenInterest) (fun _ => rfl) hledger)
    (ledger_congr (fun v => v.engine.shortOpenInterest) (fun _ => rfl) hledger), ?_⟩
  cases setting with
  | vault setting =>
    have hengine := hkept.others
    refine ⟨hw.unpriced.congr horacle (by rw [hengine]) ?_, hmirrored, ?_, by rw [hengine]; exact hw.closed,
      hdistinct⟩
    · rw [hkept.marketConfig]
      cases setting with
      | setMarketConfig config => exact Store.get_set_ne (Ne.symm hkeeps)
      | _ => rfl
    · rw [hdeployed]
      cases setting with
      | setEngine engine =>
        obtain rfl : engine = w.deployed.engine := not_not.mp hkeeps
        obtain ⟨_, rfl⟩ := Vault.configure_effect h
        rfl
      | _ => exact (hkept.engine (by simp)).trans hw.wired
  | engine setting =>
    have hvault := hkept.others
    refine ⟨hw.unpriced.congr horacle ?_ ?_, hmirrored, ?_, hkept.closed hw.closed, hdistinct⟩
    · rw [hkept.market]
      cases setting with
      | setMarket config => exact Store.get_set_ne (Ne.symm hkeeps)
      | _ => rfl
    · rw [hvault]
      cases setting with
      | setMarket config => exact Store.get_set_ne (Ne.symm hkeeps)
      | _ => rfl
    · rw [hvault, hdeployed]
      exact hw.wired
  | insurance | liquidation | gateway =>
    obtain ⟨hvault, hengine⟩ := hkept
    refine ⟨hw.unpriced.congr horacle (by rw [hengine]) (by rw [hvault]), hmirrored, ?_,
      by rw [hengine]; exact hw.closed, hdistinct⟩
    rw [hvault, hdeployed]
    exact hw.wired

theorem OracleOp.expired {op : OracleOp} {s s' : OracleStorage} {u : Unit} {maxAgeSecs : Nat}
    (hs : s.Expired asset maxAgeSecs since) (h : Returns op.call s u s')
    (hkeeps : ¬ ∃ x, op.write = some (asset, x)) : s'.Expired asset maxAgeSecs since := by
  cases hwrite : op.write with
  | none =>
    unfold OracleStorage.Expired
    rw [OracleOp.keeps_price hwrite h]
    exact hs
  | some write =>
    obtain ⟨written, x⟩ := write
    rw [OracleOp.call_of_write hwrite] at h
    obtain ⟨_, h⟩ := returns_void.mp h
    have hne : written ≠ asset := by
      rintro rfl
      exact hkeeps ⟨x, hwrite⟩
    intro snapshot hsnapshot
    rw [(OracleOp.write_stores hwrite h).2, Store.get_set_ne hne.symm] at hsnapshot
    exact hs snapshot hsnapshot

theorem ContractCall.frozen {c : ContractCall} (hw : w.Dark marketId asset since)
    (hnow : since ≤ c.env.timestamp) (hengine : ¬ c.env.Authorizes w.deployed.engine)
    (hkeeps : ¬ c.Reprices w.deployed marketId asset) (h : Returns c.call w () w') :
    Frozen marketId w w' ∧ w'.Dark marketId asset since := by
  have denied : ∀ {env engine}, env = c.env → Vault.requireEngine env w.vault ≠ .ok engine := by
    rintro env engine rfl hrole
    obtain ⟨hwired, hauth⟩ := requireRole_ok hrole
    obtain rfl := Option.some.inj (hw.wired.symm.trans hwired)
    exact hengine hauth
  cases c with
  | account op => exact AccountOp.frozen hw hnow h
  | fund op =>
    obtain ⟨hvaluation, hv, he⟩ := FundOp.kept h
    have hterms := terms_of_valuation hvaluation
    refine ⟨.of_engine (deployed_of_config (FundOp.config h)) he, hw.of_terms hterms ?_⟩
    unfold World.accounts
    rw [hv, he]
    exact hw.mirrored
  | oracle op =>
    obtain ⟨_, horacle, rfl⟩ := onOracle_returns.mp h
    refine ⟨.of_engine rfl rfl, ⟨fun market hm => ?_, fun config hc => ?_⟩, hw.mirrored, hw.wired,
      hw.closed, hw.distinct⟩
    · obtain ⟨hasset, hexpired⟩ := hw.unpriced.engine market hm
      exact ⟨hasset, OracleOp.expired hexpired horacle hkeeps⟩
    · obtain ⟨hasset, hexpired⟩ := hw.unpriced.vault config hc
      exact ⟨hasset, OracleOp.expired hexpired horacle hkeeps⟩
  | syncPositions env user positions =>
    obtain ⟨_, hrole, _⟩ := returns_readWith_bind.mp h
    exact absurd hrole (denied rfl)
  | setFundingIndexes env marketId long short =>
    obtain ⟨_, hrole, _⟩ := returns_readWith_bind.mp h
    exact absurd hrole (denied rfl)
  | configure env setting => exact Setting.dark hw hkeeps h

/-! ## Whole runs -/

theorem ProtocolOp.Makes.not_reprices {op : ProtocolOp} {d : Deployment} {c : ContractCall}
    (h : op.Makes d c) (hkeeps : ¬ op.Reprices d marketId asset) : ¬ c.Reprices d marketId asset := by
  rcases h.nested with rfl | ⟨_, rfl⟩ | ⟨_, rfl⟩
  · exact hkeeps
  · exact id
  · exact id

theorem ProtocolOp.frozen {op : ProtocolOp} (hw : w.Dark marketId asset since)
    (hnow : since ≤ op.env.timestamp) (hout : op.env.Outside w.deployed)
    (hkeeps : ¬ op.Reprices w.deployed marketId asset) (h : Returns op.call w () w') :
    Frozen marketId w w' ∧ w'.Dark marketId asset since := by
  obtain ⟨v, _, _, hcalls, rfl⟩ := ProtocolOp.calls h
  have hv : Frozen marketId w v ∧ v.Dark marketId asset since := by
    refine hcalls.keeps (I := fun v => Frozen marketId w v ∧ v.Dark marketId asset since)
      (fun {v v' c} hv hc hcall => ?_) ⟨.refl w, hw⟩
    obtain ⟨hfrozen, hdark⟩ := hv
    have hdistinct := hw.distinct
    simp only [Deployment.contracts, List.nodup_cons, List.mem_cons, not_or] at hdistinct
    obtain ⟨_, _, ⟨_, hel, heg, _⟩, _⟩ := hdistinct
    have hengine : ¬ c.env.Authorizes v.deployed.engine := by
      rw [hfrozen.deployed]
      exact hc.not_authorizes hout (by simp [Deployment.contracts]) heg hel
    obtain ⟨hstep, hnext⟩ := ContractCall.frozen hdark (hc.timestamp ▸ hnow) hengine
      (by rw [hfrozen.deployed]; exact hc.not_reprices hkeeps) hcall
    exact ⟨hfrozen.trans hstep, hnext⟩
  obtain ⟨hfrozen, hdark⟩ := hv
  exact ⟨⟨hfrozen.deployed, hfrozen.holders, hfrozen.others, hfrozen.openInterest, hfrozen.sides⟩,
    ⟨⟨hdark.unpriced.engine, hdark.unpriced.vault⟩, hdark.mirrored, hdark.wired, hdark.closed,
      hdark.distinct⟩⟩

theorem World.Dark.withdraw {env : Env} (hw : w.Dark marketId asset since) (hnow : since ≤ env.timestamp)
    (hholds : w.Holds user marketId) (token : Address) (amount : Int) :
    (Vault.withdraw env user token amount).succeeds w = false := by
  refine Bool.eq_false_iff.mpr fun hs => ?_
  obtain ⟨_, h⟩ := returns_commit hs
  obtain ⟨account, markets, haccount, hmarkets⟩ := (Vault.withdraw_withdrawn h).priced
  exact hw.unpriced.valuation hw.mirrored hnow hholds haccount hmarkets

theorem World.Dark.liquidate {env : Env} (hw : w.Dark marketId asset since) (hnow : since ≤ env.timestamp)
    (hholds : w.Holds user marketId) (liquidator : Address) (positionId : Nat) (closeSize price : Int) :
    (Liquidation.liquidate env liquidator user positionId closeSize price).succeeds w = false := by
  refine Bool.eq_false_iff.mpr fun hs => ?_
  obtain ⟨_, h⟩ := returns_commit hs
  obtain ⟨_, _, _, _, _, _, _, hhealth, _⟩ := Liquidation.liquidate_steps h
  simp only [Liquidation.vaultHealth, except_bind_ok] at hhealth
  obtain ⟨_, _, _, _, _, _, hhealth⟩ := hhealth
  exact hw.unpriced.accountHealth hhealth hw.mirrored hnow hholds

/-- Once a market's price has expired, and until somebody prices it again, no transaction moves a
position of the market; who holds one trades in no market, is not liquidated and withdraws nothing. -/
theorem ProtocolOp.expired_freezes {t : List (ProtocolOp × World)} (hw : w.Dark marketId asset since)
    (hr : IsRun (CommitStep ProtocolOp.call) w t)
    (hhost : ∀ e ∈ t, since ≤ e.1.env.timestamp ∧ e.1.env.Outside w.deployed)
    (hkeeps : ∀ e ∈ t, ¬ e.1.Reprices w.deployed marketId asset) :
    AllStates (fun v => Frozen marketId w v ∧
      ∀ env user, since ≤ env.timestamp → w.Holds user marketId →
        (∀ token amount, (Vault.withdraw env user token amount).succeeds v = false) ∧
        ∀ liquidator positionId closeSize price,
          (Liquidation.liquidate env liquidator user positionId closeSize price).succeeds v = false)
      w t := by
  have hfrozen : AllStates (fun v => Frozen marketId w v ∧ v.Dark marketId asset since) w t := by
    refine invariant (fun v op v' hv hop hcall => ?_) ⟨.refl w, hw⟩ hr
      (allSteps_labels (Q := fun op : ProtocolOp => (since ≤ op.env.timestamp ∧
        op.env.Outside w.deployed) ∧ ¬ op.Reprices w.deployed marketId asset).mpr
          fun e he => ⟨hhost e he, hkeeps e he⟩)
    obtain ⟨hv, hdark⟩ := hv
    obtain ⟨⟨hnow, hout⟩, hkeep⟩ := hop
    obtain rfl : v' = _ := hcall
    rcases commit_cases op.call v with ⟨_, h⟩ | ⟨_, h⟩
    · rw [← hv.deployed] at hout hkeep
      obtain ⟨hstep, hnext⟩ := ProtocolOp.frozen hdark hnow hout hkeep h
      exact ⟨hv.trans hstep, hnext⟩
    · rw [h]
      exact ⟨hv, hdark⟩
  refine hfrozen.mono fun v hv => ⟨hv.1, fun env user hnow hholds => ⟨fun token amount => ?_,
    fun liquidator positionId closeSize price => ?_⟩⟩
  · exact hv.2.withdraw hnow (hv.1.holds.mpr hholds) token amount
  · exact hv.2.liquidate hnow (hv.1.holds.mpr hholds) liquidator positionId closeSize price

end Freeze

namespace Sample

/-- Alice is long one of the market, against bob, and the price is from before. -/
def stalled : World :=
  let w := trading 1000
  let held (owner : Address) (positionId : Nat) (isLong : Bool) : Position := {
    owner, positionId, marketId := 1, size := precision, entryPrice := 100 * precision, isLong
    mode := .cross, margin := 0, lastFundingIndex := 0 }
  let positions := ((∅ : Store Address (List Position)).set alice [held alice 1 true]).set bob [held bob 2 false]
  { w with
    engine := { w.engine with
      positions, nextPositionId := some 3, migrationSealed := true
      openInterest := (∅ : Store Nat Int).set 1 (2 * precision)
      longOpenInterest := (∅ : Store Nat Int).set 1 precision
      shortOpenInterest := (∅ : Store Nat Int).set 1 precision }
    vault := { w.vault with positions }
    tokens := (∅ : Tokens).set (usdc, alice) 1000 }

/-- Alice can pay in; but her withdrawal is refused, and so is the fill that closes both positions. -/
def stuckDay : List ProtocolOp := [
  .direct (.account (.vault (.deposit (bank 2000) alice usdc 1000))),
  .direct (.account (.vault (.withdraw (bank 2000) alice usdc 1000))),
  .gateway (.settleFill (bank 2000) (matched { ask precision 2 3000 with owner := alice }
    { bid precision 2 3000 with owner := bob } precision))]

theorem stalled_dark : stalled.Dark 1 "BTC" 2000 where
  unpriced := {
    engine market hmarket := by
      obtain rfl := Option.some.inj hmarket
      refine ⟨rfl, fun snapshot hsnapshot => ?_⟩
      obtain rfl := Option.some.inj hsnapshot
      decide
    vault config hconfig := by
      obtain rfl := Option.some.inj hconfig
      refine ⟨rfl, fun snapshot hsnapshot => ?_⟩
      obtain rfl := Option.some.inj hsnapshot
      decide }
  mirrored := ⟨rfl, fun user assets h => by
    simp only [World.accounts, stalled, trading, deposited, Store.get_set] at h
    split at h
    · obtain rfl := Option.some.inj h
      decide
    · split at h
      · obtain rfl := Option.some.inj h
        decide
      · cases h⟩
  wired := rfl
  closed := rfl
  distinct := by decide

end Sample

open Sample in
theorem expired_freezes_stalled :
    allSucceed ProtocolOp.call stalled (stuckDay.take 1) = true ∧
    AllStates (fun v => Frozen 1 stalled v ∧
      ∀ env user, 2000 ≤ env.timestamp → stalled.Holds user 1 →
        (∀ token amount, (Vault.withdraw env user token amount).succeeds v = false) ∧
        ∀ liquidator positionId closeSize price,
          (Liquidation.liquidate env liquidator user positionId closeSize price).succeeds v = false)
      stalled (execute ProtocolOp.call stalled stuckDay) := by
  refine ⟨by decide +kernel, ProtocolOp.expired_freezes stalled_dark (isRun_commit stalled stuckDay) ?_ ?_⟩
  · intro e he
    simp only [execute, stuckDay, List.mem_cons, List.not_mem_nil, or_false] at he
    rcases he with rfl | rfl | rfl <;> exact ⟨le_rfl, bank_outside _⟩
  · intro e he
    simp only [execute, stuckDay, List.mem_cons, List.not_mem_nil, or_false] at he
    rcases he with rfl | rfl | rfl <;> exact id

end Kryon

import Kryon.Engine.Mirror
import Kryon.Vault.Valuation
import Kryon.Liquidation.Lockstep

/-! # What a market's parameters let be computed

`set_market` bounds the initial margin of a market from below, by its maintenance margin, and
through the leverage by a hundred million; `apply_bps` takes at most ten thousand. A market
retuned to a margin between the two leaves nothing to be computed of the accounts that hold a
position in it: no health, no margin check, no withdrawal and no liquidation. -/
namespace Kryon
open Transaction

section
variable {F : Store Address Int × Tokens → Store Address Int × Tokens → Prop}
  {N : MarketConfig → MarketConfig → Prop} {E : Abort → Prop} {env : Env} {w w' : World}

namespace Vault

theorem tracks_marketSnapshot (h : Akin F N w w') {config config' : MarketConfig}
    (hretunes : config.Retunes config') :
    Tracks E (fun m m' => m.config = config ∧ m' = { m with config := config' })
      (marketSnapshot env w config) (marketSnapshot env w' config') := by
  intro m hm
  obtain ⟨balance, tokens, market, marketConfig, rfl⟩ := h.frame
  obtain ⟨oracle, ho, hm⟩ := except_bind_ok.mp hm
  obtain ⟨price, hp, hm⟩ := except_bind_ok.mp hm
  obtain rfl := except_pure_ok.mp hm
  refine .inr ⟨_, ?_, rfl, rfl⟩
  unfold marketSnapshot
  rw [hretunes]
  exact (except_bind_of_ok ho).trans (except_bind_of_ok hp)

theorem tracks_loadMarketsFrom (hN : ∀ config config', N config config' → config.Retunes config')
    (h : Akin F N w w') (positions : List Position) {markets markets' : Store Nat MarketSnapshot}
    (hmarkets : MarketsAkin N markets markets') :
    Tracks E (MarketsAkin N) (loadMarketsFrom env w markets positions)
      (loadMarketsFrom env w' markets' positions) := by
  induction positions generalizing markets markets' with
  | nil => exact .of_ok rfl fun _ hok => Except.ok.inj hok ▸ hmarkets
  | cons p rest ih =>
    have hloaded : (markets'.get p.marketId).isSome = (markets.get p.marketId).isSome := by
      rw [Bool.eq_iff_iff, Option.isSome_iff_ne_none, Option.isSome_iff_ne_none]
      exact not_congr (related_none (hmarkets p.marketId))
    unfold loadMarketsFrom
    rw [hloaded]
    by_cases hs : (markets.get p.marketId).isSome = true
    · rw [if_pos hs, if_pos hs]
      exact ih hmarkets
    · rw [if_neg hs, if_neg hs]
      refine (Tracks.of_rel (h.marketConfig p.marketId) _).bind fun config config' _ _ hconfig => ?_
      have hid : config'.marketId = config.marketId := by rw [hN _ _ hconfig]
      refine (tracks_marketSnapshot h (hN _ _ hconfig)).bind fun m m' _ _ hm => ?_
      obtain ⟨hold, rfl⟩ := hm
      refine ih fun k => ?_
      rw [hid, Store.get_set, Store.get_set]
      split
      · exact .some ⟨by rw [hold]; exact hconfig, rfl⟩
      · exact hmarkets k

/-- The same account in both worlds. -/
theorem accountSnapshot_akin (h : Akin F N w w') (user asset : Address) :
    accountSnapshot env w' user asset = accountSnapshot env w user asset := by
  obtain ⟨balance, tokens, market, marketConfig, rfl⟩ := h.frame
  have hentries : ∀ assets, collateralEntries env (w.refit balance tokens market marketConfig) user assets =
      collateralEntries env w user assets := by
    intro assets
    induction assets with
    | nil => rfl
    | cons a rest ih =>
      unfold collateralEntries
      rw [ih]
      rfl
  unfold accountSnapshot accountSnapshotAllAssets
  rw [hentries]
  rfl

theorem tracks_loadMarketsForPositions (hN : ∀ config config', N config config' → config.Retunes config')
    (h : Akin F N w w') (positions : List Position) :
    Tracks E (MarketsAkin N) (loadMarketsForPositions env w positions)
      (loadMarketsForPositions env w' positions) :=
  tracks_loadMarketsFrom hN h positions fun _ => .none

/-- **Retuned margins keep health computable.** -/
theorem healthFollows_retuned : HealthFollows Overflows F MarketConfig.KeepsMargins := by
  intro env w w' user asset h
  unfold accountHealth
  rw [accountSnapshot_akin h]
  refine (Tracks.refl _).bind fun account _ _ _ hsame => ?_
  subst hsame
  refine (tracks_loadMarketsForPositions (fun _ _ hN => hN.retunes) h _).bind fun markets markets' _ _ hm => ?_
  exact tracks_accountHealth hm account

end Vault
end

/-! ## Calls -/

/-- Any failure but `InvalidConfig`. -/
abbrev NotInvalidConfig (e : Abort) : Prop := e ≠ .code .invalidConfig

theorem Overflows.notInvalidConfig {e : Abort} (h : Overflows e) : NotInvalidConfig e := by
  rw [h]
  nofun

/-- `w'` has the markets of `w` retuned to margins that can be taken. -/
abbrev Retuned : World → World → Prop := Akin Eq MarketConfig.KeepsMargins

section
variable {env : Env} {w w' : World}

theorem healthFollows_notInvalidConfig :
    HealthFollows NotInvalidConfig Eq MarketConfig.KeepsMargins := fun env w w' user asset h =>
  (Vault.healthFollows_retuned env w w' user asset h).mono (fun _ => Overflows.notInvalidConfig)
    fun _ _ => id

theorem Engine.tracks_marginCheck (h : Retuned w w') (user : Address) {health : AccountHealth}
    (hhealth : Engine.vaultHealth env w user = .ok health) :
    Engine.requireAccountAboveInitialMargin env w' user ≠ .error (.code .invalidConfig) := by
  intro herror
  rcases Engine.tracks_vaultHealth healthFollows_notInvalidConfig env h user health hhealth with
    ⟨e, he, hne⟩ | ⟨health', hok, _⟩
  · exact hne (Except.error.inj ((except_bind_of_error he).symm.trans herror))
  · have hcheck := (except_bind_of_ok hok).symm.trans herror
    unfold reject failIf at hcheck
    split at hcheck
    · cases Except.error.inj hcheck
    · cases hcheck

/-- The check of a withdrawal against the initial margin. -/
theorem Vault.tracks_validateWithdrawal {markets markets' : Store Nat MarketSnapshot}
    (h : MarketsAkin MarketConfig.KeepsMargins markets markets') (account : AccountSnapshot) (value : Int) :
    Tracks NotInvalidConfig (fun _ _ => True) (validateWithdrawal account markets value)
      (validateWithdrawal account markets' value) := by
  have hoverflow : NotInvalidConfig (.code .mathOverflow) := nofun
  have hbelow : NotInvalidConfig (.code .insufficientCollateral) := nofun
  have hhealth := (tracks_accountHealth h account).mono (fun _ => Overflows.notInvalidConfig)
    fun _ _ => id
  refine (Tracks.refl _).bind fun _ _ _ _ _ => hhealth.bind fun health health' _ _ _ => ?_
  refine Tracks.bind (V := fun _ _ => True)
    (.of_failsOnly hoverflow (checkedSub_failsOnly _ _) fun _ _ _ _ => trivial) fun _ _ _ _ _ => ?_
  refine Tracks.bind (V := fun _ _ => True)
    (.of_failsOnly hoverflow (checkedSub_failsOnly _ _) fun _ _ _ _ => trivial) fun _ _ _ _ _ => ?_
  refine Tracks.bind (V := fun _ _ => True)
    (.of_failsOnly hoverflow (checkedSub_failsOnly _ _) fun _ _ _ _ => trivial) fun _ _ _ _ _ => ?_
  refine Tracks.bind (V := fun _ _ => True)
    (.of_failsOnly hoverflow (marginRatioOf_failsOnly _ _) fun _ _ _ _ => trivial) fun _ _ _ _ _ => ?_
  refine Tracks.bind (V := fun _ _ => True)
    (.of_failsOnly hbelow (reject_failsOnly _ _) fun _ _ _ _ => trivial) fun _ _ _ _ _ => ?_
  exact .of_ok rfl fun _ _ => trivial

theorem Vault.follows_withdraw (env : Env) (user asset : Address) (amount : Int) :
    Follows NotInvalidConfig Retuned (fun _ _ => True) (withdraw env user asset amount)
      (withdraw env user asset amount) := by
  refine (follows_read fun _ _ _ _ _ => rfl).seq fun _ => Follows.check fun _ => Follows.check fun _ => ?_
  refine (follows_read fun _ _ _ _ _ => rfl).seq fun config => Follows.check fun _ => ?_
  refine follows_get.bind fun w w' h => ?_
  have hbalance : w'.vault.balanceOf user asset = w.vault.balanceOf user asset :=
    h.read (fun w => w.vault.balanceOf user asset) fun _ _ _ _ _ => rfl
  have htotal : w'.vault.totalDepositedOf asset = w.vault.totalDepositedOf asset :=
    h.read (fun w => w.vault.totalDepositedOf asset) fun _ _ _ _ _ => rfl
  have hprice : collateralPrice env w' asset = collateralPrice env w asset :=
    h.read (fun w => collateralPrice env w asset) fun _ _ _ _ _ => rfl
  have hdeployed : w'.deployed = w.deployed := h.read World.deployed fun _ _ _ _ _ => rfl
  rw [hbalance, htotal, hprice, hdeployed, accountSnapshot_akin h]
  refine Follows.check fun _ => Follows.check fun account => ?_
  refine (follows_lift (tracks_loadMarketsForPositions (fun _ _ hN => hN.retunes) h _)).bind ?_
  intro markets markets' hmarkets
  refine Follows.check fun price => Follows.check fun value => ?_
  refine (follows_lift (tracks_validateWithdrawal hmarkets account value)).bind fun _ _ _ => ?_
  refine (follows_decreaseBalance user asset amount).seq fun _ => Follows.check fun total => ?_
  refine (follows_vault_store fun _ _ => rfl).seq fun _ => ?_
  exact (follows_tokenTransfer env asset _ user amount).seq fun _ => follows_pure trivial

namespace Liquidation

/-- A liquidation that asks neither whether the account may be liquidated nor whether that
improved it, and returns the reward. -/
def unwind (env : Env) (liquidator user : Address) (positionId : Nat)
    (closeSize executionPrice : Int) : Tx Int := do
  requireAuth env liquidator
  reject (liquidator = user) .unauthorized
  reject (closeSize ≤ 0 ∨ executionPrice ≤ 0) .invalidAmount
  let asset ← readWith settlementAsset
  let _ ← readWith fun w => vaultHealth env w user
  let _ ← engineLiquidateReduce env user positionId closeSize executionPrice
  let healthAfter ← readWith fun w => vaultHealth env w user
  let reward ← readWith fun w => liquidationReward w closeSize executionPrice
  payReward env liquidator asset reward
  let _ ← vaultSeizeForDeficit env user asset
  absorbUnderwater env user asset healthAfter
  return reward

/-- A liquidation that succeeds unwinds. -/
theorem liquidate_unwinds {env : Env} {liquidator user : Address} {positionId : Nat}
    {closeSize executionPrice : Int} {r : LiquidationReceipt} {w w' : World}
    (h : Returns (liquidate env liquidator user positionId closeSize executionPrice) w r w') :
    Returns (unwind env liquidator user positionId closeSize executionPrice) w r.reward w' := by
  have hfollows : Follows (fun _ => False) Eq (fun r reward => reward = r.reward)
      (liquidate env liquidator user positionId closeSize executionPrice)
      (unwind env liquidator user positionId closeSize executionPrice) := by
    refine Follows.check fun _ => Follows.check fun _ => Follows.check fun _ => ?_
    refine (follows_refl _).seq fun asset => (follows_refl _).seq fun healthBefore => Follows.skip fun _ => ?_
    refine (follows_refl _).seq fun trade => (follows_refl _).seq fun healthAfter => Follows.skip fun _ => ?_
    refine (follows_refl _).seq fun reward => (follows_refl _).seq fun _ => (follows_refl _).seq fun _ => ?_
    exact (follows_refl _).seq fun _ => follows_pure rfl
  obtain ⟨_, _, hunwind, rfl, rfl⟩ := hfollows.returns rfl h
  exact hunwind

theorem follows_liquidate (env : Env) (liquidator user : Address) (positionId : Nat)
    (closeSize executionPrice : Int) :
    Follows NotInvalidConfig Retuned (fun _ _ => True)
      (unwind env liquidator user positionId closeSize executionPrice)
      (liquidate env liquidator user positionId closeSize executionPrice) := by
  have hhealth := healthFollows_notInvalidConfig
  have hhealthy : NotInvalidConfig (.code .notLiquidatable) := nofun
  have hworse : NotInvalidConfig (.code .liquidationWouldNotImproveHealth) := nofun
  refine Follows.check fun _ => Follows.check fun _ => Follows.check fun _ => ?_
  refine (follows_read fun _ _ _ _ _ => rfl).seq fun asset => ?_
  refine (follows_vaultHealth hhealth env user).bind fun _ _ _ => ?_
  refine Follows.gate hhealthy (reject_failsOnly _ _) ?_
  refine Follows.seq (follows_engineLiquidateReduce (fun _ _ hN => hN.retunes) hhealth env user positionId
    closeSize executionPrice) fun _ => ?_
  refine (follows_vaultHealth hhealth env user).bind fun healthAfter healthAfter' hequity => ?_
  refine Follows.gate hworse (reject_failsOnly _ _) ?_
  refine (follows_read fun _ _ _ _ _ => rfl).seq fun reward => ?_
  refine (follows_payReward env liquidator asset reward).seq fun _ => ?_
  refine (follows_vaultSeizeForDeficit env user asset).seq fun _ => ?_
  exact (follows_absorbUnderwater env user asset hequity).seq fun _ => follows_pure trivial

end Liquidation
end

/-! ## The markets a new configuration leaves -/

section
variable {env envSet : Env} {w w' : World} {old new : EngineMarketConfig} {u : Unit}

theorem Engine.setMarket_margins (h : Returns (Engine.setMarket envSet new) w u w') :
    new.market.maintenanceMarginBps ≤ new.market.initialMarginBps := by
  simp only [Engine.setMarket, returns_readWith_bind, returns_lift_bind, Engine.validateEngineMarket,
    except_bind_ok, reject_ok] at h
  obtain ⟨_, _, _, ⟨_, hvalid, _⟩, _⟩ := h
  omega

theorem Engine.setMarket_akin {N : MarketConfig → MarketConfig → Prop}
    (h : Returns (Engine.setMarket envSet new) w u w')
    (hengine : w.engine.market.get new.marketId = some old)
    (hvault : w.vault.marketConfig.get new.marketId = some old.market) (hretunes : old.Retunes new)
    (hnew : N old.market new.market)
    (hother : ∀ config : MarketConfig, config.marketId ≠ new.marketId → N config config) :
    Akin Eq N w w' := by
  obtain rfl := Engine.setMarket_effect h
  refine ⟨⟨_, _, _, _, rfl⟩, rfl, fun marketId => ?_, fun marketId => ?_⟩
  · show Option.Rel _ _ ((w.engine.market.set new).get marketId)
    rw [KeyedStore.get_set]
    split
    · rename_i hid
      rw [hid, hengine]
      exact .some ⟨hnew, hretunes.2⟩
    · rename_i hid
      cases hget : w.engine.market.get marketId with
      | none => exact .none
      | some config =>
        have hkey : config.market.marketId = marketId := w.engine.market.key_of_get hget
        exact .some ⟨hother config.market (hkey ▸ hid), rfl⟩
  · show Option.Rel _ _ ((w.vault.marketConfig.set new.market).get marketId)
    rw [KeyedStore.get_set]
    split
    · rename_i hid
      rw [hid]
      exact hvault ▸ .some hnew
    · rename_i hid
      cases hget : w.vault.marketConfig.get marketId with
      | none => exact .none
      | some config =>
        have hkey : config.marketId = marketId := w.vault.marketConfig.key_of_get hget
        exact .some (hother config (hkey ▸ hid))

/-- The one market retuned, to an initial margin above the whole. -/
def AboveWhole (marketId : Nat) (config config' : MarketConfig) : Prop :=
  config.Retunes config' ∧
    if config.marketId = marketId then 10000 < config'.initialMarginBps else config' = config

theorem Vault.accountHealth_above {marketId : Nat} {user asset : Address} {health : AccountHealth}
    (h : Akin Eq (AboveWhole marketId) w w') (hheld : ∃ p ∈ w.vault.loadPositions user, p.marketId = marketId)
    (hhealth : Vault.accountHealth env w user asset = .ok health) :
    Vault.accountHealth env w' user asset = .error (.code .invalidConfig) := by
  obtain ⟨account, haccount, hhealth⟩ := except_bind_ok.mp hhealth
  obtain ⟨markets, hmarkets, hhealth⟩ := except_bind_ok.mp hhealth
  have hkeys : ∀ k m, markets.get k = some m → m.config.marketId = k := by
    refine loadMarketsFrom_every (fun marketId config m hc hm => ?_) (fun _ _ hget => by cases hget) hmarkets
    simp only [marketSnapshot, except_bind_ok, except_pure_ok] at hm
    obtain ⟨_, _, _, _, rfl⟩ := hm
    exact w.vault.marketConfig.key_of_get hc
  rcases tracks_loadMarketsForPositions (E := fun _ => False) (fun _ _ hN => hN.1) h account.positions
    markets hmarkets with ⟨_, _, hfalse⟩ | ⟨markets', hmarkets', hrel⟩
  · exact hfalse.elim
  have habove : MarginAboveWhole marketId markets markets' := by
    refine ⟨fun other hne => ?_, fun m hm => ?_⟩
    · cases hget : markets.get other with
      | none => exact (related_none (hrel other)).mpr hget
      | some m =>
        obtain ⟨m', hget', ⟨_, hsame⟩, hrest⟩ := related_of_some (hrel other) hget
        rw [if_neg (by rw [hkeys _ _ hget]; exact hne)] at hsame
        rw [hget', hrest, hsame]
    · obtain ⟨m', hget', ⟨hretunes, hmargin⟩, hrest⟩ := related_of_some (hrel marketId) hm
      rw [if_pos (hkeys _ _ hm)] at hmargin
      exact ⟨m'.config, hretunes, hmargin, hget'.trans (congrArg some hrest)⟩
  rw [← loaded_positions haccount] at hheld
  refine (except_bind_of_ok ((accountSnapshot_akin h user asset).trans haccount)).trans ?_
  exact (except_bind_of_ok hmarkets').trans (Kryon.accountHealth_above habove hheld hhealth)

/-- What could be computed of the account under the markets of `w` can be under those of `w'`: its
health, its margin check, its withdrawals and the liquidations of its positions. -/
structure StaysComputable (env : Env) (w w' : World) (user : Address) : Prop where
  health : ∀ {asset health}, Vault.accountHealth env w user asset = .ok health →
    FailsOnly (Vault.accountHealth env w' user asset) (.code .mathOverflow)
  marginCheck : ∀ {health}, Engine.vaultHealth env w user = .ok health →
    Engine.requireAccountAboveInitialMargin env w' user ≠ .error (.code .invalidConfig)
  withdrawal : ∀ {asset amount health w₁}, Returns (Vault.withdraw env user asset amount) w health w₁ →
    (Vault.withdraw env user asset amount).run w' ≠ .error (.code .invalidConfig)
  liquidation : ∀ {liquidator positionId closeSize price reward w₁},
    Returns (Liquidation.unwind env liquidator user positionId closeSize price) w reward w₁ →
    (Liquidation.liquidate env liquidator user positionId closeSize price).run w' ≠
      .error (.code .invalidConfig)

theorem Retuned.staysComputable (h : Retuned w w') (user : Address) : StaysComputable env w w' user where
  health hhealth e he := (Vault.healthFollows_retuned env w w' user _ h).fails hhealth he
  marginCheck hhealth := Engine.tracks_marginCheck h user hhealth
  withdrawal hok := (Vault.follows_withdraw env user _ _).never h hok (by exact fun hne => hne rfl)
  liquidation hok := (Liquidation.follows_liquidate env _ user _ _ _).never h hok (by exact fun hne => hne rfl)

/-- **Health stays computable exactly with margins of at most the whole.** -/
theorem retuned_market_stays_computable {user asset : Address} {health : AccountHealth}
    (hset : Returns (Engine.setMarket envSet new) w u w')
    (hengine : w.engine.market.get new.marketId = some old)
    (hvault : w.vault.marketConfig.get new.marketId = some old.market) (hretunes : old.Retunes new)
    (hheld : ∃ p ∈ w.vault.loadPositions user, p.marketId = new.marketId)
    (hhealth : Vault.accountHealth env w user asset = .ok health) :
    StaysComputable env w w' user ↔ new.market.initialMarginBps ≤ 10000 := by
  have hkey : old.market.marketId = new.marketId := w.vault.marketConfig.key_of_get hvault
  constructor
  · intro hstays
    by_contra habove
    have hrel : Akin Eq (AboveWhole new.marketId) w w' :=
      Engine.setMarket_akin hset hengine hvault hretunes
        ⟨hretunes.1, by rw [if_pos hkey]; omega⟩ fun config hne => ⟨.refl _, by rw [if_neg hne]⟩
    have herror := Vault.accountHealth_above hrel hheld hhealth
    cases hstays.health hhealth _ herror
  · intro hbps
    have hmargins := Engine.setMarket_margins hset
    have hkeeps : old.market.KeepsMargins new.market :=
      ⟨hretunes.1, fun _ => hbps, fun _ => hmargins.trans hbps⟩
    exact Retuned.staysComputable
      (Engine.setMarket_akin hset hengine hvault hretunes hkeeps fun _ _ => .refl _) user

end

namespace Sample

/-- Alice is long one unit. -/
def invested : World :=
  commit (Engine.openPosition (host 1000) alice 1 precision true (100 * precision) .cross) (trading 1000)

/-- The market with other margins, and the leverage they imply. -/
def retuned (initialMarginBps : Nat) : EngineMarketConfig where
  market := { market with initialMarginBps, maxLeverageBps := 100000000 / initialMarginBps }
  maxExecutionDeviationBps := 100

def withdrawOne : Tx AccountHealth := Vault.withdraw (host 1000) alice usdc precision

end Sample

open Sample

/-- Twice the notional is an accepted initial margin; no health and no withdrawal is left. -/
theorem accepted_margin_above_whole :
    ∃ w', Returns (Engine.setMarket (host 1000) (retuned 20000)) invested () w' ∧
      (Vault.accountHealth (host 1000) invested alice usdc).isOk = true ∧
      Vault.accountHealth (host 1000) w' alice usdc = .error (.code .invalidConfig) ∧
      (∃ health w₁, Returns withdrawOne invested health w₁) ∧
      withdrawOne.run w' = .error (.code .invalidConfig) ∧
      ¬ StaysComputable (host 1000) invested w' alice := by
  have hset := returns_of_value (x := Engine.setMarket (host 1000) (retuned 20000)) (s := invested) (a := ())
    (by decide +kernel)
  obtain ⟨health, hhealth⟩ := exists_ok (x := Vault.accountHealth (host 1000) invested alice usdc)
    (by decide +kernel)
  obtain ⟨after, hwithdraw⟩ := returns_commit (x := withdrawOne) (s := invested) (by decide +kernel)
  have herror : Vault.accountHealth (host 1000)
      (commit (Engine.setMarket (host 1000) (retuned 20000)) invested) alice usdc =
      .error (.code .invalidConfig) := by decide +kernel
  have hrefused : (withdrawOne.run (commit (Engine.setMarket (host 1000) (retuned 20000)) invested)).map
      Prod.fst = .error (.code .invalidConfig) := by decide +kernel
  refine ⟨_, hset, by decide +kernel, herror, ⟨after, _, hwithdraw⟩, except_map_error.mp hrefused, ?_⟩
  intro hstays
  cases hstays.health hhealth _ herror

/-- At half the notional alice's account is as computable as before. -/
theorem retuned_market_stays_computable_half :
    ∃ w', Returns (Engine.setMarket (host 1000) (retuned 5000)) invested () w' ∧
      StaysComputable (host 1000) invested w' alice := by
  have hset := returns_of_value (x := Engine.setMarket (host 1000) (retuned 5000)) (s := invested) (a := ())
    (by decide +kernel)
  obtain ⟨health, hhealth⟩ := exists_ok (x := Vault.accountHealth (host 1000) invested alice usdc)
    (by decide +kernel)
  have hlisted : invested.engine.market.get 1 = some { market, maxExecutionDeviationBps := 100 } := by
    decide +kernel
  refine ⟨_, hset, ?_⟩
  exact (retuned_market_stays_computable hset hlisted (by decide +kernel) ⟨rfl, rfl⟩ (by decide +kernel) hhealth).mpr (by decide)

end Kryon

import Kryon.Vault.Backing

/-! # While the vault is paused

A paused vault refuses deposits, withdrawals and every entry of profit or loss. What that
freezes reaches further than the vault: a position cannot be reduced without an entry of its
profit, so none is, and with that no liquidation and no deleveraging goes through either. -/
namespace Kryon
open Transaction Runs

variable {env : Env} {w w' : World} {user asset : Address} {pnl r : Int}

/-! ## What a pause stops -/

namespace Engine

variable {marketId positionId : Nat} {size price : Int}

theorem vaultApplyPnl_running (h : Returns (vaultApplyPnl env user asset pnl) w r w') :
    w.vault.paused = false := by
  obtain ⟨_, hcall⟩ := callVault_returns.mp h
  simp only [Vault.applyPnl, Vault.requireNotPaused, returns_readWith_bind, reject_ok,
    Bool.not_eq_true] at hcall
  obtain ⟨_, _, _, hrunning, _⟩ := hcall
  exact hrunning

/-- Funding is not settled against a paused vault, unless there is none. -/
theorem settlePositionFunding_paused {position position' : Position}
    (h : Returns (settlePositionFunding env user position) w (pnl, position') w')
    (hpaused : w.vault.paused = true) : w' = w := by
  simp only [settlePositionFunding, returns_get_bind, returns_lift_bind] at h
  obtain ⟨settled, _, hrun⟩ := h
  obtain ⟨_, _, happly, hret⟩ := returns_bind.mp hrun
  rw [(returns_pure.mp hret).2]
  rcases returns_ite.mp happly with ⟨_, hpay⟩ | ⟨_, hnone⟩
  · obtain ⟨_, _, hpay⟩ := returns_readWith_bind.mp hpay
    obtain ⟨_, _, happly, _⟩ := returns_bind.mp hpay
    exact absurd hpaused (by rw [vaultApplyPnl_running happly]; decide)
  · exact (returns_pure.mp hnone).2

theorem reducePositionInternal_running {requireInitialMargin : Bool} {r : TradeResult}
    (h : Returns (reducePositionInternal env user positionId size price requireInitialMargin) w r w') :
    w.vault.paused = false := by
  simp only [reducePositionInternal, returns_lift_bind, returns_get_bind] at h
  obtain ⟨_, _, ⟨index, position⟩, _, _, _, hrun⟩ := h
  simp only [returns_readWith_bind] at hrun
  obtain ⟨market, _, _, _, hrun⟩ := hrun
  obtain ⟨_, w₁, hmark, hrun⟩ := returns_bind.mp hrun
  obtain ⟨⟨settled, position'⟩, w₂, hfunding, hrun⟩ := returns_bind.mp hrun
  simp only [returns_lift_bind, returns_store_bind, returns_readWith_bind] at hrun
  obtain ⟨_, _, _, _, _, _, _, _, _, _, asset, hs, hrun⟩ := hrun
  obtain ⟨_, w₃, hpnl, _⟩ := returns_bind.mp hrun
  have hrunning := vaultApplyPnl_running hpnl
  obtain ⟨_, markState, rfl⟩ := recordReduceMark_effect hmark
  obtain ⟨_, _, vault, rfl, hcredit⟩ := settlePositionFunding_effect hfunding
  obtain ⟨⟨_, rfl⟩, _⟩ := hcredit asset (okOr_ok.mp hs)
  exact hrunning

theorem increasePosition_paused {r : TradeResult} (hpaused : w.vault.paused = true)
    (h : Returns (increasePosition env user positionId size price) w r w') :
    w'.vault.balance = w.vault.balance := by
  simp only [increasePosition, returns_readWith_bind, returns_lift_bind, returns_get_bind] at h
  obtain ⟨_, _, _, _, ⟨index, position⟩, _, hrun⟩ := h
  simp only at hrun
  obtain ⟨market, _, _, _, hrun⟩ := hrun
  obtain ⟨_, w₁, hmark, hrun⟩ := returns_bind.mp hrun
  obtain ⟨⟨settled, position'⟩, w₂, hfunding, hrun⟩ := returns_bind.mp hrun
  simp only [returns_lift_bind, returns_get_bind, returns_store_bind, returns_readWith_bind] at hrun
  obtain ⟨_, _, _, _, _, _, _, _, _, _, _, _, hrun⟩ := hrun
  obtain ⟨_, w₃, hsync, hrun⟩ := returns_bind.mp hrun
  simp only [returns_readWith_bind, returns_pure] at hrun
  obtain ⟨_, _, _, rfl⟩ := hrun
  obtain ⟨_, markState, rfl⟩ := recordMark_effect hmark
  obtain rfl := settlePositionFunding_paused hfunding hpaused
  obtain ⟨_, rfl, _⟩ := syncAndRequireInitialMargin_effect hsync
  rfl

theorem chargeTradeFee_paused {marketId : Nat} {isMaker : Bool} (hpaused : w.vault.paused = true)
    (h : Returns (chargeTradeFee env user marketId size price isMaker) w r w') : w' = w := by
  simp only [chargeTradeFee, returns_lift_bind, returns_get_bind] at h
  obtain ⟨_, _, hbody⟩ := h
  rcases returns_ite.mp hbody with ⟨_, hnone⟩ | ⟨_, hfee⟩
  · exact (returns_pure.mp hnone).2
  · simp only [returns_readWith_bind, returns_lift_bind] at hfee
    obtain ⟨_, _, _, _, _, _, _, _, _, _, _, _, hrun⟩ := hfee
    obtain ⟨_, _, hdebit, _⟩ := returns_bind.mp hrun
    exact absurd hpaused (by rw [vaultApplyPnl_running hdebit]; decide)

theorem routeFundingSurplus_paused {delta : Int} {u : Unit}
    (h : Returns (routeFundingSurplus env marketId delta) w u w') (hpaused : w.vault.paused = true) :
    w' = w := by
  rcases returns_ite.mp h with ⟨_, hstop⟩ | ⟨_, hmoved⟩
  · exact (returns_pure.mp hstop).2
  simp only [returns_get_bind, returns_lift_bind] at hmoved
  obtain ⟨_, _, hbody⟩ := hmoved
  rcases returns_ite.mp hbody with ⟨_, hstop⟩ | ⟨_, huneven⟩
  · exact (returns_pure.mp hstop).2
  obtain ⟨_, _, hbody⟩ := returns_lift_bind.mp huneven
  rcases returns_ite.mp hbody with ⟨_, hstop⟩ | ⟨_, hpay⟩
  · exact (returns_pure.mp hstop).2
  cases hi : w.engine.insurance with
  | none =>
    rw [hi] at hpay
    exact (returns_pure.mp hpay).2
  | some insurance =>
    rw [hi] at hpay
    obtain ⟨_, _, hpay⟩ := returns_readWith_bind.mp hpay
    obtain ⟨_, _, happly, _⟩ := returns_bind.mp hpay
    exact absurd hpaused (by rw [vaultApplyPnl_running happly]; decide)

theorem updateFunding_paused {next : FundingState} (hpaused : w.vault.paused = true)
    (h : Returns (updateFunding env marketId) w next w') : w'.vault.balance = w.vault.balance := by
  obtain ⟨_, _, _, _, _, _, _, hmark, _, _, hroute⟩ := updateFunding_steps h
  obtain ⟨_, rfl⟩ := consumeMarkTwap_effect hmark
  obtain rfl := routeFundingSurplus_paused hroute hpaused
  rfl

end Engine

/-! ## One call -/

/-- Every position is still there, with its market and side, and no smaller. -/
def Grown (before after : List Position) : Prop :=
  ∀ p ∈ before, ∃ q ∈ after, q.positionId = p.positionId ∧ q.marketId = p.marketId ∧
    q.isLong = p.isLong ∧ p.size ≤ q.size

namespace Grown

variable {before middle after : List Position}

theorem refl (positions : List Position) : Grown positions positions :=
  fun p hp => ⟨p, hp, rfl, rfl, rfl, le_rfl⟩

theorem trans (h : Grown before middle) (h' : Grown middle after) : Grown before after := by
  intro p hp
  obtain ⟨q, hq, hid, hmarket, hside, hsize⟩ := h p hp
  obtain ⟨r, hr, hid', hmarket', hside', hsize'⟩ := h' q hq
  exact ⟨r, hr, hid'.trans hid, hmarket'.trans hmarket, hside'.trans hside, hsize.trans hsize'⟩

theorem append (positions : List Position) (p : Position) : Grown positions (positions ++ [p]) :=
  fun q hq => ⟨q, List.mem_append_left _ hq, rfl, rfl, rfl, le_rfl⟩

theorem set {positions : List Position} {index : Nat} {p q : Position}
    (hp : positions[index]? = some p) (hid : q.positionId = p.positionId) (hm : q.marketId = p.marketId)
    (hside : q.isLong = p.isLong) (hsize : p.size ≤ q.size) : Grown positions (positions.set index q) := by
  intro r hr
  obtain ⟨hlt, hget⟩ := List.getElem?_eq_some_iff.mp hp
  obtain ⟨i, hi, rfl⟩ := List.getElem_of_mem hr
  by_cases he : i = index
  · subst he
    rw [hget]
    exact ⟨q, List.mem_set hlt q, hid, hm, hside, hsize⟩
  · refine ⟨positions[i], ?_, rfl, rfl, rfl, le_rfl⟩
    rw [List.mem_iff_getElem]
    exact ⟨i, by simpa using hi, by rw [List.getElem_set_ne (Ne.symm he)]⟩

end Grown

/-- Nothing a pause is there to protect has moved. -/
structure Still (w w' : World) : Prop where
  deployed : w'.deployed = w.deployed
  balanceOf : ∀ user asset, w'.vault.balanceOf user asset = w.vault.balanceOf user asset
  totalDeposited : w'.vault.totalDeposited = w.vault.totalDeposited
  held : ∀ asset, w.tokens.held asset w.deployed.vault ≤ w'.tokens.held asset w.deployed.vault
  positions : ∀ user, Grown (w.engine.loadPositions user) (w'.engine.loadPositions user)

namespace Still

theorem refl (w : World) : Still w w := ⟨rfl, fun _ _ => rfl, rfl, fun _ => le_rfl, fun _ => .refl _⟩

theorem trans {v : World} (h : Still w v) (h' : Still v w') : Still w w' where
  deployed := h'.deployed.trans h.deployed
  balanceOf user asset := (h'.balanceOf user asset).trans (h.balanceOf user asset)
  totalDeposited := h'.totalDeposited.trans h.totalDeposited
  held asset := by
    have hlater := h'.held asset
    rw [h.deployed] at hlater
    exact (h.held asset).trans hlater
  positions user := (h.positions user).trans (h'.positions user)

/-- A trade in which no balance is credited. -/
theorem of_traded {positions : List Position} {marketId : Nat} {isLong : Bool} {oiChange : Int}
    (h : Engine.Traded w w' user positions marketId isLong oiChange pnl)
    (hpnl : ∀ user asset, w'.vault.balanceOf user asset = w.vault.balanceOf user asset)
    (hgrown : Grown (w.engine.loadPositions user) positions) : Still w w' where
  deployed := by
    obtain ⟨_, _, hw'⟩ := h.world
    rw [hw']
  balanceOf := hpnl
  totalDeposited := by
    obtain ⟨_, _, _, ⟨⟨_, rfl⟩, _⟩, hvault⟩ := h.vault
    rw [hvault]
  held asset := by
    obtain ⟨_, _, hw'⟩ := h.world
    rw [hw']
  positions u := by
    rw [h.loadPositions]
    split
    · rename_i he
      rwa [he]
    · exact .refl _

end Still

theorem balanceOf_congr {s s' : VaultStorage} (h : s'.balance = s.balance) (user asset : Address) :
    s'.balanceOf user asset = s.balanceOf user asset := by
  unfold VaultStorage.balanceOf
  rw [h]

theorem EngineOp.still {op : EngineOp} (hpaused : w.vault.paused = true)
    (h : Returns op.call w () w') : Still w w' := by
  cases op with
  | openPosition env user marketId size isLong price mode =>
    obtain ⟨_, h⟩ := returns_void.mp h
    obtain ⟨_, _, _, _, position, _, _, _, _, _, _, _, _, ht, _⟩ := Engine.openPosition_effect h
    refine .of_traded ht (fun u a => ?_) (.append _ position)
    obtain ⟨_, _, _, _, _, hbalance⟩ := ht.account
    rw [hbalance, add_zero, ite_self]
  | increasePosition env user positionId size price =>
    obtain ⟨_, h⟩ := returns_void.mp h
    obtain ⟨hsize, _, index, position, settled, entry, hindex, _, _, _, ht, _⟩ :=
      Engine.increasePosition_effect h
    refine .of_traded ht (balanceOf_congr (Engine.increasePosition_paused hpaused h))
      (.set hindex rfl rfl rfl ?_)
    show position.size ≤ position.size + size
    omega
  | reducePosition env user positionId size price =>
    obtain ⟨_, h⟩ := returns_void.mp h
    obtain ⟨_, _, h⟩ := returns_readWith_bind.mp h
    exact absurd hpaused (by rw [Engine.reducePositionInternal_running h]; decide)
  | closePosition env user positionId price =>
    obtain ⟨_, h⟩ := returns_void.mp h
    simp only [Engine.closePosition, returns_get_bind, returns_lift_bind] at h
    obtain ⟨_, _, h⟩ := h
    obtain ⟨_, _, h⟩ := returns_readWith_bind.mp h
    exact absurd hpaused (by rw [Engine.reducePositionInternal_running h]; decide)
  | liquidateReduce env user positionId size price =>
    obtain ⟨_, h⟩ := returns_void.mp h
    obtain ⟨_, _, h⟩ := returns_readWith_bind.mp h
    exact absurd hpaused (by rw [Engine.reducePositionInternal_running h]; decide)

/-- The vault is paused, liquidations go through the engine and the engine's trades through the
vault, whose deficits are the liquidation contract's to seize, and imports are over. -/
structure World.Halted (w : World) : Prop where
  distinct : w.deployed.contracts.Nodup
  paused : w.vault.paused = true
  liquidation : w.vault.liquidation = some w.deployed.liquidation
  vault : w.engine.vault = some w.deployed.vault
  reducer : w.liquidation.engine = some w.deployed.engine
  vaultClosed : w.vault.migrationSealed = true
  engineClosed : w.engine.migrationSealed = true

theorem World.Halted.of_config (hw : w.Halted) (h : w'.config = w.config) : w'.Halted where
  distinct := by
    rw [deployed_of_config h]
    exact hw.distinct
  paused := (config_congr (fun v => v.vault.paused) (fun _ => rfl) h).trans hw.paused
  liquidation := by
    rw [deployed_of_config h, ← hw.liquidation]
    exact config_congr (fun v => v.vault.liquidation) (fun _ => rfl) h
  vault := by
    rw [deployed_of_config h, ← hw.vault]
    exact config_congr (fun v => v.engine.vault) (fun _ => rfl) h
  reducer := by
    rw [deployed_of_config h, ← hw.reducer]
    exact config_congr (fun v => v.liquidation.engine) (fun _ => rfl) h
  vaultClosed := (config_congr (fun v => v.vault.migrationSealed) (fun _ => rfl) h).trans hw.vaultClosed
  engineClosed := (config_congr (fun v => v.engine.migrationSealed) (fun _ => rfl) h).trans hw.engineClosed

theorem VaultOp.still {op : VaultOp} (hw : w.Halted)
    (hauth : ¬ op.env.Authorizes w.deployed.liquidation) (h : Returns op.call w () w') : Still w w' := by
  have running : w.vault.paused = false → Still w w' := fun hr => absurd hw.paused (by rw [hr]; decide)
  have denied : ∀ {liquidation}, Vault.requireLiquidation op.env w.vault = .ok liquidation → Still w w' := by
    intro liquidation hl
    obtain ⟨hwired, hl⟩ := requireRole_ok hl
    obtain rfl := Option.some.inj (hw.liquidation.symm.trans hwired)
    exact absurd hl hauth
  cases op with
  | deposit env user asset amount =>
    obtain ⟨_, h⟩ := returns_void.mp h
    exact running (Vault.deposit_deposited h).running
  | withdraw env user asset amount =>
    obtain ⟨_, h⟩ := returns_void.mp h
    exact running (Vault.withdraw_withdrawn h).running
  | applyPnl env user asset pnl =>
    obtain ⟨_, h⟩ := returns_void.mp h
    simp only [Vault.applyPnl, Vault.requireNotPaused, returns_readWith_bind, reject_ok,
      Bool.not_eq_true] at h
    obtain ⟨_, _, _, hrunning, _⟩ := h
    exact running hrunning
  | absorbBadDebt env user asset =>
    obtain ⟨_, h⟩ := returns_void.mp h
    obtain ⟨_, hl, _⟩ := returns_readWith_bind.mp h
    exact denied hl
  | settleDeficit env caller user asset =>
    obtain ⟨_, h⟩ := returns_void.mp h
    simp only [Vault.settleDeficit, Vault.requireNotPaused, returns_readWith_bind, reject_ok,
      Bool.not_eq_true] at h
    obtain ⟨_, _, _, hrunning, _⟩ := h
    exact running hrunning
  | seizeForDeficit env user asset =>
    obtain ⟨_, h⟩ := returns_void.mp h
    obtain ⟨_, hl, _⟩ := returns_readWith_bind.mp h
    exact denied hl
  | migrateImportBalances env entries =>
    obtain ⟨_, h⟩ := returns_void.mp h
    simp only [Vault.migrateImportBalances, returns_readWith_bind, returns_get_bind,
      returns_lift_bind, reject_ok] at h
    obtain ⟨_, _, _, hopen, _⟩ := h
    exact absurd hw.vaultClosed hopen

theorem AccountOp.still {op : AccountOp} (hw : w.Halted)
    (hauth : ¬ op.env.Authorizes w.deployed.liquidation) (h : Returns op.call w () w') : Still w w' := by
  cases op with
  | trade op => exact EngineOp.still hw.paused h
  | chargeTradeFee env user marketId size executionPrice isMaker =>
    obtain ⟨_, h⟩ := returns_void.mp h
    rw [Engine.chargeTradeFee_paused hw.paused h]
    exact .refl w
  | updateFunding env marketId =>
    obtain ⟨_, h⟩ := returns_void.mp h
    have hbalance := Engine.updateFunding_paused hw.paused h
    obtain ⟨_, _, vault, rfl, ⟨_, rfl⟩, _⟩ := Engine.updateFunding_effect h
    exact ⟨rfl, balanceOf_congr hbalance, rfl, fun _ => le_rfl, fun _ => .refl _⟩
  | migrateImportPositions env entries =>
    obtain ⟨_, h⟩ := returns_void.mp h
    simp only [Engine.migrateImportPositions, returns_readWith_bind, returns_get_bind,
      returns_lift_bind, reject_ok] at h
    obtain ⟨_, _, _, hopen, _⟩ := h
    exact absurd hw.engineClosed hopen
  | vault op => exact VaultOp.still hw hauth h

/-- The setters that lift a pause, hand the vault's deficits to another contract, or lead trades
and liquidations around the vault. -/
def ContractCall.Releases (d : Deployment) : ContractCall → Prop
  | .configure _ (.vault .unpause) => True
  | .configure _ (.vault (.setLiquidation liquidation)) => liquidation ≠ d.liquidation
  | .configure _ (.engine (.setVault vault)) => vault ≠ d.vault
  | .configure _ (.liquidation (.setEngine engine)) => engine ≠ d.engine
  | _ => False

def ProtocolOp.Releases (d : Deployment) : ProtocolOp → Prop
  | .direct call => call.Releases d
  | _ => False

theorem Still.of_ledger (h : w'.ledger = w.ledger) : Still w w' where
  deployed := ledger_congr World.deployed (fun _ => rfl) h
  balanceOf := balanceOf_congr (ledger_congr (fun v => v.vault.balance) (fun _ => rfl) h)
  totalDeposited := ledger_congr (fun v => v.vault.totalDeposited) (fun _ => rfl) h
  held asset := by rw [ledger_congr World.tokens (fun _ => rfl) h]
  positions user := by
    rw [ledger_congr (fun v => v.engine.loadPositions user) (fun _ => rfl) h]
    exact .refl _

theorem Setting.halted {env : Env} {setting : Setting} {u : Unit} (hw : w.Halted)
    (hkeeps : ¬ (ContractCall.configure env setting).Releases w.deployed)
    (h : Returns (setting.call env) w u w') : w'.Halted := by
  have hkept := Setting.kept h
  have hdeployed : w'.deployed = w.deployed :=
    ledger_congr World.deployed (fun _ => rfl) (Setting.effect h).2.ledger
  have hdistinct : w'.deployed.contracts.Nodup := hdeployed ▸ hw.distinct
  have hreducer : w'.liquidation.engine = some w'.deployed.engine := by
    rw [hdeployed]
    by_cases hset : ∃ e, setting = .liquidation (.setEngine e)
    · obtain ⟨e, rfl⟩ := hset
      obtain rfl : e = w.deployed.engine := not_not.mp hkeeps
      obtain ⟨_, rfl⟩ := Liquidation.configure_effect h
      rfl
    · exact (Setting.reducer (fun e he => hset ⟨e, he⟩) h).trans hw.reducer
  cases setting with
  | vault setting =>
    have hengine := hkept.others
    refine ⟨hdistinct, ?_, ?_, ?_, hreducer, hkept.closed hw.vaultClosed, ?_⟩
    · cases setting with
      | unpause => exact absurd trivial hkeeps
      | _ => exact (hkept.paused (by simp)).trans hw.paused
    · rw [hdeployed]
      cases setting with
      | setLiquidation liquidation =>
        obtain rfl : liquidation = w.deployed.liquidation := not_not.mp hkeeps
        obtain ⟨_, rfl⟩ := Vault.configure_effect h
        rfl
      | _ => exact (hkept.liquidation (by simp)).trans hw.liquidation
    · rw [hengine, hdeployed]
      exact hw.vault
    · rw [hengine]
      exact hw.engineClosed
  | engine setting =>
    have hvault := hkept.others
    refine ⟨hdistinct, ?_, ?_, ?_, hreducer, ?_, hkept.closed hw.engineClosed⟩
    · rw [hvault]
      exact hw.paused
    · rw [hvault, hdeployed]
      exact hw.liquidation
    · rw [hdeployed]
      cases setting with
      | setVault vault =>
        obtain rfl : vault = w.deployed.vault := not_not.mp hkeeps
        obtain ⟨_, rfl⟩ := Engine.configure_effect h
        rfl
      | _ => exact (hkept.vault (by simp)).trans hw.vault
    · rw [hvault]
      exact hw.vaultClosed
  | insurance | liquidation | gateway =>
    obtain ⟨hvault, hengine⟩ := hkept
    refine ⟨hdistinct, ?_, ?_, ?_, hreducer, ?_, ?_⟩
    · rw [hvault]
      exact hw.paused
    · rw [hvault, hdeployed]
      exact hw.liquidation
    · rw [hengine, hdeployed]
      exact hw.vault
    · rw [hvault]
      exact hw.vaultClosed
    · rw [hengine]
      exact hw.engineClosed

theorem ContractCall.still {c : ContractCall} (hw : w.Halted) (hideal : c.env.IdealTransfers)
    (hvault : ¬ c.env.Authorizes w.deployed.vault)
    (hliquidation : ¬ c.env.Authorizes w.deployed.liquidation) (hkeeps : ¬ c.Releases w.deployed)
    (h : Returns c.call w () w') : Still w w' ∧ w'.Halted := by
  cases c with
  | account op => exact ⟨AccountOp.still hw hliquidation h, hw.of_config (AccountOp.config h)⟩
  | fund op =>
    have hne : w.deployed.vault ≠ w.deployed.insurance := by
      have hdistinct := hw.distinct
      simp only [Deployment.contracts, List.nodup_cons, List.mem_cons, not_or] at hdistinct
      exact hdistinct.2.1.2.1
    obtain ⟨_, hv, he⟩ := FundOp.kept h
    have hconfig := FundOp.config h
    have hheld := FundOp.held hne hideal hvault h
    refine ⟨⟨deployed_of_config hconfig, fun u a => by rw [hv], by rw [hv], hheld, fun u => ?_⟩,
      hw.of_config hconfig⟩
    rw [he]
    exact .refl _
  | oracle op =>
    obtain ⟨_, _, rfl⟩ := onOracle_returns.mp h
    exact ⟨⟨rfl, fun _ _ => rfl, rfl, fun _ => le_rfl, fun _ => .refl _⟩,
      ⟨hw.distinct, hw.paused, hw.liquidation, hw.vault, hw.reducer, hw.vaultClosed, hw.engineClosed⟩⟩
  | syncPositions env user positions =>
    obtain ⟨_, rfl⟩ := Vault.syncPositions_effect h
    exact ⟨⟨rfl, fun _ _ => rfl, rfl, fun _ => le_rfl, fun _ => .refl _⟩, hw.of_config rfl⟩
  | setFundingIndexes env marketId long short =>
    obtain rfl := Vault.setFundingIndexes_effect h
    exact ⟨⟨rfl, fun _ _ => rfl, rfl, fun _ => le_rfl, fun _ => .refl _⟩, hw.of_config rfl⟩
  | configure env setting => exact ⟨.of_ledger (Setting.effect h).2.ledger, Setting.halted hw hkeeps h⟩

/-! ## Transactions -/

namespace Liquidation

variable {liquidator keeper user : Address} {positionId : Nat} {closeSize price : Int}

theorem liquidate_running {r : LiquidationReceipt}
    (h : Returns (liquidate env liquidator user positionId closeSize price) w r w') :
    w.vault.paused = false := by
  obtain ⟨_, _, _, _, _, _, _, _, hreduce, _⟩ := liquidate_steps h
  obtain ⟨_, _, hinternal⟩ := returns_readWith_bind.mp (callEngine_returns.mp hreduce).2
  exact Engine.reducePositionInternal_running hinternal

theorem adl_running {r : AdlReceipt}
    (h : Returns (adl env keeper user positionId closeSize price) w r w') : w.vault.paused = false := by
  obtain ⟨_, _, _, _, _, _, _, _, _, _, _, _, _, _, _, hreduce, _⟩ := adl_steps h
  obtain ⟨_, _, hinternal⟩ := returns_readWith_bind.mp (callEngine_returns.mp hreduce).2
  exact Engine.reducePositionInternal_running hinternal

end Liquidation

theorem ProtocolOp.still {op : ProtocolOp} (hw : w.Halted) (hideal : op.env.IdealTransfers)
    (hout : op.env.Outside w.deployed) (hkeeps : ¬ op.Releases w.deployed)
    (h : Returns op.call w () w') : Still w w' ∧ w'.Halted := by
  have hunsigned : ∀ c ∈ w.deployed.contracts, ¬ op.env.signed c = true := fun c hc hs => hout c hc (.inr hs)
  cases op with
  | direct call =>
    exact ContractCall.still hw hideal (hout _ (by simp [Deployment.contracts]))
      (hout _ (by simp [Deployment.contracts])) hkeeps h
  | liquidate env liquidator user positionId closeSize price =>
    obtain ⟨_, h⟩ := returns_void.mp h
    exact absurd hw.paused (by rw [Liquidation.liquidate_running h]; decide)
  | adl env keeper counterparty positionId closeSize price =>
    obtain ⟨_, h⟩ := returns_void.mp h
    exact absurd hw.paused (by rw [Liquidation.adl_running h]; decide)
  | gateway op =>
    obtain ⟨v, filled, cancelled, hcalls, rfl⟩ := ProtocolOp.calls h
    have hv : Still w v ∧ v.Halted := by
      refine hcalls.keeps (I := fun v => Still w v ∧ v.Halted) (fun {v v' c} hv hc hcall => ?_)
        ⟨.refl w, hw⟩
      obtain ⟨hstill, hhalted⟩ := hv
      have hgateway : w.deployed.gateway ≠ w.deployed.liquidation := by
        have hdistinct := hw.distinct
        simp only [Deployment.contracts, List.nodup_cons, List.mem_cons, not_or] at hdistinct
        exact fun he => hdistinct.2.2.2.2.1.1 he.symm
      have hliquidation : ¬ (op.env.callFrom w.deployed.gateway).Authorizes v.deployed.liquidation := by
        rw [hstill.deployed, Env.authorizes_callFrom]
        exact not_or.mpr ⟨hgateway, hunsigned _ (by simp [Deployment.contracts])⟩
      obtain ⟨fill, _, hc⟩ := hc
      obtain ⟨a, rfl, ha⟩ := hc.account
      exact ⟨hstill.trans (AccountOp.still hhalted (ha ▸ hliquidation) hcall),
        hhalted.of_config (AccountOp.config hcall)⟩
    exact ⟨⟨hv.1.deployed, hv.1.balanceOf, hv.1.totalDeposited, hv.1.held, hv.1.positions⟩,
      hv.2.of_config rfl⟩

/-- Over any run that neither lifts the pause nor leads around the vault: no balance changes, no
tokens leave the vault, no position is reduced, and nobody is liquidated or deleveraged. -/
theorem ProtocolOp.paused_still {t : List (ProtocolOp × World)} (hw : w.Halted)
    (hr : IsRun (CommitStep ProtocolOp.call) w t)
    (hhost : ∀ e ∈ t, e.1.env.IdealTransfers ∧ e.1.env.Outside w.deployed)
    (hkeeps : ∀ e ∈ t, ¬ e.1.Releases w.deployed) :
    AllStates (fun v => Still w v ∧
      (∀ env liquidator user positionId closeSize price,
        (Liquidation.liquidate env liquidator user positionId closeSize price).succeeds v = false) ∧
      ∀ env keeper counterparty positionId closeSize price,
        (Liquidation.adl env keeper counterparty positionId closeSize price).succeeds v = false) w t := by
  have hstill : AllStates (fun v => Still w v ∧ v.Halted) w t := by
    refine invariant (fun v op v' hv hop hcall => ?_) ⟨.refl w, hw⟩ hr
      (allSteps_labels (Q := fun op : ProtocolOp => (op.env.IdealTransfers ∧ op.env.Outside w.deployed) ∧
        ¬ op.Releases w.deployed).mpr fun e he => ⟨hhost e he, hkeeps e he⟩)
    obtain ⟨hv, hhalted⟩ := hv
    obtain ⟨⟨hideal, hout⟩, hkeep⟩ := hop
    obtain rfl : v' = _ := hcall
    rcases commit_cases op.call v with ⟨_, h⟩ | ⟨_, h⟩
    · rw [← hv.deployed] at hout hkeep
      obtain ⟨hstep, hnext⟩ := ProtocolOp.still hhalted hideal hout hkeep h
      exact ⟨hv.trans hstep, hnext⟩
    · rw [h]
      exact ⟨hv, hhalted⟩
  refine hstill.mono fun v hv => ⟨hv.1, fun env liquidator user positionId closeSize price => ?_,
    fun env keeper counterparty positionId closeSize price => ?_⟩
  · refine Bool.eq_false_iff.mpr fun hs => ?_
    obtain ⟨_, h⟩ := returns_commit hs
    exact absurd hv.2.paused (by rw [Liquidation.liquidate_running h]; decide)
  · refine Bool.eq_false_iff.mpr fun hs => ?_
    obtain ⟨_, h⟩ := returns_commit hs
    exact absurd hv.2.paused (by rw [Liquidation.adl_running h]; decide)

namespace Sample

/-- Alice and bob have deposited, and then the vault was paused. -/
def halted : World :=
  let w := trading 1000
  { w with
    vault := { w.vault with paused := true, migrationSealed := true }
    engine := { w.engine with migrationSealed := true } }

/-- They trade on without a fee; alice's withdrawal and the close of her position are refused. -/
def halfStopped : List ProtocolOp := [
  .gateway (.settleFill (bank 1000) (matched (bid precision 1 2000) (ask precision 1 2000) precision)),
  .direct (.account (.vault (.withdraw (bank 1000) alice usdc precision))),
  .gateway (.settleFill (bank 1000) (matched { ask precision 2 2000 with owner := alice }
    { bid precision 2 2000 with owner := bob } precision))]

end Sample

open Sample in
theorem paused_still_halted :
    allSucceed ProtocolOp.call halted (halfStopped.take 1) = true ∧
    AllStates (fun v => Still halted v ∧
      (∀ env liquidator user positionId closeSize price,
        (Liquidation.liquidate env liquidator user positionId closeSize price).succeeds v = false) ∧
      ∀ env keeper counterparty positionId closeSize price,
        (Liquidation.adl env keeper counterparty positionId closeSize price).succeeds v = false)
      halted (execute ProtocolOp.call halted halfStopped) := by
  refine ⟨by decide +kernel, ProtocolOp.paused_still ⟨by decide, rfl, rfl, rfl, rfl, rfl, rfl⟩
    (isRun_commit halted halfStopped) ?_ ?_⟩
  · intro e he
    simp only [execute, halfStopped, List.mem_cons, List.not_mem_nil, or_false] at he
    rcases he with rfl | rfl | rfl <;> exact ⟨(bank_hostOf _).ideal, bank_outside _⟩
  · intro e he
    simp only [execute, halfStopped, List.mem_cons, List.not_mem_nil, or_false] at he
    rcases he with rfl | rfl | rfl <;> exact id

end Kryon

import Kryon.Liquidation.Depleted
import Kryon.Vault.Backing
import Kryon.Vault.Withdrawal

/-! # The way out

A withdrawal's value is taken off an equity that counts the balance after its haircut, so one
withdrawal cannot take a balance with a haircut whole. It can take all but the haircut's share,
and the next one all but the share of that. Nobody can keep a user without positions and debts
from doing so while the vault runs and the user's assets have prices. -/
namespace Kryon
open Transaction Runs

/-- What the haircut keeps back of a balance, rounded up. -/
def haircutShare (haircutBps : Nat) (balance : Int) : Int := (balance * haircutBps + 9999) / 10000

section Share

variable {haircutBps : Nat} {balance price : Int}

@[simp] theorem haircutShare_zero : haircutShare haircutBps 0 = 0 := by simp [haircutShare]

theorem haircutShare_bounds (hbps : haircutBps ≤ 10000) (hbalance : 0 ≤ balance) :
    0 ≤ haircutShare haircutBps balance ∧ haircutShare haircutBps balance ≤ balance := by
  have hlow : 0 ≤ balance * (haircutBps : Int) := mul_nonneg hbalance (Int.natCast_nonneg _)
  have hhigh : balance * (haircutBps : Int) ≤ balance * 10000 :=
    mul_le_mul_of_nonneg_left (by omega) hbalance
  unfold haircutShare
  omega

/-- The rest has no more value than the whole is worth after its haircut. -/
theorem value_le_worth (hbps : haircutBps ≤ 10000) (hprice : 0 ≤ price) :
    (balance - haircutShare haircutBps balance) * price / precision ≤
      assetWorth balance price haircutBps := by
  have hp := precision_pos
  have htaken : 10000 * (balance - haircutShare haircutBps balance) ≤ (10000 - haircutBps) * balance := by
    have hsplit : (10000 - haircutBps) * balance = balance * 10000 - balance * haircutBps := by ring
    unfold haircutShare
    omega
  have hscaled : 10000 * ((balance - haircutShare haircutBps balance) * price) ≤
      (10000 - haircutBps) * (balance * price) := by
    have := mul_le_mul_of_nonneg_right htaken hprice
    linarith
  have hfloor := Int.ediv_mul_le ((balance - haircutShare haircutBps balance) * price) hp.ne'
  have hvalue := Int.lt_ediv_add_one_mul_self (balance * price) hp
  unfold assetWorth afterHaircut
  generalize (balance - haircutShare haircutBps balance) * price / precision = taken at hfloor ⊢
  generalize balance * price / precision = value at hvalue ⊢
  have hshare : value * haircutBps / 10000 * 10000 ≤ value * haircutBps := Int.ediv_mul_le _ (by decide)
  rcases hbps.lt_or_eq with hlt | rfl
  · have hrate : (0 : Int) < 10000 - haircutBps := by omega
    have hless : 10000 * taken * precision < (10000 - haircutBps) * (value + 1) * precision := by
      have := mul_lt_mul_of_pos_left hvalue hrate
      linarith
    have hless : 10000 * taken < (10000 - haircutBps) * (value + 1) := lt_of_mul_lt_mul_right hless hp.le
    have hsplit : (10000 - (haircutBps : Int)) * (value + 1) =
        10000 * value + 10000 - value * haircutBps - haircutBps := by ring
    omega
  · have hnone : 10000 * taken * precision ≤ 0 * precision := by
      have hzero : ((10000 : Int) - (10000 : Nat)) * (balance * price) = 0 := by simp
      linarith
    have hnone : 10000 * taken ≤ 0 := le_of_mul_le_mul_right hnone hp
    have hwhole : value * ((10000 : Nat) : Int) / 10000 = value := Int.mul_ediv_cancel _ (by decide)
    omega

end Share

/-! ## An account without positions -/

theorem collateralTotal_le {collateral : List CollateralBalance} {start total : Int}
    (hstart : start ≤ i128Max) (h : collateralTotal start collateral = .ok total) : total ≤ i128Max := by
  induction collateral generalizing start with
  | nil => exact (Except.ok.inj h) ▸ hstart
  | cons c rest ih =>
    obtain ⟨_, _, hrange, hrest⟩ := collateralTotal_cons.mp h
    exact ih hrange.2 hrest

/-- Without positions the health is the collateral. -/
theorem accountHealth_of_collateral {collateral : List CollateralBalance} {total : Int} (owner : Address)
    (markets : Store Nat MarketSnapshot) (h : collateralTotal 0 collateral = .ok total)
    (hnn : 0 ≤ total) (hmax : total ≤ i128Max) :
    accountHealth ⟨owner, collateral, []⟩ markets =
      .ok ⟨total, 0, total, 0, 0, total, i128Max, false⟩ := by
  have hrange : InI128 total := .of_nonneg hnn hmax
  simp [accountHealth, h, positionPass, PositionPass.start, splitPass, addSigned, addSignedFrom,
    crossMaintenancePass, marginRatioOf, checkedAdd, checkedSub, toI128, hrange, Vault.ok_bind]

/-- Without positions as much may be withdrawn as the collateral is worth. -/
theorem validateWithdrawal_of_collateral {collateral : List CollateralBalance} {total value : Int}
    (owner : Address) (markets : Store Nat MarketSnapshot) (h : collateralTotal 0 collateral = .ok total)
    (hnn : 0 ≤ value) (hle : value ≤ total) (hmax : total ≤ i128Max) :
    ∃ health, validateWithdrawal ⟨owner, collateral, []⟩ markets value = .ok health := by
  have hrange : InI128 (total - value) := .of_nonneg (by omega) (by omega)
  have hhealth := accountHealth_of_collateral owner markets h (hnn.trans hle) hmax
  simp only [validateWithdrawal, except_bind_ok, except_pure_ok, reject_ok, checkedSub_ok, hhealth,
    Except.ok.injEq, exists_eq_left', marginRatioOf, lt_irrefl, if_false]
  exact ⟨_, (), by omega, _, ⟨hrange, rfl⟩, _, ⟨hrange, rfl⟩, _, ⟨by simpa using hrange, rfl⟩, (),
    by omega, rfl⟩

namespace Vault

variable {env : Env} {w w' : World} {user asset : Address} {config : CollateralConfig}
  {snapshot : OracleSnapshot} {amount : Int}

/-- Nothing stands against what the user has: there is no position, and every asset of the list
has a value. -/
structure Unencumbered (env : Env) (w : World) (user : Address) : Prop where
  positions : w.vault.loadPositions user = []
  priced : ∀ a ∈ w.vault.recordedAssets user, ∃ value, 0 ≤ value ∧ contribution env w user a = .ok value
  bounded : ((w.vault.recordedAssets user).map (contributionOf env w user)).sum ≤ i128Max

/-- An active asset that health can value has a price. -/
theorem price_of_contribution {value : Int} (hc : w.vault.collateral.get asset = some config)
    (hactive : config.active = true) (hne : w.vault.balanceOf user asset ≠ 0)
    (h : contribution env w user asset = .ok value) : ∃ snapshot, collateralPrice env w asset = .ok snapshot := by
  simp only [contribution, collateralEntry, if_neg hne, hc, hactive, Bool.true_eq_false, if_false,
    except_bind_ok] at h
  obtain ⟨_, ⟨oracle, ho, snapshot, hp, _⟩, _⟩ := h
  refine ⟨snapshot, ?_⟩
  simp only [collateralPrice, VaultStorage.loadCollateral, except_bind_ok, okOr_ok]
  exact ⟨config, hc, oracle, ho, hp⟩

/-- What is not owed is not worth less than nothing. -/
theorem contribution_nonneg {value : Int} (hnn : 0 ≤ w.vault.balanceOf user asset)
    (h : contribution env w user asset = .ok value) : 0 ≤ value := by
  by_cases hz : w.vault.balanceOf user asset = 0
  · rw [contribution_of_zero hz] at h
    exact (Except.ok.inj h).le
  cases hc : w.vault.collateral.get asset with
  | none =>
    simp only [contribution, collateralEntry, if_neg hz, hc, ok_bind] at h
    exact (Except.ok.inj h).le
  | some config =>
    by_cases hactive : config.active = true
    · obtain ⟨snapshot, hprice⟩ := price_of_contribution hc hactive hz h
      have hp := collateralPrice_pos hprice
      rw [contribution_eq_valued hc hactive hprice hz] at h
      obtain ⟨hbps, _, rfl⟩ := (valued_iff hnn hp).mp h
      exact (afterHaircut_bounds hbps (Int.ediv_nonneg (mul_nonneg hnn hp.le) precision_pos.le)).1
    · simp only [contribution, collateralEntry, if_neg hz, hc, Bool.not_eq_true] at h hactive
      simp only [hactive, if_true, ok_bind] at h
      exact (Except.ok.inj h).le

theorem contributions_nonneg {assets : List Address}
    (h : ∀ a ∈ assets, ∃ value, 0 ≤ value ∧ contribution env w user a = .ok value) :
    ∀ x ∈ assets.map (contributionOf env w user), 0 ≤ x := by
  intro x hx
  obtain ⟨a, ha, rfl⟩ := List.mem_map.mp hx
  obtain ⟨value, hnn, hvalue⟩ := h a ha
  rwa [contributionOf_eq hvalue]

/-- Values without debts add up. -/
theorem collateralEntries_add_up {assets : List Address} (total : Int)
    (h : ∀ a ∈ assets, ∃ value, 0 ≤ value ∧ contribution env w user a = .ok value) (hnn : 0 ≤ total)
    (hmax : total + (assets.map (contributionOf env w user)).sum ≤ i128Max) :
    ∃ entries, collateralEntries env w user assets = .ok entries ∧
      collateralTotal total entries = .ok (total + (assets.map (contributionOf env w user)).sum) := by
  induction assets generalizing total with
  | nil => exact ⟨[], rfl, by simp [collateralTotal]⟩
  | cons a rest ih =>
    obtain ⟨⟨value, hvalue, hcontribution⟩, hrest⟩ := List.forall_mem_cons.mp h
    have hlater := List.sum_nonneg (contributions_nonneg hrest)
    rw [List.map_cons, List.sum_cons, contributionOf_eq hcontribution] at hmax ⊢
    obtain ⟨entries, hentries, htotal⟩ := ih (total + value) hrest (by omega) (by omega)
    rw [add_assoc] at htotal
    simp only [contribution, except_bind_ok] at hcontribution
    obtain ⟨entry, hentry, hnet⟩ := hcontribution
    refine ⟨entry.toList ++ entries, ?_, ?_⟩
    · simp only [collateralEntries, hentry, hentries, ok_bind]
      rfl
    · cases entry with
      | none =>
        obtain rfl : value = 0 := (Except.ok.inj hnet).symm
        simpa using htotal
      | some c => exact collateralTotal_cons.mpr ⟨value, hnet, .of_nonneg (by omega) (by omega), htotal⟩

theorem Unencumbered.listed (h : Unencumbered env w user) (hrecorded : asset ∈ w.vault.recordedAssets user) :
    ∃ entries, accountSnapshot env w user asset = .ok ⟨user, entries, []⟩ ∧
      collateralTotal 0 entries =
        .ok ((w.vault.recordedAssets user).map (contributionOf env w user)).sum := by
  have hmax := h.bounded
  obtain ⟨entries, hentries, htotal⟩ := collateralEntries_add_up 0 h.priced le_rfl (by omega)
  rw [zero_add] at htotal
  have hsome : (w.vault.userAssets.get user).isSome = true := by
    unfold VaultStorage.recordedAssets at hrecorded
    cases hlist : w.vault.userAssets.get user with
    | none => simp [hlist] at hrecorded
    | some assets => rfl
  refine ⟨entries, ?_, htotal⟩
  simp only [accountSnapshot, hsome, if_true, accountSnapshotAllAssets, h.positions, hentries, ok_bind]
  rfl

/-- What the asset is worth is part of what the account is worth. -/
theorem Unencumbered.worth_le (h : Unencumbered env w user) (hrecorded : asset ∈ w.vault.recordedAssets user)
    (hc : w.vault.collateral.get asset = some config) (hactive : config.active = true)
    (hprice : collateralPrice env w asset = .ok snapshot) (hheld : 0 < w.vault.balanceOf user asset) :
    config.haircutBps ≤ 10000 ∧ assetWorth (w.vault.balanceOf user asset) snapshot.price config.haircutBps ≤
      ((w.vault.recordedAssets user).map (contributionOf env w user)).sum := by
  obtain ⟨value, _, hvalue⟩ := h.priced asset hrecorded
  have hpart := List.single_le_sum (contributions_nonneg h.priced) _ (List.mem_map_of_mem hrecorded)
  rw [contributionOf_eq hvalue] at hpart
  rw [contribution_eq_valued hc hactive hprice hheld.ne'] at hvalue
  obtain ⟨hbps, _, rfl⟩ := (valued_iff hheld.le (collateralPrice_pos hprice)).mp hvalue
  exact ⟨hbps, hpart⟩

/-- A withdrawal that the account can afford goes through. -/
theorem withdraw_unencumbered {tokens : Tokens} (h : Unencumbered env w user)
    (hrecorded : asset ∈ w.vault.recordedAssets user) (hrunning : w.vault.paused = false)
    (hauth : env.Authorizes user) (hc : w.vault.collateral.get asset = some config)
    (hactive : config.active = true) (hprice : collateralPrice env w asset = .ok snapshot)
    (hpos : 0 < amount) (hle : amount ≤ w.vault.balanceOf user asset)
    (hstored : w.vault.balanceOf user asset ≤ i128Max)
    (hcounted : InI128 (w.vault.totalDepositedOf asset - amount))
    (hworth : amount * snapshot.price / precision ≤
      ((w.vault.recordedAssets user).map (contributionOf env w user)).sum)
    (ht : env.transfer w.tokens asset w.deployed.vault user amount = some tokens) :
    ∃ health w', Returns (withdraw env user asset amount) w health w' := by
  obtain ⟨entries, haccount, htotal⟩ := h.listed hrecorded
  have hmax := h.bounded
  have hnn : 0 ≤ amount * snapshot.price := mul_nonneg hpos.le (collateralPrice_pos hprice).le
  have hvalue : 0 ≤ amount * snapshot.price / precision := Int.ediv_nonneg hnn precision_pos.le
  have hmul : mulPrecision amount snapshot.price = .ok (amount * snapshot.price / precision) := by
    rw [mulPrecision_ok, Int.tdiv_eq_ediv_of_nonneg hnn]
    exact ⟨.of_nonneg hvalue (by omega), rfl⟩
  obtain ⟨health, hchecked⟩ := validateWithdrawal_of_collateral user ∅ htotal hvalue hworth hmax
  have hmarkets : loadMarketsForPositions env w [] = .ok ∅ := rfl
  refine ⟨health, { w with
    tokens
    vault := { w.vault.setBalance user asset (w.vault.balanceOf user asset - amount) with
      totalDeposited := w.vault.totalDeposited.set asset
        (max 0 (w.vault.totalDepositedOf asset - amount)) } }, ?_⟩
  simp only [withdraw, requireNotPaused, returns_readWith_bind, returns_lift_bind, returns_get_bind,
    reject_ok, requireAuth_ok]
  refine ⟨(), by simp [hrunning], (), hauth, (), by omega, config, okOr_ok.mpr hc, (), by simp [hactive],
    (), by omega, _, haccount, _, hmarkets, snapshot, hprice, _, hmul, health, hchecked, ?_⟩
  refine returns_bind.mpr ⟨_, _, decreaseBalance_returns.mpr ⟨.of_nonneg (by omega) (by omega), rfl, rfl⟩, ?_⟩
  refine returns_lift_bind.mpr ⟨_, toI128OrTrap_ok.mpr ⟨hcounted, rfl⟩, ?_⟩
  refine returns_bind.mpr ⟨(), _, store_returns.mpr rfl, ?_⟩
  exact returns_bind.mpr ⟨(), _, tokenTransfer_returns.mpr ⟨tokens, ht, rfl⟩, returns_pure.mpr ⟨rfl, rfl⟩⟩

/-- What is left is still free of positions and debts. -/
theorem Unencumbered.lowered (h : Unencumbered env w user) (hlow : Lowered w w' user asset)
    (hc : w.vault.collateral.get asset = some config) (hactive : config.active = true)
    (hprice : collateralPrice env w asset = .ok snapshot) : Unencumbered env w' user := by
  have hheld := hlow.nonneg
  have hlower := hlow.lower
  have hpriced : ∀ a ∈ w.vault.recordedAssets user, ∃ value, 0 ≤ value ∧
      contribution env w' user a = .ok value ∧ value ≤ contributionOf env w user a := by
    intro a ha
    obtain ⟨value, hnn, hvalue⟩ := h.priced a ha
    rw [contributionOf_eq hvalue]
    by_cases he : a = asset
    · subst he
      obtain ⟨rfl, hbps, hnew⟩ := hlow.contribution hc hactive hprice hvalue
      have hp := collateralPrice_pos hprice
      have hfloor : 0 ≤ w'.vault.balanceOf user a * snapshot.price / precision :=
        Int.ediv_nonneg (mul_nonneg hheld hp.le) precision_pos.le
      have hmono : w'.vault.balanceOf user a * snapshot.price / precision ≤
          w.vault.balanceOf user a * snapshot.price / precision :=
        Int.ediv_le_ediv precision_pos (mul_le_mul_of_nonneg_right hlower.le hp.le)
      exact ⟨_, (afterHaircut_bounds hbps hfloor).1, hnew, afterHaircut_mono hbps hmono⟩
    · exact ⟨value, hnn, (hlow.contribution_other he).trans hvalue, le_rfl⟩
  refine ⟨hlow.positions.trans h.positions, fun a ha => ?_, ?_⟩
  · rw [hlow.recordedAssets] at ha
    obtain ⟨value, hnn, hvalue, _⟩ := hpriced a ha
    exact ⟨value, hnn, hvalue⟩
  · rw [hlow.recordedAssets]
    refine (List.sum_le_sum fun a ha => ?_).trans h.bounded
    obtain ⟨value, _, hvalue, hle⟩ := hpriced a ha
    rwa [contributionOf_eq hvalue]

end Vault

/-! ## Taking everything -/

def withdrawals (env : Env) (user asset : Address) (amounts : List Int) : List ProtocolOp :=
  amounts.map fun amount => .direct (.account (.vault (.withdraw env user asset amount)))

/-- The user may collect tokens of the asset: the user signs, from outside, and the token's
contract moves what the vault holds. -/
structure Env.MayCollect (env : Env) (d : Deployment) (user asset : Address) : Prop where
  authorized : env.Authorizes user
  outside : env.Outside d
  host : env.TokenHost
  covered : env.CoveredTransfers asset d.vault

theorem Env.MayCollect.vault_ne_user {env : Env} {d : Deployment} {user asset : Address}
    (h : env.MayCollect d user asset) : user ≠ d.vault := by
  rintro rfl
  exact h.outside _ (by simp [Deployment.contracts]) h.authorized

/-- The user is free to go: the vault runs, nothing is open or owed, the user's assets have
prices, and the amounts are numbers that the contract can store. -/
structure World.FreeToGo (w : World) (env : Env) (user asset : Address) : Prop where
  running : w.vault.paused = false
  positions : w.vault.loadPositions user = []
  debtless : ∀ a, 0 ≤ w.vault.balanceOf user a
  healthy : ∃ health, Vault.accountHealth env w user asset = .ok health
  stored : w.vault.balanceOf user asset ≤ i128Max
  counted : w.vault.totalDepositedOf asset ≤ i128Max

section Leaving

variable {env : Env} {w w' : World} {user asset settlement : Address} {config : CollateralConfig}
  {snapshot : OracleSnapshot}

/-- What stands while the user takes the asset out. -/
structure Leaving (env : Env) (user asset settlement : Address) (config : CollateralConfig)
    (snapshot : OracleSnapshot) (w : World) : Prop where
  custody : w.Custody settlement
  collects : env.MayCollect w.deployed user asset
  running : w.vault.paused = false
  listed : w.vault.collateral.get asset = some config
  active : config.active = true
  price : Vault.collateralPrice env w asset = .ok snapshot
  unencumbered : Vault.Unencumbered env w user
  recorded : asset ∈ w.vault.recordedAssets user
  held : 0 ≤ w.vault.balanceOf user asset
  stored : w.vault.balanceOf user asset ≤ i128Max
  counted : w.vault.totalDepositedOf asset ≤ i128Max

theorem withdrawals_cons {amount : Int} {health : AccountHealth} (amounts : List Int)
    (h : Returns (Vault.withdraw env user asset amount) w health w') :
    (allSucceed ProtocolOp.call w (withdrawals env user asset (amount :: amounts)) =
        allSucceed ProtocolOp.call w' (withdrawals env user asset amounts)) ∧
      final w (execute ProtocolOp.call w (withdrawals env user asset (amount :: amounts))) =
        final w' (execute ProtocolOp.call w' (withdrawals env user asset amounts)) := by
  have hcall : Returns (ProtocolOp.call (.direct (.account (.vault (.withdraw env user asset amount)))))
      w () w' := returns_void.mpr ⟨health, h⟩
  have hcommit := commit_of_returns hcall
  have hsucceeds : (ProtocolOp.call (.direct (.account (.vault (.withdraw env user asset amount))))).succeeds
      w = true := by
    unfold Transaction.succeeds
    rw [show (ProtocolOp.call _).run w = .ok ((), w') from hcall]
  simp only [withdrawals, List.map_cons, allSucceed, execute, final_cons, hcommit, hsucceeds, Bool.true_and,
    and_self]

/-- One withdrawal takes all but the haircut's share. -/
theorem Leaving.withdraw (h : Leaving env user asset settlement config snapshot w)
    (hne : asset ≠ settlement)
    (hmore : haircutShare config.haircutBps (w.vault.balanceOf user asset) < w.vault.balanceOf user asset) :
    ∃ health w', Returns (Vault.withdraw env user asset (w.vault.balanceOf user asset -
        haircutShare config.haircutBps (w.vault.balanceOf user asset))) w health w' ∧
      Leaving env user asset settlement config snapshot w' ∧
      w'.vault.balanceOf user asset = haircutShare config.haircutBps (w.vault.balanceOf user asset) ∧
      w'.tokens.held asset user + w'.vault.balanceOf user asset =
        w.tokens.held asset user + w.vault.balanceOf user asset := by
  obtain ⟨hcustody, hcollects, hrunning, hc, hactive, hprice, hun, hrecorded, hnn, hstored, hmax⟩ := h
  have hheld : 0 < w.vault.balanceOf user asset := by
    refine hnn.lt_of_ne fun hz => ?_
    rw [← hz] at hmore
    exact absurd hmore (by simp)
  obtain ⟨hbps, hworth⟩ := hun.worth_le hrecorded hc hactive hprice hheld
  obtain ⟨hshare, _⟩ := haircutShare_bounds hbps hnn
  have hvalue : (w.vault.balanceOf user asset - haircutShare config.haircutBps (w.vault.balanceOf user asset)) *
      snapshot.price / precision ≤ _ := value_le_worth hbps (Vault.collateralPrice_pos hprice).le
  generalize haircutShare config.haircutBps (w.vault.balanceOf user asset) = kept at *
  have hdeposited : w.vault.balanceOf user asset ≤ w.vault.totalDepositedOf asset :=
    (hcustody.redeemable.balance_le hne).trans (hcustody.redeemable.covered asset hne)
  have hfunded := hcustody.held asset
  obtain ⟨tokens, ht⟩ : ∃ tokens, env.transfer w.tokens asset w.deployed.vault user
      (w.vault.balanceOf user asset - kept) = some tokens := hcollects.covered (by omega) (by omega)
  obtain ⟨health, w', hcall⟩ := Vault.withdraw_unencumbered hun hrecorded hrunning hcollects.authorized hc
    hactive hprice (by omega) (by omega) hstored (.of_nonneg (by omega) (by omega))
    (hvalue.trans hworth) ht
  obtain ⟨_, hlow, hbalance⟩ := Vault.withdraw_lowers hcall
  have hwithdrawn := Vault.withdraw_withdrawn hcall
  have hop : Returns (VaultOp.call (.withdraw env user asset (w.vault.balanceOf user asset - kept))) w () w' :=
    returns_void.mpr ⟨health, hcall⟩
  have hconfig := config_of_terms (terms_of_valuation (VaultOp.valuation hop))
  have hdeployed := deployed_of_config hconfig
  have hprices := hlow.prices
  have hcustody' := withdraw_custody hcustody hcollects.host
    (hcollects.outside _ (by simp [Deployment.contracts])) hconfig hwithdrawn
  obtain ⟨tokens', ht', hw'⟩ := hwithdrawn.moved
  have hcount : w'.vault.totalDepositedOf asset =
      max 0 (w.vault.totalDepositedOf asset - (w.vault.balanceOf user asset - kept)) := by
    rw [hw']
    simp [VaultStorage.totalDepositedOf]
  have hreceived : w'.tokens.held asset user = w.tokens.held asset user +
      (w.vault.balanceOf user asset - kept) := by
    rw [hw', hcollects.host.ideal ht', if_pos ⟨rfl, rfl⟩, if_neg fun hk => hcollects.vault_ne_user hk.2,
      sub_zero]
  refine ⟨health, w', hcall, ?_, by omega, by omega⟩
  exact {
    custody := hcustody'
    collects := hdeployed ▸ hcollects
    running := (config_congr (fun v => v.vault.paused) (fun _ => rfl) hconfig).trans hrunning
    listed := by rw [hprices.collateral, hc]
    active := hactive
    price := by rw [Vault.collateralPrice_congr hprices, hprice]
    unencumbered := hun.lowered hlow hc hactive hprice
    recorded := hlow.recordedAssets.symm ▸ hrecorded
    held := by omega
    stored := by omega
    counted := by omega }

/-- Withdrawal after withdrawal the haircut's share shrinks. -/
theorem Leaving.leaves (h : Leaving env user asset settlement config snapshot w) (hne : asset ≠ settlement)
    (n : Nat) : ∃ amounts, amounts.length ≤ n ∧
      allSucceed ProtocolOp.call w (withdrawals env user asset amounts) = true ∧
      (final w (execute ProtocolOp.call w (withdrawals env user asset amounts))).vault.balanceOf user asset =
        (haircutShare config.haircutBps)^[n] (w.vault.balanceOf user asset) ∧
      (final w (execute ProtocolOp.call w (withdrawals env user asset amounts))).tokens.held asset user +
        (haircutShare config.haircutBps)^[n] (w.vault.balanceOf user asset) =
          w.tokens.held asset user + w.vault.balanceOf user asset := by
  induction n generalizing w with
  | zero => exact ⟨[], le_rfl, rfl, rfl, rfl⟩
  | succ n ih =>
    rw [Function.iterate_succ_apply]
    by_cases hmore : haircutShare config.haircutBps (w.vault.balanceOf user asset) <
        w.vault.balanceOf user asset
    · obtain ⟨health, w', hcall, hleft, hbalance, hkept⟩ := h.withdraw hne hmore
      obtain ⟨amounts, hlength, hall, hrest, htokens⟩ := ih hleft
      obtain ⟨hsucceed, hfinal⟩ := withdrawals_cons amounts hcall
      rw [hbalance] at hrest htokens hkept
      refine ⟨_ :: amounts, Nat.succ_le_succ hlength, hsucceed.trans hall, ?_, ?_⟩
      · rw [hfinal, hrest]
      · rw [hfinal, htokens, hkept]
    · -- Nothing is left to take: the share is the balance.
      have hwhole : haircutShare config.haircutBps (w.vault.balanceOf user asset) =
          w.vault.balanceOf user asset := by
        rcases h.held.eq_or_lt with hz | hpos
        · rw [← hz, haircutShare_zero]
        · obtain ⟨hbps, _⟩ := h.unencumbered.worth_le h.recorded h.listed h.active h.price hpos
          exact le_antisymm (haircutShare_bounds hbps h.held).2 (not_lt.mp hmore)
      rw [hwhole]
      obtain ⟨amounts, hlength, hrest⟩ := ih h
      exact ⟨amounts, hlength.trans (Nat.le_succ n), hrest⟩

/-- A user who is free to go, with something of an active asset, can start. -/
theorem World.FreeToGo.leaving (h : w.FreeToGo env user asset) (hcustody : w.Custody settlement)
    (hcollects : env.MayCollect w.deployed user asset) (hne : asset ≠ settlement)
    (hc : w.vault.collateral.get asset = some config) (hactive : config.active = true)
    (hpos : 0 < w.vault.balanceOf user asset) :
    ∃ snapshot, Leaving env user asset settlement config snapshot w := by
  obtain ⟨health, hhealth⟩ := h.healthy
  have hrecorded := hcustody.redeemable.recorded user asset hne hpos.ne'
  cases hlist : w.vault.userAssets.get user with
  | none =>
    rw [VaultStorage.recordedAssets_of_none hlist] at hrecorded
    cases hrecorded
  | some assets =>
    obtain ⟨hvalued, htotal⟩ := Vault.accountHealth_recorded hlist hhealth
    have hassets : w.vault.recordedAssets user = assets := by
      simp only [VaultStorage.recordedAssets, hlist, Option.getD_some]
    rw [← hassets] at hvalued htotal
    obtain ⟨value, hvalue⟩ := hvalued asset hrecorded
    obtain ⟨snapshot, hprice⟩ := Vault.price_of_contribution hc hactive hpos.ne' hvalue
    refine ⟨snapshot, hcustody, hcollects, h.running, hc, hactive, hprice, ⟨h.positions, fun a ha => ?_, ?_⟩,
      hrecorded, hpos.le, h.stored, h.counted⟩
    · obtain ⟨value, hvalue⟩ := hvalued a ha
      exact ⟨value, Vault.contribution_nonneg (h.debtless a) hvalue, hvalue⟩
    · rw [← htotal]
      simp only [Vault.accountHealth, except_bind_ok] at hhealth
      obtain ⟨_, _, _, _, hhealth⟩ := hhealth
      exact collateralTotal_le (by decide) (accountHealth_collateralValue hhealth)

/-- Nobody can keep collateral in the vault: in every state of any run a user who is free to go
takes an asset out by withdrawals of the user's own, each but for the haircut's share of what
the one before left, and receives it whole. -/
theorem ProtocolOp.collateral_leaves {t : List (ProtocolOp × World)} (hw : w.Custody settlement)
    (hr : IsRun (CommitStep ProtocolOp.call) w t) (ho : ∀ e ∈ t, e.1.Ordinary w.deployed) :
    AllStates (fun v => ∀ env user asset config, asset ≠ settlement →
      v.vault.collateral.get asset = some config → config.active = true →
      v.FreeToGo env user asset → env.MayCollect v.deployed user asset →
      ∀ n, ∃ amounts, amounts.length ≤ n ∧
        allSucceed ProtocolOp.call v (withdrawals env user asset amounts) = true ∧
        (final v (execute ProtocolOp.call v (withdrawals env user asset amounts))).vault.balanceOf user asset =
          (haircutShare config.haircutBps)^[n] (v.vault.balanceOf user asset) ∧
        (final v (execute ProtocolOp.call v (withdrawals env user asset amounts))).tokens.held asset user +
          (haircutShare config.haircutBps)^[n] (v.vault.balanceOf user asset) =
            v.tokens.held asset user + v.vault.balanceOf user asset) w t := by
  refine (ProtocolOp.custody_run hw hr ho).mono fun v hv env user asset config hne hc hactive hfree hcollects n => ?_
  rcases (hfree.debtless asset).eq_or_lt with hz | hpos
  · have hnone : (haircutShare config.haircutBps)^[n] (v.vault.balanceOf user asset) =
        v.vault.balanceOf user asset := by
      refine Function.iterate_fixed ?_ n
      rw [← hz, haircutShare_zero]
    rw [hnone]
    exact ⟨[], Nat.zero_le n, rfl, rfl, rfl⟩
  · obtain ⟨snapshot, hleaving⟩ := hfree.leaving hv.2 hcollects hne hc hactive hpos
    exact hleaving.leaves hne n

end Leaving

namespace Sample

/-- Alice has saved some of the volatile token, which has a haircut of a fifth by now. -/
def saved : World := final opened (execute ProtocolOp.call opened savings)

end Sample

open Sample in
theorem collateral_leaves_saved :
    ∃ amounts, amounts.length ≤ 3 ∧
      allSucceed ProtocolOp.call saved (withdrawals (bank 1000) alice xlm amounts) = true ∧
      (final saved (execute ProtocolOp.call saved (withdrawals (bank 1000) alice xlm amounts))).vault.balanceOf
        alice xlm = 1 ∧
      (final saved (execute ProtocolOp.call saved (withdrawals (bank 1000) alice xlm amounts))).tokens.held
        xlm alice + 1 = 1000 := by
  have hordinary : ∀ e ∈ execute ProtocolOp.call opened savings, e.1.Ordinary opened.deployed := by
    intro e he
    simp only [execute, savings, List.mem_cons, List.not_mem_nil, or_false] at he
    rcases he with rfl | rfl | rfl <;> exact ⟨bank_tokenHost _, bank_outside _, id⟩
  have hcustody := (ProtocolOp.custody_run opened_custody (isRun_commit opened savings) hordinary).at_final.2
  have hfree : saved.FreeToGo (bank 1000) alice xlm := {
    running := by decide +kernel
    positions := by decide +kernel
    debtless a := by
      by_cases ha : a = usdc
      · rw [ha]
        decide +kernel
      · exact hcustody.redeemable.nonneg alice a ha
    healthy := exists_ok (by decide +kernel)
    stored := by decide +kernel
    counted := by decide +kernel }
  obtain ⟨amounts, hlength, hall, hleft, htokens⟩ :=
    (ProtocolOp.collateral_leaves opened_custody (isRun_commit opened savings) hordinary).at_final (bank 1000)
      alice xlm ⟨xlm, "XLM", 2000, true⟩ (by decide) (by decide +kernel) rfl hfree
      ⟨.inr rfl, bank_outside _, bank_tokenHost _, bank_covered _ _ _⟩ 3
  have hkept : (haircutShare 2000)^[3] (saved.vault.balanceOf alice xlm) = 1 := by decide +kernel
  have hheld : saved.tokens.held xlm alice + saved.vault.balanceOf alice xlm = 1000 := by decide +kernel
  change _ + (haircutShare 2000)^[3] (saved.vault.balanceOf alice xlm) = _ at htokens
  rw [hkept] at htokens
  exact ⟨amounts, hlength, hall, hleft.trans hkept, htokens.trans hheld⟩

end Kryon

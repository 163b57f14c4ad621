import Kryon.Vault.Effects

/-! # The vault's calls that move tokens

A deposit and a withdrawal move tokens with the user, and an absorbed deficit brings them
from the insurance fund. Here is all that such a call has checked and moved. -/
namespace Kryon
open Transaction

namespace Vault

variable {env : Env} {w w' : World} {user asset : Address} {amount r : Int}

/-- What a successful deposit checked, moved and wrote. -/
structure Deposited (env : Env) (user asset : Address) (amount : Int) (w w' : World) : Prop where
  running : w.vault.paused = false
  authorized : env.invoker = some user ∨ env.signed user = true
  positive : 0 < amount
  uncapped : ∀ cap, w.vault.depositCap.get asset = some cap → w.vault.totalDepositedOf asset + amount ≤ cap
  moved : ∃ tokens,
    env.transfer w.tokens asset user w.deployed.vault amount = some tokens ∧
    w' = { w with
      tokens
      vault := { w.vault.setBalance user asset (w.vault.balanceOf user asset + amount) with
        totalDeposited := w.vault.totalDeposited.set asset (w.vault.totalDepositedOf asset + amount)
        userAssets := (w.vault.recordAsset user asset).userAssets } }

theorem deposit_deposited (h : Returns (deposit env user asset amount) w r w') :
    Deposited env user asset amount w w' := by
  simp only [deposit, requireNotPaused, returns_readWith_bind, returns_lift_bind, returns_get_bind,
    reject_ok, checkedAdd_ok, requireAuth_ok, Bool.not_eq_true] at h
  obtain ⟨_, hrunning, _, hauth, _, hpos, _, _, _, _, total, ⟨_, htotal⟩, _, hcap, h⟩ := h
  subst htotal
  obtain ⟨_, _, htransfer, h⟩ := returns_bind.mp h
  obtain ⟨tokens, hmoved, rfl⟩ := tokenTransfer_returns.mp htransfer
  obtain ⟨_, _, hstore, h⟩ := returns_bind.mp h
  obtain rfl := store_returns.mp hstore
  obtain ⟨_, _, hbalance, h⟩ := returns_bind.mp h
  obtain ⟨_, rfl, rfl⟩ := increaseBalance_returns.mp hbalance
  obtain ⟨_, _, hrecord, h⟩ := returns_bind.mp h
  obtain rfl := store_returns.mp hrecord
  obtain ⟨_, rfl⟩ := returns_pure.mp h
  refine ⟨hrunning, hauth, by omega, fun cap hget => ?_, ?_⟩
  · exact not_lt.mp fun hlt => hcap ⟨cap, hget, hlt⟩
  · refine ⟨tokens, hmoved, ?_⟩
    rw [VaultStorage.recordAsset_eq]
    congr 2
    refine VaultStorage.recordAsset_userAssets_congr w.vault _ ?_ user asset
    rfl

/-- What a successful withdrawal checked, moved and wrote. -/
structure Withdrawn (env : Env) (user asset : Address) (amount : Int) (w w' : World) : Prop where
  running : w.vault.paused = false
  authorized : env.invoker = some user ∨ env.signed user = true
  positive : 0 < amount
  covered : amount ≤ w.vault.balanceOf user asset
  priced : ∃ account markets, accountSnapshot env w user asset = .ok account ∧
    loadMarketsForPositions env w account.positions = .ok markets
  moved : ∃ tokens,
    env.transfer w.tokens asset w.deployed.vault user amount = some tokens ∧
    w' = { w with
      tokens
      vault := { w.vault.setBalance user asset (w.vault.balanceOf user asset - amount) with
        totalDeposited := w.vault.totalDeposited.set asset
          (max 0 (w.vault.totalDepositedOf asset - amount)) } }

theorem withdraw_withdrawn {health : AccountHealth}
    (h : Returns (withdraw env user asset amount) w health w') :
    Withdrawn env user asset amount w w' := by
  simp only [withdraw, requireNotPaused, returns_readWith_bind, returns_lift_bind, returns_get_bind,
    reject_ok, requireAuth_ok, Bool.not_eq_true] at h
  obtain ⟨_, hrunning, _, hauth, _, hpos, _, _, _, _, _, hle, account, haccount, markets, hmarkets,
    _, _, _, _, _, _, h⟩ := h
  obtain ⟨_, _, hbalance, h⟩ := returns_bind.mp h
  obtain ⟨_, rfl, rfl⟩ := decreaseBalance_returns.mp hbalance
  simp only [returns_lift_bind, toI128OrTrap_ok] at h
  obtain ⟨_, ⟨_, rfl⟩, h⟩ := h
  obtain ⟨_, _, hstore, h⟩ := returns_bind.mp h
  obtain rfl := store_returns.mp hstore
  obtain ⟨_, _, htransfer, h⟩ := returns_bind.mp h
  obtain ⟨tokens, hmoved, rfl⟩ := tokenTransfer_returns.mp htransfer
  obtain ⟨_, rfl⟩ := returns_pure.mp h
  exact ⟨hrunning, hauth, by omega, by omega, ⟨account, markets, haccount, hmarkets⟩, tokens,
    hmoved, rfl⟩

/-- What absorbing a deficit moves: tokens of the fund to the vault it is registered with,
credited to the user, and two entries of the fund's books. -/
theorem absorbBadDebt_moved (h : Returns (absorbBadDebt env user asset) w r w') :
    w' = w ∨ w.vault.balanceOf user asset < 0 ∧ w.vault.insurance = some w.deployed.insurance ∧
      ∃ vault tokens balance badDebt, 0 ≤ r ∧ w.vault.Credited vault user asset r ∧
        w' = { w with vault, tokens, insurance := { w.insurance with balance, badDebt } } ∧
        (tokens = w.tokens ∨ ∃ target,
          env.transfer w.tokens asset w.deployed.insurance target r = some tokens) := by
  simp only [absorbBadDebt, returns_readWith_bind, returns_get_bind] at h
  obtain ⟨_, _, hbody⟩ := h
  rcases returns_ite.mp hbody with ⟨_, hnone⟩ | ⟨hneg, habsorb⟩
  · exact .inl (returns_pure.mp hnone).2
  simp only [coverAndRecord, returns_lift_bind] at habsorb
  obtain ⟨_, _, hrun⟩ := habsorb
  obtain ⟨covered, w₁, hcover, hrun⟩ := returns_bind.mp hrun
  obtain ⟨_, w₂, hcredit, hrun⟩ := returns_bind.mp hrun
  simp only [returns_lift_bind, checkedSub_ok] at hrun
  obtain ⟨remaining, ⟨_, hremaining⟩, hrun⟩ := hrun
  obtain ⟨_, w₃, hrecord, hret⟩ := returns_bind.mp hrun
  obtain ⟨rfl, rfl⟩ := returns_pure.mp hret
  simp only [insuranceCoverDeficit, insuranceAddress, returns_readWith_bind, returns_get_bind, okOr_ok,
    invoke_returns] at hcover
  obtain ⟨insurance, hinsurance, hreach, hcover⟩ := hcover
  subst hreach
  obtain ⟨hnn, hle, hpaid⟩ := Insurance.coverDeficit_effect hcover
  have hfunds : ∃ tokens balance, w₁ = { w with
      tokens, insurance := { w.insurance with balance } } ∧ (tokens = w.tokens ∨ ∃ target,
        env.transfer w.tokens asset w.deployed.insurance target covered = some tokens) := by
    rcases hpaid with ⟨_, hnone⟩ | ⟨_, target, tokens, _, ht, hsome⟩
    · exact ⟨w.tokens, w.insurance.balance, hnone, .inl rfl⟩
    · exact ⟨tokens, _, hsome, .inr ⟨target, ht⟩⟩
  obtain ⟨tokens, balance, rfl, htokens⟩ := hfunds
  obtain ⟨vault, hvault, rfl⟩ := creditPositive_effect hnn hcredit
  obtain ⟨badDebt, rfl, _⟩ := recordUncovered_effect (by omega) hrecord
  exact .inr ⟨by omega, hinsurance, vault, tokens, balance, badDebt, hnn, hvault, rfl, htokens⟩

end Vault
end Kryon

import Kryon.Insurance.Effects
import Kryon.Vault

/-! # What the vault's operations do

For each operation, what a successful call implies: the checks that passed and
the state it leaves, as an update of the state before. -/
namespace Kryon
open Transaction

/-! ## Storage updates -/

namespace VaultStorage

variable (s : VaultStorage)

theorem balanceOf_setBalance (user asset u a : Address) (amount : Int) :
    (s.setBalance user asset amount).balanceOf u a =
      if u = user ∧ a = asset then amount else s.balanceOf u a := by
  simp only [balanceOf, setBalance, Store.get_set, Prod.mk.injEq]
  split <;> simp

@[simp] theorem balanceOf_setBalance_self (user asset : Address) (amount : Int) :
    (s.setBalance user asset amount).balanceOf user asset = amount := by
  simp [balanceOf_setBalance]

/-- Recording touches nothing but the index. -/
theorem recordAsset_rest (user asset : Address) :
    ∃ userAssets, s.recordAsset user asset = { s with userAssets } := by
  unfold recordAsset
  split
  · exact ⟨_, rfl⟩
  · exact ⟨_, rfl⟩

theorem recordAsset_eq (user asset : Address) :
    s.recordAsset user asset = { s with userAssets := (s.recordAsset user asset).userAssets } := by
  unfold recordAsset
  split <;> rfl

@[simp] theorem recordAsset_balance (user asset : Address) :
    (s.recordAsset user asset).balance = s.balance := by
  unfold recordAsset; split <;> rfl

@[simp] theorem recordAsset_balanceOf (user asset u a : Address) :
    (s.recordAsset user asset).balanceOf u a = s.balanceOf u a := by
  simp [balanceOf]

@[simp] theorem recordAsset_collateral (user asset : Address) :
    (s.recordAsset user asset).collateral = s.collateral := by
  unfold recordAsset; split <;> rfl

theorem recordAsset_recordedAssets (user asset u : Address) :
    (s.recordAsset user asset).recordedAssets u =
      if u = user ∧ asset ∉ s.recordedAssets user then s.recordedAssets u ++ [asset]
      else s.recordedAssets u := by
  unfold recordAsset
  by_cases hm : asset ∈ s.recordedAssets user
  · by_cases hu : u = user
    · subst hu; rw [if_pos hm, if_neg fun h => h.2 hm]
    · rw [if_pos hm, if_neg fun h => hu h.1]
  · by_cases hu : u = user
    · subst hu
      rw [if_neg hm, if_pos ⟨rfl, hm⟩]
      simp [recordedAssets]
    · rw [if_neg hm, if_neg fun h => hu h.1]
      simp [recordedAssets, hu]

theorem recordAsset_userAssets_isSome (user asset u : Address) :
    ((s.recordAsset user asset).userAssets.get u).isSome = true ↔
      u = user ∨ (s.userAssets.get u).isSome = true := by
  unfold recordAsset
  by_cases hm : asset ∈ s.recordedAssets user
  · rw [if_pos hm]
    refine ⟨.inr, ?_⟩
    rintro (rfl | h)
    · unfold recordedAssets at hm
      cases hg : s.userAssets.get u with
      | none => simp [hg] at hm
      | some l => rfl
    · exact h
  · rw [if_neg hm]
    by_cases hu : u = user
    · subst hu; simp
    · simp [hu]

theorem recordAsset_userAssets_congr (s' : VaultStorage) (h : s'.userAssets = s.userAssets)
    (user asset : Address) : (s'.recordAsset user asset).userAssets = (s.recordAsset user asset).userAssets := by
  unfold recordAsset recordedAssets
  rw [h]
  split <;> simp [h]

theorem recordAsset_userAssets_other {user u : Address} (asset : Address) (hne : u ≠ user) :
    (s.recordAsset user asset).userAssets.get u = s.userAssets.get u := by
  unfold recordAsset
  split
  · rfl
  · exact Store.get_set_ne hne

@[simp] theorem recordAsset_positions (user asset : Address) :
    (s.recordAsset user asset).positions = s.positions := by
  unfold recordAsset; split <;> rfl

/-! ## What changes when only balances do -/

/-- `s'` is `s` with `amount` added to one balance. -/
structure Credited (s s' : VaultStorage) (user asset : Address) (amount : Int) : Prop where
  rest : ∃ balance, s' = { s with balance }
  balanceOf : ∀ u a, s'.balanceOf u a =
    if u = user ∧ a = asset then s.balanceOf u a + amount else s.balanceOf u a

/-- Only balances differ, and none that was zero is non-zero now. -/
structure Spends (s s' : VaultStorage) : Prop where
  rest : ∃ balance, s' = { s with balance }
  nonzero : ∀ u a, s'.balanceOf u a ≠ 0 → s.balanceOf u a ≠ 0

variable {s s' s'' : VaultStorage} {user asset : Address} {amount more : Int}

theorem Credited.refl (s : VaultStorage) (user asset : Address) : s.Credited s user asset 0 :=
  ⟨⟨_, rfl⟩, fun u a => by simp⟩

theorem Credited.setBalance (s : VaultStorage) (user asset : Address) (amount : Int) :
    s.Credited (s.setBalance user asset (s.balanceOf user asset + amount)) user asset amount := by
  refine ⟨⟨_, rfl⟩, fun u a => ?_⟩
  rw [balanceOf_setBalance]
  split
  · rename_i hk
    rw [hk.1, hk.2]
  · rfl

theorem Credited.trans (h : s.Credited s' user asset amount) (h' : s'.Credited s'' user asset more) :
    s.Credited s'' user asset (amount + more) := by
  obtain ⟨⟨_, rfl⟩, hb⟩ := h
  obtain ⟨⟨_, rfl⟩, hb'⟩ := h'
  refine ⟨⟨_, rfl⟩, fun u a => ?_⟩
  rw [hb', hb]
  split
  · rw [add_assoc]
  · rfl

theorem Credited.self (h : s.Credited s' user asset amount) :
    s'.balanceOf user asset = s.balanceOf user asset + amount := by
  rw [h.balanceOf, if_pos ⟨rfl, rfl⟩]

/-- A credit to a balance that was not zero. -/
theorem Credited.spends (h : s.Credited s' user asset amount) (hne : s.balanceOf user asset ≠ 0) :
    s.Spends s' := by
  refine ⟨h.rest, fun u a hu => ?_⟩
  rw [h.balanceOf] at hu
  split at hu
  · rename_i hk
    rwa [hk.1, hk.2]
  · exact hu

theorem Credited.spends_zero (h : s.Credited s' user asset 0) : s.Spends s' :=
  ⟨h.rest, fun u a hu => by simpa [h.balanceOf] using hu⟩

theorem Spends.refl (s : VaultStorage) : s.Spends s := ⟨⟨_, rfl⟩, fun _ _ h => h⟩

theorem Spends.trans (h : s.Spends s') (h' : s'.Spends s'') : s.Spends s'' := by
  obtain ⟨⟨_, rfl⟩, hn⟩ := h
  obtain ⟨⟨_, rfl⟩, hn'⟩ := h'
  exact ⟨⟨_, rfl⟩, fun u a hu => hn u a (hn' u a hu)⟩

end VaultStorage

namespace Vault

variable {env : Env} {w w' : World} {user asset : Address} {amount r : Int}

/-! ## Balance updates -/

@[simp] theorem store_returns {f : VaultStorage → VaultStorage} {u : Unit} :
    Returns (store f) w u w' ↔ w' = { w with vault := f w.vault } := by
  simp [store]

theorem increaseBalance_returns :
    Returns (increaseBalance user asset amount) w r w' ↔
      InI128 (w.vault.balanceOf user asset + amount) ∧
      r = w.vault.balanceOf user asset + amount ∧
      w' = { w with vault := w.vault.setBalance user asset r } := by
  simp only [increaseBalance, returns_bind, returns_readWith, checkedAdd_ok, store_returns,
    returns_pure]
  constructor
  · rintro ⟨_, _, ⟨⟨hb, rfl⟩, rfl⟩, _, _, rfl, rfl, rfl⟩
    exact ⟨hb, rfl, rfl⟩
  · rintro ⟨hb, rfl, rfl⟩
    exact ⟨_, _, ⟨⟨hb, rfl⟩, rfl⟩, (), _, rfl, rfl, rfl⟩

theorem decreaseBalance_returns :
    Returns (decreaseBalance user asset amount) w r w' ↔
      InI128 (w.vault.balanceOf user asset - amount) ∧
      r = w.vault.balanceOf user asset - amount ∧
      w' = { w with vault := w.vault.setBalance user asset r } := by
  simp only [decreaseBalance, returns_bind, returns_readWith, checkedSub_ok, store_returns,
    returns_pure]
  constructor
  · rintro ⟨_, _, ⟨⟨hb, rfl⟩, rfl⟩, _, _, rfl, rfl, rfl⟩
    exact ⟨hb, rfl, rfl⟩
  · rintro ⟨hb, rfl, rfl⟩
    exact ⟨_, _, ⟨⟨hb, rfl⟩, rfl⟩, (), _, rfl, rfl, rfl⟩

/-- `apply_pnl` adds the pnl to one balance and records nothing in the asset index. -/
theorem applyPnl_effect {pnl : Int} (h : Returns (applyPnl env user asset pnl) w r w') :
    r = w.vault.balanceOf user asset + pnl ∧ w' = { w with vault := w.vault.setBalance user asset r } := by
  simp only [applyPnl, returns_bind, returns_readWith] at h
  obtain ⟨_, _, ⟨_, rfl⟩, _, _, ⟨_, rfl⟩, h⟩ := h
  rcases returns_ite.mp h with ⟨_, hgain⟩ | ⟨_, hloss⟩
  · exact (increaseBalance_returns.mp hgain).2
  · simp only [returns_bind, returns_lift, checkedSub_ok, decreaseBalance_returns] at hloss
    obtain ⟨_, _, ⟨⟨_, rfl⟩, rfl⟩, _, hr, hw⟩ := hloss
    exact ⟨by rw [hr]; ring, hw⟩

theorem syncPositions_effect {positions : List Position} {u : Unit}
    (h : Returns (syncPositions env user positions) w u w') :
    (∀ p ∈ positions, p.owner = user) ∧
      w' = { w with vault := { w.vault with
        positions := w.vault.positions.set user positions } } := by
  simp only [syncPositions, returns_bind, returns_readWith, returns_lift, requireOwner, reject_ok,
    not_not, store_returns] at h
  obtain ⟨_, _, ⟨_, rfl⟩, _, _, ⟨ho, rfl⟩, rfl⟩ := h
  exact ⟨ho, rfl⟩

theorem setFundingIndexes_effect {marketId : Nat} {long short : Int} {u : Unit}
    (h : Returns (setFundingIndexes env marketId long short) w u w') :
    w' = { w with vault := { w.vault with
      fundingLong := w.vault.fundingLong.set marketId long
      fundingShort := w.vault.fundingShort.set marketId short } } := by
  simp only [setFundingIndexes, returns_bind, returns_readWith, store_returns] at h
  obtain ⟨_, _, ⟨_, rfl⟩, rfl⟩ := h
  rfl

/-! ## Deposits, withdrawals and imports -/

theorem deposit_effect (h : Returns (deposit env user asset amount) w r w') :
    0 < amount ∧ (∃ config, w.vault.collateral.get asset = some config ∧ config.active = true) ∧
    ∃ tokens totalDeposited, w' = { w with
      tokens
      vault := ({ w.vault with totalDeposited }.setBalance user asset
        (w.vault.balanceOf user asset + amount)).recordAsset user asset } := by
  simp only [deposit, returns_readWith_bind, returns_lift_bind, returns_get_bind, reject_ok] at h
  obtain ⟨_, _, _, _, _, hpos, config, hc, _, hactive, total, _, _, _, h⟩ := h
  obtain ⟨_, _, htransfer, h⟩ := returns_bind.mp h
  obtain ⟨tokens, _, rfl⟩ := tokenTransfer_returns.mp htransfer
  obtain ⟨_, _, hstore, h⟩ := returns_bind.mp h
  obtain rfl := store_returns.mp hstore
  obtain ⟨_, _, hbalance, h⟩ := returns_bind.mp h
  obtain ⟨_, rfl, rfl⟩ := increaseBalance_returns.mp hbalance
  obtain ⟨_, _, hrecord, h⟩ := returns_bind.mp h
  obtain rfl := store_returns.mp hrecord
  obtain ⟨_, rfl⟩ := returns_pure.mp h
  exact ⟨by omega, ⟨config, okOr_ok.mp hc, by simpa using hactive⟩, tokens,
    w.vault.totalDeposited.set asset total, rfl⟩

theorem withdraw_effect {health : AccountHealth}
    (h : Returns (withdraw env user asset amount) w health w') :
    0 < amount ∧ amount ≤ w.vault.balanceOf user asset ∧
    ∃ tokens totalDeposited, w' = { w with
      tokens
      vault := { w.vault.setBalance user asset (w.vault.balanceOf user asset - amount) with
        totalDeposited } } := by
  simp only [withdraw, returns_readWith_bind, returns_lift_bind, returns_get_bind, reject_ok] at h
  obtain ⟨_, _, _, _, _, hpos, _, _, _, _, _, hle, _, _, _, _, _, _, _, _, _, _, h⟩ := h
  obtain ⟨_, _, hbalance, h⟩ := returns_bind.mp h
  obtain ⟨_, rfl, rfl⟩ := decreaseBalance_returns.mp hbalance
  obtain ⟨total, _, h⟩ := returns_lift_bind.mp h
  obtain ⟨_, _, hstore, h⟩ := returns_bind.mp h
  obtain rfl := store_returns.mp hstore
  obtain ⟨_, _, htransfer, h⟩ := returns_bind.mp h
  obtain ⟨tokens, _, rfl⟩ := tokenTransfer_returns.mp htransfer
  obtain ⟨_, rfl⟩ := returns_pure.mp h
  exact ⟨by omega, by omega, tokens, w.vault.totalDeposited.set asset (max 0 total), rfl⟩

/-- One imported entry: nothing for a zero amount, else a credit and a record. -/
theorem importBalance_effect {entry : MigratedBalance} {n m : Nat}
    (h : Returns (importBalance entry n) w m w') :
    (entry.amount = 0 ∧ w' = w) ∨
    (entry.amount ≠ 0 ∧ ∃ totalDeposited, w' = { w with
      vault := { (w.vault.setBalance entry.user entry.asset
        (w.vault.balanceOf entry.user entry.asset + entry.amount)).recordAsset
          entry.user entry.asset with totalDeposited } }) := by
  simp only [importBalance] at h
  rcases returns_ite.mp h with ⟨hz, h⟩ | ⟨hz, h⟩
  · exact .inl ⟨hz, (returns_pure.mp h).2⟩
  · simp only [recordUserAsset, returns_bind, increaseBalance_returns, store_returns,
      returns_readWith, checkedAdd_ok, returns_lift] at h
    obtain ⟨_, _, ⟨_, rfl, rfl⟩, _, _, rfl, _, _, ⟨_, rfl⟩, _, _, rfl, _, rfl⟩ := h
    exact .inr ⟨hz, _, rfl⟩

/-- An import touches nothing but balances, the index and the deposit totals. -/
theorem importBalances_rest {entries : List MigratedBalance} {n m : Nat}
    (h : Returns (importBalances n entries) w m w') : ∃ balance userAssets totalDeposited,
      w' = { w with vault := { w.vault with balance, userAssets, totalDeposited } } := by
  induction entries generalizing n w with
  | nil =>
    obtain ⟨_, rfl⟩ := returns_pure.mp h
    exact ⟨_, _, _, rfl⟩
  | cons entry rest ih =>
    obtain ⟨_, v, hone, hrest⟩ := returns_bind.mp h
    obtain ⟨_, _, _, rfl⟩ := ih hrest
    cases importBalance_effect hone with
    | inl hskip =>
      obtain ⟨_, rfl⟩ := hskip
      exact ⟨_, _, _, rfl⟩
    | inr hcredit =>
      obtain ⟨_, totalDeposited, rfl⟩ := hcredit
      obtain ⟨userAssets, hrecord⟩ := VaultStorage.recordAsset_rest (w.vault.setBalance entry.user
        entry.asset (w.vault.balanceOf entry.user entry.asset + entry.amount)) entry.user entry.asset
      rw [hrecord]
      exact ⟨_, _, _, rfl⟩

theorem migrateImportBalances_imports {entries : List MigratedBalance} {m : Nat}
    (h : Returns (migrateImportBalances env entries) w m w') :
    Returns (importBalances 0 entries) w m w' := by
  simp only [migrateImportBalances, returns_readWith_bind, returns_get_bind, returns_lift_bind] at h
  obtain ⟨_, _, _, _, h⟩ := h
  exact h

/-! ## Seizure and bad debt -/

theorem creditPositive_effect {u : Unit} (hnn : 0 ≤ amount)
    (h : Returns (creditPositive user asset amount) w u w') :
    ∃ vault, w.vault.Credited vault user asset amount ∧ w' = { w with vault } := by
  rcases returns_ite.mp h with ⟨_, hcredit⟩ | ⟨hz, hnone⟩
  · simp only [returns_bind, increaseBalance_returns, returns_pure] at hcredit
    obtain ⟨_, _, ⟨_, rfl, rfl⟩, _, rfl⟩ := hcredit
    exact ⟨_, .setBalance _ _ _ _, rfl⟩
  · obtain rfl : amount = 0 := by omega
    obtain ⟨_, rfl⟩ := returns_pure.mp hnone
    exact ⟨_, .refl _ _ _, rfl⟩

theorem recordUncovered_effect {u : Unit} (hnn : 0 ≤ amount)
    (h : Returns (recordUncovered env asset amount) w u w') :
    ∃ badDebt, w' = { w with insurance := { w.insurance with badDebt } } ∧
      ∀ a, w'.insurance.badDebtOf a =
        if a = asset then w.insurance.badDebtOf a + amount else w.insurance.badDebtOf a := by
  rcases returns_ite.mp h with ⟨_, hrecord⟩ | ⟨_, hnone⟩
  · simp only [insuranceRecordBadDebt, returns_bind, returns_readWith, returns_get,
      invoke_returns, returns_pure] at hrecord
    obtain ⟨_, _, ⟨_, _, ⟨_, rfl⟩, _, w, ⟨rfl, rfl⟩, _, hr⟩, _, rfl⟩ := hrecord
    obtain ⟨_, rfl⟩ := Insurance.recordBadDebt_effect hr
    refine ⟨_, rfl, fun a => ?_⟩
    by_cases ha : a = asset
    · subst ha; simp [InsuranceStorage.badDebtOf_setBadDebt]
    · simp [InsuranceStorage.badDebtOf_setBadDebt, ha]
  · obtain rfl : amount = 0 := by omega
    obtain ⟨_, rfl⟩ := returns_pure.mp hnone
    exact ⟨_, rfl, by simp⟩

/-- A non-negative balance is left alone. A deficit is covered in part by the fund,
and what stays uncovered is recorded as bad debt and stays on the balance too. -/
theorem absorbBadDebt_effect (h : Returns (absorbBadDebt env user asset) w r w') :
    (0 ≤ w.vault.balanceOf user asset ∧ w' = w) ∨
    (w.vault.balanceOf user asset < 0 ∧ ∃ vault tokens insurance,
      0 ≤ r ∧ w.vault.balanceOf user asset + r ≤ 0 ∧
      w.vault.Credited vault user asset r ∧
      w' = { w with vault, tokens, insurance } ∧
      ∀ a, insurance.badDebtOf a = w.insurance.badDebtOf a +
        if a = asset then -(w.vault.balanceOf user asset + r) else 0) := by
  simp only [absorbBadDebt, returns_bind, returns_readWith, returns_get] at h
  obtain ⟨_, _, ⟨_, rfl⟩, _, w, ⟨rfl, rfl⟩, hbody⟩ := h
  rcases returns_ite.mp hbody with ⟨hnn, hnone⟩ | ⟨hneg, habsorb⟩
  · exact .inl ⟨hnn, (returns_pure.mp hnone).2⟩
  · simp only [coverAndRecord, insuranceCoverDeficit, returns_bind, returns_lift, returns_readWith,
      returns_get, invoke_returns, checkedSub_ok, returns_pure] at habsorb
    obtain ⟨_, _, ⟨⟨_, rfl⟩, rfl⟩, covered, _, ⟨_, _, ⟨_, rfl⟩, _, w, ⟨rfl, rfl⟩, _, hcover⟩,
      _, _, hcredit, _, _, ⟨⟨_, rfl⟩, rfl⟩, _, _, hrecord, rfl, rfl⟩ := habsorb
    obtain ⟨hnn, hle, _⟩ := Insurance.coverDeficit_effect hcover
    obtain ⟨tokens, balance, rfl⟩ := Insurance.coverDeficit_touches hcover
    obtain ⟨v, hv, rfl⟩ := creditPositive_effect hnn hcredit
    obtain ⟨badDebt, rfl, hbad⟩ := recordUncovered_effect (by omega) hrecord
    refine .inr ⟨by omega, v, _, _, hnn, by omega, hv, rfl, fun a => ?_⟩
    rw [hbad a]
    simp only [InsuranceStorage.badDebtOf]
    split <;> omega

end Vault
end Kryon

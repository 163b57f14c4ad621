import Kryon.Engine.Import
import Kryon.Vault.AssetIndex

/-! # The accounts of the engine and the vault

Two contracts keep a user's account: the engine the positions, the vault the balances,
the index of the assets and a mirror of the positions for `account_health`. Whatever
the two contracts do, the mirror is the engine's list and no list of assets repeats one. -/
namespace Kryon
open Transaction Runs

/-- The positions, their mirror, the balances and the recorded assets of all users. -/
structure Accounts where
  positions : Store Address (List Position) := ∅
  mirror : Store Address (List Position) := ∅
  balance : Store (Address × Address) Int := ∅
  userAssets : Store Address (List Address) := ∅

def World.accounts (w : World) : Accounts where
  positions := w.engine.positions
  mirror := w.vault.positions
  balance := w.vault.balance
  userAssets := w.vault.userAssets

/-! ## Calls -/

inductive AccountOp where
  | trade (op : EngineOp)
  | chargeTradeFee (env : Env) (user : Address) (marketId : Nat) (size executionPrice : Int)
      (isMaker : Bool)
  | updateFunding (env : Env) (marketId : Nat)
  | migrateImportPositions (env : Env) (entries : List MigratedPositions)
  | vault (op : VaultOp)

namespace AccountOp

def call : AccountOp → Tx Unit
  | trade op => op.call
  | chargeTradeFee env user marketId size executionPrice isMaker =>
    void (Engine.chargeTradeFee env user marketId size executionPrice isMaker)
  | updateFunding env marketId => void (Engine.updateFunding env marketId)
  | migrateImportPositions env entries => void (Engine.migrateImportPositions env entries)
  | vault op => op.call

/-- One successful call; configuration, prices, funding indexes and the other contracts
may be in any state. -/
abbrev Step : Accounts → AccountOp → Accounts → Prop := CallStep AccountOp.call World.accounts

/-- What an import brings meets `P`. -/
def Imports (P : Position → Prop) : AccountOp → Prop
  | migrateImportPositions _ entries => ∀ entry ∈ entries, ∀ p ∈ entry.positions, P p
  | _ => True

end AccountOp

/-! ## Mirrored positions -/

/-- The mirror is the engine's, and no asset is recorded twice. -/
structure Accounts.Mirrored (s : Accounts) : Prop where
  mirrored : s.mirror = s.positions
  nodup : ∀ user assets, s.userAssets.get user = some assets → assets.Nodup

namespace Accounts.Mirrored

variable {s : Accounts} {user : Address} {positions : List Position}

theorem empty : Accounts.Mirrored {} where
  mirrored := rfl
  nodup _ _ h := by cases h

/-- Writing one user's list in both places. -/
theorem set (hs : s.Mirrored) (balance) : Accounts.Mirrored { s with
    positions := s.positions.set user positions, mirror := s.mirror.set user positions, balance } where
  mirrored := by
    show s.mirror.set user positions = s.positions.set user positions
    rw [hs.mirrored]
  nodup := hs.nodup

theorem withBalance (hs : s.Mirrored) (balance) : Accounts.Mirrored { s with balance } :=
  ⟨hs.mirrored, hs.nodup⟩

end Accounts.Mirrored

variable {env : Env} {w w' : World}

theorem mem_loadPositions {user : Address} {p : Position} (h : p ∈ w.engine.loadPositions user) :
    ∃ positions, w.engine.positions.get user = some positions ∧ p ∈ positions := by
  unfold EngineStorage.loadPositions at h
  cases hg : w.engine.positions.get user with
  | none =>
    rw [hg] at h
    cases h
  | some positions =>
    rw [hg] at h
    exact ⟨positions, rfl, h⟩

/-- A trade writes one user's list in the engine and the vault. -/
theorem Engine.Traded.accounts {user : Address} {positions : List Position} {marketId : Nat}
    {isLong : Bool} {change pnl : Int}
    (h : Engine.Traded w w' user positions marketId isLong change pnl) :
    ∃ balance, w'.accounts = { w.accounts with
      positions := w.accounts.positions.set user positions
      mirror := w.accounts.mirror.set user positions, balance } := by
  obtain ⟨_, vault, _, ⟨⟨balance, rfl⟩, _⟩, hv⟩ := h.vault
  exact ⟨balance, by simp only [World.accounts, hv, h.positions_eq]⟩

/-- An import writes users' lists in the engine and the vault. -/
theorem Accounts.Mirrored.imported {entries : List MigratedPositions} (hs : w.accounts.Mirrored) :
    (w.imported entries).accounts.Mirrored := by
  refine World.imported_induct (P := fun v => v.accounts.Mirrored) (fun v entry _ hv => ?_) hs
  exact hv.set v.vault.balance

/-- The vault's own calls leave the positions and their mirror alone. -/
theorem VaultOp.keepsPositions {op : VaultOp} (h : Returns op.call w () w') :
    w'.engine = w.engine ∧ w'.vault.positions = w.vault.positions := by
  cases op with
  | deposit env user asset amount =>
    obtain ⟨_, h⟩ := returns_void.mp h
    obtain ⟨_, _, _, totalDeposited, rfl⟩ := Vault.deposit_effect h
    obtain ⟨_, hrecord⟩ := VaultStorage.recordAsset_rest
      ({ w.vault with totalDeposited }.setBalance user asset (w.vault.balanceOf user asset + amount))
      user asset
    rw [hrecord]
    exact ⟨rfl, rfl⟩
  | withdraw env user asset amount =>
    obtain ⟨_, h⟩ := returns_void.mp h
    obtain ⟨_, _, _, _, rfl⟩ := Vault.withdraw_effect h
    exact ⟨rfl, rfl⟩
  | applyPnl env user asset pnl =>
    obtain ⟨_, h⟩ := returns_void.mp h
    obtain ⟨_, rfl⟩ := Vault.applyPnl_effect h
    exact ⟨rfl, rfl⟩
  | absorbBadDebt env user asset =>
    obtain ⟨_, h⟩ := returns_void.mp h
    cases Vault.absorbBadDebt_effect h with
    | inl hnone =>
      obtain ⟨_, rfl⟩ := hnone
      exact ⟨rfl, rfl⟩
    | inr habsorb =>
      obtain ⟨_, _, _, _, _, _, ⟨⟨_, rfl⟩, _⟩, rfl, _⟩ := habsorb
      exact ⟨rfl, rfl⟩
  | settleDeficit env caller user asset =>
    obtain ⟨_, h⟩ := returns_void.mp h
    obtain ⟨_, _, ⟨⟨_, rfl⟩, _⟩, rfl⟩ := Vault.seizeForDeficitInner_effect (Vault.settleDeficit_inner h)
    exact ⟨rfl, rfl⟩
  | seizeForDeficit env user asset =>
    obtain ⟨_, h⟩ := returns_void.mp h
    obtain ⟨_, _, ⟨⟨_, rfl⟩, _⟩, rfl⟩ := Vault.seizeForDeficitInner_effect (Vault.seizeForDeficit_inner h)
    exact ⟨rfl, rfl⟩
  | migrateImportBalances env entries =>
    obtain ⟨_, h⟩ := returns_void.mp h
    obtain ⟨_, _, _, rfl⟩ := Vault.importBalances_rest (Vault.migrateImportBalances_imports h)
    exact ⟨rfl, rfl⟩

theorem Accounts.Mirrored.loadPositions (hs : w.accounts.Mirrored) (user : Address) :
    w.vault.loadPositions user = w.engine.loadPositions user := by
  have hmirror : w.vault.positions = w.engine.positions := hs.mirrored
  simp only [VaultStorage.loadPositions, EngineStorage.loadPositions, hmirror]

theorem Accounts.Mirrored.indexNodup (hs : w.accounts.Mirrored) : w.vault.IndexNodup := by
  intro user
  unfold VaultStorage.recordedAssets
  cases hg : w.vault.userAssets.get user with
  | none => exact List.nodup_nil
  | some assets => exact hs.nodup user assets hg

theorem Accounts.Mirrored.vault {op : VaultOp} (hs : w.accounts.Mirrored)
    (h : Returns op.call w () w') : w'.accounts.Mirrored := by
  obtain ⟨he, hp⟩ := VaultOp.keepsPositions h
  have hindex' : w'.vault.IndexNodup := VaultOp.Step.nodup hs.indexNodup ⟨w, w', rfl, rfl, h⟩
  refine ⟨?_, ?_⟩
  · show w'.vault.positions = w'.engine.positions
    rw [hp, he]
    exact hs.mirrored
  · intro user assets hg
    have hn := hindex' user
    rwa [VaultStorage.recordedAssets, show w'.vault.userAssets.get user = some assets from hg] at hn

theorem AccountOp.Step.mirrored {s s' : Accounts} {op : AccountOp} (hs : s.Mirrored)
    (h : op.Step s s') : s'.Mirrored := by
  obtain ⟨w, w', rfl, rfl, h⟩ := h
  cases op with
  | trade op =>
    obtain ⟨_, _, _, _, _, _, _, ht⟩ := EngineOp.trade h
    obtain ⟨_, ht, _⟩ := ht.traded
    obtain ⟨balance, haccounts⟩ := ht.accounts
    rw [haccounts]
    exact hs.set balance
  | chargeTradeFee env user marketId size executionPrice isMaker =>
    obtain ⟨_, h⟩ := returns_void.mp h
    cases Engine.chargeTradeFee_effect h with
    | inl hfree =>
      rw [hfree]
      exact hs
    | inr hpaid =>
      obtain ⟨_, _, _, _, _, _, ⟨⟨_, rfl⟩, _⟩, _, ⟨⟨balance, rfl⟩, _⟩, rfl⟩ := hpaid
      exact hs.withBalance balance
  | updateFunding env marketId =>
    obtain ⟨_, h⟩ := returns_void.mp h
    obtain ⟨_, _, _, rfl, ⟨balance, rfl⟩, _⟩ := Engine.updateFunding_effect h
    exact hs.withBalance balance
  | migrateImportPositions env entries =>
    obtain ⟨_, h⟩ := returns_void.mp h
    obtain rfl := Engine.migrateImportPositions_imported h
    have hv : (w.imported entries).accounts.Mirrored := hs.imported
    exact hv
  | vault op => exact hs.vault h

/-- The mirror is the engine's list in every state of a run. -/
theorem mirrored_run {t : List (AccountOp × Accounts)} (hr : IsRun AccountOp.Step {} t) :
    (final {} t).Mirrored := by
  have hstep : ∀ s (op : AccountOp) s', s.Mirrored → op.Step s s' → s'.Mirrored :=
    fun s op s' hs h => AccountOp.Step.mirrored hs h
  exact (invariant_of_step hstep .empty hr).at_final

/-! ## What holds of every position -/

/-- Every stored position meets `P`. -/
def Accounts.Every (P : Position → Prop) (s : Accounts) : Prop :=
  ∀ user positions, s.positions.get user = some positions → ∀ p ∈ positions, P p

namespace Accounts.Every

variable {s : Accounts} {user : Address} {positions : List Position} {P : Position → Prop}

theorem loaded (hs : w.accounts.Every P) : ∀ p ∈ w.engine.loadPositions user, P p := by
  intro p hp
  obtain ⟨l, hl, hmem⟩ := mem_loadPositions hp
  exact hs user l hl p hmem

/-- Writing one user's list. -/
theorem set (hs : s.Every P) (hp : ∀ p ∈ positions, P p) (mirror balance) :
    Accounts.Every P { s with positions := s.positions.set user positions, mirror, balance } := by
  intro u l hl
  simp only [Store.get_set] at hl
  split at hl
  · obtain rfl := Option.some.inj hl
    exact hp
  · exact hs u l hl

theorem traded {marketId : Nat} {isLong : Bool} {change pnl : Int} (hs : w.accounts.Every P)
    (hp : ∀ p ∈ positions, P p) (h : Engine.Traded w w' user positions marketId isLong change pnl) :
    w'.accounts.Every P := by
  obtain ⟨balance, haccounts⟩ := h.accounts
  rw [haccounts]
  exact hs.set hp _ balance

theorem imported {entries : List MigratedPositions} (hp : ∀ entry ∈ entries, ∀ p ∈ entry.positions, P p)
    (hs : w.accounts.Every P) : (w.imported entries).accounts.Every P := by
  refine World.imported_induct (P := fun v => v.accounts.Every P) (fun v entry hentry hv => ?_) hs
  exact hv.set (hp entry hentry) _ v.vault.balance

end Accounts.Every

/-- What trades keep and imports bring, all calls keep. -/
theorem AccountOp.Step.every {P : Position → Prop} {s s' : Accounts} {op : AccountOp}
    (htrade : ∀ {op : EngineOp} {w w' : World}, w.accounts.Every P → Returns op.call w () w' →
      w'.accounts.Every P)
    (hs : s.Every P) (hc : op.Imports P) (h : op.Step s s') : s'.Every P := by
  obtain ⟨w, w', rfl, rfl, h⟩ := h
  have same : w'.engine.positions = w.engine.positions → w'.accounts.Every P := by
    intro he user positions hg
    have hold : w.engine.positions.get user = some positions := he ▸ hg
    exact hs user positions hold
  cases op with
  | trade op => exact htrade hs h
  | chargeTradeFee env user marketId size executionPrice isMaker =>
    obtain ⟨_, h⟩ := returns_void.mp h
    cases Engine.chargeTradeFee_effect h with
    | inl hfree =>
      rw [hfree]
      exact hs
    | inr hpaid =>
      obtain ⟨_, _, _, _, _, _, _, _, _, rfl⟩ := hpaid
      exact same rfl
  | updateFunding env marketId =>
    obtain ⟨_, h⟩ := returns_void.mp h
    obtain ⟨_, _, _, rfl, _⟩ := Engine.updateFunding_effect h
    exact same rfl
  | migrateImportPositions env entries =>
    obtain ⟨_, h⟩ := returns_void.mp h
    obtain rfl := Engine.migrateImportPositions_imported h
    have hv : (w.imported entries).accounts.Every P := Accounts.Every.imported hc hs
    exact hv
  | vault op => exact same (congrArg _ (VaultOp.keepsPositions h).1)

end Kryon

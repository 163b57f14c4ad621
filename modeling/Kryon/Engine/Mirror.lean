import Kryon.Accounts

/-! # The vault's copy of the book

The vault values accounts by its own copy of the position lists and of the funding
indexes, which the engine writes by hand in each of its calls. After every call the
copy is the engine's book, so the vault's health is the health of that book. -/
namespace Kryon
open Transaction Runs

/-! ## The two books -/

/-- What the engine and the vault each hold of positions and funding. -/
structure Books where
  positions : Store Address (List Position) := ∅
  fundingState : Store Nat FundingState := ∅
  vaultPositions : Store Address (List Position) := ∅
  fundingLong : Store Nat Int := ∅
  fundingShort : Store Nat Int := ∅

def World.books (w : World) : Books where
  positions := w.engine.positions
  fundingState := w.engine.fundingState
  vaultPositions := w.vault.positions
  fundingLong := w.vault.fundingLong
  fundingShort := w.vault.fundingShort

/-- An index as the engine would report it: zero where nothing is stored. -/
def Books.indexOf (s : Books) (index : FundingState → Int) (marketId : Nat) : Int :=
  ((s.fundingState.get marketId).map index).getD 0

/-- The vault's lists are the engine's, and its indexes read as the engine's. -/
structure Books.Synced (s : Books) : Prop where
  positions : s.vaultPositions = s.positions
  long : ∀ marketId, (s.fundingLong.get marketId).getD 0 = s.indexOf FundingState.longIndex marketId
  short : ∀ marketId, (s.fundingShort.get marketId).getD 0 = s.indexOf FundingState.shortIndex marketId

/-- The world with the engine's book in place of the vault's copy. -/
def World.onEngineBook (w : World) : World :=
  { w with vault := { w.vault with
      positions := w.engine.positions
      fundingLong := w.engine.fundingState.map FundingState.longIndex
      fundingShort := w.engine.fundingState.map FundingState.shortIndex } }

/-- The vault's lists and indexes are the engine's, and so is every account's health. -/
structure World.Mirrored (w : World) : Prop where
  positions : ∀ user, w.vault.positions.get user = w.engine.positions.get user
  long : ∀ now marketId,
    w.vault.fundingLongOf marketId = (w.engine.fundingStateOf now marketId).longIndex
  short : ∀ now marketId,
    w.vault.fundingShortOf marketId = (w.engine.fundingStateOf now marketId).shortIndex
  health : ∀ env user asset,
    Vault.accountHealth env w user asset = Vault.accountHealth env w.onEngineBook user asset

/-! ## Calls -/

inductive EngineCall where
  | trade (op : EngineOp)
  | chargeTradeFee (env : Env) (user : Address) (marketId : Nat) (size executionPrice : Int)
      (isMaker : Bool)
  | updateFunding (env : Env) (marketId : Nat)
  | setFundingConfig (env : Env) (marketId : Nat) (config : FundingConfig)
  | setFeeConfig (env : Env) (marketId : Nat) (config : FeeConfig)
  | setMarket (env : Env) (config : EngineMarketConfig)
  | migrateImportPositions (env : Env) (entries : List MigratedPositions)

namespace EngineCall

def call : EngineCall → Tx Unit
  | trade op => op.call
  | chargeTradeFee env user marketId size executionPrice isMaker =>
    void (Engine.chargeTradeFee env user marketId size executionPrice isMaker)
  | updateFunding env marketId => void (Engine.updateFunding env marketId)
  | setFundingConfig env marketId config => Engine.setFundingConfig env marketId config
  | setFeeConfig env marketId config => Engine.setFeeConfig env marketId config
  | setMarket env config => Engine.setMarket env config
  | migrateImportPositions env entries => void (Engine.migrateImportPositions env entries)

/-- One successful call; whatever else the contracts hold may change between calls. -/
abbrev Step : Books → EngineCall → Books → Prop := CallStep EngineCall.call World.books

end EngineCall

namespace Engine

variable {env : Env} {w w' : World} {marketId : Nat}

theorem setFundingConfig_effect {config : FundingConfig} {u : Unit}
    (h : Returns (setFundingConfig env marketId config) w u w') :
    w' = { w with engine := { w.engine with
      fundingConfig := w.engine.fundingConfig.set marketId config
      fundingState := w.engine.fundingState.set marketId
        { w.engine.fundingStateOf env.timestamp marketId with lastUpdate := env.timestamp } } } := by
  simp only [setFundingConfig, returns_readWith_bind, returns_lift_bind, store_returns] at h
  obtain ⟨_, _, _, _, h⟩ := h
  exact h

theorem setFeeConfig_effect {config : FeeConfig} {u : Unit}
    (h : Returns (setFeeConfig env marketId config) w u w') :
    ∃ feeConfig, w' = { w with engine := { w.engine with feeConfig } } := by
  simp only [setFeeConfig, returns_readWith_bind, returns_lift_bind, store_returns] at h
  obtain ⟨_, _, _, _, h⟩ := h
  exact ⟨_, h⟩

theorem setMarket_effect {config : EngineMarketConfig} {u : Unit}
    (h : Returns (setMarket env config) w u w') :
    w' = { w with
      engine := { w.engine with market := w.engine.market.set config }
      vault := { w.vault with marketConfig := w.vault.marketConfig.set config.market } } := by
  simp only [setMarket, returns_readWith_bind, returns_lift_bind, returns_store_bind,
    vaultSetMarketConfig] at h
  obtain ⟨_, _, _, _, h⟩ := h
  have hvault := (callVault_returns.mp h).2
  simp only [Vault.setMarketConfig, returns_readWith_bind, returns_lift_bind,
    Vault.store_returns] at hvault
  obtain ⟨_, _, _, _, rfl⟩ := hvault
  rfl

end Engine

/-! ## Each call keeps the copy -/

namespace Books.Synced

variable {s : Books}

theorem empty : Books.Synced {} where
  positions := rfl
  long _ := rfl
  short _ := rfl

/-- Writing one user's list in both places. -/
theorem setPositions (hs : s.Synced) (user : Address) (positions : List Position) :
    Books.Synced { s with
      positions := s.positions.set user positions
      vaultPositions := s.vaultPositions.set user positions } where
  positions := by
    show s.vaultPositions.set user positions = s.positions.set user positions
    rw [hs.positions]
  long := hs.long
  short := hs.short

/-- Writing one market's funding state and both of its indexes. -/
theorem setFunding (hs : s.Synced) (marketId : Nat) (next : FundingState) :
    Books.Synced { s with
      fundingState := s.fundingState.set marketId next
      fundingLong := s.fundingLong.set marketId next.longIndex
      fundingShort := s.fundingShort.set marketId next.shortIndex } where
  positions := hs.positions
  long m := by
    have hm := hs.long m
    by_cases he : m = marketId
    · subst he
      simp only [Books.indexOf, Store.get_set_self, Option.map_some, Option.getD_some]
    · simpa only [Books.indexOf, Store.get_set_ne he] using hm
  short m := by
    have hm := hs.short m
    by_cases he : m = marketId
    · subst he
      simp only [Books.indexOf, Store.get_set_self, Option.map_some, Option.getD_some]
    · simpa only [Books.indexOf, Store.get_set_ne he] using hm

/-- A state with the indexes the vault reads already needs no write there. -/
theorem setFundingState (hs : s.Synced) (marketId : Nat) (next : FundingState)
    (hlong : next.longIndex = s.indexOf FundingState.longIndex marketId)
    (hshort : next.shortIndex = s.indexOf FundingState.shortIndex marketId) :
    Books.Synced { s with fundingState := s.fundingState.set marketId next } where
  positions := hs.positions
  long m := by
    have hm := hs.long m
    by_cases he : m = marketId
    · subst he
      simpa only [Books.indexOf, Store.get_set_self, Option.map_some, Option.getD_some, hlong] using hm
    · simpa only [Books.indexOf, Store.get_set_ne he] using hm
  short m := by
    have hm := hs.short m
    by_cases he : m = marketId
    · subst he
      simpa only [Books.indexOf, Store.get_set_self, Option.map_some, Option.getD_some, hshort] using hm
    · simpa only [Books.indexOf, Store.get_set_ne he] using hm

end Books.Synced

variable {env : Env} {w w' : World}

theorem fundingStateOf_longIndex (w : World) (now marketId : Nat) :
    (w.engine.fundingStateOf now marketId).longIndex =
      w.books.indexOf FundingState.longIndex marketId := by
  simp only [EngineStorage.fundingStateOf, Books.indexOf, World.books]
  cases w.engine.fundingState.get marketId <;> rfl

theorem fundingStateOf_shortIndex (w : World) (now marketId : Nat) :
    (w.engine.fundingStateOf now marketId).shortIndex =
      w.books.indexOf FundingState.shortIndex marketId := by
  simp only [EngineStorage.fundingStateOf, Books.indexOf, World.books]
  cases w.engine.fundingState.get marketId <;> rfl

theorem Books.Synced.trade {user : Address} {before after : Option Position} {marketId : Nat}
    {isLong : Bool} {change pnl : Int} (hs : w.books.Synced)
    (h : Engine.PositionTrade w w' user before after marketId isLong change pnl) :
    w'.books.Synced := by
  obtain ⟨positions, ht, _⟩ := h.traded
  obtain ⟨_, _, he⟩ := ht.engine
  obtain ⟨_, vault, _, ⟨⟨_, rfl⟩, _⟩, hv⟩ := ht.vault
  have hbooks : w'.books = { w.books with
      positions := w.books.positions.set user positions
      vaultPositions := w.books.vaultPositions.set user positions } := by
    simp only [World.books, he, hv]
    rfl
  rw [hbooks]
  exact hs.setPositions user positions

theorem Books.Synced.imported {entries : List MigratedPositions} (hs : w.books.Synced) :
    (w.imported entries).books.Synced := by
  refine World.imported_induct (P := fun v => v.books.Synced) (fun v entry _ hv => ?_) hs
  exact hv.setPositions entry.user entry.positions

theorem EngineCall.Step.synced {s s' : Books} {op : EngineCall} (hs : s.Synced)
    (h : op.Step s s') : s'.Synced := by
  obtain ⟨w, w', rfl, rfl, h⟩ := h
  cases op with
  | trade op =>
    obtain ⟨_, _, _, _, _, _, _, ht⟩ := EngineOp.trade h
    exact hs.trade ht
  | chargeTradeFee env user marketId size executionPrice isMaker =>
    obtain ⟨_, h⟩ := returns_void.mp h
    cases Engine.chargeTradeFee_effect h with
    | inl hfree =>
      rw [hfree]
      exact hs
    | inr hpaid =>
      obtain ⟨_, _, _, _, _, _, ⟨⟨_, rfl⟩, _⟩, _, ⟨⟨_, rfl⟩, _⟩, rfl⟩ := hpaid
      exact hs
  | updateFunding env marketId =>
    obtain ⟨next, h⟩ := returns_void.mp h
    obtain ⟨_, _, _, rfl, ⟨_, rfl⟩, _⟩ := Engine.updateFunding_effect h
    exact hs.setFunding marketId next
  | setFundingConfig env marketId config =>
    obtain rfl := Engine.setFundingConfig_effect h
    exact hs.setFundingState marketId _ (fundingStateOf_longIndex w env.timestamp marketId)
      (fundingStateOf_shortIndex w env.timestamp marketId)
  | setFeeConfig env marketId config =>
    obtain ⟨_, rfl⟩ := Engine.setFeeConfig_effect h
    exact hs
  | setMarket env config =>
    obtain rfl := Engine.setMarket_effect h
    exact hs
  | migrateImportPositions env entries =>
    obtain ⟨_, h⟩ := returns_void.mp h
    obtain rfl := Engine.migrateImportPositions_imported h
    have hv : (w.imported entries).books.Synced := hs.imported
    exact hv

/-! ## Health -/

namespace Vault

variable {user asset : Address} {fundingLong fundingShort : Store Nat Int}

theorem collateralEntries_indexes (assets : List Address) :
    collateralEntries env { w with vault := { w.vault with fundingLong, fundingShort } } user assets =
      collateralEntries env w user assets := by
  induction assets with
  | nil => rfl
  | cons asset rest ih =>
    simp only [collateralEntries, ih]
    rfl

theorem loadMarketsFrom_indexes (hlong : ∀ m, (fundingLong.get m).getD 0 = w.vault.fundingLongOf m)
    (hshort : ∀ m, (fundingShort.get m).getD 0 = w.vault.fundingShortOf m)
    (markets : Store Nat MarketSnapshot) (positions : List Position) :
    loadMarketsFrom env { w with vault := { w.vault with fundingLong, fundingShort } } markets
      positions = loadMarketsFrom env w markets positions := by
  have hmarket : ∀ config, marketSnapshot env
      { w with vault := { w.vault with fundingLong, fundingShort } } config =
        marketSnapshot env w config := by
    intro config
    simp only [marketSnapshot, VaultStorage.fundingLongOf, VaultStorage.fundingShortOf] at hlong hshort ⊢
    rw [hlong, hshort]
    rfl
  induction positions generalizing markets with
  | nil => rfl
  | cons position rest ih => simp only [loadMarketsFrom, hmarket, ih]

/-- Health reads the indexes, not how they are stored. -/
theorem accountHealth_indexes (hlong : ∀ m, (fundingLong.get m).getD 0 = w.vault.fundingLongOf m)
    (hshort : ∀ m, (fundingShort.get m).getD 0 = w.vault.fundingShortOf m) :
    accountHealth env { w with vault := { w.vault with fundingLong, fundingShort } } user asset =
      accountHealth env w user asset := by
  have hsnapshot : accountSnapshot env { w with vault := { w.vault with fundingLong, fundingShort } }
      user asset = accountSnapshot env w user asset := by
    simp only [accountSnapshot, accountSnapshotAllAssets, collateralEntries_indexes]
    rfl
  simp only [accountHealth, hsnapshot, loadMarketsForPositions, loadMarketsFrom_indexes hlong hshort]

end Vault

theorem Books.Synced.mirrored (hs : w.books.Synced) : w.Mirrored where
  positions user := congrArg (fun s => s.get user) hs.positions
  long now marketId := (hs.long marketId).trans (fundingStateOf_longIndex w now marketId).symm
  short now marketId := (hs.short marketId).trans (fundingStateOf_shortIndex w now marketId).symm
  health env user asset := by
    have hbook : w.onEngineBook = { w with vault := { w.vault with
        fundingLong := w.engine.fundingState.map FundingState.longIndex
        fundingShort := w.engine.fundingState.map FundingState.shortIndex } } := by
      have hpositions : w.vault.positions = w.engine.positions := hs.positions
      rw [World.onEngineBook, ← hpositions]
    have hlong : ∀ m, ((w.engine.fundingState.map FundingState.longIndex).get m).getD 0 =
        w.vault.fundingLongOf m := fun m => (hs.long m).symm
    have hshort : ∀ m, ((w.engine.fundingState.map FundingState.shortIndex).get m).getD 0 =
        w.vault.fundingShortOf m := fun m => (hs.short m).symm
    rw [hbook, Vault.accountHealth_indexes hlong hshort]

theorem synced_run {t : List (EngineCall × Books)} (hr : IsRun EngineCall.Step {} t) :
    AllStates Books.Synced {} t := by
  have hstep : ∀ s (op : EngineCall) s', s.Synced → op.Step s s' → s'.Synced :=
    fun s op s' hs h => EngineCall.Step.synced hs h
  exact invariant_of_step hstep .empty hr

/-- **The vault's copy is the engine's book.** In every state of a run of engine calls
from a system without positions the vault holds the engine's position lists and reads
the engine's funding indexes, so the health it computes is the health of the engine's
book; a call that aborts is no step. -/
theorem engine_vault_mirror {t : List (EngineCall × Books)} (hr : IsRun EngineCall.Step {} t) :
    AllStates (fun s => ∀ w : World, w.books = s → w.Mirrored) {} t := by
  refine (synced_run hr).mono fun s hs w hw => ?_
  rw [← hw] at hs
  exact hs.mirrored

namespace Sample

/-- Funding is switched on between two trades, and bob's position is imported. -/
def bookCalls : List EngineCall := [
  .trade (.openPosition (host 1000) alice 1 precision true (100 * precision) .cross),
  .setFundingConfig (host 1000) 1 { imbalanceCoeff := precision, maxRatePerHour := precision },
  .migrateImportPositions (host 1000) [{ user := bob, positions := [{
    positionId := 7, owner := bob, marketId := 1, size := precision, entryPrice := 100 * precision
    margin := 0, isLong := false, lastFundingIndex := 0, mode := .cross }] }],
  .updateFunding (host 1030) 1,
  .trade (.increasePosition (host 1030) alice 1 precision (101 * precision)),
  .updateFunding (host 1060) 1]

def bookRun : List (EngineCall × Books) :=
  viewed World.books (execute EngineCall.call (trading 1000) bookCalls)

def bookAfter : World := final (trading 1000) (execute EngineCall.call (trading 1000) bookCalls)

end Sample

open Sample in
/-- The index has moved, and the vault reads the engine's. -/
theorem engine_vault_mirror_funded :
    (bookAfter.engine.fundingStateOf 1060 1).longIndex = 83333333333333 ∧
      bookAfter.vault.fundingLongOf 1 = (bookAfter.engine.fundingStateOf 1060 1).longIndex := by
  have hr : IsRun EngineCall.Step {} bookRun :=
    isRun_execute (w := trading 1000) (by decide +kernel)
  have hmirror := (engine_vault_mirror hr).at_final bookAfter (final_viewed _ _).symm
  exact ⟨by decide +kernel, hmirror.long 1060 1⟩

end Kryon

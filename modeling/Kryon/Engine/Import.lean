import Kryon.Engine.OpenInterest
import Kryon.Lib.Batch

/-! # Importing positions

An import overwrites the position lists and adds to the open interest. It never takes
out what the lists it overwrites had put in, so the counters are the stored sizes plus
everything that was ever overwritten. -/
namespace Kryon
open Transaction Runs

/-! ## Calls -/

structure ImportOp where
  env : Env
  entries : List MigratedPositions

namespace ImportOp

def call (op : ImportOp) : Tx Unit := void (Engine.migrateImportPositions op.env op.entries)

/-- One successful import, on the position lists and the counters. -/
abbrev Step : EngineStorage → ImportOp → EngineStorage → Prop :=
  CallStep ImportOp.call fun w => w.engine.book

end ImportOp

/-! ## What a batch writes -/

def MigratedPositions.write (entry : MigratedPositions) : Address × List Position :=
  (entry.user, entry.positions)

/-- The positions of a batch, in the order in which they are counted. -/
def batchPositions (entries : List MigratedPositions) : List Position :=
  entries.flatMap MigratedPositions.positions

/-- What the positions add to the total counters. -/
def totalSizes (positions : List Position) : List (Nat × Int) :=
  positions.map fun p => (p.marketId, p.size)

/-- What they add to the counters of one side. -/
def sideSizes (isLong : Bool) (positions : List Position) : List (Nat × Int) :=
  totalSizes (positions.filter fun p => p.isLong = isLong)

/-- The size a list of positions holds on one side of a market. -/
def sizeOf (marketId : Nat) (isLong : Bool) (positions : List Position) : Int :=
  (positions.map (Position.sizeOn marketId isLong)).sum

/-- The next free id after some positions were imported. -/
def nextIdAfterAll (nextId : Nat) (positions : List Position) : Nat :=
  positions.foldl (fun n p => max n (p.positionId + 1)) nextId

/-- The engine after the positions were counted. -/
def EngineStorage.counted (s : EngineStorage) (positions : List Position) : EngineStorage :=
  { s with
    openInterest := s.openInterest.addAll (totalSizes positions)
    longOpenInterest := s.longOpenInterest.addAll (sideSizes true positions)
    shortOpenInterest := s.shortOpenInterest.addAll (sideSizes false positions) }

/-- The engine after a batch: lists overwritten, sizes counted. -/
def EngineStorage.imported (s : EngineStorage) (entries : List MigratedPositions) : EngineStorage :=
  { s.counted (batchPositions entries) with
    positions := s.positions.setAll (entries.map MigratedPositions.write) }

/-- The system after a batch: the vault's lists are overwritten too. -/
def World.imported (w : World) (entries : List MigratedPositions) : World :=
  { w with
    engine := w.engine.imported entries
    vault := { w.vault with
      positions := w.vault.positions.setAll (entries.map MigratedPositions.write) } }

theorem EngineStorage.counted_append (s : EngineStorage) (l l' : List Position) :
    s.counted (l ++ l') = (s.counted l).counted l' := by
  simp only [EngineStorage.counted, sideSizes, totalSizes, List.filter_append, List.map_append,
    Store.addAll_append]

theorem EngineStorage.imported_append (s : EngineStorage) (l l' : List MigratedPositions) :
    s.imported (l ++ l') = (s.imported l).imported l' := by
  have hcounted := EngineStorage.counted_append s (batchPositions l) (batchPositions l')
  simp only [EngineStorage.imported, batchPositions, List.flatMap_append, List.map_append,
    Store.setAll_append] at hcounted ⊢
  rw [hcounted]
  rfl

theorem World.imported_append (w : World) (l l' : List MigratedPositions) :
    w.imported (l ++ l') = (w.imported l).imported l' := by
  simp only [World.imported, EngineStorage.imported_append, List.map_append, Store.setAll_append]

/-- What one user's import keeps, a batch keeps. -/
theorem World.imported_induct {P : World → Prop} {entries : List MigratedPositions}
    (hone : ∀ v, ∀ entry ∈ entries, P v → P (v.imported [entry])) {w : World} (h : P w) :
    P (w.imported entries) := by
  induction entries generalizing w with
  | nil => exact h
  | cons entry rest ih =>
    rw [← List.singleton_append, World.imported_append]
    exact ih (fun v e he => hone v e (List.mem_cons_of_mem _ he)) (hone w entry List.mem_cons_self h)

namespace Engine

variable {env : Env} {w w' : World} {n m k j : Nat}

theorem importPosition_counted {position : Position}
    (h : Returns (importPosition position n) w m w') :
    m = max n (position.positionId + 1) ∧
      w' = { w with engine := w.engine.counted [position] } := by
  simp only [importPosition, returns_readWith_bind, returns_store_bind, returns_lift, checkedAdd_ok,
    and_assoc, exists_and_left, exists_eq_left'] at h
  obtain ⟨_, _, hnext, rfl⟩ := h
  constructor
  · unfold nextIdAfter at hnext
    split at hnext
    · have := (toU64OrTrap_ok.mp hnext).2
      omega
    · have := Except.ok.inj hnext
      omega
  · cases hside : position.isLong <;>
      simp only [EngineStorage.counted, EngineStorage.storeOpenInterest,
        EngineStorage.storeSideOpenInterest, EngineStorage.openInterestOf,
        EngineStorage.sideOpenInterest, sideSizes, totalSizes, List.filter, hside, List.map,
        Store.addAll, decide_true, decide_false, if_true, if_false, Bool.false_eq_true,
        Bool.true_eq_false]

theorem importPositions_counted {positions : List Position}
    (h : Returns (importPositions n positions) w m w') :
    m = nextIdAfterAll n positions ∧ w' = { w with engine := w.engine.counted positions } := by
  induction positions generalizing n w with
  | nil =>
    obtain ⟨rfl, rfl⟩ := returns_pure.mp h
    exact ⟨rfl, rfl⟩
  | cons position rest ih =>
    obtain ⟨_, _, hone, hrest⟩ := returns_bind.mp h
    obtain ⟨rfl, rfl⟩ := importPosition_counted hone
    obtain ⟨hm, rfl⟩ := ih hrest
    refine ⟨hm, ?_⟩
    rw [show w.engine.counted (position :: rest) = _ from
      EngineStorage.counted_append w.engine [position] rest]

/-- One user's import: the engine's list, its mirror and the open interest. -/
theorem importEntries_cons {entry : MigratedPositions} {rest : List MigratedPositions}
    (h : Returns (importEntries env n k (entry :: rest)) w (m, j) w') :
    ∃ k', Returns (importEntries env (nextIdAfterAll n entry.positions) k' rest) (w.imported [entry])
      (m, j) w' := by
  simp only [importEntries, returns_store_bind] at h
  obtain ⟨_, _, hsync, h⟩ := returns_bind.mp h
  obtain ⟨n', _, himport, h⟩ := returns_bind.mp h
  simp only [returns_lift_bind] at h
  obtain ⟨k', _, hrest⟩ := h
  obtain ⟨_, rfl⟩ := vaultSyncPositions_effect hsync
  obtain ⟨rfl, rfl⟩ := importPositions_counted himport
  have hone : w.imported [entry] = { w with
      engine := (w.engine.storePositions entry.user entry.positions).counted entry.positions
      vault := { w.vault with positions := w.vault.positions.set entry.user entry.positions } } := by
    simp only [World.imported, EngineStorage.imported, batchPositions, List.flatMap_singleton]
    rfl
  rw [hone]
  exact ⟨k', hrest⟩

theorem importEntries_imported {entries : List MigratedPositions}
    (h : Returns (importEntries env n k entries) w (m, j) w') :
    m = nextIdAfterAll n (batchPositions entries) ∧ w' = w.imported entries := by
  induction entries generalizing n k w with
  | nil =>
    obtain ⟨hm, rfl⟩ := returns_pure.mp h
    exact ⟨(Prod.mk.inj hm).1.symm, rfl⟩
  | cons entry rest ih =>
    obtain ⟨_, hrest⟩ := importEntries_cons h
    obtain ⟨hm, rfl⟩ := ih hrest
    constructor
    · rw [hm, batchPositions, batchPositions, List.flatMap_cons, nextIdAfterAll, nextIdAfterAll,
        nextIdAfterAll, List.foldl_append]
    · exact (World.imported_append w [entry] rest).symm

/-- An import writes and counts its entries, and moves the id counter past them. -/
theorem migrateImportPositions_imported {entries : List MigratedPositions} {r : Nat}
    (h : Returns (migrateImportPositions env entries) w r w') :
    w' = { w.imported entries with
      engine := { w.engine.imported entries with
        nextPositionId := some (nextIdAfterAll (w.engine.nextPositionId.getD 1)
          (batchPositions entries)) } } := by
  simp only [migrateImportPositions, returns_readWith_bind, returns_get_bind, returns_lift_bind] at h
  obtain ⟨_, _, _, _, h⟩ := h
  obtain ⟨⟨m, k⟩, v, himport, h⟩ := returns_bind.mp h
  simp only [returns_store_bind, returns_pure] at h
  obtain ⟨_, rfl⟩ := h
  obtain ⟨rfl, rfl⟩ := importEntries_imported himport
  rfl

end Engine

/-! ## What the counters count -/

/-- The counters are the sums of the sizes of the stored positions. -/
structure CountersMatch (s : EngineStorage) : Prop where
  total : ∀ marketId, s.openInterestOf marketId =
    s.storedSize marketId true + s.storedSize marketId false
  side : ∀ marketId isLong, s.sideOpenInterest marketId isLong = s.storedSize marketId isLong

/-- The size on one side of a market that entries after the first for a user overwrite,
when they are written one after the other into an engine without positions. -/
def replacedSize (entries : List MigratedPositions) (marketId : Nat) (isLong : Bool) : Int :=
  (∅ : Store Address (List Position)).replaced (sizeOf marketId isLong)
    (entries.map MigratedPositions.write)

/-- The size that a batch brings to one side of a market. -/
def batchSize (entries : List MigratedPositions) (marketId : Nat) (isLong : Bool) : Int :=
  sizeOf marketId isLong (batchPositions entries)

/-- All entries of the batches of a run, in order. -/
def importedEntries (t : List (ImportOp × EngineStorage)) : List MigratedPositions :=
  t.flatMap fun e => e.1.entries

variable {positions : List Position} {entries : List MigratedPositions} {marketId : Nat}
  {isLong : Bool}

theorem addedAt_sideSizes (positions : List Position) (marketId : Nat) (isLong : Bool) :
    Store.addedAt marketId (sideSizes isLong positions) = sizeOf marketId isLong positions := by
  induction positions with
  | nil => rfl
  | cons p rest ih =>
    simp only [Store.addedAt, sideSizes, totalSizes, sizeOf, List.map_cons, List.sum_cons,
      Position.sizeOn] at ih ⊢
    rw [← ih]
    by_cases hside : p.isLong = isLong
    · simp [hside]
    · simp [hside]

/-- What a list brings to the total is what it brings to the two sides. -/
theorem addedAt_totalSizes (positions : List Position) (marketId : Nat) :
    Store.addedAt marketId (totalSizes positions) =
      sizeOf marketId true positions + sizeOf marketId false positions := by
  induction positions with
  | nil => rfl
  | cons p rest ih =>
    simp only [Store.addedAt, totalSizes, sizeOf, List.map_cons, List.sum_cons,
      Position.sizeOn] at ih ⊢
    rw [ih]
    cases p.isLong <;> simp <;> ring

theorem sum_sizeOf (entries : List MigratedPositions) (marketId : Nat) (isLong : Bool) :
    ((entries.map MigratedPositions.write).map fun e => sizeOf marketId isLong e.2).sum =
      batchSize entries marketId isLong := by
  induction entries with
  | nil => rfl
  | cons entry rest ih =>
    rw [List.map_cons, List.map_cons, List.sum_cons, ih, batchSize, batchSize, batchPositions,
      batchPositions, List.flatMap_cons]
    simp only [sizeOf, List.map_append, List.sum_append]
    rfl

namespace EngineStorage

variable {s : EngineStorage}

theorem sideOpenInterest_imported (s : EngineStorage) (entries : List MigratedPositions)
    (marketId : Nat) (isLong : Bool) : (s.imported entries).sideOpenInterest marketId isLong =
      s.sideOpenInterest marketId isLong + batchSize entries marketId isLong := by
  rw [batchSize, ← addedAt_sideSizes]
  cases isLong
  · exact Store.getD_addAll s.shortOpenInterest _ marketId
  · exact Store.getD_addAll s.longOpenInterest _ marketId

theorem openInterestOf_imported (s : EngineStorage) (entries : List MigratedPositions)
    (marketId : Nat) : (s.imported entries).openInterestOf marketId =
      s.openInterestOf marketId + (batchSize entries marketId true + batchSize entries marketId false) := by
  rw [batchSize, batchSize, ← addedAt_totalSizes]
  exact Store.getD_addAll s.openInterest _ marketId

/-- What is stored is what was brought less what was overwritten. -/
theorem storedSize_imported (entries : List MigratedPositions) (marketId : Nat) (isLong : Bool) :
    (({} : EngineStorage).imported entries).storedSize marketId isLong =
      batchSize entries marketId isLong - replacedSize entries marketId isLong := by
  have hsum := Store.sum_setAll (sizeOf marketId isLong) (∅ : Store Address (List Position))
    (entries.map MigratedPositions.write)
  rw [Store.sum_empty, zero_add, sum_sizeOf] at hsum
  exact hsum

/-- The counters exceed the stored sizes by what was overwritten. -/
theorem countersMatch_imported_iff (entries : List MigratedPositions) :
    CountersMatch (({} : EngineStorage).imported entries) ↔
      ∀ marketId isLong, replacedSize entries marketId isLong = 0 := by
  have hside : ∀ m side, (({} : EngineStorage).imported entries).sideOpenInterest m side =
      batchSize entries m side := by
    intro m side
    rw [sideOpenInterest_imported]
    cases side <;> exact zero_add _
  have htotal : ∀ m, (({} : EngineStorage).imported entries).openInterestOf m =
      batchSize entries m true + batchSize entries m false := by
    intro m
    rw [openInterestOf_imported]
    exact zero_add _
  constructor
  · intro h m side
    have hm := h.side m side
    rw [hside, storedSize_imported] at hm
    omega
  · intro h
    constructor
    · intro m
      rw [htotal, storedSize_imported, storedSize_imported, h m true, h m false, sub_zero, sub_zero]
    · intro m side
      rw [hside, storedSize_imported, h m side, sub_zero]

end EngineStorage

/-! ## Importing a batch again -/

theorem le_nextIdAfterAll (n : Nat) (positions : List Position) : n ≤ nextIdAfterAll n positions := by
  induction positions generalizing n with
  | nil => exact le_rfl
  | cons p rest ih => exact (le_max_left _ _).trans (ih _)

theorem lt_nextIdAfterAll {n : Nat} {p : Position} (hp : p ∈ positions) :
    p.positionId < nextIdAfterAll n positions := by
  induction positions generalizing n with
  | nil => cases hp
  | cons q rest ih =>
    cases List.mem_cons.mp hp with
    | inl heq =>
      subst heq
      exact (le_max_right n (p.positionId + 1)).trans (le_nextIdAfterAll _ rest)
    | inr hmem => exact ih hmem

theorem nextIdAfterAll_of_lt {n : Nat} (h : ∀ p ∈ positions, p.positionId < n) :
    nextIdAfterAll n positions = n := by
  induction positions with
  | nil => rfl
  | cons p rest ih =>
    obtain ⟨hp, hrest⟩ := List.forall_mem_cons.mp h
    have hmax : max n (p.positionId + 1) = n := max_eq_left hp
    rw [nextIdAfterAll, List.foldl_cons, hmax]
    exact ih hrest

/-- A batch imported again changes the state exactly when it brings some size: lists
and ids settle at once, the counters count it twice. -/
theorem reimport_iff {env env' : Env} {w w₁ w₂ : World} {r₁ r₂ : Nat}
    (h₁ : Returns (Engine.migrateImportPositions env entries) w r₁ w₁)
    (h₂ : Returns (Engine.migrateImportPositions env' entries) w₁ r₂ w₂) :
    w₂ = w₁ ↔ ∀ marketId isLong, batchSize entries marketId isLong = 0 := by
  obtain rfl := Engine.migrateImportPositions_imported h₁
  obtain rfl := Engine.migrateImportPositions_imported h₂
  have hid : nextIdAfterAll (nextIdAfterAll (w.engine.nextPositionId.getD 1) (batchPositions entries))
      (batchPositions entries) =
        nextIdAfterAll (w.engine.nextPositionId.getD 1) (batchPositions entries) :=
    nextIdAfterAll_of_lt fun p hp => lt_nextIdAfterAll hp
  have hlong := Store.addAll_addAll_iff w.engine.longOpenInterest
    (sideSizes true (batchPositions entries))
  have hshort := Store.addAll_addAll_iff w.engine.shortOpenInterest
    (sideSizes false (batchPositions entries))
  have htotal := Store.addAll_addAll_iff w.engine.openInterest (totalSizes (batchPositions entries))
  simp only [addedAt_sideSizes] at hlong hshort
  simp only [addedAt_totalSizes] at htotal
  constructor
  · intro heq m side
    cases side with
    | true => exact hlong.mp (congrArg (fun w => w.engine.longOpenInterest) heq) m
    | false => exact hshort.mp (congrArg (fun w => w.engine.shortOpenInterest) heq) m
  · intro hzero
    have hl := hlong.mpr fun m => hzero m true
    have hs := hshort.mpr fun m => hzero m false
    have ht := htotal.mpr fun m => by
      have htrue := hzero m true
      have hfalse := hzero m false
      unfold batchSize at htrue hfalse
      rw [htrue, hfalse, add_zero]
    simp only [World.imported, EngineStorage.imported, EngineStorage.counted, Store.setAll_setAll, hl,
      hs, ht, Option.getD_some, hid]

/-! ## Runs of imports -/

theorem ImportOp.Step.imported {s s' : EngineStorage} {op : ImportOp} (h : op.Step s s') :
    s' = s.imported op.entries := by
  obtain ⟨w, w', rfl, rfl, h⟩ := h
  obtain ⟨_, h⟩ := returns_void.mp h
  obtain rfl := Engine.migrateImportPositions_imported h
  rfl

theorem final_imports {s : EngineStorage} {t : List (ImportOp × EngineStorage)}
    (hr : IsRun ImportOp.Step s t) : final s t = s.imported (importedEntries t) := by
  induction t generalizing s with
  | nil => rfl
  | cons e t ih =>
    rw [final_cons, ih hr.2, hr.1.imported, ← EngineStorage.imported_append]
    rfl

/-- **An import may be run again as long as nothing is overwritten.** After any batches,
imported into an engine without positions, the counters are the stored sizes if and only
if on each side of each market the lists that later entries overwrote add up to zero; and
a batch imported twice leaves the state that importing it once leaves if and only if its
sizes add up to zero. -/
theorem migration_rerun_iff {t : List (ImportOp × EngineStorage)} (hr : IsRun ImportOp.Step {} t) :
    (CountersMatch (final {} t) ↔
      ∀ marketId isLong, replacedSize (importedEntries t) marketId isLong = 0) ∧
    ∀ (env env' : Env) (entries : List MigratedPositions) (w w₁ w₂ : World) (r₁ r₂ : Nat),
      Returns (Engine.migrateImportPositions env entries) w r₁ w₁ →
      Returns (Engine.migrateImportPositions env' entries) w₁ r₂ w₂ →
      (w₂ = w₁ ↔ ∀ marketId isLong, batchSize entries marketId isLong = 0) := by
  constructor
  · rw [final_imports hr]
    exact EngineStorage.countersMatch_imported_iff _
  · intro env env' entries w w₁ w₂ r₁ r₂ h₁ h₂
    exact reimport_iff h₁ h₂

namespace Sample

def migrated (user : Address) (positionId : Nat) (size : Int) : MigratedPositions where
  user
  positions := [{
    positionId, owner := user, marketId := 1, size, entryPrice := 100 * precision, margin := 0
    isLong := true, lastFundingIndex := 0, mode := .cross }]

def importBatch (entries : List MigratedPositions) : ImportOp := { env := host 1000, entries }

def importRun (batches : List (List MigratedPositions)) : List (ImportOp × EngineStorage) :=
  viewed (fun w => w.engine.book) (execute ImportOp.call (trading 1000) (batches.map importBatch))

def aliceBatch : List MigratedPositions := [migrated alice 7 (5 * precision)]

def bobBatch : List MigratedPositions := [migrated bob 8 (3 * precision)]

def emptyBatch : List MigratedPositions := [{ user := alice, positions := [] }]

end Sample

open Sample in
/-- Alice's batch is imported twice: her list is stored once and counted twice. -/
theorem reimport_doubles :
    IsRun ImportOp.Step {} (importRun [aliceBatch, aliceBatch]) ∧
    (final {} (importRun [aliceBatch, aliceBatch])).openInterestOf 1 = 10 * precision ∧
    (final {} (importRun [aliceBatch, aliceBatch])).storedSize 1 true = 5 * precision ∧
    (importBatch aliceBatch).call.commit ((importBatch aliceBatch).call.commit (trading 1000)) ≠
      (importBatch aliceBatch).call.commit (trading 1000) := by
  have hr : IsRun ImportOp.Step {} (importRun [aliceBatch, aliceBatch]) :=
    isRun_execute (w := trading 1000) (by decide +kernel)
  refine ⟨hr, by decide +kernel, ?_, fun heq => ?_⟩
  · rw [final_imports hr, EngineStorage.storedSize_imported]
    decide +kernel
  · have hoi := congrArg (fun w => w.engine.openInterestOf 1) heq
    exact absurd hoi (by decide +kernel)

open Sample in
/-- Two users in batches of their own are counted right; an import of an empty list may be
run again. -/
theorem migration_rerun_once :
    CountersMatch (final {} (importRun [aliceBatch, bobBatch])) ∧
    (Engine.migrateImportPositions (host 1000) emptyBatch).commit
      ((Engine.migrateImportPositions (host 1000) emptyBatch).commit (trading 1000)) =
        (Engine.migrateImportPositions (host 1000) emptyBatch).commit (trading 1000) := by
  have hr : IsRun ImportOp.Step {} (importRun [aliceBatch, bobBatch]) :=
    isRun_execute (w := trading 1000) (by decide +kernel)
  have hnone : ∀ m side, replacedSize (importedEntries (importRun [aliceBatch, bobBatch])) m side = 0 :=
    fun m side => rfl
  obtain ⟨hmatch, hagain⟩ := migration_rerun_iff hr
  obtain ⟨_, h₁⟩ := returns_commit (x := Engine.migrateImportPositions (host 1000) emptyBatch)
    (s := trading 1000) (by decide +kernel)
  obtain ⟨_, h₂⟩ := returns_commit (x := Engine.migrateImportPositions (host 1000) emptyBatch)
    (s := (Engine.migrateImportPositions (host 1000) emptyBatch).commit (trading 1000))
    (by decide +kernel)
  exact ⟨hmatch.mpr hnone, (hagain _ _ _ _ _ _ _ _ h₁ h₂).mpr fun _ _ => rfl⟩

end Kryon

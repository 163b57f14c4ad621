import Kryon.Accounts
import Kryon.Deployed
import Kryon.Vault.Transfer

/-! # Moving the accounts to a new deployment

A migration exports every balance and every position of the old contracts and imports
them into a vault and an engine nobody has used. The imports carry the account and the
index of its assets is rebuilt from the balances, but no entry point imports the funding
indexes, against which every position's last index is measured: in the new vault they
are zero. -/
namespace Kryon
open Transaction Runs

/-! ## Calls -/

inductive MigrationOp where
  | importBalances (env : Env) (entries : List MigratedBalance)
  | importPositions (env : Env) (entries : List MigratedPositions)

namespace MigrationOp

def call : MigrationOp → Tx Unit
  | importBalances env entries => void (Vault.migrateImportBalances env entries)
  | importPositions env entries => void (Engine.migrateImportPositions env entries)

/-- One successful import; the rest of the system may be in any state. -/
abbrev Step : VaultStorage → MigrationOp → VaultStorage → Prop := CallStep MigrationOp.call World.vault

def balances : MigrationOp → List MigratedBalance
  | importBalances _ entries => entries
  | importPositions .. => []

def positions : MigrationOp → List MigratedPositions
  | importBalances .. => []
  | importPositions _ entries => entries

end MigrationOp

/-- All balances and all positions that the batches of a run bring. -/
def importedBalances (t : List (MigrationOp × VaultStorage)) : List MigratedBalance :=
  t.flatMap fun e => e.1.balances

def importedPositions (t : List (MigrationOp × VaultStorage)) : List MigratedPositions :=
  t.flatMap fun e => e.1.positions

/-- A configured vault nobody has used. -/
def VaultStorage.fresh (config : VaultStorage) : VaultStorage :=
  { config with
    balance := ∅, positions := ∅, fundingLong := ∅, fundingShort := ∅, userAssets := ∅
    totalDeposited := ∅ }

def MigratedBalance.key (entry : MigratedBalance) : Address × Address := (entry.user, entry.asset)

/-- What the entries add to one balance. -/
def importedAmount (entries : List MigratedBalance) (user asset : Address) : Int :=
  (entries.map fun e => if e.key = (user, asset) then e.amount else 0).sum

/-- The assets that the entries give one user, in their order. -/
def importedAssets (entries : List MigratedBalance) (user : Address) : List Address :=
  (entries.filter fun e => e.user = user ∧ e.amount ≠ 0).map MigratedBalance.asset

theorem mem_importedAssets {entries : List MigratedBalance} {user asset : Address} :
    asset ∈ importedAssets entries user ↔ VaultOp.Imports entries user asset := by
  simp [importedAssets, VaultOp.Imports, and_assoc, and_left_comm]

/-! ## The export -/

/-- The lists hold every user's balances and positions, each once. -/
structure World.Exports (w : World) (balances : List MigratedBalance)
    (positions : List MigratedPositions) : Prop where
  balance : ∀ e ∈ balances, e.amount = w.vault.balanceOf e.user e.asset
  balanceOnce : (balances.map MigratedBalance.key).Nodup
  everyBalance : ∀ user asset, w.vault.collateral.get asset ≠ none →
    w.vault.balanceOf user asset ≠ 0 → (user, asset) ∈ balances.map MigratedBalance.key
  position : ∀ e ∈ positions, e.positions = w.engine.loadPositions e.user
  positionOnce : (positions.map MigratedPositions.user).Nodup
  everyPosition : ∀ user, w.engine.loadPositions user ≠ [] →
    user ∈ positions.map MigratedPositions.user

theorem importedAmount_of_absent {entries : List MigratedBalance} {user asset : Address}
    (h : (user, asset) ∉ entries.map MigratedBalance.key) : importedAmount entries user asset = 0 := by
  induction entries with
  | nil => rfl
  | cons entry rest ih =>
    rw [List.map_cons, List.mem_cons, not_or] at h
    have hrest : importedAmount rest user asset = 0 := ih h.2
    rw [importedAmount, List.map_cons, List.sum_cons, if_neg (Ne.symm h.1), zero_add]
    exact hrest

theorem importedAmount_of_mem {entries : List MigratedBalance} {entry : MigratedBalance}
    (hn : (entries.map MigratedBalance.key).Nodup) (hmem : entry ∈ entries) :
    importedAmount entries entry.user entry.asset = entry.amount := by
  induction entries with
  | nil => cases hmem
  | cons first rest ih =>
    rw [List.map_cons, List.nodup_cons] at hn
    rw [importedAmount, List.map_cons, List.sum_cons]
    cases List.mem_cons.mp hmem with
    | inl heq =>
      subst heq
      have hrest := importedAmount_of_absent hn.1
      rw [importedAmount] at hrest
      have hkey : entry.key = (entry.user, entry.asset) := rfl
      rw [if_pos hkey, hrest, add_zero]
    | inr hin =>
      have hne : first.key ≠ (entry.user, entry.asset) := by
        intro he
        exact hn.1 (he ▸ List.mem_map_of_mem hin)
      have hrest := ih hn.2 hin
      rw [importedAmount] at hrest
      rw [if_neg hne, hrest, zero_add]

theorem importedAssets_nodup {entries : List MigratedBalance} (user : Address)
    (h : (entries.map MigratedBalance.key).Nodup) : (importedAssets entries user).Nodup := by
  have hkeys : (entries.filter fun e => e.user = user ∧ e.amount ≠ 0).map MigratedBalance.key =
      (importedAssets entries user).map fun a => (user, a) := by
    rw [importedAssets, List.map_map]
    refine List.map_congr_left fun e he => ?_
    have huser : e.user = user := (of_decide_eq_true (List.mem_filter.mp he).2).1
    rw [MigratedBalance.key, huser]
    rfl
  exact List.Nodup.of_map _ (hkeys ▸ h.sublist (List.filter_sublist.map _))

/-- An export brings each listed balance as it was. -/
theorem World.Exports.importedAmount {w : World} {balances : List MigratedBalance}
    {positions : List MigratedPositions} (h : w.Exports balances positions) {user asset : Address}
    (hc : w.vault.collateral.get asset ≠ none) :
    importedAmount balances user asset = w.vault.balanceOf user asset := by
  by_cases hmem : (user, asset) ∈ balances.map MigratedBalance.key
  · obtain ⟨entry, hin, hkey⟩ := List.mem_map.mp hmem
    obtain ⟨rfl, rfl⟩ := Prod.mk.inj hkey
    rw [importedAmount_of_mem h.balanceOnce hin, h.balance entry hin]
  · rw [importedAmount_of_absent hmem]
    by_contra hne
    exact hmem (h.everyBalance user asset hc (Ne.symm hne))

/-! ## The import -/

namespace VaultStorage

/-- `s'` is `s` after the import of the balances and of the positions, which are those
that `exported` gives for each user. -/
structure Seeded (exported : Address → List Position) (s s' : VaultStorage)
    (balances : List MigratedBalance) (positions : List MigratedPositions) : Prop where
  records : s.Records s' (VaultOp.Imports balances)
  balanceOf : ∀ u a, s'.balanceOf u a = s.balanceOf u a + importedAmount balances u a
  recorded : ∀ u, (s.recordedAssets u ++ importedAssets balances u).Nodup →
    s'.recordedAssets u = s.recordedAssets u ++ importedAssets balances u
  positions : ∀ u, s'.loadPositions u =
    if u ∈ positions.map MigratedPositions.user then exported u else s.loadPositions u
  fundingLong : s'.fundingLong = s.fundingLong
  fundingShort : s'.fundingShort = s.fundingShort

variable {exported : Address → List Position} {s s' s'' : VaultStorage}
  {balances balances' : List MigratedBalance} {positions positions' : List MigratedPositions}

theorem Seeded.refl (s : VaultStorage) : s.Seeded exported s [] [] where
  records := (Records.refl s).congr fun u a => by simp [VaultOp.Imports]
  balanceOf u a := (add_zero _).symm
  recorded u _ := (List.append_nil _).symm
  positions u := rfl
  fundingLong := rfl
  fundingShort := rfl

/-- Batches compose. -/
theorem Seeded.trans (h : s.Seeded exported s' balances positions)
    (h' : s'.Seeded exported s'' balances' positions') :
    s.Seeded exported s'' (balances ++ balances') (positions ++ positions') where
  records := by
    refine (h.records.trans h'.records).congr fun u a => ?_
    simp only [VaultOp.Imports, List.mem_append, or_and_right, exists_or]
  balanceOf u a := by
    rw [h'.balanceOf, h.balanceOf, importedAmount, importedAmount, importedAmount, List.map_append,
      List.sum_append, add_assoc]
  recorded u hn := by
    have happend : importedAssets (balances ++ balances') u =
        importedAssets balances u ++ importedAssets balances' u := by
      simp only [importedAssets, List.filter_append, List.map_append]
    rw [happend, ← List.append_assoc] at hn ⊢
    have hfirst := h.recorded u hn.of_append_left
    rw [h'.recorded u (hfirst ▸ hn), hfirst]
  positions u := by
    rw [h'.positions, h.positions, List.map_append]
    by_cases hin' : u ∈ positions'.map MigratedPositions.user
    · rw [if_pos hin', if_pos (List.mem_append_right _ hin')]
    · rw [if_neg hin']
      by_cases hin : u ∈ positions.map MigratedPositions.user
      · rw [if_pos hin, if_pos (List.mem_append_left _ hin)]
      · rw [if_neg hin, if_neg fun hmem => (List.mem_append.mp hmem).elim hin hin']
  fundingLong := h'.fundingLong.trans h.fundingLong
  fundingShort := h'.fundingShort.trans h.fundingShort

end VaultStorage

open VaultStorage

variable {env : Env} {w w' : World} {exported : Address → List Position}

theorem Vault.importBalances_balanceOf {entries : List MigratedBalance} {n m : Nat}
    (h : Returns (Vault.importBalances n entries) w m w') (u a : Address) :
    w'.vault.balanceOf u a = w.vault.balanceOf u a + importedAmount entries u a := by
  induction entries generalizing n w with
  | nil =>
    obtain ⟨_, rfl⟩ := returns_pure.mp h
    exact (add_zero _).symm
  | cons entry rest ih =>
    obtain ⟨_, v, hone, hrest⟩ := returns_bind.mp h
    have hfirst : v.vault.balanceOf u a =
        w.vault.balanceOf u a + if entry.key = (u, a) then entry.amount else 0 := by
      cases Vault.importBalance_effect hone with
      | inl hskip =>
        obtain ⟨hz, rfl⟩ := hskip
        rw [hz, ite_self, add_zero]
      | inr hcredit =>
        obtain ⟨_, totalDeposited, rfl⟩ := hcredit
        show ((w.vault.setBalance entry.user entry.asset _).recordAsset entry.user
          entry.asset).balanceOf u a = _
        rw [recordAsset_balanceOf, (Credited.setBalance w.vault _ _ _).balanceOf]
        simp only [MigratedBalance.key, Prod.mk.injEq, eq_comm (a := u), eq_comm (a := a)]
        split
        · rfl
        · rw [add_zero]
    rw [ih hrest, hfirst, importedAmount, importedAmount, List.map_cons, List.sum_cons, add_assoc]

theorem Vault.importBalances_recordedAssets {entries : List MigratedBalance} {n m : Nat}
    (h : Returns (Vault.importBalances n entries) w m w') (u : Address)
    (hn : (w.vault.recordedAssets u ++ importedAssets entries u).Nodup) :
    w'.vault.recordedAssets u = w.vault.recordedAssets u ++ importedAssets entries u := by
  induction entries generalizing n w with
  | nil =>
    obtain ⟨_, rfl⟩ := returns_pure.mp h
    exact (List.append_nil _).symm
  | cons entry rest ih =>
    obtain ⟨_, v, hone, hrest⟩ := returns_bind.mp h
    have hfirst : v.vault.recordedAssets u ++ importedAssets rest u =
        w.vault.recordedAssets u ++ importedAssets (entry :: rest) u := by
      cases Vault.importBalance_effect hone with
      | inl hskip =>
        obtain ⟨hz, rfl⟩ := hskip
        rw [importedAssets, importedAssets, List.filter_cons_of_neg (by simp [hz])]
      | inr hcredit =>
        obtain ⟨hz, totalDeposited, rfl⟩ := hcredit
        have hrecord := recordAsset_recordedAssets (s := w.vault.setBalance entry.user entry.asset
          (w.vault.balanceOf entry.user entry.asset + entry.amount)) entry.user entry.asset u
        show (recordAsset _ entry.user entry.asset).recordedAssets u ++ _ = _
        rw [hrecord]
        by_cases hu : u = entry.user
        · have hlist : importedAssets (entry :: rest) u = entry.asset :: importedAssets rest u := by
            rw [importedAssets, List.filter_cons_of_pos (by simp [hu, hz]), List.map_cons]
            rfl
          rw [hlist] at hn ⊢
          subst hu
          have hnew : entry.asset ∉ w.vault.recordedAssets entry.user := fun hmem =>
            (List.nodup_append.mp hn).2.2 _ hmem _ List.mem_cons_self rfl
          rw [if_pos ⟨rfl, hnew⟩, List.append_assoc]
          rfl
        · rw [if_neg fun h => hu h.1, importedAssets, importedAssets,
            List.filter_cons_of_neg (by simp [Ne.symm hu])]
          rfl
    rw [ih hrest (hfirst ▸ hn), hfirst]

theorem World.imported_seeded {entries : List MigratedPositions}
    (hexp : ∀ e ∈ entries, e.positions = exported e.user) :
    w.vault.Seeded exported (w.imported entries).vault [] entries := by
  induction entries generalizing w with
  | nil => exact .refl _
  | cons entry rest ih =>
    obtain ⟨hentry, hrest⟩ := List.forall_mem_cons.mp hexp
    have hone : w.vault.Seeded exported { w.vault with
        positions := w.vault.positions.set entry.user entry.positions } [] [entry] := by
      have hrefl : w.vault.Seeded exported w.vault [] [] := .refl _
      obtain ⟨hc, hi, hm, hb, hn⟩ := hrefl.records
      refine ⟨⟨hc, hi, hm, hb, hn⟩, fun u a => (add_zero _).symm, hrefl.recorded, ?_, rfl, rfl⟩
      intro u
      simp only [loadPositions, Store.get_set, List.map_cons, List.map_nil, List.mem_singleton]
      split
      · rename_i hu
        rw [hu, Option.getD_some, hentry]
      · rfl
    rw [← List.singleton_append, World.imported_append]
    exact hone.trans (ih (w := w.imported [entry]) hrest)

theorem MigrationOp.Step.seeded {s s' : VaultStorage} {op : MigrationOp}
    (hexp : ∀ e ∈ op.positions, e.positions = exported e.user) (h : op.Step s s') :
    s.Seeded exported s' op.balances op.positions := by
  obtain ⟨w, w', rfl, rfl, h⟩ := h
  cases op with
  | importBalances env entries =>
    obtain ⟨_, h⟩ := returns_void.mp h
    have himport := Vault.migrateImportBalances_imports h
    have hrecords := Vault.importBalances_records himport
    have hbalance := Vault.importBalances_balanceOf himport
    have hrecorded := Vault.importBalances_recordedAssets himport
    obtain ⟨_, _, _, rfl⟩ := Vault.importBalances_rest himport
    exact ⟨hrecords, hbalance, hrecorded, fun u => rfl, rfl, rfl⟩
  | importPositions env entries =>
    obtain ⟨_, h⟩ := returns_void.mp h
    obtain rfl := Engine.migrateImportPositions_imported h
    have hseeded : w.vault.Seeded exported (w.imported entries).vault [] entries :=
      World.imported_seeded hexp
    exact hseeded

/-- A run of batches seeds what all its batches bring. -/
theorem seeded_run {s : VaultStorage} {t : List (MigrationOp × VaultStorage)}
    (hexp : ∀ e ∈ importedPositions t, e.positions = exported e.user)
    (hr : IsRun MigrationOp.Step s t) :
    s.Seeded exported (final s t) (importedBalances t) (importedPositions t) := by
  induction t generalizing s with
  | nil => exact .refl s
  | cons e t ih =>
    simp only [importedPositions, List.flatMap_cons, List.mem_append] at hexp
    have hone := MigrationOp.Step.seeded (fun p hp => hexp p (.inl hp)) hr.1
    have hrest := ih (fun p hp => hexp p (.inr hp)) hr.2
    simp only [importedPositions, importedBalances, List.flatMap_cons]
    exact hone.trans hrest

/-! ## Health after the move -/

namespace World.Exports

variable {config : VaultStorage} {balances : List MigratedBalance}
  {positions : List MigratedPositions} {user asset : Address}

/-- The new vault mirrors the positions of the old engine. -/
theorem loadPositions (hexp : w.Exports balances positions)
    (hseed : config.fresh.Seeded w.engine.loadPositions w'.vault balances positions)
    (user : Address) : w'.vault.loadPositions user = w.engine.loadPositions user := by
  rw [hseed.positions]
  split
  · rfl
  · rename_i hmem
    have hnone : w.engine.loadPositions user = [] := by
      by_contra hne
      exact hmem (hexp.everyPosition user hne)
    rw [hnone]
    rfl

theorem balanceOf (hexp : w.Exports balances positions)
    (hseed : config.fresh.Seeded w.engine.loadPositions w'.vault balances positions)
    (hc : w.vault.collateral.get asset ≠ none) :
    w'.vault.balanceOf user asset = w.vault.balanceOf user asset := by
  have hfresh : config.fresh.balanceOf user asset = 0 := rfl
  rw [hseed.balanceOf, hfresh, zero_add, hexp.importedAmount hc]

/-- The new list is the export's, and there is none where the export has nothing. -/
theorem recordedAssets (hexp : w.Exports balances positions)
    (hseed : config.fresh.Seeded w.engine.loadPositions w'.vault balances positions) (user : Address) :
    w'.vault.userAssets.get user =
      if importedAssets balances user = [] then none else some (importedAssets balances user) := by
  have hlist : w'.vault.recordedAssets user = importedAssets balances user :=
    hseed.recorded user (importedAssets_nodup user hexp.balanceOnce)
  have hsome := hseed.records.isSome user
  cases hget : w'.vault.userAssets.get user with
  | none =>
    rw [VaultStorage.recordedAssets, hget, Option.getD_none] at hlist
    rw [if_pos hlist.symm]
  | some assets =>
    rw [VaultStorage.recordedAssets, hget, Option.getD_some] at hlist
    rw [hget] at hsome
    obtain ⟨a, ha⟩ := (hsome.mp rfl).resolve_left (by simp [VaultStorage.fresh])
    rw [if_neg (List.ne_nil_of_mem (mem_importedAssets.mpr ha)), hlist]

/-- Every balance in listed collateral was exported. -/
theorem imported (hexp : w.Exports balances positions) (hc : w.vault.collateral.get asset ≠ none)
    (hb : w.vault.balanceOf user asset ≠ 0) : asset ∈ importedAssets balances user := by
  obtain ⟨entry, hin, hkey⟩ := List.mem_map.mp (hexp.everyBalance user asset hc hb)
  obtain ⟨rfl, rfl⟩ := Prod.mk.inj hkey
  refine mem_importedAssets.mpr ⟨entry, hin, ?_, rfl, rfl⟩
  rwa [hexp.balance entry hin]

theorem imported_of_contribution (hexp : w.Exports balances positions)
    (h : Vault.contributionOf env w user asset ≠ 0) : asset ∈ importedAssets balances user :=
  hexp.imported (fun hc => h (Vault.contributionOf_of_unlisted hc))
    fun hb => h (Vault.contributionOf_of_zero hb)

/-- Where nothing was exported, the asset asked about is worth nothing. -/
theorem soleContribution (hexp : w.Exports balances positions) (hnone : importedAssets balances user = [])
    {net : Int} (h : Vault.soleContribution env w user asset = .ok net) : net = 0 := by
  have hzero : Vault.soleContributionOf env w user asset = 0 := by
    by_cases hc : w.vault.collateral.get asset = none
    · exact Vault.soleContributionOf_of_unlisted hc
    · refine Vault.soleContributionOf_of_zero (not_not.mp fun hb => ?_)
      exact List.not_mem_nil (hnone ▸ hexp.imported hc hb)
  rwa [Vault.soleContributionOf, h] at hzero

/-- What the export is worth, in its order, is what all balances are worth. -/
theorem sum_contributions (hexp : w.Exports balances positions) (env : Env) (user : Address) :
    ((importedAssets balances user).map (Vault.contributionOf env w user)).sum =
      ∑ᶠ a, Vault.contributionOf env w user a := by
  rw [← finsum_mem_list (importedAssets_nodup user hexp.balanceOnce)]
  refine finsum_congr fun a => ?_
  split
  · rfl
  · rename_i hmem
    exact (not_not.mp fun hne => hmem (hexp.imported_of_contribution hne)).symm

end World.Exports

/-- What a position makes against an index of zero. -/
def Vault.unrealizedFromZero (env : Env) (w : World) (p : Position) : Int :=
  p.pnlAt (Vault.markOf env w p.marketId) + p.unsettledFunding 0

/-- The export has prices, and no sum over it leaves the range: every asset of it has a value, or
the asset asked about where it has none, and the positions are measured from zero. -/
structure World.Computes (env : Env) (w : World) (balances : List MigratedBalance)
    (user asset : Address) : Prop where
  priced : ∀ a ∈ importedAssets balances user, ∃ net, Vault.contribution env w user a = .ok net
  asked : importedAssets balances user = [] → ∃ net, Vault.soleContribution env w user asset = .ok net
  collateral : SumsInRange 0 ((importedAssets balances user).map (Vault.contributionOf env w user))
  funding : ∀ p ∈ w.engine.loadPositions user, p.InRange 0 (Vault.unrealizedFromZero env w p)
  totals : TotalsInRange (∑ᶠ a, Vault.countedOf env w user asset a) (Vault.unrealizedFromZero env w)
    (w.engine.loadPositions user)

/-- The collateral that the new vault adds up. -/
theorem World.Exports.addsUpTo {config : VaultStorage} {balances : List MigratedBalance}
    {positions : List MigratedPositions} {user asset : Address} {value : Int}
    (hexp : w.Exports balances positions)
    (hseed : config.fresh.Seeded w.engine.loadPositions w'.vault balances positions)
    (hsame : SameConfiguration w w')
    (howner : Vault.requireOwner user (w'.vault.loadPositions user) = .ok ()) :
    Vault.AddsUpTo env w' user asset value ↔
      (∀ a ∈ importedAssets balances user, ∃ net, Vault.contribution env w user a = .ok net) ∧
      (importedAssets balances user = [] → ∃ net, Vault.soleContribution env w user asset = .ok net) ∧
      SumsInRange 0 ((importedAssets balances user).map (Vault.contributionOf env w user)) ∧
      value = ∑ᶠ a, Vault.contributionOf env w user a := by
  have hbalance : ∀ a, w.vault.collateral.get a ≠ none →
      w'.vault.balanceOf user a = w.vault.balanceOf user a := fun a hc => hexp.balanceOf hseed hc
  have hlist := hexp.recordedAssets hseed user
  rw [← hexp.sum_contributions env user]
  by_cases hnone : importedAssets balances user = []
  · rw [if_pos hnone] at hlist
    rw [Vault.addsUpTo_sole hlist howner, Vault.soleContribution_same hsame (hbalance asset), hnone]
    constructor
    · rintro ⟨hsole, _⟩
      exact ⟨by simp, fun _ => ⟨value, hsole⟩, trivial, hexp.soleContribution hnone hsole⟩
    · rintro ⟨_, hasked, _, rfl⟩
      obtain ⟨net, hsole⟩ := hasked rfl
      obtain rfl := hexp.soleContribution hnone hsole
      exact ⟨hsole, inI128_zero⟩
  · rw [if_neg hnone] at hlist
    have hcontribution : ∀ a, Vault.contribution env w' user a = Vault.contribution env w user a :=
      fun a => Vault.contribution_same hsame (hbalance a)
    have hcontributionOf : Vault.contributionOf env w' user = Vault.contributionOf env w user := by
      funext a
      rw [Vault.contributionOf, hcontribution]
      rfl
    simp only [Vault.addsUpTo_recorded hlist howner, hcontribution, hcontributionOf, hnone,
      false_imp_iff, true_and]

/-- **Health survives the move exactly when funding was settled at zero, no asset was left out and
the export computes.** The old system is in any state a run of the two contracts reaches; its
balances and positions are imported, in any batches, into a vault nobody has used. A user's health
is then the old one if and only if the user's positions owe the same funding at the old indexes as
at zero, what the old index left out of the user's balances is worth nothing, the export has prices
and sums in range, and, where a position is isolated, the liquidation flag says what it said. -/
theorem migration_preserves_health_iff {t : List (AccountOp × Accounts)}
    (hr : IsRun AccountOp.Step {} t) {config : VaultStorage} {t' : List (MigrationOp × VaultStorage)}
    (hr' : IsRun MigrationOp.Step config.fresh t') {w w' : World} (hw : w.accounts = final {} t)
    (hw' : w'.vault = final config.fresh t') (hsame : SameConfiguration w w')
    (hexp : w.Exports (importedBalances t') (importedPositions t')) (env : Env)
    (user asset : Address) (health : AccountHealth)
    (h : Vault.accountHealth env w user asset = .ok health) :
    Vault.accountHealth env w' user asset = .ok health ↔
      ((w.engine.loadPositions user).map fun p => p.unsettledFunding 0).sum =
        w.vault.unsettledFunding (w.engine.loadPositions user) ∧
      ∑ᶠ a, Vault.leftOutOf env w user asset a = 0 ∧
      w.Computes env (importedBalances t') user asset ∧
      ((∃ p ∈ w.engine.loadPositions user, p.mode = .isolated) →
        (LiquidatableWith (∑ᶠ a, Vault.countedOf env w user asset a) (Vault.unrealizedFromZero env w)
          (Vault.maintenanceOf env w) (w.engine.loadPositions user) ↔
        LiquidatableWith (∑ᶠ a, Vault.countedOf env w user asset a) (Vault.unrealizedOf env w)
          (Vault.maintenanceOf env w) (w.engine.loadPositions user))) := by
  have hmirrored : w.accounts.Mirrored := by
    rw [hw]
    exact mirrored_run hr
  have hseed : config.fresh.Seeded w.engine.loadPositions w'.vault (importedBalances t')
      (importedPositions t') := by
    rw [hw']
    exact seeded_run hexp.position hr'
  have hpos := hmirrored.loadPositions user
  have hpos' := (hexp.loadPositions hseed user).trans hpos.symm
  have howner : Vault.requireOwner user (w'.vault.loadPositions user) = .ok () := by
    rw [hpos']
    exact Vault.accountHealth_owner h
  have hfresh : ∀ p, w'.vault.fundingIndexOf p = 0 := by
    intro p
    simp only [fundingIndexOf, fundingLongOf, fundingShortOf, hseed.fundingLong, hseed.fundingShort]
    cases p.isLong <;> rfl
  have hnew : Vault.unrealizedOf env w' = Vault.unrealizedFromZero env w := by
    funext p
    rw [Vault.unrealizedOf, Vault.markOf_same hsame, hfresh]
    rfl
  have hfunding : ((w.engine.loadPositions user).map (Vault.unrealizedFromZero env w)).sum =
        ((w.engine.loadPositions user).map (Vault.unrealizedOf env w)).sum ↔
      ((w.engine.loadPositions user).map fun p => p.unsettledFunding 0).sum =
        w.vault.unsettledFunding (w.engine.loadPositions user) := by
    unfold Vault.unrealizedFromZero Vault.unrealizedOf unsettledFunding
    rw [List.sum_map_add, List.sum_map_add, add_right_inj]
  have hleft : ∑ᶠ a, Vault.leftOutOf env w user asset a = 0 ↔
      ∑ᶠ a, Vault.countedOf env w user asset a = ∑ᶠ a, Vault.contributionOf env w user a := by
    rw [Vault.finsum_leftOutOf, sub_eq_zero, eq_comm]
  rw [Vault.accountHealth_transfer hsame hpos' h, hexp.addsUpTo hseed hsame howner, hnew, hpos,
    Vault.accountHealth_counted (hmirrored.indexNodup user) h, hfunding, hleft]
  simp only [hfresh]
  constructor
  · rintro ⟨⟨hpriced, hasked, hcollateral, hvalue⟩, hfits, htotals, hsums, hflags⟩
    exact ⟨hsums, hvalue, ⟨hpriced, hasked, hcollateral, hfits, htotals⟩, fun _ => hflags⟩
  · rintro ⟨hsums, hvalue, ⟨hpriced, hasked, hcollateral, hfits, htotals⟩, hflags⟩
    refine ⟨⟨hpriced, hasked, hcollateral, hvalue⟩, hfits, htotals, hsums, ?_⟩
    by_cases hisolated : ∃ p ∈ w.engine.loadPositions user, p.mode = .isolated
    · exact hflags hisolated
    · refine LiquidatableWith.cross (fun p hp => ?_) (hfunding.mpr hsums)
      cases hmode : p.mode with
      | cross => rfl
      | isolated => exact absurd ⟨p, hp, hmode⟩ hisolated

/-! ## A market that has accrued -/

namespace Sample

/-- The mark stands above the oracle, and the market has a funding rate. -/
def premium : World :=
  let w := world (995 * 10 ^ 17) 1000
  { w with engine := { w.engine with
      fundingConfig := (∅ : Store Nat FundingConfig).set 1
        { imbalanceCoeff := precision, maxRatePerHour := precision } } }

/-- Alice and bob deposit; she buys what he sells. -/
def firstTrades : List AccountOp := [
  .vault (.deposit (host 1000) alice usdc (1000 * precision)),
  .vault (.deposit (host 1000) bob usdc (1000 * precision)),
  .trade (.openPosition (host 1000) alice 1 precision true (100 * precision) .cross),
  .trade (.openPosition (host 1000) bob 1 precision false (100 * precision) .cross)]

def accruals : List AccountOp := [.updateFunding (host 1000) 1, .updateFunding (host 1060) 1]

def oldAfter (ops : List AccountOp) : World := final premium (execute AccountOp.call premium ops)

def oldRun (ops : List AccountOp) : List (AccountOp × Accounts) :=
  viewed World.accounts (execute AccountOp.call premium ops)

/-- The two accounts' export, the positions in a batch of their own each. -/
def batches (w : World) : List MigrationOp := [
  .importBalances (host 1060) [
    { user := alice, asset := usdc, amount := 1000 * precision },
    { user := bob, asset := usdc, amount := 1000 * precision }],
  .importPositions (host 1060) [{ user := alice, positions := w.engine.loadPositions alice }],
  .importPositions (host 1060) [{ user := bob, positions := w.engine.loadPositions bob }]]

def newAfter (w : World) : World := final premium (execute MigrationOp.call premium (batches w))

def newRun (w : World) : List (MigrationOp × VaultStorage) :=
  viewed World.vault (execute MigrationOp.call premium (batches w))

def equityOf (w : World) (user : Address) : Option Int :=
  (Vault.accountHealth (host 1060) w user usdc).toOption.map AccountHealth.equity

/-- The export of a world where only the two have deposited and traded. -/
theorem exports_batches {w : World} {l m : List Position}
    (hb : ∀ k, w.vault.balance.get k = if k = (bob, usdc) then some (1000 * precision)
      else if k = (alice, usdc) then some (1000 * precision) else none)
    (hp : ∀ u, w.engine.positions.get u = if u = bob then some m
      else if u = alice then some l else none) :
    w.Exports (importedBalances (newRun w)) (importedPositions (newRun w)) := by
  have hbalances : importedBalances (newRun w) = [
      { user := alice, asset := usdc, amount := 1000 * precision },
      { user := bob, asset := usdc, amount := 1000 * precision }] := rfl
  have hpositions : importedPositions (newRun w) = [
      { user := alice, positions := w.engine.loadPositions alice },
      { user := bob, positions := w.engine.loadPositions bob }] := rfl
  have hne : alice ≠ bob := by decide
  rw [hbalances, hpositions]
  refine ⟨?_, ?_, ?_, ?_, ?_, ?_⟩
  · intro e he
    simp only [List.mem_cons, List.not_mem_nil, or_false] at he
    cases he with
    | inl he => rw [he]; simp [VaultStorage.balanceOf, hb, hne]
    | inr he => rw [he]; simp [VaultStorage.balanceOf, hb]
  · decide
  · intro user asset _ hne
    simp only [VaultStorage.balanceOf, hb] at hne
    by_cases hbob : (user, asset) = (bob, usdc)
    · rw [hbob]
      decide
    · rw [if_neg hbob] at hne
      by_cases halice : (user, asset) = (alice, usdc)
      · rw [halice]
        decide
      · rw [if_neg halice] at hne
        exact absurd rfl hne
  · intro e he
    simp only [List.mem_cons, List.not_mem_nil, or_false] at he
    cases he with
    | inl he => rw [he]
    | inr he => rw [he]
  · show [alice, bob].Nodup
    decide
  · intro user hne
    show user ∈ [alice, bob]
    simp only [EngineStorage.loadPositions, hp] at hne
    by_cases hbob : user = bob
    · rw [hbob]
      decide
    · rw [if_neg hbob] at hne
      by_cases halice : user = alice
      · rw [halice]
        decide
      · rw [if_neg halice] at hne
        exact absurd rfl hne

end Sample

open Sample in
/-- One accrual moves the old indexes; the new vault measures both positions from zero. -/
theorem migration_loses_funding :
    IsRun AccountOp.Step {} (oldRun (firstTrades ++ accruals)) ∧
    (oldAfter (firstTrades ++ accruals)).accounts = final {} (oldRun (firstTrades ++ accruals)) ∧
    IsRun MigrationOp.Step premium.vault.fresh (newRun (oldAfter (firstTrades ++ accruals))) ∧
    (newAfter (oldAfter (firstTrades ++ accruals))).vault =
      final premium.vault.fresh (newRun (oldAfter (firstTrades ++ accruals))) ∧
    (oldAfter (firstTrades ++ accruals)).Exports
      (importedBalances (newRun (oldAfter (firstTrades ++ accruals))))
      (importedPositions (newRun (oldAfter (firstTrades ++ accruals)))) ∧
    SameConfiguration (oldAfter (firstTrades ++ accruals))
      (newAfter (oldAfter (firstTrades ++ accruals))) ∧
    equityOf (oldAfter (firstTrades ++ accruals)) alice = some 999499916247906197655 ∧
    equityOf (newAfter (oldAfter (firstTrades ++ accruals))) alice = some 999500000000000000000 := by
  have hr : IsRun AccountOp.Step {} (oldRun (firstTrades ++ accruals)) :=
    isRun_execute (w := premium) (by decide +kernel)
  have hr' : IsRun MigrationOp.Step premium.vault.fresh
      (newRun (oldAfter (firstTrades ++ accruals))) :=
    isRun_execute (w := premium) (by decide +kernel)
  exact ⟨hr, (final_viewed _ _).symm, hr', (final_viewed _ _).symm,
    exports_batches (fun _ => rfl) (fun _ => rfl), ⟨rfl, rfl, rfl, rfl, rfl⟩, by decide +kernel,
    by decide +kernel⟩

open Sample in
/-- Before any accrual the move keeps alice's health. -/
theorem migration_preserves_health_unfunded :
    ∃ health, Vault.accountHealth (host 1060) (oldAfter firstTrades) alice usdc = .ok health ∧
      Vault.accountHealth (host 1060) (newAfter (oldAfter firstTrades)) alice usdc = .ok health := by
  have hr : IsRun AccountOp.Step {} (oldRun firstTrades) :=
    isRun_execute (w := premium) (by decide +kernel)
  have hr' : IsRun MigrationOp.Step premium.vault.fresh (newRun (oldAfter firstTrades)) :=
    isRun_execute (w := premium) (by decide +kernel)
  have hb : ∀ k, (oldAfter firstTrades).vault.balance.get k =
      if k = (bob, usdc) then some (1000 * precision)
      else if k = (alice, usdc) then some (1000 * precision) else none := fun _ => rfl
  have hexp := exports_batches hb fun _ => rfl
  have hsame : SameConfiguration (oldAfter firstTrades) (newAfter (oldAfter firstTrades)) :=
    ⟨rfl, rfl, rfl, rfl, rfl⟩
  obtain ⟨health, h⟩ := exists_ok
    (x := Vault.accountHealth (host 1060) (oldAfter firstTrades) alice usdc) (by decide +kernel)
  have hindexed : ∀ a, (oldAfter firstTrades).vault.collateral.get a ≠ none →
      (oldAfter firstTrades).vault.balanceOf alice a ≠ 0 →
      a ∈ (oldAfter firstTrades).vault.recordedAssets alice := by
    intro a _ hne
    have hrecorded : usdc ∈ (oldAfter firstTrades).vault.recordedAssets alice := by decide +kernel
    simp only [VaultStorage.balanceOf, hb, Prod.mk.injEq] at hne
    by_cases ha : a = usdc
    · rw [ha]
      exact hrecorded
    · rw [if_neg fun hk => ha hk.2, if_neg fun hk => ha hk.2] at hne
      exact absurd rfl hne
  have hleft : ∀ a, Vault.leftOutOf (host 1060) (oldAfter firstTrades) alice usdc a = 0 := by
    intro a
    rw [Vault.leftOutOf, Vault.countedOf_of_indexed hindexed, sub_self]
  have hfunding : (((oldAfter firstTrades).engine.loadPositions alice).map fun p =>
      p.unsettledFunding 0).sum = (oldAfter firstTrades).vault.unsettledFunding
        ((oldAfter firstTrades).engine.loadPositions alice) := by decide +kernel
  have hw : (oldAfter firstTrades).accounts = final {} (oldRun firstTrades) :=
    (final_viewed _ _).symm
  have hw' : (newAfter (oldAfter firstTrades)).vault =
      final premium.vault.fresh (newRun (oldAfter firstTrades)) := (final_viewed _ _).symm
  have hpos : (oldAfter firstTrades).vault.loadPositions alice =
      (oldAfter firstTrades).engine.loadPositions alice := by decide +kernel
  -- no index has moved, so that the old health itself is measured from zero
  have hzero : ∀ p, (oldAfter firstTrades).vault.fundingIndexOf p = 0 := by
    intro p
    unfold VaultStorage.fundingIndexOf
    cases p.isLong <;> rfl
  have hmeasured : Vault.unrealizedOf (host 1060) (oldAfter firstTrades) =
      Vault.unrealizedFromZero (host 1060) (oldAfter firstTrades) := by
    funext p
    rw [Vault.unrealizedOf, hzero]
    rfl
  have hself : SameConfiguration (oldAfter firstTrades) (oldAfter firstTrades) :=
    ⟨rfl, rfl, rfl, rfl, rfl⟩
  obtain ⟨_, hfits, htotals, _⟩ := (Vault.accountHealth_transfer hself rfl h).mp h
  rw [Vault.accountHealth_counted (by decide +kernel) h, hmeasured, hpos] at htotals
  simp only [hzero, hmeasured, hpos] at hfits
  have himported : importedAssets (importedBalances (newRun (oldAfter firstTrades))) alice = [usdc] :=
    rfl
  have hcomputes : (oldAfter firstTrades).Computes (host 1060)
      (importedBalances (newRun (oldAfter firstTrades))) alice usdc := by
    refine ⟨?_, ?_, ?_, hfits, htotals⟩
    · rw [himported]
      exact List.forall_mem_singleton.mpr (exists_ok (by decide +kernel))
    · rw [himported]
      intro hnone
      cases hnone
    · rw [himported]
      decide +kernel
  refine ⟨health, h, (migration_preserves_health_iff hr hr' hw hw' hsame hexp (host 1060) alice usdc
    health h).mpr ⟨hfunding, finsum_eq_zero_of_forall_eq_zero hleft, hcomputes, fun _ => ?_⟩⟩
  rw [hmeasured]

end Kryon

import Kryon.Deployed
import Kryon.Lib.Runs
import Kryon.Vault.Health
import Kryon.Vault.Seizure

/-! # The vault's asset index

`account_health` values the assets of a user's `UserAssets` list and no others, so
a balance outside the list is invisible to every margin check. The index is
complete when no listed user has such a balance in an active asset. Which calls
keep it complete, and what an unrecorded loss does to equity. -/
namespace Kryon
open Transaction Runs

namespace VaultStorage

def Active (s : VaultStorage) (asset : Address) : Prop :=
  ∃ config, s.collateral.get asset = some config ∧ config.active = true

/-- Every non-zero balance of a listed user in an active asset is in the user's list. -/
def IndexComplete (s : VaultStorage) : Prop :=
  ∀ user asset, (s.userAssets.get user).isSome = true → s.Active asset →
    s.balanceOf user asset ≠ 0 → asset ∈ s.recordedAssets user

/-- Starting a list with the assets in `A` leaves no active balance out. -/
def Covers (s : VaultStorage) (user : Address) (A : Address → Prop) : Prop :=
  s.userAssets.get user = none → ∀ asset, s.Active asset → s.balanceOf user asset ≠ 0 → A asset

def IndexNodup (s : VaultStorage) : Prop := ∀ user, (s.recordedAssets user).Nodup

variable {s s' s'' : VaultStorage} {R R' : Address → Address → Prop}

theorem recordedAssets_of_none {user : Address} (h : s.userAssets.get user = none) :
    s.recordedAssets user = [] := by
  simp [recordedAssets, h]

/-- Balances that were non-zero before cannot go missing from an unchanged index. -/
theorem IndexComplete.of_nonzero (h : s.IndexComplete) (hc : s'.collateral = s.collateral)
    (hu : s'.userAssets = s.userAssets)
    (hn : ∀ u a, s'.balanceOf u a ≠ 0 → s.balanceOf u a ≠ 0) : s'.IndexComplete := by
  intro user asset hsome hactive hne
  rw [hu] at hsome
  have := h user asset hsome (by simpa only [Active, hc] using hactive) (hn user asset hne)
  simpa only [recordedAssets, hu] using this

/-- `s'` is `s` after balances of the pairs in `R`, and no others, were written and
each of these pairs recorded. -/
structure Records (s s' : VaultStorage) (R : Address → Address → Prop) : Prop where
  collateral : s'.collateral = s.collateral
  isSome : ∀ u, (s'.userAssets.get u).isSome = true ↔
    (s.userAssets.get u).isSome = true ∨ ∃ a, R u a
  mem : ∀ u a, a ∈ s'.recordedAssets u ↔ a ∈ s.recordedAssets u ∨ R u a
  balanceOf : ∀ u a, ¬ R u a → s'.balanceOf u a = s.balanceOf u a
  nodup : s.IndexNodup → s'.IndexNodup

theorem Records.refl (s : VaultStorage) : s.Records s fun _ _ => False where
  collateral := rfl
  isSome u := by simp
  mem u a := by simp
  balanceOf _ _ _ := rfl
  nodup h := h

theorem Records.trans (h : s.Records s' R) (h' : s'.Records s'' R') :
    s.Records s'' fun u a => R u a ∨ R' u a where
  collateral := h'.collateral.trans h.collateral
  isSome u := by rw [h'.isSome, h.isSome, or_assoc, exists_or]
  mem u a := by rw [h'.mem, h.mem, or_assoc]
  balanceOf u a hn := by
    rw [not_or] at hn
    rw [h'.balanceOf u a hn.2, h.balanceOf u a hn.1]
  nodup hs := h'.nodup (h.nodup hs)

theorem Records.congr (h : s.Records s' R) (hR : ∀ u a, R u a ↔ R' u a) : s.Records s' R' := by
  obtain rfl : R = R' := funext fun u => funext fun a => propext (hR u a)
  exact h

/-- Recording pairs completes the index exactly for users whose other balances are
recorded with them. -/
theorem Records.complete_iff (h : s.Records s' R) (hs : s.IndexComplete) :
    s'.IndexComplete ↔ ∀ u, (∃ a, R u a) → s.Covers u (R u) := by
  have hactive : ∀ a, s'.Active a ↔ s.Active a := fun a => by simp only [Active, h.collateral]
  constructor
  · intro hs' u hu hnone a ha hne
    by_contra hr
    have hmem := hs' u a ((h.isSome u).mpr (.inr hu)) ((hactive a).mpr ha)
      (by rwa [h.balanceOf u a hr])
    rw [h.mem, recordedAssets_of_none hnone] at hmem
    simp [hr] at hmem
  · intro hcov u a hsome ha hne
    by_cases hr : R u a
    · exact (h.mem u a).mpr (.inr hr)
    rw [h.balanceOf u a hr] at hne
    rw [hactive] at ha
    refine (h.mem u a).mpr (.inl ?_)
    rcases (h.isSome u).mp hsome with hold | hnew
    · exact hs u a hold ha hne
    · cases hg : s.userAssets.get u with
      | none => exact absurd (hcov u hnew hg a ha hne) hr
      | some l => exact hs u a (by simp [hg]) ha hne

/-- Writing one balance and recording it. -/
theorem records_setBalance_recordAsset (s : VaultStorage) (user asset : Address) (amount : Int) :
    s.Records ((s.setBalance user asset amount).recordAsset user asset)
      fun u a => u = user ∧ a = asset where
  collateral := by simp [setBalance]
  isSome u := by
    rw [recordAsset_userAssets_isSome]
    simp [setBalance, or_comm]
  mem u a := by
    rw [recordAsset_recordedAssets]
    split
    · rename_i hk
      simp [hk.1, recordedAssets, setBalance]
    · rename_i hk
      rw [not_and, not_not] at hk
      refine ⟨.inl, ?_⟩
      rintro (hm | ⟨rfl, rfl⟩)
      · exact hm
      · exact hk rfl
  balanceOf u a hn := by rw [recordAsset_balanceOf, balanceOf_setBalance, if_neg hn]
  nodup hs u := by
    rw [recordAsset_recordedAssets]
    split
    · rename_i hk
      rw [hk.1]
      exact (hs user).append (List.nodup_singleton asset) (List.disjoint_singleton.mpr hk.2)
    · exact hs u

end VaultStorage

/-! ## Calls -/

inductive VaultOp where
  | deposit (env : Env) (user asset : Address) (amount : Int)
  | withdraw (env : Env) (user asset : Address) (amount : Int)
  | applyPnl (env : Env) (user asset : Address) (pnl : Int)
  | absorbBadDebt (env : Env) (user asset : Address)
  | settleDeficit (env : Env) (caller user asset : Address)
  | seizeForDeficit (env : Env) (user asset : Address)
  | migrateImportBalances (env : Env) (entries : List MigratedBalance)

namespace VaultOp

def call : VaultOp → Tx Unit
  | deposit env user asset amount => void (Vault.deposit env user asset amount)
  | withdraw env user asset amount => void (Vault.withdraw env user asset amount)
  | applyPnl env user asset pnl => void (Vault.applyPnl env user asset pnl)
  | absorbBadDebt env user asset => void (Vault.absorbBadDebt env user asset)
  | settleDeficit env caller user asset => void (Vault.settleDeficit env caller user asset)
  | seizeForDeficit env user asset => void (Vault.seizeForDeficit env user asset)
  | migrateImportBalances env entries => void (Vault.migrateImportBalances env entries)

/-- One successful call on the vault; the rest of the system may be in any state. -/
abbrev Step : VaultStorage → VaultOp → VaultStorage → Prop := CallStep VaultOp.call World.vault

/-- The pairs an import writes. -/
def Imports (entries : List MigratedBalance) (u a : Address) : Prop :=
  ∃ entry ∈ entries, entry.amount ≠ 0 ∧ entry.user = u ∧ entry.asset = a

/-- A pnl of a listed user lands on a recorded asset, an inactive one or leaves the
balance at zero, and a first credit starts the list with all the user holds. -/
def KeepsIndex (s : VaultStorage) : VaultOp → Prop
  | applyPnl _ user asset pnl => (s.userAssets.get user).isSome = true → s.Active asset →
      s.balanceOf user asset + pnl ≠ 0 → asset ∈ s.recordedAssets user
  | deposit _ user asset _ => s.Covers user fun a => a = asset
  | migrateImportBalances _ entries =>
    ∀ u, (∃ a, Imports entries u a) → s.Covers u (Imports entries u)
  | _ => True

end VaultOp

theorem Vault.importBalances_records {w w' : World} {entries : List MigratedBalance} {n m : Nat}
    (h : Returns (Vault.importBalances n entries) w m w') :
    w.vault.Records w'.vault (VaultOp.Imports entries) := by
  induction entries generalizing n w with
  | nil =>
    obtain ⟨rfl, rfl⟩ := returns_pure.mp h
    exact (VaultStorage.Records.refl _).congr fun u a => by simp [VaultOp.Imports]
  | cons entry rest ih =>
    simp only [Vault.importBalances, returns_bind] at h
    obtain ⟨_, v, hone, hrest⟩ := h
    rcases Vault.importBalance_effect hone with ⟨hz, rfl⟩ | ⟨hz, totalDeposited, rfl⟩
    · exact (ih hrest).congr fun u a => by simp [VaultOp.Imports, hz]
    · obtain ⟨hc, hi, hm, hb, hn⟩ := VaultStorage.records_setBalance_recordAsset w.vault entry.user
        entry.asset (w.vault.balanceOf entry.user entry.asset + entry.amount)
      have hfirst : w.vault.Records { (w.vault.setBalance entry.user entry.asset
          (w.vault.balanceOf entry.user entry.asset + entry.amount)).recordAsset
            entry.user entry.asset with totalDeposited }
          fun u a => u = entry.user ∧ a = entry.asset := ⟨hc, hi, hm, hb, hn⟩
      refine (hfirst.trans (ih hrest)).congr fun u a => ?_
      simp [VaultOp.Imports, hz, eq_comm]

open VaultStorage

variable {s s' : VaultStorage} {op : VaultOp}

/-- Every call either records pairs, adds a pnl to one balance, or leaves the index
alone and makes no balance non-zero. -/
theorem VaultOp.Step.cases (h : op.Step s s') :
    (∃ R, s.Records s' R ∧ (op.KeepsIndex s ↔ ∀ u, (∃ a, R u a) → s.Covers u (R u))) ∨
    (∃ env user asset pnl, op = .applyPnl env user asset pnl ∧ s.Credited s' user asset pnl) ∨
    (op.KeepsIndex s ∧ s'.collateral = s.collateral ∧ s'.userAssets = s.userAssets ∧
      ∀ u a, s'.balanceOf u a ≠ 0 → s.balanceOf u a ≠ 0) := by
  obtain ⟨w, w', rfl, rfl, h⟩ := h
  cases op with
  | deposit env user asset amount =>
    obtain ⟨r, h⟩ := returns_void.mp h
    obtain ⟨_, _, tokens, totalDeposited, rfl⟩ := Vault.deposit_effect h
    obtain ⟨hc, hi, hm, hb, hn⟩ := records_setBalance_recordAsset
      { w.vault with totalDeposited } user asset (w.vault.balanceOf user asset + amount)
    refine .inl ⟨_, ⟨hc, hi, hm, hb, hn⟩, ?_⟩
    constructor
    · rintro hk u ⟨a, rfl, rfl⟩ hnone b hb hne
      exact ⟨rfl, hk hnone b hb hne⟩
    · intro hk hnone b hb hne
      exact (hk user ⟨asset, rfl, rfl⟩ hnone b hb hne).2
  | withdraw env user asset amount =>
    obtain ⟨r, h⟩ := returns_void.mp h
    obtain ⟨hpos, hle, tokens, totalDeposited, rfl⟩ := Vault.withdraw_effect h
    refine .inr (.inr ⟨trivial, rfl, rfl, fun u a hne => ?_⟩)
    change (w.vault.setBalance user asset _).balanceOf u a ≠ 0 at hne
    rw [balanceOf_setBalance] at hne
    split at hne
    · rename_i hk
      rw [hk.1, hk.2]
      omega
    · exact hne
  | applyPnl env user asset pnl =>
    obtain ⟨r, h⟩ := returns_void.mp h
    obtain ⟨rfl, rfl⟩ := Vault.applyPnl_effect h
    exact .inr (.inl ⟨env, user, asset, pnl, rfl, .setBalance _ _ _ _⟩)
  | absorbBadDebt env user asset =>
    obtain ⟨r, h⟩ := returns_void.mp h
    rcases Vault.absorbBadDebt_effect h with ⟨_, rfl⟩ | ⟨hneg, vault, _, _, _, _, hv, rfl, _⟩
    · exact .inr (.inr ⟨trivial, rfl, rfl, fun _ _ hne => hne⟩)
    · obtain ⟨⟨_, rfl⟩, hn⟩ := hv.spends (by omega)
      exact .inr (.inr ⟨trivial, rfl, rfl, hn⟩)
  | settleDeficit env caller user asset =>
    obtain ⟨r, h⟩ := returns_void.mp h
    obtain ⟨_, _, ⟨⟨_, rfl⟩, hn⟩, rfl⟩ := Vault.seizeForDeficitInner_effect (Vault.settleDeficit_inner h)
    exact .inr (.inr ⟨trivial, rfl, rfl, hn⟩)
  | seizeForDeficit env user asset =>
    obtain ⟨r, h⟩ := returns_void.mp h
    obtain ⟨_, _, ⟨⟨_, rfl⟩, hn⟩, rfl⟩ := Vault.seizeForDeficitInner_effect (Vault.seizeForDeficit_inner h)
    exact .inr (.inr ⟨trivial, rfl, rfl, hn⟩)
  | migrateImportBalances env entries =>
    obtain ⟨r, h⟩ := returns_void.mp h
    have himport := Vault.migrateImportBalances_imports h
    exact .inl ⟨_, Vault.importBalances_records himport, Iff.rfl⟩

theorem VaultOp.Step.nodup (hs : s.IndexNodup) (h : op.Step s s') : s'.IndexNodup := by
  rcases h.cases with ⟨R, hr, _⟩ | ⟨_, _, _, _, rfl, ⟨_, rfl⟩, _⟩ | ⟨_, _, hu, _⟩
  · exact hr.nodup hs
  · exact hs
  · intro user
    simpa only [recordedAssets, hu] using hs user

theorem VaultOp.Step.complete_iff (hs : s.IndexComplete) (h : op.Step s s') :
    s'.IndexComplete ↔ op.KeepsIndex s := by
  rcases h.cases with ⟨R, hr, hk⟩ | ⟨env, user, asset, pnl, rfl, ⟨balance, rfl⟩, hb⟩ | ⟨hk, hc, hu, hn⟩
  · rw [hr.complete_iff hs, hk]
  · constructor
    · intro hs' hsome hactive hne
      exact hs' user asset hsome hactive (by rwa [hb, if_pos ⟨rfl, rfl⟩])
    · intro hk u a hsome hactive hne
      rw [hb] at hne
      split at hne
      · rename_i heq
        obtain ⟨rfl, rfl⟩ := heq
        exact hk hsome hactive hne
      · exact hs u a hsome hactive hne
  · exact iff_of_true (hs.of_nonzero hc hu hn) hk

/-! ## Runs from an empty vault -/

/-- Any configuration, and nobody with a balance. -/
def VaultStorage.emptied (config : VaultStorage) : VaultStorage :=
  { config with balance := ∅, userAssets := ∅ }

theorem complete_run_iff {config : VaultStorage} {t : List (VaultOp × VaultStorage)}
    (hr : IsRun VaultOp.Step config.emptied t) :
    AllStates IndexComplete config.emptied t ↔
      AllSteps (fun s op => op.KeepsIndex s) config.emptied t := by
  have hiff : ∀ s (op : VaultOp) s', True → s.IndexComplete → op.Step s s' →
      (s'.IndexComplete ↔ op.KeepsIndex s) := fun s op s' _ hs h => VaultOp.Step.complete_iff hs h
  have hempty : config.emptied.IndexComplete := fun user asset h => by cases h
  exact allStates_iff_allSteps (fun _ _ _ _ _ => trivial) hiff trivial hempty hr

theorem nodup_run {config : VaultStorage} {t : List (VaultOp × VaultStorage)}
    (hr : IsRun VaultOp.Step config.emptied t) : (final config.emptied t).IndexNodup := by
  have hstep : ∀ s (op : VaultOp) s', s.IndexNodup → op.Step s s' → s'.IndexNodup :=
    fun s op s' hs h => VaultOp.Step.nodup hs h
  have hempty : config.emptied.IndexNodup := fun _ => List.nodup_nil
  exact (invariant_of_step hstep hempty hr).at_final

/-- The users' lists of assets as the calls on the vault leave them; everything else may be
in any state. -/
abbrev ListStep : Store Address (List Address) → VaultOp → Store Address (List Address) → Prop :=
  CallStep VaultOp.call fun w => w.vault.userAssets

theorem recorded_nodup {t : List (VaultOp × Store Address (List Address))}
    (hr : IsRun ListStep ∅ t) (user : Address) : (((final ∅ t).get user).getD []).Nodup := by
  have hstep : ∀ s (op : VaultOp) s', (∀ user, ((s.get user).getD []).Nodup) → ListStep s op s' →
      ∀ user, ((s'.get user).getD []).Nodup := by
    intro s op s' hs h
    obtain ⟨w, w', rfl, rfl, h⟩ := h
    have hcall : op.Step w.vault w'.vault := ⟨w, w', rfl, rfl, h⟩
    exact hcall.nodup hs
  have hempty : ∀ user, (((∅ : Store Address (List Address)).get user).getD []).Nodup :=
    fun _ => List.nodup_nil
  exact (invariant_of_step hstep hempty hr).at_final user

/-- The calls on the vault record no asset of a user twice. -/
theorem recordedAssets_nodup {t : List (VaultOp × Store Address (List Address))} {w : World}
    (hr : IsRun ListStep ∅ t) (hw : w.vault.userAssets = final ∅ t) (user : Address) :
    (w.vault.recordedAssets user).Nodup := by
  rw [VaultStorage.recordedAssets, hw]
  exact recorded_nodup hr user

/-- **The index stays complete exactly while pnl lands on recorded assets.** In a run
from an empty vault every state has a complete index if and only if each call of the
run keeps it: a pnl of a listed user goes to a recorded asset, an inactive one or
leaves the balance at zero, and a first deposit or import lists all the user holds.
From the state reached, a pnl in an active asset at par moves the equity of account
health by exactly the pnl if and only if it is zero, the user has no list or the
asset is in the list. -/
theorem asset_index_iff {config : VaultStorage} {t : List (VaultOp × VaultStorage)}
    (hr : IsRun VaultOp.Step config.emptied t) :
    (AllStates IndexComplete config.emptied t ↔
      AllSteps (fun s op => op.KeepsIndex s) config.emptied t) ∧
    ∀ (env env' : Env) (w w' : World) (user asset : Address) (pnl next : Int)
      (collateral : CollateralConfig) (snapshot : OracleSnapshot) (before after : AccountHealth),
      w.vault = final config.emptied t →
      w.vault.collateral.get asset = some collateral → collateral.active = true →
      collateral.haircutBps = 0 → Vault.collateralPrice env' w asset = .ok snapshot →
      snapshot.price = precision → Vault.accountHealth env' w user asset = .ok before →
      Returns (Vault.applyPnl env user asset pnl) w next w' →
      Vault.accountHealth env' w' user asset = .ok after →
      (after.equity = before.equity + pnl ↔
        pnl = 0 ∨ w.vault.userAssets.get user = none ∨ asset ∈ w.vault.recordedAssets user) := by
  refine ⟨complete_run_iff hr, ?_⟩
  intro env env' w w' user asset pnl next collateral snapshot before after hw hc hactive hhaircut
    hprice hpar hbefore hpnl hafter
  have hnodup : (w.vault.recordedAssets user).Nodup := hw ▸ nodup_run hr user
  obtain ⟨rfl, rfl⟩ := Vault.applyPnl_effect hpnl
  have hcredit := Credited.setBalance w.vault user asset pnl
  have hbal : ∀ a, (w.vault.setBalance user asset (w.vault.balanceOf user asset + pnl)).balanceOf user a =
      if a = asset then w.vault.balanceOf user a + pnl else w.vault.balanceOf user a := fun a => by
    rw [hcredit.balanceOf]
    simp
  rw [Vault.accountHealth_credit hcredit.samePrices rfl rfl hbal hnodup hc hactive hhaircut hprice
    hpar hbefore hafter]
  cases hlist : w.vault.userAssets.get user with
  | none => simp
  | some l =>
    by_cases hmem : asset ∈ w.vault.recordedAssets user
    · simp [hmem]
    · simp [hmem, eq_comm]

/-! ## A loss of a trader margined in another asset -/

namespace Sample

def exchange : World := world (100 * precision) 1000

/-- The state after the calls, and the run they make on the vault. -/
def exchangeAfter (ops : List VaultOp) : World := final exchange (execute VaultOp.call exchange ops)

def exchangeRun (ops : List VaultOp) : List (VaultOp × VaultStorage) :=
  viewed World.vault (execute VaultOp.call exchange ops)

def aliceHealth (w : World) : Res AccountHealth := Vault.accountHealth (host 1000) w alice usdc

def depositXlm : VaultOp := .deposit (host 1000) alice xlm 100

def depositUsdc : VaultOp := .deposit (host 1000) alice usdc 100

def loss : VaultOp := .applyPnl (host 1000) alice usdc (-5)

end Sample

open Sample in
/-- Alice deposits the volatile token and loses 5 in settlement: the debt is in no
list, and her equity is what it was before the loss. -/
theorem loss_leaves_equity :
    IsRun VaultOp.Step exchange.vault.emptied (exchangeRun [depositXlm, loss]) ∧
    ¬ AllStates IndexComplete exchange.vault.emptied (exchangeRun [depositXlm, loss]) ∧
    (aliceHealth (exchangeAfter [depositXlm])).toOption.map AccountHealth.equity = some 90 ∧
    (aliceHealth (exchangeAfter [depositXlm, loss])).toOption.map AccountHealth.equity = some 90 := by
  have hr : IsRun VaultOp.Step exchange.vault.emptied (exchangeRun [depositXlm, loss]) :=
    isRun_execute (w := exchange) (by decide +kernel)
  refine ⟨hr, fun h => ?_, by decide +kernel, by decide +kernel⟩
  obtain ⟨_, hlast, _⟩ := (complete_run_iff hr).mp h
  have hactive : Active exchange.vault usdc :=
    ⟨{ asset := usdc, oracleAsset := "USDC", haircutBps := 0, active := true },
      by decide +kernel, rfl⟩
  have hrecorded := hlast (by decide +kernel) hactive (by decide +kernel)
  revert hrecorded
  decide +kernel

open Sample in
/-- After a deposit in settlement the same loss lowers the equity. -/
theorem asset_index_iff_deposit :
    (AllStates IndexComplete exchange.vault.emptied (exchangeRun [depositUsdc]) ↔
      AllSteps (fun s op => op.KeepsIndex s) exchange.vault.emptied (exchangeRun [depositUsdc])) ∧
    ∃ before after, aliceHealth (exchangeAfter [depositUsdc]) = .ok before ∧
      aliceHealth (exchangeAfter [depositUsdc, loss]) = .ok after ∧
      after.equity = before.equity + -5 := by
  have hr : IsRun VaultOp.Step exchange.vault.emptied (exchangeRun [depositUsdc]) :=
    isRun_execute (w := exchange) (by decide +kernel)
  obtain ⟨before, hbefore⟩ := exists_ok (x := aliceHealth (exchangeAfter [depositUsdc]))
    (by decide +kernel)
  obtain ⟨after, hafter⟩ := exists_ok (x := aliceHealth (exchangeAfter [depositUsdc, loss]))
    (by decide +kernel)
  obtain ⟨r, hloss⟩ := returns_void.mp (returns_commit (x := loss.call)
    (s := exchangeAfter [depositUsdc]) (by decide +kernel)).choose_spec
  obtain ⟨hiff, hequity⟩ := asset_index_iff hr
  refine ⟨hiff, before, after, hbefore, hafter, ?_⟩
  refine (hequity (host 1000) (host 1000) (exchangeAfter [depositUsdc]) _ alice usdc (-5) r
    { asset := usdc, oracleAsset := "USDC", haircutBps := 0, active := true }
    (quote "USDC" precision 1000) before after (final_viewed _ _).symm (by decide +kernel) rfl rfl
    (by rfl) rfl hbefore hloss hafter).mpr (.inr (.inr ?_))
  decide +kernel

end Kryon

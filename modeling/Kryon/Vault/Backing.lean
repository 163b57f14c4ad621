import Kryon.Nested

/-! # What backs a balance

The vault pools the tokens of all users, and counts for each asset what was deposited and
not yet withdrawn. Profit, loss, fees and funding move balances in the settlement asset
only. So in every other asset no balance is negative, and all of them together are covered
by what the vault counts, which is covered by the tokens it holds. -/
namespace Kryon
open Transaction Runs

namespace VaultStorage

/-- The balances of all users in one asset. -/
noncomputable def totalBalance (s : VaultStorage) (asset : Address) : Int :=
  s.balance.sum fun key amount => if key.2 = asset then amount else 0

variable {s s' : VaultStorage} {user asset settlement : Address} {x : Int}

theorem entry_totalBalance (s : VaultStorage) (a : Address) (key : Address × Address) :
    s.balance.entry (fun key amount => if key.2 = a then amount else 0) key =
      if key.2 = a then s.balanceOf key.1 key.2 else 0 := by
  unfold Store.entry balanceOf
  cases s.balance.get key <;> simp

/-- A credit moves the total of its own asset only. -/
theorem Credited.totalBalance (h : s.Credited s' user asset x) (a : Address) :
    s'.totalBalance a = s.totalBalance a + if a = asset then x else 0 := by
  unfold VaultStorage.totalBalance
  rw [Store.sum_change (s := s.balance) _ (user, asset) ?_, entry_totalBalance, entry_totalBalance]
  · by_cases ha : a = asset
    · rw [if_pos ha.symm, if_pos ha.symm, if_pos ha, h.self, sub_add_eq_add_sub, add_sub_assoc,
        add_sub_cancel_left]
    · rw [if_neg (Ne.symm ha), if_neg (Ne.symm ha), if_neg ha, sub_zero]
  · intro key hkey
    have hother : ¬ (key.1 = user ∧ key.2 = asset) := fun he => hkey (Prod.ext he.1 he.2)
    rw [entry_totalBalance, entry_totalBalance, h.balanceOf, if_neg hother]

theorem Credited.totalDepositedOf (h : s.Credited s' user asset x) (a : Address) :
    s'.totalDepositedOf a = s.totalDepositedOf a := by
  obtain ⟨_, rfl⟩ := h.rest
  rfl

theorem Credited.recordedAssets (h : s.Credited s' user asset x) (u : Address) :
    s'.recordedAssets u = s.recordedAssets u := by
  obtain ⟨_, rfl⟩ := h.rest
  rfl

/-- Every balance that is not in the settlement asset was deposited, is in its owner's list and
can be paid out. -/
structure Redeemable (s : VaultStorage) (settlement : Address) : Prop where
  nonneg : ∀ user asset, asset ≠ settlement → 0 ≤ s.balanceOf user asset
  covered : ∀ asset, asset ≠ settlement → s.totalBalance asset ≤ s.totalDepositedOf asset
  recorded : ∀ user asset, asset ≠ settlement → s.balanceOf user asset ≠ 0 → asset ∈ s.recordedAssets user

namespace Redeemable

/-- What a user has is part of what all users have. -/
theorem balance_le (hs : s.Redeemable settlement) (ha : asset ≠ settlement) :
    s.balanceOf user asset ≤ s.totalBalance asset := by
  have hpart := Store.entry_le_sum (s := s.balance) (f := fun key amount => if key.2 = asset then amount else 0)
    (k := (user, asset)) fun key amount hget => ?_
  · rw [entry_totalBalance, if_pos rfl] at hpart
    exact hpart
  · split
    · rename_i hk
      have := hs.nonneg key.1 key.2 (hk ▸ ha)
      unfold balanceOf at this
      rw [hget] at this
      exact this
    · exact le_rfl

/-- Whatever happens to the settlement balances. -/
theorem settle (hs : s.Redeemable settlement) (h : s.Credited s' user settlement x) :
    s'.Redeemable settlement where
  nonneg u a ha := by
    rw [h.balanceOf, if_neg fun hk => ha hk.2]
    exact hs.nonneg u a ha
  covered a ha := by
    rw [h.totalBalance, if_neg ha, add_zero, h.totalDepositedOf]
    exact hs.covered a ha
  recorded u a ha hne := by
    rw [h.balanceOf, if_neg fun hk => ha hk.2] at hne
    rw [h.recordedAssets]
    exact hs.recorded u a ha hne

/-- A part of what a user has in some asset is taken away. -/
theorem take (hs : s.Redeemable settlement) (h : s.Credited s' user asset (-x)) (hnn : 0 ≤ x)
    (hle : x ≤ max (s.balanceOf user asset) 0) : s'.Redeemable settlement where
  nonneg u a ha := by
    have hold := hs.nonneg u a ha
    rw [h.balanceOf]
    split
    · rename_i hk
      rw [← hk.1, ← hk.2, max_eq_left hold] at hle
      omega
    · exact hold
  covered a ha := by
    have hold := hs.covered a ha
    rw [h.totalBalance, h.totalDepositedOf]
    split <;> omega
  recorded u a ha hne := by
    have hold := hs.nonneg u a ha
    rw [h.recordedAssets]
    refine hs.recorded u a ha ?_
    rw [h.balanceOf] at hne
    split at hne
    · rename_i hk
      rw [← hk.1, ← hk.2, max_eq_left hold] at hle
      omega
    · exact hne

/-- The balances and the deposit total of one asset move together. -/
theorem move (hs : s.Redeemable settlement) {total : Int} {userAssets : Store Address (List Address)}
    (hpaid : asset ≠ settlement → 0 ≤ s.balanceOf user asset + x)
    (htotal : s.totalDepositedOf asset + x ≤ total)
    (hlists : ∀ u a, a ∈ s.recordedAssets u → a ∈ (userAssets.get u).getD [])
    (hlisted : asset ≠ settlement → s.balanceOf user asset + x ≠ 0 → asset ∈ (userAssets.get user).getD []) :
    Redeemable { s.setBalance user asset (s.balanceOf user asset + x) with
      totalDeposited := s.totalDeposited.set asset total, userAssets } settlement where
  nonneg u a ha := by
    have hb := (Credited.setBalance s user asset x).balanceOf u a
    have hold := hs.nonneg u a ha
    show 0 ≤ (s.setBalance user asset (s.balanceOf user asset + x)).balanceOf u a
    rw [hb]
    split
    · rename_i hk
      rw [hk.1, hk.2]
      exact hpaid (hk.2 ▸ ha)
    · exact hold
  covered a ha := by
    have hb := (Credited.setBalance s user asset x).totalBalance a
    have hold := hs.covered a ha
    show (s.setBalance user asset (s.balanceOf user asset + x)).totalBalance a ≤
      ((s.totalDeposited.set asset total).get a).getD 0
    rw [hb, Store.get_set]
    by_cases hk : a = asset
    · subst hk
      rw [if_pos rfl, if_pos rfl]
      exact (add_le_add_left hold x).trans htotal
    · rw [if_neg hk, if_neg hk, add_zero]
      exact hold
  recorded u a ha hne := by
    have hb := (Credited.setBalance s user asset x).balanceOf u a
    show a ∈ (userAssets.get u).getD []
    by_cases hk : u = user ∧ a = asset
    · obtain ⟨rfl, rfl⟩ := hk
      rw [if_pos ⟨rfl, rfl⟩] at hb
      exact hlisted ha (hb ▸ hne)
    · rw [if_neg hk] at hb
      exact hlists u a (hs.recorded u a ha (hb ▸ hne))

theorem congr (hs : s.Redeemable settlement) (hb : s'.balance = s.balance)
    (ht : s'.totalDeposited = s.totalDeposited) (hu : s'.userAssets = s.userAssets) :
    s'.Redeemable settlement where
  nonneg u a ha := by
    unfold balanceOf
    rw [hb]
    exact hs.nonneg u a ha
  covered a ha := by
    unfold VaultStorage.totalBalance totalDepositedOf
    rw [hb, ht]
    exact hs.covered a ha
  recorded u a ha hne := by
    unfold balanceOf at hne
    rw [hb] at hne
    unfold recordedAssets
    rw [hu]
    exact hs.recorded u a ha hne

end Redeemable

end VaultStorage

/-! ## Tokens -/

/-- Token contracts move exactly what they are asked to, out of what the source holds. -/
structure Env.TokenHost (env : Env) : Prop where
  ideal : env.IdealTransfers
  funded : ∀ {tokens tokens' : Tokens} {asset source target : Address} {amount : Int},
    env.transfer tokens asset source target amount = some tokens' →
      amount ≤ tokens.held asset source

section Holding

variable {env : Env} {tokens tokens' : Tokens} {asset source target vault : Address} {amount : Int}

/-- A transfer out of another account takes nothing from the vault. -/
theorem held_le_of_transfer (hideal : env.IdealTransfers)
    (ht : env.transfer tokens asset source target amount = some tokens') (hnn : 0 ≤ amount)
    (hne : vault ≠ source) (a : Address) : tokens.held a vault ≤ tokens'.held a vault := by
  have hmoved := hideal ht a vault
  rw [if_neg (c := a = asset ∧ vault = source) fun h => hne h.2] at hmoved
  split at hmoved <;> omega

theorem held_of_received (hideal : env.IdealTransfers)
    (ht : env.transfer tokens asset source vault amount = some tokens') (hne : vault ≠ source)
    (a : Address) : tokens'.held a vault = tokens.held a vault + if a = asset then amount else 0 := by
  rw [hideal ht, if_neg (c := a = asset ∧ vault = source) fun h => hne h.2, sub_zero]
  simp

theorem held_of_sent (hideal : env.IdealTransfers)
    (ht : env.transfer tokens asset vault target amount = some tokens') (hne : vault ≠ target)
    (a : Address) : tokens'.held a vault = tokens.held a vault - if a = asset then amount else 0 := by
  rw [hideal ht, if_neg (c := a = asset ∧ vault = target) fun h => hne h.2, add_zero]
  simp

end Holding

/-- The vault is wired to the deployed engine and closed for imports, its counts are backed by
tokens, and the balances by its counts. -/
structure World.Custody (w : World) (settlement : Address) : Prop where
  distinct : w.deployed.contracts.Nodup
  wired : w.vault.engine = some w.deployed.engine
  settles : w.engine.settlementAsset = some settlement
  closed : w.vault.migrationSealed = true
  held : ∀ asset, w.vault.totalDepositedOf asset ≤ w.tokens.held asset w.deployed.vault
  redeemable : w.vault.Redeemable settlement

namespace World.Custody

variable {w w' : World} {settlement : Address} {env : Env}

theorem vault_ne_insurance (hw : w.Custody settlement) : w.deployed.vault ≠ w.deployed.insurance := by
  have h := hw.distinct
  simp only [Deployment.contracts, List.nodup_cons, List.mem_cons, not_or] at h
  exact h.2.1.2.1

/-- A call that leaves the configuration keeps the custody when it keeps what backs it. -/
theorem of_config (hw : w.Custody settlement) (hc : w'.config = w.config)
    (hheld : ∀ asset, w'.vault.totalDepositedOf asset ≤ w'.tokens.held asset w.deployed.vault)
    (hredeemable : w'.vault.Redeemable settlement) : w'.Custody settlement where
  distinct := by
    rw [deployed_of_config hc]
    exact hw.distinct
  wired := by
    rw [deployed_of_config hc, ← hw.wired]
    exact config_congr (fun v => v.vault.engine) (fun _ => rfl) hc
  settles := (config_congr (fun v => v.engine.settlementAsset) (fun _ => rfl) hc).trans hw.settles
  closed := (config_congr (fun v => v.vault.migrationSealed) (fun _ => rfl) hc).trans hw.closed
  held asset := by
    rw [deployed_of_config hc]
    exact hheld asset
  redeemable := hredeemable

end World.Custody

/-! ## Seizures -/

namespace Vault

variable {env : Env} {w w' : World} {user asset oracle settlement : Address} {r : Int}

/-- The loop takes parts of what the user has. -/
theorem seizeAssets_redeemable {totals next : SeizeTotals} {assets : List Address}
    (hs : w.vault.Redeemable settlement) (horacle : oracleAddress w = .ok oracle)
    (h : Returns (seizeAssets env user oracle (deficitPrice env w asset) totals assets) w next w') :
    w'.vault.Redeemable settlement ∧ w'.vault.totalDeposited = w.vault.totalDeposited := by
  induction assets generalizing totals w with
  | nil =>
    obtain ⟨_, rfl⟩ := returns_pure.mp h
    exact ⟨hs, rfl⟩
  | cons a rest ih =>
    rcases returns_ite.mp h with ⟨_, hstop⟩ | ⟨howed, hgo⟩
    · obtain ⟨_, rfl⟩ := returns_pure.mp hstop
      exact ⟨hs, rfl⟩
    · obtain ⟨mid, v, hone, hrest⟩ := returns_bind.mp hgo
      obtain ⟨_, _, vault, hcredit, rfl⟩ := seizeAsset_takes horacle (not_le.mp howed) hone
      have hbounds := (seizureTerms env w user asset).amountTaken_bounds totals.remainingValue a
      have htaken := hs.take hcredit hbounds.1 hbounds.2
      obtain ⟨balance, rfl⟩ := hcredit.rest
      exact ih (w := { w with vault := { w.vault with balance } }) htaken horacle hrest

/-- A deficit can only be one of the settlement asset. -/
theorem seizeForDeficitInner_redeemable (hs : w.vault.Redeemable settlement)
    (h : Returns (seizeForDeficitInner env user asset) w r w') :
    w'.vault.Redeemable settlement ∧ w'.vault.totalDeposited = w.vault.totalDeposited ∧
      w'.tokens = w.tokens := by
  rcases seizeForDeficitInner_cases h with ⟨_, _, rfl⟩ | ⟨hneg, oracle, totals, v, vault, horacle,
    hloop, hcredit, _, rfl⟩
  · exact ⟨hs, rfl, rfl⟩
  · obtain rfl : asset = settlement := by
      by_contra hne
      exact absurd (hs.nonneg user asset hne) (not_le.mpr hneg)
    obtain ⟨hv, htotal⟩ := seizeAssets_redeemable hs horacle hloop
    obtain ⟨_, middle, _, rfl⟩ := seizeAssets_spends horacle hloop
    refine ⟨hv.settle hcredit, ?_, rfl⟩
    obtain ⟨_, rfl⟩ := hcredit.rest
    exact htotal

end Vault

/-! ## One call -/

section Step

variable {w w' : World} {settlement : Address}

theorem deposit_custody {env : Env} {user asset : Address} {amount : Int}
    (hw : w.Custody settlement) (hhost : env.TokenHost) (hvault : ¬ env.Authorizes w.deployed.vault)
    (hconfig : w'.config = w.config) (h : Vault.Deposited env user asset amount w w') :
    w'.Custody settlement := by
  obtain ⟨_, hauth, hpos, _, tokens, ht, hw'⟩ := h
  have hne : w.deployed.vault ≠ user := fun he => hvault (he ▸ hauth)
  refine hw.of_config hconfig (fun a => ?_) ?_
  · have hold := hw.held a
    rw [hw']
    show ((w.vault.totalDeposited.set asset _).get a).getD 0 ≤ tokens.held a w.deployed.vault
    rw [held_of_received hhost.ideal ht hne, Store.get_set]
    by_cases ha : a = asset
    · subst ha
      rw [if_pos rfl, if_pos rfl]
      exact Int.add_le_add_right hold amount
    · rw [if_neg ha, if_neg ha, add_zero]
      exact hold
  · rw [hw']
    have hlist := VaultStorage.recordAsset_recordedAssets w.vault user asset
    refine hw.redeemable.move (fun ha => ?_) le_rfl (fun u a hmem => ?_) fun _ _ => ?_
    · have := hw.redeemable.nonneg user asset ha
      omega
    · show a ∈ (w.vault.recordAsset user asset).recordedAssets u
      rw [hlist]
      split
      · exact List.mem_append_left _ hmem
      · exact hmem
    · show asset ∈ (w.vault.recordAsset user asset).recordedAssets user
      rw [hlist]
      split
      · exact List.mem_append_right _ (List.mem_singleton.mpr rfl)
      · rename_i hk
        exact not_not.mp fun hout => hk ⟨rfl, hout⟩

theorem withdraw_custody {env : Env} {user asset : Address} {amount : Int}
    (hw : w.Custody settlement) (hhost : env.TokenHost) (hvault : ¬ env.Authorizes w.deployed.vault)
    (hconfig : w'.config = w.config) (h : Vault.Withdrawn env user asset amount w w') :
    w'.Custody settlement := by
  obtain ⟨_, hauth, hpos, hcovered, _, tokens, ht, hw'⟩ := h
  have hne : w.deployed.vault ≠ user := fun he => hvault (he ▸ hauth)
  refine hw.of_config hconfig (fun a => ?_) ?_
  · have hold := hw.held a
    have hfunded := hhost.funded ht
    rw [hw']
    show ((w.vault.totalDeposited.set asset _).get a).getD 0 ≤ tokens.held a w.deployed.vault
    rw [held_of_sent hhost.ideal ht hne, Store.get_set]
    by_cases ha : a = asset
    · subst ha
      rw [if_pos rfl, if_pos rfl]
      exact max_le (by omega) (by omega)
    · rw [if_neg ha, if_neg ha, sub_zero]
      exact hold
  · rw [hw', sub_eq_add_neg]
    have hpaid := le_max_right 0 (w.vault.totalDepositedOf asset - amount)
    exact hw.redeemable.move (fun _ => by omega) (by omega) (fun _ _ => id)
      fun ha _ => hw.redeemable.recorded user asset ha (by omega)

theorem absorbBadDebt_custody {env : Env} {user asset : Address} {r : Int}
    (hw : w.Custody settlement) (hhost : env.TokenHost) (hconfig : w'.config = w.config)
    (h : Returns (Vault.absorbBadDebt env user asset) w r w') : w'.Custody settlement := by
  rcases Vault.absorbBadDebt_moved h with rfl |
    ⟨hneg, _, vault, tokens, _, _, hnn, hcredit, hw', htokens⟩
  · exact hw
  obtain rfl : asset = settlement := by
    by_contra hne
    exact absurd (hw.redeemable.nonneg user asset hne) (not_le.mpr hneg)
  refine hw.of_config hconfig (fun a => ?_) ?_
  · rw [hw']
    show vault.totalDepositedOf a ≤ tokens.held a w.deployed.vault
    rw [hcredit.totalDepositedOf]
    rcases htokens with rfl | ⟨_, ht⟩
    · exact hw.held a
    · exact (hw.held a).trans (held_le_of_transfer hhost.ideal ht hnn hw.vault_ne_insurance a)
  · rw [hw']
    exact hw.redeemable.settle hcredit

theorem seizure_custody {env : Env} {user asset : Address} {r : Int}
    (hw : w.Custody settlement) (hconfig : w'.config = w.config)
    (h : Returns (Vault.seizeForDeficitInner env user asset) w r w') : w'.Custody settlement := by
  obtain ⟨hs, htotal, htokens⟩ := Vault.seizeForDeficitInner_redeemable hw.redeemable h
  refine hw.of_config hconfig (fun a => ?_) hs
  unfold VaultStorage.totalDepositedOf
  rw [htotal, htokens]
  exact hw.held a

theorem VaultOp.custody {op : VaultOp} (hw : w.Custody settlement) (hhost : op.env.TokenHost)
    (hvault : ¬ op.env.Authorizes w.deployed.vault) (hengine : ¬ op.env.Authorizes w.deployed.engine)
    (h : Returns op.call w () w') : w'.Custody settlement := by
  have hconfig := config_of_terms (terms_of_valuation (VaultOp.valuation h))
  cases op with
  | deposit env user asset amount =>
    obtain ⟨_, h⟩ := returns_void.mp h
    exact deposit_custody hw hhost hvault hconfig (Vault.deposit_deposited h)
  | withdraw env user asset amount =>
    obtain ⟨_, h⟩ := returns_void.mp h
    exact withdraw_custody hw hhost hvault hconfig (Vault.withdraw_withdrawn h)
  | applyPnl env user asset pnl =>
    obtain ⟨_, h⟩ := returns_void.mp h
    obtain ⟨engine, hauth, _⟩ := returns_readWith_bind.mp h
    obtain ⟨hwired, hauth⟩ := requireRole_ok hauth
    obtain rfl := Option.some.inj (hw.wired.symm.trans hwired)
    exact absurd hauth hengine
  | absorbBadDebt env user asset =>
    obtain ⟨_, h⟩ := returns_void.mp h
    exact absorbBadDebt_custody hw hhost hconfig h
  | settleDeficit env caller user asset =>
    obtain ⟨_, h⟩ := returns_void.mp h
    exact seizure_custody hw hconfig (Vault.settleDeficit_inner h)
  | seizeForDeficit env user asset =>
    obtain ⟨_, h⟩ := returns_void.mp h
    exact seizure_custody hw hconfig (Vault.seizeForDeficit_inner h)
  | migrateImportBalances env entries =>
    obtain ⟨_, h⟩ := returns_void.mp h
    simp only [Vault.migrateImportBalances, returns_readWith_bind, returns_get_bind,
      returns_lift_bind, reject_ok] at h
    obtain ⟨_, _, _, hopen, _⟩ := h
    exact absurd hw.closed hopen

/-- A call that moves settlement balances at most. -/
theorem credit_custody {user : Address} {vault : VaultStorage} {x : Int} (hw : w.Custody settlement)
    (hconfig : w'.config = w.config) (hcredit : w.vault.Credited vault user settlement x)
    (hbalance : w'.vault.balance = vault.balance)
    (htotal : w'.vault.totalDeposited = vault.totalDeposited)
    (hlists : w'.vault.userAssets = vault.userAssets) (htokens : w'.tokens = w.tokens) :
    w'.Custody settlement := by
  refine hw.of_config hconfig (fun a => ?_) ((hw.redeemable.settle hcredit).congr hbalance htotal hlists)
  have hsame : w'.vault.totalDepositedOf a = vault.totalDepositedOf a := by
    unfold VaultStorage.totalDepositedOf
    rw [htotal]
  rw [hsame, hcredit.totalDepositedOf, htokens]
  exact hw.held a

theorem AccountOp.custody {op : AccountOp} (hw : w.Custody settlement) (hhost : op.env.TokenHost)
    (hvault : ¬ op.env.Authorizes w.deployed.vault) (hengine : ¬ op.env.Authorizes w.deployed.engine)
    (h : Returns op.call w () w') : w'.Custody settlement := by
  have hconfig := AccountOp.config h
  cases op with
  | trade op =>
    obtain ⟨_, _, _, _, _, _, _, ht⟩ := EngineOp.trade h
    obtain ⟨_, ht, _⟩ := ht.traded
    obtain ⟨asset, vault, hs, hcredit, hv⟩ := ht.vault
    obtain rfl := Option.some.inj (hw.settles.symm.trans hs)
    obtain ⟨_, _, hw'⟩ := ht.world
    exact credit_custody hw hconfig hcredit (by rw [hv]) (by rw [hv]) (by rw [hv]) (by rw [hw'])
  | chargeTradeFee env user marketId size executionPrice isMaker =>
    obtain ⟨_, h⟩ := returns_void.mp h
    rcases Engine.chargeTradeFee_effect h with rfl | hpaid
    · exact hw
    · obtain ⟨asset, _, paid, vault, hs, _, hpaid, _, hcredit, hw'⟩ := hpaid
      obtain rfl := Option.some.inj (hw.settles.symm.trans hs)
      have hmiddle : World.Custody { w with vault := paid } settlement := by
        refine credit_custody hw ?_ hpaid rfl rfl rfl rfl
        obtain ⟨_, rfl⟩ := hpaid.rest
        rfl
      have hsame : w'.config = World.config { w with vault := paid } := by
        obtain ⟨_, rfl⟩ := hpaid.rest
        exact hconfig
      exact credit_custody hmiddle hsame hcredit (by rw [hw']) (by rw [hw']) (by rw [hw']) (by rw [hw'])
  | updateFunding env marketId =>
    obtain ⟨_, h⟩ := returns_void.mp h
    obtain ⟨_, _, vault, hw', ⟨balance, hrest⟩, hothers, hcredit⟩ := Engine.updateFunding_effect h
    have hmiddle : World.Custody { w with vault := { w.vault with
        fundingLong := vault.fundingLong, fundingShort := vault.fundingShort } } settlement :=
      credit_custody hw rfl (.refl _ w.deployed.vault settlement) rfl rfl rfl rfl
    -- without an insurance account nothing is credited, to whomever
    have hcredited : ∃ user x, VaultStorage.Credited { w.vault with
        fundingLong := vault.fundingLong, fundingShort := vault.fundingShort } vault user settlement x := by
      cases hi : w.engine.insurance with
      | some insurance =>
        have hcredit := hcredit insurance settlement hi hw.settles
        rw [hrest]
        rw [hrest] at hcredit
        exact ⟨insurance, _, hcredit⟩
      | none =>
        refine ⟨w.deployed.vault, 0, ⟨balance, by rw [hrest]⟩, fun u a => ?_⟩
        have hsame : vault.balanceOf u a = w.vault.balanceOf u a := hothers u a (by rw [hi]; nofun)
        rw [add_zero, ite_self]
        exact hsame
    obtain ⟨user, x, hcredited⟩ := hcredited
    have hsame : w'.config = World.config { w with vault := { w.vault with
        fundingLong := vault.fundingLong, fundingShort := vault.fundingShort } } := hconfig
    exact credit_custody hmiddle hsame hcredited (by rw [hw']) (by rw [hw']) (by rw [hw']) (by rw [hw'])
  | migrateImportPositions env entries =>
    obtain ⟨_, h⟩ := returns_void.mp h
    obtain rfl := Engine.migrateImportPositions_imported h
    exact credit_custody hw hconfig (.refl _ w.deployed.vault settlement) rfl rfl rfl rfl
  | vault op => exact VaultOp.custody hw hhost hvault hengine h

/-- The fund's calls take no tokens from the vault. -/
theorem FundOp.held {op : FundOp} (hne : w.deployed.vault ≠ w.deployed.insurance)
    (hideal : op.env.IdealTransfers) (hvault : ¬ op.env.Authorizes w.deployed.vault)
    (h : Returns op.call w () w') (a : Address) :
    w.tokens.held a w.deployed.vault ≤ w'.tokens.held a w.deployed.vault := by
  cases op with
  | recordBadDebt env asset amount =>
    obtain ⟨_, h⟩ := returns_void.mp h
    obtain ⟨_, rfl⟩ := Insurance.recordBadDebt_effect h
    exact le_rfl
  | reduceBadDebt env asset amount =>
    obtain ⟨_, h⟩ := returns_void.mp h
    obtain ⟨_, rfl⟩ := Insurance.reduceBadDebt_effect h
    exact le_rfl
  | staking op =>
    cases op with
    | stake env staker asset amount =>
      obtain ⟨_, h⟩ := returns_void.mp h
      obtain ⟨hauth, hpos, _, _, ht, rfl⟩ := Insurance.stake_effect h
      exact held_le_of_transfer hideal ht hpos.le (fun he => hvault (he ▸ hauth)) a
    | deposit env funder asset amount =>
      obtain ⟨_, h⟩ := returns_void.mp h
      obtain ⟨hauth, hpos, _, ht, rfl⟩ := Insurance.deposit_effect h
      exact held_le_of_transfer hideal ht hpos.le (fun he => hvault (he ▸ hauth)) a
    | requestUnstake env staker asset shares =>
      obtain ⟨_, h⟩ := returns_void.mp h
      obtain ⟨_, _, _, rfl⟩ := Insurance.requestUnstake_effect h
      exact le_rfl
    | withdrawUnstaked env staker asset =>
      obtain ⟨_, h⟩ := returns_void.mp h
      obtain ⟨_, _, _, ⟨_, _, rfl⟩ | ⟨_, _, ⟨_, rfl⟩ | ⟨hpos, _, ht, rfl⟩⟩⟩ :=
        Insurance.withdrawUnstaked_effect h
      · exact le_rfl
      · exact le_rfl
      · exact held_le_of_transfer hideal ht hpos.le hne a
    | sweepToOperating env asset amount =>
      obtain ⟨_, h⟩ := returns_void.mp h
      obtain rfl | ⟨_, _, _, rfl, ⟨_, rfl⟩ | ⟨_, _, rfl⟩⟩ := Insurance.sweepToOperating_effect h
      · exact le_rfl
      · exact le_rfl
      · exact le_rfl
    | payLiquidator env liquidator asset amount =>
      obtain ⟨_, h⟩ := returns_void.mp h
      obtain ⟨hpos, _, _, ht, rfl⟩ := Insurance.payLiquidator_effect h
      exact held_le_of_transfer hideal ht hpos.le hne a
    | coverDeficit env asset amount =>
      obtain ⟨_, h⟩ := returns_void.mp h
      obtain ⟨hnn, _, ⟨_, rfl⟩ | ⟨_, _, _, _, ht, rfl⟩⟩ := Insurance.coverDeficit_effect h
      · exact le_rfl
      · exact held_le_of_transfer hideal ht hnn hne a

end Step

/-! ## Setters -/

/-- The one setter that hands the vault's balances to a contract other than the engine. -/
def ContractCall.Rewires (d : Deployment) : ContractCall → Prop
  | .configure _ (.vault (.setEngine engine)) => engine ≠ d.engine
  | _ => False

def ProtocolOp.Rewires (d : Deployment) : ProtocolOp → Prop
  | .direct call => call.Rewires d
  | _ => False

section Setters

variable {env : Env} {w w' : World} {settlement : Address} {u : Unit}

/-- What the custody rests on in the configuration. -/
structure KeepsWiring (w w' : World) : Prop where
  engine : w.vault.engine = some w.deployed.engine → w'.vault.engine = some w.deployed.engine
  closed : w.vault.migrationSealed = true → w'.vault.migrationSealed = true
  settlementAsset : w'.engine.settlementAsset = w.engine.settlementAsset

theorem Setting.keepsWiring {setting : Setting}
    (hkeeps : ¬ (ContractCall.configure env setting).Rewires w.deployed)
    (h : Returns (setting.call env) w u w') : KeepsWiring w w' := by
  have hkept := Setting.kept h
  cases setting with
  | vault setting =>
    refine ⟨fun hwired => ?_, hkept.closed, by rw [hkept.others]⟩
    cases setting with
    | setEngine engine =>
      obtain rfl : engine = w.deployed.engine := not_not.mp hkeeps
      obtain ⟨_, rfl⟩ := Vault.configure_effect h
      rfl
    | _ => exact (hkept.engine (by simp)).trans hwired
  | engine setting =>
    exact ⟨fun hwired => by rw [hkept.others, hwired], fun hclosed => by rw [hkept.others, hclosed],
      hkept.settlementAsset⟩
  | insurance | liquidation | gateway =>
    obtain ⟨hvault, hengine⟩ := hkept
    exact ⟨fun hwired => by rw [hvault, hwired], fun hclosed => by rw [hvault, hclosed], by rw [hengine]⟩

/-- A setter moves nothing, so what it leaves wired stays backed. -/
theorem World.Custody.configured (hw : w.Custody settlement) (hwiring : KeepsWiring w w')
    (hledger : w'.ledger = w.ledger) : w'.Custody settlement := by
  have hdeployed : w'.deployed = w.deployed := ledger_congr World.deployed (fun _ => rfl) hledger
  have htokens : w'.tokens = w.tokens := ledger_congr World.tokens (fun _ => rfl) hledger
  have hbalance := ledger_congr (fun v => v.vault.balance) (fun _ => rfl) hledger
  have htotal := ledger_congr (fun v => v.vault.totalDeposited) (fun _ => rfl) hledger
  have hlists := ledger_congr (fun v => v.vault.userAssets) (fun _ => rfl) hledger
  refine ⟨hdeployed ▸ hw.distinct, ?_, hwiring.settlementAsset.trans hw.settles, hwiring.closed hw.closed,
    fun a => ?_, hw.redeemable.congr hbalance htotal hlists⟩
  · rw [hdeployed]
    exact hwiring.engine hw.wired
  · unfold VaultStorage.totalDepositedOf
    rw [htotal, htokens, hdeployed]
    exact hw.held a

end Setters

/-! ## Whole runs -/

section Run

variable {w w' : World} {settlement : Address}

theorem ContractCall.custody {c : ContractCall} (hw : w.Custody settlement) (hhost : c.env.TokenHost)
    (hvault : ¬ c.env.Authorizes w.deployed.vault) (hengine : ¬ c.env.Authorizes w.deployed.engine)
    (hkeeps : ¬ c.Rewires w.deployed) (h : Returns c.call w () w') : w'.Custody settlement := by
  cases c with
  | account op => exact AccountOp.custody hw hhost hvault hengine h
  | fund op =>
    have hv := (FundOp.kept h).2.1
    refine hw.of_config (FundOp.config h) (fun a => ?_) (hv ▸ hw.redeemable)
    rw [hv]
    exact (hw.held a).trans (FundOp.held hw.vault_ne_insurance hhost.ideal hvault h a)
  | oracle op =>
    obtain ⟨_, _, rfl⟩ := onOracle_returns.mp h
    exact ⟨hw.distinct, hw.wired, hw.settles, hw.closed, hw.held, hw.redeemable⟩
  | syncPositions env user positions =>
    obtain ⟨_, rfl⟩ := Vault.syncPositions_effect h
    exact ⟨hw.distinct, hw.wired, hw.settles, hw.closed, hw.held, hw.redeemable.congr rfl rfl rfl⟩
  | setFundingIndexes env marketId long short =>
    obtain rfl := Vault.setFundingIndexes_effect h
    exact ⟨hw.distinct, hw.wired, hw.settles, hw.closed, hw.held, hw.redeemable.congr rfl rfl rfl⟩
  | configure env setting =>
    exact hw.configured (Setting.keepsWiring hkeeps h) (Setting.effect h).2.ledger

theorem ProtocolOp.Makes.not_rewires {op : ProtocolOp} {d : Deployment} {c : ContractCall}
    (h : op.Makes d c) (hkeeps : ¬ op.Rewires d) : ¬ c.Rewires d := by
  rcases h.nested with rfl | ⟨_, rfl⟩ | ⟨_, rfl⟩
  · exact hkeeps
  · exact id
  · exact id

/-- What is asked of a transaction: its tokens are honest, it comes from outside, and it
leaves the vault with its engine. -/
structure ProtocolOp.Ordinary (d : Deployment) (op : ProtocolOp) : Prop where
  host : op.env.TokenHost
  outside : op.env.Outside d
  keeps : ¬ op.Rewires d

/-- Neither the vault nor the engine is what a nested call comes from. -/
theorem ProtocolOp.Ordinary.not_authorizes {op : ProtocolOp} {c : ContractCall} (ho : op.Ordinary w.deployed)
    (hw : w.Custody settlement) (hc : op.Makes w.deployed c) :
    ¬ c.env.Authorizes w.deployed.vault ∧ ¬ c.env.Authorizes w.deployed.engine := by
  have hdistinct := hw.distinct
  simp only [Deployment.contracts, List.nodup_cons, List.mem_cons, not_or] at hdistinct
  obtain ⟨_, ⟨_, _, hvl, hvg, _⟩, ⟨_, hel, heg, _⟩, _⟩ := hdistinct
  exact ⟨hc.not_authorizes ho.outside (by simp [Deployment.contracts]) hvg hvl,
    hc.not_authorizes ho.outside (by simp [Deployment.contracts]) heg hel⟩

theorem ProtocolOp.Ordinary.custody {op : ProtocolOp} (ho : op.Ordinary w.deployed)
    (hw : w.Custody settlement) (h : Returns op.call w () w') : w'.Custody settlement := by
  obtain ⟨v, _, _, hcalls, rfl⟩ := ProtocolOp.calls h
  have hv : v.deployed = w.deployed ∧ v.Custody settlement := by
    refine hcalls.keeps (I := fun v => v.deployed = w.deployed ∧ v.Custody settlement)
      (fun {v v' c} hv hc hcall => ?_) ⟨rfl, hw⟩
    obtain ⟨hdeployed, hv⟩ := hv
    have hauth := ho.not_authorizes hw hc
    have hhost : c.env.TokenHost := by
      constructor
      · unfold Env.IdealTransfers
        rw [hc.transfer]
        exact ho.host.ideal
      · rw [hc.transfer]
        exact ho.host.funded
    rw [← hdeployed] at hauth
    refine ⟨(ContractCall.deployed hcall).trans hdeployed, ?_⟩
    refine ContractCall.custody hv hhost hauth.1 hauth.2 ?_ hcall
    rw [hdeployed]
    exact hc.not_rewires ho.keeps
  exact ⟨hv.2.distinct, hv.2.wired, hv.2.settles, hv.2.closed, hv.2.held, hv.2.redeemable⟩

theorem ProtocolOp.custody_run {t : List (ProtocolOp × World)} (hw : w.Custody settlement)
    (hr : IsRun (CommitStep ProtocolOp.call) w t) (ho : ∀ e ∈ t, e.1.Ordinary w.deployed) :
    AllStates (fun v => v.deployed = w.deployed ∧ v.Custody settlement) w t := by
  refine invariant (fun v op v' hv hop hcall => ?_) ⟨rfl, hw⟩ hr
    (allSteps_labels (Q := fun op : ProtocolOp => op.Ordinary w.deployed).mpr ho)
  obtain ⟨hdeployed, hv⟩ := hv
  obtain rfl : v' = _ := hcall
  rcases commit_cases op.call v with ⟨_, h⟩ | ⟨_, h⟩
  · rw [← hdeployed] at hop ⊢
    exact ⟨ProtocolOp.deployed h, hop.custody hv h⟩
  · rw [h]
    exact ⟨hdeployed, hv⟩

/-- Over any run of transactions the vault holds what it counts as deposited, and in every
asset but the settlement asset it holds what all its users have, none of whom owes any. -/
theorem ProtocolOp.collateral_backed {t : List (ProtocolOp × World)} (hw : w.Custody settlement)
    (hr : IsRun (CommitStep ProtocolOp.call) w t) (ho : ∀ e ∈ t, e.1.Ordinary w.deployed) :
    AllStates (fun v => ∀ asset,
      v.vault.totalDepositedOf asset ≤ v.tokens.held asset w.deployed.vault ∧
      (asset ≠ settlement → (∀ user, 0 ≤ v.vault.balanceOf user asset) ∧
        v.vault.totalBalance asset ≤ v.tokens.held asset w.deployed.vault)) w t := by
  refine (ProtocolOp.custody_run hw hr ho).mono fun v hv asset => ?_
  obtain ⟨hdeployed, hv⟩ := hv
  rw [← hdeployed]
  exact ⟨hv.held asset, fun ha => ⟨fun user => hv.redeemable.nonneg user asset ha,
    (hv.redeemable.covered asset ha).trans (hv.held asset)⟩⟩

end Run

namespace Sample

theorem bank_tokenHost (now : Nat) : (bank now).TokenHost where
  ideal := (bank_hostOf now).ideal
  funded {tokens tokens' asset source target amount} h := by
    simp only [bank, move] at h
    split at h
    · cases h
    · omega

theorem bank_outside (now : Nat) : (bank now).Outside deployment := by
  simp [Env.Outside, Env.Authorizes, Deployment.contracts, deployment, bank, host]

/-- Imports are over, and alice has a thousand of the volatile token. -/
def opened : World :=
  let w := world (100 * precision) 1000
  { w with
    vault := { w.vault with migrationSealed := true }
    tokens := (∅ : Tokens).set (xlm, alice) 1000 }

theorem opened_custody : opened.Custody usdc where
  distinct := by decide
  wired := rfl
  settles := rfl
  closed := rfl
  held asset := by
    show 0 ≤ Tokens.held ((∅ : Tokens).set (xlm, alice) 1000) asset deployment.vault
    rw [held_set]
    split
    · decide
    · exact le_rfl
  redeemable := ⟨fun _ _ _ => le_rfl, fun _ _ => le_of_eq (Store.sum_empty _), fun _ _ _ hne => absurd rfl hne⟩

/-- Alice deposits a hundred of it, has it rated down, and takes forty back. -/
def savings : List ProtocolOp := [
  .direct (.account (.vault (.deposit (bank 1000) alice xlm 100))),
  .direct (.configure (bank 1000) (.vault (.setCollateral xlm "XLM" 2000 true))),
  .direct (.account (.vault (.withdraw (bank 1000) alice xlm 40)))]

end Sample

open Sample in
theorem collateral_backed_savings :
    allSucceed ProtocolOp.call opened savings = true ∧
    AllStates (fun v => ∀ asset,
      v.vault.totalDepositedOf asset ≤ v.tokens.held asset deployment.vault ∧
      (asset ≠ usdc → (∀ user, 0 ≤ v.vault.balanceOf user asset) ∧
        v.vault.totalBalance asset ≤ v.tokens.held asset deployment.vault))
      opened (execute ProtocolOp.call opened savings) := by
  refine ⟨by decide +kernel, ?_⟩
  refine ProtocolOp.collateral_backed opened_custody (isRun_commit opened savings) ?_
  intro e he
  simp only [execute, savings, List.mem_cons, List.not_mem_nil, or_false] at he
  rcases he with rfl | rfl | rfl <;> exact ⟨bank_tokenHost _, bank_outside _, id⟩

end Kryon

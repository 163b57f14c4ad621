import Kryon.Consent

/-! # What may move an account's health

Health values the vault's slice of an account by the prices, the listings and the funding
indexes. A transaction that writes none of these moves a user's health only when it has a reason
to change the user's account. -/
namespace Kryon
open Transaction Runs

/-- The calls that write what accounts are valued by: a price, a setting or the funding. -/
def ContractCall.Revalues : ContractCall → Prop
  | .oracle _ | .configure .. | .account (.updateFunding ..) => True
  | _ => False

def ProtocolOp.Revalues : ProtocolOp → Prop
  | .direct call => call.Revalues
  | _ => False

section Exposure

variable {env : Env} {w w' : World} {user : Address}

theorem SamePrices.of_valuation (h : w'.valuation = w.valuation) : SamePrices w w' where
  deployed := valuation_congr World.deployed (fun _ => rfl) h
  oracle := valuation_congr World.oracle (fun _ => rfl) h
  vaultOracle := valuation_congr (fun v => v.vault.oracle) (fun _ => rfl) h
  collateral := valuation_congr (fun v => v.vault.collateral) (fun _ => rfl) h
  marketConfig := valuation_congr (fun v => v.vault.marketConfig) (fun _ => rfl) h
  fundingLong := valuation_congr (fun v => v.vault.fundingLong) (fun _ => rfl) h
  fundingShort := valuation_congr (fun v => v.vault.fundingShort) (fun _ => rfl) h

/-- Only a direct call revalues: no transaction updates the funding on its way. -/
theorem ProtocolOp.Makes.not_revalues {op : ProtocolOp} {d : Deployment} {c : ContractCall}
    (h : op.Makes d c) (hkeeps : ¬ op.Revalues) : ¬ c.Revalues := by
  cases op with
  | direct call =>
    obtain rfl : c = call := h
    exact hkeeps
  | liquidate env liquidator user positionId closeSize price => cases h <;> exact id
  | adl env keeper counterparty positionId closeSize price => cases h <;> exact id
  | gateway op =>
    obtain ⟨fill, _, h⟩ := h
    cases h <;> exact id

theorem ContractCall.valuation {c : ContractCall} (hkeeps : ¬ c.Revalues)
    (hkeeper : w.vault.engine = some w.deployed.engine)
    (hout : ¬ c.env.Authorizes w.deployed.engine) (h : Returns c.call w () w') :
    w'.valuation = w.valuation := by
  cases c with
  | account op =>
    refine AccountOp.valuation ?_ h
    rintro env marketId rfl
    exact hkeeps trivial
  | fund op => exact (FundOp.kept h).1
  | oracle op | configure env setting => exact absurd trivial hkeeps
  | syncPositions env u positions =>
    obtain ⟨_, rfl⟩ := Vault.syncPositions_effect h
    rfl
  | setFundingIndexes env marketId long short =>
    -- The engine writes its indexes itself; nobody calls the vault for it.
    obtain ⟨_, hrole, _⟩ := returns_readWith_bind.mp h
    obtain ⟨hengine, hauth⟩ := requireRole_ok hrole
    obtain rfl := Option.some.inj (hkeeper.symm.trans hengine)
    exact absurd hauth hout

theorem ProtocolOp.valuation {op : ProtocolOp} (hw : w.Linked) (hout : op.env.Outside w.deployed)
    (hkeeps : ¬ op.Revalues) (h : Returns op.call w () w') : w'.valuation = w.valuation := by
  have hne : ∀ contract ∈ [w.deployed.gateway, w.deployed.liquidation], w.deployed.engine ≠ contract := by
    have hdistinct := hw.distinct
    simp only [Deployment.contracts, List.nodup_cons, List.mem_cons, not_or] at hdistinct
    simp [hdistinct]
  obtain ⟨v, _, _, hcalls, rfl⟩ := ProtocolOp.calls h
  refine hcalls.keeps (I := fun v => v.valuation = w.valuation) (fun {v v' c} hv hc hcall => ?_) rfl
  have hconfig := config_of_terms (terms_of_valuation hv)
  have hdeployed : v.deployed = w.deployed := deployed_of_config hconfig
  refine (ContractCall.valuation (hc.not_revalues hkeeps) (hw.of_config hconfig).keeper ?_ hcall).trans hv
  rw [hdeployed]
  exact hc.not_authorizes hout (by simp [Deployment.contracts]) (hne _ (by simp)) (hne _ (by simp))

/-- With the account and its valuation the health is where it was. -/
theorem Bystander.accountHealth (h : Bystander w w' user) (hrecipient : w.engine.feeRecipient ≠ some user)
    (hvaluation : w'.valuation = w.valuation) (asset : Address) :
    Vault.accountHealth env w' user asset = Vault.accountHealth env w user asset :=
  Vault.accountHealth_congr (.of_valuation hvaluation) ⟨h.mirrored, h.recorded, h.same hrecipient⟩

/-- Nobody moves another account's health: in any run, whoever asks finds a user's health after a
transaction as it was, unless there was a reason to change the user's account, or a price, a
setting or the funding was written; the fee recipient's account takes fees. A funding update's
own reason, `Reason.fund`, is none here. -/
theorem ProtocolOp.health_isolated {t : List (ProtocolOp × World)} (hw : w.Linked)
    (hr : IsRun (CommitStep ProtocolOp.call) w t) (hout : ∀ e ∈ t, e.1.env.Outside w.deployed)
    (hkeeps : ∀ e ∈ t, ¬ e.1.Reassigns w.deployed) :
    AllSteps (fun v op => ¬ op.Revalues → ∀ user, v.engine.feeRecipient ≠ some user →
      (∀ env asset, Vault.accountHealth env (commit op.call v) user asset =
        Vault.accountHealth env v user asset) ∨ Reason v user op) w t := by
  have hlabels := (allSteps_labels (t := t) (s := w) (Q := fun op : ProtocolOp =>
    op.env.Outside w.deployed ∧ ¬ op.Reassigns w.deployed)).mpr fun e he => ⟨hout e he, hkeeps e he⟩
  refine (ProtocolOp.linked_run hw hr hlabels).allSteps
    (fun v op v' hv hcall hvalued user hrecipient => ?_) (hr.and hlabels)
  obtain ⟨hdeployed, hv⟩ := hv
  have hout : op.env.Outside v.deployed := hdeployed ▸ hcall.2.1
  rcases commit_cases op.call v with ⟨_, h⟩ | ⟨_, h⟩
  · rcases ProtocolOp.reason hv hout h with hsame | hreason
    · have hvaluation := ProtocolOp.valuation hv hout hvalued h
      exact .inl fun env asset => hsame.accountHealth hrecipient hvaluation asset
    · exact .inr hreason
  · rw [h]
    exact .inl fun _ _ => rfl

end Exposure

open Sample in
theorem health_isolated_settling :
    allSucceed ProtocolOp.call settling ownBusiness = true ∧
    AllSteps (fun v op => ¬ op.Revalues → ∀ user, v.engine.feeRecipient ≠ some user →
      (∀ env asset, Vault.accountHealth env (commit op.call v) user asset =
        Vault.accountHealth env v user asset) ∨ Reason v user op) settling
      (execute ProtocolOp.call settling ownBusiness) := by
  refine ⟨by decide +kernel, ProtocolOp.health_isolated
    ⟨by decide, rfl, rfl, rfl, rfl, rfl, rfl, rfl⟩ (isRun_commit settling ownBusiness) ?_ ?_⟩
  · intro e he
    simp only [execute, ownBusiness, List.mem_cons, List.not_mem_nil, or_false] at he
    rcases he with rfl | rfl <;> exact bank_outside _
  · intro e he
    simp only [execute, ownBusiness, List.mem_cons, List.not_mem_nil, or_false] at he
    rcases he with rfl | rfl <;> exact id

end Kryon

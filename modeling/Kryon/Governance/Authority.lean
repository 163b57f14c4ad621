import Kryon.Nested
import Kryon.System
import Kryon.Insurance.Custody

/-! # Who changes the rules

Once the timelock is the admin of all six contracts, nobody else changes what an admin may
change: the configuration, the guardians, the code and the role itself. A guardian may pause.
Everything else is a proposal that was queued two days before. -/
namespace Kryon
open Transaction Runs

/-! ## Calls without the admin -/

section Unauthorized

variable {w w' : World}

/-- Without its admin, and without whom the admin nominated, the oracle only takes prices. -/
theorem OracleOp.rules {s s' : OracleStorage} {op : OracleOp} {admin : Address}
    (hadmin : s.admin = some admin) (hauth : ¬ op.env.Authorizes admin)
    (hpending : ∀ next, s.pendingAdmin = some next → ¬ op.env.Authorizes next)
    (h : Returns op.call s () s') :
    { s' with price := ∅ } = { s with price := ∅ } := by
  have denied : ∀ {a}, (do
      let admin ← okOr s.admin .invalidConfig
      requireAuth op.env admin
      return admin : Res Address) = .ok a → False := by
    intro a ha
    obtain ⟨hrole, ha⟩ := requireRole_ok ha
    obtain rfl := Option.some.inj (hadmin.symm.trans hrole)
    exact hauth ha
  cases op with
  | initialise env next =>
    simp only [OracleOp.call, OracleAdapter.initialise, returns_get_bind, returns_lift_bind, reject_ok,
      hadmin] at h
    obtain ⟨_, hnone, _⟩ := h
    exact absurd rfl hnone
  | setFeed | nominateAdmin | setQuorumFeed | setSourcePublisher =>
    obtain ⟨_, ha, _⟩ := returns_readWith_bind.mp h
    exact (denied ha).elim
  | acceptAdmin env =>
    obtain ⟨next, hnext, h⟩ := returns_readWith_bind.mp h
    obtain ⟨_, haccept, _⟩ := returns_lift_bind.mp h
    exact absurd (requireAuth_ok.mp haccept) (hpending next (okOr_ok.mp hnext))
  | writePrice env asset publisher price confidence publishTime =>
    obtain ⟨_, h⟩ := returns_void.mp h
    obtain ⟨_, rfl⟩ := OracleAdapter.writePrice_stores h
    rfl
  | writeQuorumPrice env asset observations =>
    obtain ⟨_, h⟩ := returns_void.mp h
    obtain ⟨_, rfl⟩ := OracleAdapter.writeQuorumPrice_stores h
    rfl
  | getPrice env asset overrideGuard =>
    obtain ⟨_, h⟩ := returns_void.mp h
    rw [(returns_readWith.mp h).2]

/-- Every contract has an admin, and everybody who is one or may become the oracle's is in `P`. -/
structure World.HeldBy (P : Address → Prop) (w : World) : Prop where
  admins : ∀ c, ∃ admin, w.adminOf c = some admin ∧ P admin
  pending : ∀ next, w.oracle.pendingAdmin = some next → P next

theorem adminOf_of_config (h : w'.config = w.config) (c : Contract) : w'.adminOf c = w.adminOf c :=
  config_congr (fun v => v.adminOf c) (fun _ => by cases c <;> rfl) h

theorem pendingAdmin_of_config (h : w'.config = w.config) :
    w'.oracle.pendingAdmin = w.oracle.pendingAdmin :=
  config_congr (fun v => v.oracle.pendingAdmin) (fun _ => rfl) h

theorem World.HeldBy.of_config {P : Address → Prop} (hw : w.HeldBy P) (h : w'.config = w.config) :
    w'.HeldBy P where
  admins c := by
    rw [adminOf_of_config h]
    exact hw.admins c
  pending := by
    rw [pendingAdmin_of_config h]
    exact hw.pending

theorem ContractCall.rules {c : ContractCall} {P : Address → Prop} (hw : w.HeldBy P)
    (hauth : ∀ a, P a → ¬ c.env.Authorizes a) (h : Returns c.call w () w') : w'.config = w.config := by
  cases c with
  | account op => exact AccountOp.config h
  | fund op => exact FundOp.config h
  | oracle op =>
    obtain ⟨oracle, hop, rfl⟩ := onOracle_returns.mp h
    obtain ⟨admin, hadmin, hP⟩ := hw.admins .oracle
    have hrules := OracleOp.rules hadmin (hauth admin hP) (fun next hnext => hauth next (hw.pending next hnext)) hop
    exact congrArg (fun o : OracleStorage => { w.config with oracle := o }) hrules
  | syncPositions env user positions =>
    obtain ⟨_, rfl⟩ := Vault.syncPositions_effect h
    rfl
  | setFundingIndexes env marketId long short =>
    obtain rfl := Vault.setFundingIndexes_effect h
    rfl
  | configure env setting =>
    obtain ⟨⟨a, ha, hauth'⟩, _⟩ := Setting.effect h
    obtain ⟨admin, hadmin, hP⟩ := hw.admins setting.contract
    obtain rfl := Option.some.inj (hadmin.symm.trans ha)
    exact absurd hauth' (hauth _ hP)

/-- The calls that are the admin's to make. -/
def ContractCall.AdminOnly : ContractCall → Prop
  | .configure .. | .fund (.staking (.sweepToOperating ..)) | .account (.migrateImportPositions ..)
  | .account (.vault (.migrateImportBalances ..)) | .oracle (.setFeed ..) | .oracle (.nominateAdmin ..)
  | .oracle (.setQuorumFeed ..) | .oracle (.setSourcePublisher ..) => True
  | _ => False

theorem ContractCall.AdminOnly.authorized {c : ContractCall} (hc : c.AdminOnly)
    (h : Returns c.call w () w') : ∃ k, w.AdminAuthorizes c.env k := by
  cases c with
  | configure env setting => exact ⟨_, (Setting.effect h).1⟩
  | fund op =>
    cases op with
    | staking op =>
      cases op with
      | sweepToOperating env asset amount =>
        obtain ⟨_, h⟩ := returns_void.mp h
        obtain ⟨_, ha, _⟩ := returns_readWith_bind.mp h
        exact ⟨.insurance, _, requireRole_ok ha⟩
      | _ => exact hc.elim
    | _ => exact hc.elim
  | account op =>
    cases op with
    | migrateImportPositions env entries =>
      obtain ⟨_, h⟩ := returns_void.mp h
      obtain ⟨_, ha, _⟩ := returns_readWith_bind.mp h
      exact ⟨.engine, _, requireRole_ok ha⟩
    | vault op =>
      cases op with
      | migrateImportBalances env entries =>
        obtain ⟨_, h⟩ := returns_void.mp h
        obtain ⟨_, ha, _⟩ := returns_readWith_bind.mp h
        exact ⟨.vault, _, requireRole_ok ha⟩
      | _ => exact hc.elim
    | _ => exact hc.elim
  | oracle op =>
    obtain ⟨oracle, hop, rfl⟩ := onOracle_returns.mp h
    cases op with
    | setFeed | nominateAdmin | setQuorumFeed | setSourcePublisher =>
      obtain ⟨_, ha, _⟩ := returns_readWith_bind.mp hop
      exact ⟨.oracle, _, requireRole_ok ha⟩
    | _ => exact hc.elim
  | _ => exact hc.elim

/-- A transaction that no admin stands behind leaves the configuration alone. -/
theorem ProtocolOp.rules {op : ProtocolOp} {P : Address → Prop} (hw : w.HeldBy P)
    (hapart : ∀ a, P a → a ∉ w.deployed.contracts) (hauth : ∀ a, P a → ¬ op.env.Authorizes a)
    (h : Returns op.call w () w') : w'.config = w.config := by
  obtain ⟨v, filled, cancelled, hcalls, rfl⟩ := ProtocolOp.calls h
  show v.config = w.config
  refine hcalls.keeps (I := fun v => v.config = w.config) (fun {v v' c} hv hc hcall => ?_) rfl
  refine (ContractCall.rules (hw.of_config hv) (fun a hP ha => ?_) hcall).trans hv
  have hpeer : ∀ peer ∈ w.deployed.contracts, ¬ (op.env.callFrom peer).Authorizes a := by
    intro peer hmem ha
    rcases (Env.authorizes_callFrom op.env).mp ha with rfl | hs
    · exact hapart _ hP hmem
    · exact hauth a hP (.inr hs)
  rcases hc.env_cases with he | he | he
  · exact hauth a hP (he ▸ ha)
  · exact hpeer _ (by simp [Deployment.contracts]) (he ▸ ha)
  · exact hpeer _ (by simp [Deployment.contracts]) (he ▸ ha)

end Unauthorized

/-! ## Calls that nominate nobody -/

section Nominations

variable {w w' : World} {admin : Address}

/-- The admin roles of a world whose every contract answers to `admin`. -/
structure World.AnswersTo (w : World) (admin : Address) : Prop where
  admins : ∀ c, w.adminOf c = some admin
  pending : w.oracle.pendingAdmin = none

theorem World.AnswersTo.of_config (hw : w.AnswersTo admin) (h : w'.config = w.config) :
    w'.AnswersTo admin where
  admins c := (adminOf_of_config h c).trans (hw.admins c)
  pending := (pendingAdmin_of_config h).trans hw.pending

def ContractCall.Nominates : ContractCall → Prop
  | .oracle (.nominateAdmin ..) => True
  | _ => False

def ProtocolOp.Nominates : ProtocolOp → Prop
  | .direct call => call.Nominates
  | _ => False

def PeerOp.Nominates : PeerOp → Prop
  | .protocol op => op.Nominates
  | .role (.nominateAdmin ..) => True
  | .role _ => False

theorem ProtocolOp.Makes.not_nominates {op : ProtocolOp} {d : Deployment} {c : ContractCall}
    (h : op.Makes d c) (hn : ¬ op.Nominates) : ¬ c.Nominates := by
  cases op with
  | direct call =>
    obtain rfl : c = call := h
    exact hn
  | liquidate env liquidator user positionId closeSize price => cases h <;> exact id
  | adl env keeper counterparty positionId closeSize price => cases h <;> exact id
  | gateway op =>
    obtain ⟨fill, _, h⟩ := h
    cases h <;> exact id

/-- A role that is taken was taken by nomination. -/
theorem OracleOp.keepsAdmin {s s' : OracleStorage} {op : OracleOp} (hadmin : s.admin = some admin)
    (hpending : s.pendingAdmin = none) (hn : ¬ (ContractCall.oracle op).Nominates)
    (h : Returns op.call s () s') : s'.admin = some admin ∧ s'.pendingAdmin = none := by
  cases op with
  | nominateAdmin env next => exact absurd trivial hn
  | initialise env next =>
    simp only [OracleOp.call, OracleAdapter.initialise, returns_get_bind, returns_lift_bind, reject_ok,
      hadmin] at h
    obtain ⟨_, hnone, _⟩ := h
    exact absurd rfl hnone
  | acceptAdmin env =>
    obtain ⟨next, hnext, _⟩ := returns_readWith_bind.mp h
    rw [hpending] at hnext
    cases hnext
  | setFeed env asset publisher source guard active =>
    simp only [OracleOp.call, OracleAdapter.setFeed, returns_readWith_bind, returns_lift_bind,
      returns_modify] at h
    obtain ⟨_, _, _, _, rfl⟩ := h
    exact ⟨hadmin, hpending⟩
  | setQuorumFeed env asset guard requiredSources minSources maxSourceDeviationBps active =>
    simp only [OracleOp.call, OracleAdapter.setQuorumFeed, returns_readWith_bind, returns_lift_bind,
      returns_modify] at h
    obtain ⟨_, _, _, _, _, _, rfl⟩ := h
    exact ⟨hadmin, hpending⟩
  | setSourcePublisher env asset source publisher =>
    simp only [OracleOp.call, OracleAdapter.setSourcePublisher, returns_readWith_bind,
      returns_lift_bind, returns_modify] at h
    obtain ⟨_, _, _, _, rfl⟩ := h
    exact ⟨hadmin, hpending⟩
  | writePrice env asset publisher price confidence publishTime =>
    obtain ⟨_, h⟩ := returns_void.mp h
    obtain ⟨_, rfl⟩ := OracleAdapter.writePrice_stores h
    exact ⟨hadmin, hpending⟩
  | writeQuorumPrice env asset observations =>
    obtain ⟨_, h⟩ := returns_void.mp h
    obtain ⟨_, rfl⟩ := OracleAdapter.writeQuorumPrice_stores h
    exact ⟨hadmin, hpending⟩
  | getPrice env asset overrideGuard =>
    obtain ⟨_, h⟩ := returns_void.mp h
    rw [(returns_readWith.mp h).2]
    exact ⟨hadmin, hpending⟩

theorem ContractCall.answersTo {c : ContractCall} (hw : w.AnswersTo admin) (hn : ¬ c.Nominates)
    (h : Returns c.call w () w') : w'.AnswersTo admin := by
  cases c with
  | account op => exact hw.of_config (AccountOp.config h)
  | fund op => exact hw.of_config (FundOp.config h)
  | oracle op =>
    obtain ⟨oracle, hop, rfl⟩ := onOracle_returns.mp h
    obtain ⟨hadmin, hpending⟩ := OracleOp.keepsAdmin (hw.admins .oracle) hw.pending hn hop
    refine ⟨fun c => ?_, hpending⟩
    have hold := hw.admins c
    cases c with
    | oracle => exact hadmin
    | vault | engine | insurance | liquidation | gateway => exact hold
  | syncPositions env user positions =>
    obtain ⟨_, rfl⟩ := Vault.syncPositions_effect h
    exact hw.of_config rfl
  | setFundingIndexes env marketId long short =>
    obtain rfl := Vault.setFundingIndexes_effect h
    exact hw.of_config rfl
  | configure env setting =>
    obtain ⟨_, hset⟩ := Setting.effect h
    exact ⟨fun c => (hset.adminOf c).trans (hw.admins c), hset.oracle ▸ hw.pending⟩

theorem ProtocolOp.answersTo {op : ProtocolOp} (hw : w.AnswersTo admin) (hn : ¬ op.Nominates)
    (h : Returns op.call w () w') : w'.AnswersTo admin := by
  obtain ⟨v, filled, cancelled, hcalls, rfl⟩ := ProtocolOp.calls h
  have hv : v.AnswersTo admin := hcalls.keeps (I := fun v => v.AnswersTo admin)
    (fun hv hc hcall => ContractCall.answersTo hv (hc.not_nominates hn) hcall) hw
  exact hv.of_config rfl

end Nominations

/-! ## The timelock as the admin -/

section Timelock

variable {Val : Type} {timelock : Address} {dispatch : Dispatch Val} {s s' : System Val}

/-- What only an admin changes, and a pause. -/
def System.rules (s : System Val) : System Val := { s with world := s.world.config, governance := {} }

/-- The timelock is the admin of every contract, and stays so for now. -/
structure System.Governed (timelock : Address) (s : System Val) : Prop where
  admins : ∀ c, s.world.adminOf c = some timelock
  pending : ∀ c, s.pendingAdminOf c = none
  apart : timelock ∉ s.world.deployed.contracts

/-- Every contract still runs the code it was deployed with. -/
structure System.Unaltered (timelock : Address) (s : System Val) : Prop extends s.Governed timelock where
  code : ∀ c, s.wasm.get c = none

/-- The engine's calls reach the vault, too. -/
structure System.Connected (timelock : Address) (s : System Val) : Prop extends s.Unaltered timelock where
  vault : s.world.engine.vault = some s.world.deployed.vault

theorem System.Governed.answersTo (hs : s.Governed timelock) : s.world.AnswersTo timelock :=
  ⟨hs.admins, hs.pending .oracle⟩

theorem rules_congr {α : Type} (f : System Val → α) (hf : ∀ v : System Val, f v.rules = f v)
    (h : s'.rules = s.rules) : f s' = f s := by
  rw [← hf s', h, hf s]

theorem System.Governed.of_rules (hs : s.Governed timelock) (h : s'.rules = s.rules) :
    s'.Governed timelock where
  admins c := (rules_congr (fun v => v.world.adminOf c) (fun _ => by cases c <;> rfl) h).trans (hs.admins c)
  pending c := (rules_congr (fun v => v.pendingAdminOf c) (fun _ => by cases c <;> rfl) h).trans (hs.pending c)
  apart := by
    rw [rules_congr (fun v => v.world.deployed) (fun _ => rfl) h]
    exact hs.apart

theorem Roles.requireAdmin_ok {env : Env} {c : Contract} {admin : Address}
    (h : Roles.requireAdmin env c s = .ok admin) :
    s.world.adminOf c = some admin ∧ env.Authorizes admin := requireRole_ok h

theorem World.pause_adminOf (w : World) (p : Pausable) (c : Contract) :
    (w.pause p).adminOf c = w.adminOf c := by
  cases p <;> cases c <;> rfl

/-- Every contract has an admin, and everybody who is one or may become one is in `P`. -/
structure System.HeldBy (P : Address → Prop) (s : System Val) : Prop where
  admins : ∀ c, ∃ admin, s.world.adminOf c = some admin ∧ P admin
  pending : ∀ c next, s.pendingAdminOf c = some next → P next
  apart : ∀ a, P a → a ∉ s.world.deployed.contracts

theorem System.Governed.heldBy (hs : s.Governed timelock) : s.HeldBy (· = timelock) where
  admins c := ⟨timelock, hs.admins c, rfl⟩
  pending c next hnext := by
    rw [hs.pending c] at hnext
    cases hnext
  apart := by
    rintro a rfl
    exact hs.apart

/-- A call on the six contracts that nobody of these stands behind changes no rule, unless a
guardian pauses. -/
theorem PeerOp.rules {op : PeerOp} {P : Address → Prop} (hs : s.HeldBy P)
    (hauth : ∀ a, P a → ¬ op.env.Authorizes a) (h : Returns op.call s () s') : s'.rules = s.rules ∨
      ∃ env p guardian, op = .role (.emergencyPause env p guardian) ∧
        s.guardian.get p.contract = some guardian ∧ s'.rules = { s.rules with world := s.rules.world.pause p } := by
  have denied : ∀ {c a}, Roles.requireAdmin op.env c s = .ok a → False := by
    intro c a ha
    obtain ⟨hrole, ha⟩ := Roles.requireAdmin_ok ha
    obtain ⟨admin, hadmin, hP⟩ := hs.admins c
    obtain rfl := Option.some.inj (hadmin.symm.trans hrole)
    exact hauth _ hP ha
  cases op with
  | protocol op =>
    obtain ⟨world, hop, rfl⟩ := onWorld_returns.mp h
    have hconfig := ProtocolOp.rules (P := P) ⟨hs.admins, hs.pending .oracle⟩ hs.apart hauth hop
    exact .inl (congrArg (fun w => { s.rules with world := w }) hconfig)
  | role op =>
    cases op with
    | upgrade | nominateAdmin | setGuardian =>
      obtain ⟨_, ha, _⟩ := returns_readWith_bind.mp h
      exact (denied ha).elim
    | acceptAdmin env c =>
      obtain ⟨next, hnext, h⟩ := returns_readWith_bind.mp h
      obtain ⟨_, haccept, _⟩ := returns_lift_bind.mp h
      exact absurd (requireAuth_ok.mp haccept) (hauth next (hs.pending c next (okOr_ok.mp hnext)))
    | emergencyPause env p caller =>
      simp only [PeerOp.call, RoleOp.call, Roles.emergencyPause, returns_lift_bind,
        returns_readWith_bind, returns_get_bind, requireAuth_ok, okOr_ok, reject_ok, returns_modify,
        not_and, not_not] at h
      obtain ⟨_, hcaller, admin, hadmin, _, hguardian, rfl⟩ := h
      obtain ⟨holder, hholder, hP⟩ := hs.admins p.contract
      obtain rfl := Option.some.inj (hholder.symm.trans hadmin)
      have hne : caller ≠ holder := fun he => hauth _ hP (he ▸ hcaller)
      refine .inr ⟨env, p, caller, rfl, hguardian hne, ?_⟩
      cases p <;> rfl

/-- Neither the code nor the guardians say who the admin is. -/
theorem System.Governed.frame (hs : s.Governed timelock) {wasm : Store Contract (BitVec 256)}
    {guardian : Store Contract Address} : System.Governed timelock { s with wasm, guardian } where
  admins := hs.admins
  pending c := by
    rw [← hs.pending c]
    cases c <;> rfl
  apart := hs.apart

/-- The timelock stays the admin until it nominates another. -/
theorem PeerOp.governed {op : PeerOp} (hs : s.Governed timelock) (hn : ¬ op.Nominates)
    (h : Returns op.call s () s') : s'.Governed timelock := by
  cases op with
  | protocol op =>
    obtain ⟨world, hop, rfl⟩ := onWorld_returns.mp h
    have hw := ProtocolOp.answersTo hs.answersTo hn hop
    refine ⟨hw.admins, fun c => ?_, ?_⟩
    · have hold := hs.pending c
      cases c with
      | oracle => exact hw.pending
      | vault | engine | insurance | liquidation | gateway => exact hold
    · rw [ProtocolOp.deployed hop]
      exact hs.apart
  | role op =>
    cases op with
    | nominateAdmin env c next => exact absurd trivial hn
    | upgrade env c newWasmHash =>
      obtain ⟨_, _, h⟩ := returns_readWith_bind.mp h
      obtain rfl := returns_modify.mp h
      exact hs.frame
    | setGuardian env p guardian =>
      obtain ⟨_, _, h⟩ := returns_readWith_bind.mp h
      obtain rfl := returns_modify.mp h
      exact hs.frame
    | acceptAdmin env c =>
      obtain ⟨next, hnext, _⟩ := returns_readWith_bind.mp h
      rw [hs.pending c] at hnext
      cases hnext
    | emergencyPause env p caller =>
      simp only [PeerOp.call, RoleOp.call, Roles.emergencyPause, returns_lift_bind,
        returns_readWith_bind, returns_get_bind, returns_modify] at h
      obtain ⟨_, _, _, _, _, _, rfl⟩ := h
      refine ⟨fun c => (World.pause_adminOf _ p c).trans (hs.admins c), fun c => ?_, ?_⟩
      · rw [← hs.pending c]
        cases p <;> cases c <;> rfl
      · cases p <;> exact hs.apart

theorem PeerOp.governance {op : PeerOp} (h : Returns op.call s () s') :
    s'.governance = s.governance := by
  cases op with
  | protocol op =>
    obtain ⟨_, _, rfl⟩ := onWorld_returns.mp h
    rfl
  | role op =>
    cases op with
    | nominateAdmin env c next =>
      obtain ⟨_, _, h⟩ := returns_readWith_bind.mp h
      obtain rfl := returns_modify.mp h
      cases c <;> rfl
    | upgrade | setGuardian =>
      obtain ⟨_, _, h⟩ := returns_readWith_bind.mp h
      obtain rfl := returns_modify.mp h
      rfl
    | acceptAdmin env c =>
      simp only [PeerOp.call, RoleOp.call, Roles.acceptAdmin, returns_readWith_bind, returns_lift_bind,
        returns_modify_bind, returns_modify] at h
      obtain ⟨_, _, _, _, rfl⟩ := h
      cases c <;> rfl
    | emergencyPause env p caller =>
      simp only [PeerOp.call, RoleOp.call, Roles.emergencyPause, returns_lift_bind,
        returns_readWith_bind, returns_get_bind, returns_modify] at h
      obtain ⟨_, _, _, _, _, _, rfl⟩ := h
      rfl

end Timelock

/-! ## Runs of the system -/

section Run

variable {Val : Type} {timelock : Address} {dispatch : Dispatch Val} {s s' : System Val}
  {op : SystemOp Val}

namespace SystemOp

def governance? : SystemOp Val → Option (GovernanceOp Val)
  | peer _ => none
  | governance op => some op

/-- Only an executed proposal is a call that the timelock makes. -/
def Outside (timelock : Address) : SystemOp Val → Prop
  | peer op => ¬ op.env.Authorizes timelock
  | governance _ => True

/-- An execution is one of a stored proposal that has matured. -/
theorem Governance.execute_proposal {env : GovernanceHost Val} {id : BitVec 256}
    {g g' : Governance Val} {p : GovernanceProposal Val}
    (h : Returns (Governance.execute env id) g p g') : ∃ q, g.proposal.get id = some q ∧
      q.status = .queued ∧ q.eta ≤ env.timestamp ∧ p = { q with status := .executed } := by
  simp only [Governance.execute, returns_readWith_bind, returns_get_bind, returns_lift_bind, reject_ok,
    okOr_ok, returns_modify_bind, not_not] at h
  obtain ⟨_, _, _, _, q, hq, _, hqueued, _, heta, h⟩ := h
  obtain ⟨_, _, _, hret⟩ := returns_bind.mp h
  obtain ⟨rfl, _⟩ := returns_pure.mp hret
  exact ⟨q, hq, hqueued, by omega, rfl⟩

/-- What an execution does: the timelock's own step, and then the call it dispatches. -/
theorem execute_returns {env : GovernanceHost Val} {id : BitVec 256} {u : Unit}
    (h : Returns (execute timelock dispatch env id) s u s') :
    ∃ p governance, Returns (Governance.execute env id) s.governance p governance ∧
      Returns (invoke timelock dispatch env.toEnv ⟨p.target, p.action, p.args⟩)
        { s with governance } u s' := by
  obtain ⟨p, v, hstep, hinvoke⟩ := returns_bind.mp h
  obtain ⟨governance, hexec, rfl⟩ := onGovernance_returns.mp hstep
  exact ⟨p, governance, hexec, hinvoke⟩

theorem invoke_cases {env : Env} {call : Invocation Val} {u : Unit}
    (h : Returns (invoke timelock dispatch env call) s u s') :
    s' = s ∨ ∃ peer, dispatch (env.callFrom timelock) call = some peer ∧ Returns peer.call s () s' := by
  unfold invoke at h
  cases hd : dispatch (env.callFrom timelock) call with
  | none =>
    rw [hd] at h
    exact .inl (returns_pure.mp h).2
  | some peer =>
    rw [hd] at h
    exact .inr ⟨peer, rfl, h⟩

/-- The timelock's part of a transaction. -/
theorem governance_step (h : Step timelock dispatch s op s') :
    match op with
    | peer _ => s'.governance = s.governance
    | governance op => GovernanceOp.Step s.governance op s'.governance := by
  obtain ⟨s, s', rfl, rfl, h⟩ := h
  cases op with
  | peer op => exact PeerOp.governance h
  | governance op =>
    cases op with
    | execute env id =>
      obtain ⟨p, governance, hexec, hinvoke⟩ := execute_returns h
      have hkept : s'.governance = governance := by
        rcases invoke_cases hinvoke with rfl | ⟨peer, _, hpeer⟩
        · rfl
        · exact PeerOp.governance hpeer
      refine ⟨_, _, rfl, rfl, ?_⟩
      rw [hkept]
      exact returns_void.mpr ⟨p, hexec⟩
    | initialise | nominateAdmin | acceptAdmin | queue | cancel | emergencyPause | setGuardian =>
      obtain ⟨_, hop, rfl⟩ := onGovernance_returns.mp h
      exact ⟨_, _, rfl, rfl, hop⟩

/-- The timelock has on record what the run did with it. -/
theorem run_recorded {t : List (SystemOp Val × System Val)} (hr : IsRun (Step timelock dispatch) s t)
    (hfresh : s.governance = {}) :
    Recorded ((labels t).filterMap governance?) (final s t).governance := by
  rw [← List.nil_append (labels t)]
  refine history_invariant (J := fun past v => Recorded (past.filterMap governance?) v.governance)
    (fun past v op v' hv hstep => ?_) ?_ hr
  · have hstep := governance_step hstep
    rw [List.filterMap_append]
    cases op with
    | peer op =>
      have hstep : v'.governance = v.governance := hstep
      show Recorded (past.filterMap governance? ++ []) v'.governance
      rwa [hstep, List.append_nil]
    | governance op => exact (GovernanceOp.Step.timelock hstep).recorded hv
  · rw [hfresh]
    exact recorded_fresh

theorem mem_governance {past : List (SystemOp Val)} {op : GovernanceOp Val}
    (h : op ∈ past.filterMap governance?) : governance op ∈ past := by
  obtain ⟨o, ho, he⟩ := List.mem_filterMap.mp h
  cases o with
  | peer _ => cases he
  | governance _ =>
    obtain rfl := Option.some.inj he
    exact ho

/-- Once the timelock is the admin of all contracts, a transaction changes the rules in two ways
only: a guardian pauses a contract, or a proposal is executed that was queued at least 48 hours
before and not cancelled, and then it is the proposal's call that changes them. The timelock
remains the admin unless that call nominates another, and nobody else makes an admin's call.
All this is about the code as it was deployed, the timelock's own included: its `upgrade`, which
the timelock's admin may call without any delay, is not among the transactions. -/
theorem governed_rules {t : List (SystemOp Val × System Val)}
    (hr : IsRun (Step timelock dispatch) s t) (hfresh : s.governance = {})
    (hs : (final s t).Unaltered timelock) (hstep : Step timelock dispatch (final s t) op s')
    (hout : op.Outside timelock) :
    (s'.rules = (final s t).rules ∨
      (∃ env p guardian, op = .peer (.role (.emergencyPause env p guardian)) ∧
        (final s t).guardian.get p.contract = some guardian ∧
        s'.rules = { (final s t).rules with world := (final s t).rules.world.pause p }) ∨
      ∃ env id env₀ target action args wasmHash eta peer,
        op = .governance (.execute env id) ∧
        .governance (.queue env₀ id target action args wasmHash eta) ∈ labels t ∧
        (∀ e, .governance (.cancel e id) ∉ labels t) ∧
        env₀.timestamp + Governance.minSafeDelaySecs ≤ env.timestamp ∧
        dispatch (env.toEnv.callFrom timelock) ⟨target, action, args⟩ = some peer ∧
        ∃ governance, Returns peer.call { final s t with governance } () s') ∧
    (s'.Governed timelock ∨ ∃ env id target action args peer,
      op = .governance (.execute env id) ∧
      dispatch (env.toEnv.callFrom timelock) ⟨target, action, args⟩ = some peer ∧ peer.Nominates) ∧
    ∀ call, op = .peer (.protocol (.direct call)) → ¬ call.AdminOnly := by
  have hrec := run_recorded hr hfresh
  obtain ⟨v, v', hv, rfl, h⟩ := hstep
  obtain rfl : v = final s t := hv
  cases op with
  | peer op =>
    have hrules := PeerOp.rules hs.toGoverned.heldBy (fun a ha => ha ▸ hout) h
    refine ⟨?_, .inl ?_, ?_⟩
    · rcases hrules with hsame | ⟨env, p, guardian, rfl, hguardian, hpause⟩
      · exact .inl hsame
      · exact .inr (.inl ⟨env, p, guardian, rfl, hguardian, hpause⟩)
    · rcases hrules with hsame | ⟨env, p, guardian, rfl, _, _⟩
      · exact hs.toGoverned.of_rules hsame
      · have hpause : Returns (PeerOp.call (.role (.emergencyPause env p guardian))) (final s t) () v' := h
        exact PeerOp.governed hs.toGoverned id hpause
    · rintro call ⟨⟩ honly
      obtain ⟨world, hcall, rfl⟩ := onWorld_returns.mp h
      obtain ⟨k, admin, hadmin, hauth⟩ := honly.authorized hcall
      obtain rfl := Option.some.inj ((hs.admins k).symm.trans hadmin)
      exact hout hauth
  | governance op =>
    cases op with
    | execute env id =>
      obtain ⟨p, governance, hexec, hinvoke⟩ := execute_returns h
      obtain ⟨q, hq, hqueued, heta, rfl⟩ := Governance.execute_proposal hexec
      have hmid : System.Governed timelock { final s t with governance } := hs.toGoverned.of_rules rfl
      rcases invoke_cases hinvoke with rfl | ⟨peer, hpeer, hcall⟩
      · exact ⟨.inl rfl, .inl hmid, fun _ he => by cases he⟩
      · obtain ⟨before, env₀, after, d, hlabels, _, hd, hmatured⟩ := hrec.queued hq
        have hsafe := (hrec.delay hd).1
        refine ⟨.inr (.inr ⟨env, id, env₀, q.target, q.action, q.args, q.wasmHash, q.eta, peer, rfl,
          mem_governance ?_, fun e he => ?_, by omega, hpeer, governance, hcall⟩), ?_, fun _ he => by cases he⟩
        · rw [hlabels]
          exact List.mem_append_right _ List.mem_cons_self
        · exact (hrec.pending hq hqueued _ (List.mem_filterMap.mpr ⟨_, he, rfl⟩)).2 rfl
        · by_cases hn : peer.Nominates
          · exact .inr ⟨env, id, _, _, _, peer, rfl, hpeer, hn⟩
          · exact .inl (PeerOp.governed hmid hn hcall)
    | initialise | nominateAdmin | acceptAdmin | queue | cancel | emergencyPause | setGuardian =>
      obtain ⟨_, _, rfl⟩ := onGovernance_returns.mp h
      exact ⟨.inl rfl, .inl (hs.toGoverned.of_rules rfl), fun _ he => by cases he⟩

end SystemOp

end Run

/-! ## Listing a market -/

section Market

variable {w w' : World} {admin : Address}

/-- Every setter but one leaves the markets alone, and that one asks for a signature of the
vault's admin. -/
theorem Setting.market {env : Env} {setting : Setting} {u : Unit} (hadmin : w.vault.admin = some admin)
    (hne : admin ≠ w.deployed.engine) (hunsigned : ¬ env.signed admin = true)
    (h : Returns (setting.call env) w u w') : w'.engine.market = w.engine.market := by
  have hkept := Setting.kept h
  cases setting with
  | vault setting => rw [hkept.others]
  | engine setting =>
    cases setting with
    | setMarket config =>
      obtain ⟨_, a, ha, hauth⟩ := Engine.setMarket_authorized h
      obtain rfl := Option.some.inj (hadmin.symm.trans ha)
      rcases (Env.authorizes_callFrom env).mp hauth with he | hs
      · exact absurd he.symm hne
      · exact absurd hs hunsigned
    | _ => exact hkept.market
  | insurance | liquidation | gateway => rw [hkept.2]

/-- The markets, and who may list one. -/
structure SameListing (w w' : World) : Prop where
  market : w'.engine.market = w.engine.market
  admin : w'.vault.admin = w.vault.admin
  deployed : w'.deployed = w.deployed

theorem SameListing.of_config (h : w'.config = w.config) : SameListing w w' :=
  ⟨config_congr (fun v => v.engine.market) (fun _ => rfl) h,
    config_congr (fun v => v.vault.admin) (fun _ => rfl) h, deployed_of_config h⟩

theorem ContractCall.listing {c : ContractCall} (hadmin : w.vault.admin = some admin)
    (hne : admin ≠ w.deployed.engine) (hunsigned : ¬ c.env.signed admin = true)
    (h : Returns c.call w () w') : SameListing w w' := by
  cases c with
  | account op => exact .of_config (AccountOp.config h)
  | fund op => exact .of_config (FundOp.config h)
  | oracle op =>
    obtain ⟨_, _, rfl⟩ := onOracle_returns.mp h
    exact ⟨rfl, rfl, rfl⟩
  | syncPositions env user positions =>
    obtain ⟨_, rfl⟩ := Vault.syncPositions_effect h
    exact ⟨rfl, rfl, rfl⟩
  | setFundingIndexes env marketId long short =>
    obtain rfl := Vault.setFundingIndexes_effect h
    exact ⟨rfl, rfl, rfl⟩
  | configure env setting =>
    have hset := (Setting.effect h).2
    exact ⟨Setting.market hadmin hne hunsigned h, hset.adminOf .vault,
      ledger_congr World.deployed (fun _ => rfl) hset.ledger⟩

theorem ProtocolOp.listing {op : ProtocolOp} (hadmin : w.vault.admin = some admin)
    (hne : admin ≠ w.deployed.engine) (hunsigned : ¬ op.env.signed admin = true)
    (h : Returns op.call w () w') : SameListing w w' := by
  obtain ⟨v, filled, cancelled, hcalls, rfl⟩ := ProtocolOp.calls h
  have hv : SameListing w v := by
    refine hcalls.keeps (I := fun v => SameListing w v) (fun {v v' c} hv hc hcall => ?_) ⟨rfl, rfl, rfl⟩
    have hsigned : ¬ c.env.signed admin = true := by
      rcases hc.env_cases with he | he | he <;> rw [he] <;> exact hunsigned
    have hstep := ContractCall.listing (hv.admin.trans hadmin) (hv.deployed ▸ hne) hsigned hcall
    exact ⟨hstep.market.trans hv.market, hstep.admin.trans hv.admin, hstep.deployed.trans hv.deployed⟩
  exact ⟨hv.market, hv.admin, hv.deployed⟩

variable {Val : Type} {timelock : Address} {dispatch : Dispatch Val} {s s' : System Val}

theorem PeerOp.market {op : PeerOp} (hs : s.Governed timelock)
    (hunsigned : ¬ op.env.signed timelock = true) (h : Returns op.call s () s') :
    s'.world.engine.market = s.world.engine.market := by
  cases op with
  | protocol op =>
    obtain ⟨world, hop, rfl⟩ := onWorld_returns.mp h
    have hne : timelock ≠ s.world.deployed.engine := by
      rintro rfl
      exact hs.apart (by simp [Deployment.contracts])
    exact (ProtocolOp.listing (hs.admins .vault) hne hunsigned hop).market
  | role op =>
    cases op with
    | nominateAdmin env c next =>
      obtain ⟨_, _, h⟩ := returns_readWith_bind.mp h
      obtain rfl := returns_modify.mp h
      cases c <;> rfl
    | upgrade | setGuardian =>
      obtain ⟨_, _, h⟩ := returns_readWith_bind.mp h
      obtain rfl := returns_modify.mp h
      rfl
    | acceptAdmin env c =>
      simp only [PeerOp.call, RoleOp.call, Roles.acceptAdmin, returns_readWith_bind, returns_lift_bind,
        returns_modify_bind, returns_modify] at h
      obtain ⟨_, _, _, _, rfl⟩ := h
      cases c <;> rfl
    | emergencyPause env p caller =>
      simp only [PeerOp.call, RoleOp.call, Roles.emergencyPause, returns_lift_bind,
        returns_readWith_bind, returns_get_bind, returns_modify] at h
      obtain ⟨_, _, _, _, _, _, rfl⟩ := h
      cases p <;> rfl

namespace SystemOp

/-- While the timelock is the admin no market is listed and none changes, whatever is proposed:
the engine passes a market on to the vault, which then asks for the timelock's authorization
in a call that the engine makes. An engine that is connected to another vault, or runs other
code, is out of this. -/
theorem governed_markets {t : List (SystemOp Val × System Val)} (hlawful : dispatch.Lawful)
    (hr : IsRun (CommitStep (call timelock dispatch)) s t)
    (hs : AllStates (fun v => v.Connected timelock) s t)
    (hout : ∀ e ∈ t, ¬ e.1.env.signed timelock = true) :
    AllStates (fun v => v.world.engine.market = s.world.engine.market) s t := by
  have hgoverned : AllSteps (fun v (_ : SystemOp Val) => v.Governed timelock) s t :=
    hs.allSteps (fun _ _ _ hv _ => hv.toGoverned) hr
  refine invariant (I := fun v => v.world.engine.market = s.world.engine.market)
    (fun v op v' hv hunsigned hstep => ?_) rfl (hr.and hgoverned)
    ((allSteps_labels (Q := fun op : SystemOp Val => ¬ op.env.signed timelock = true)).mpr hout)
  obtain ⟨hcall, hv'⟩ := hstep
  obtain rfl : v' = _ := hcall
  rcases commit_cases (call timelock dispatch op) v with ⟨_, h⟩ | ⟨_, h⟩
  · refine Eq.trans ?_ hv
    cases op with
    | peer op => exact PeerOp.market hv' hunsigned h
    | governance op =>
      cases op with
      | execute env id =>
        obtain ⟨p, governance, _, hinvoke⟩ := execute_returns h
        rcases invoke_cases hinvoke with hnone | ⟨peer, hpeer, hcall⟩
        · rw [hnone]
        · refine PeerOp.market (s := { v with governance }) (hv'.of_rules rfl) ?_ hcall
          rw [hlawful _ _ _ hpeer]
          exact hunsigned
      | initialise | nominateAdmin | acceptAdmin | queue | cancel | emergencyPause | setGuardian =>
        obtain ⟨_, _, hw⟩ := onGovernance_returns.mp h
        rw [hw]
  · rw [h]
    exact hv

end SystemOp

end Market

/-! ## A handled emergency and a listing that fails -/

namespace Sample

def timelock : Address := .contract 7

/-- Two entry points that a proposal may name. -/
def reached : Dispatch EngineMarketConfig := fun env call =>
  if call.target = deployment.vault ∧ call.action = "unpause" then
    some (.protocol (.direct (.configure env (.vault .unpause))))
  else if call.target = deployment.engine ∧ call.action = "set_market" then
    call.args.head?.map fun config => .protocol (.direct (.configure env (.engine (.setMarket config))))
  else none

theorem reached_lawful : reached.Lawful := by
  intro env call op h
  unfold reached at h
  split at h
  · obtain rfl := Option.some.inj h
    rfl
  · split at h
    · obtain ⟨config, _, rfl⟩ := Option.map_eq_some_iff.mp h
      rfl
    · cases h

/-- A wired system that answers to the timelock, with a guardian for the vault. -/
def handed : System EngineMarketConfig where
  world := { wired deployment timelock usdc 50 with oracle := { admin := some timelock } }
  guardian := (∅ : Store Contract Address).set .vault keeper

def councilHost (now : Nat) : GovernanceHost EngineMarketConfig := { bank now with returns := fun _ => true }

/-- The guardian pauses the vault, and a council queues its release. -/
def emergency : List (SystemOp EngineMarketConfig) := [
  .governance (.initialise (bank 100) admin keeper 172800),
  .peer (.role (.emergencyPause (bank 150) .vault keeper)),
  .governance (.queue (bank 200) 3 deployment.vault "unpause" [] 4 173000)]

def emergencyRun : List (SystemOp EngineMarketConfig × System EngineMarketConfig) :=
  viewed (fun s => s) (execute (SystemOp.call timelock reached) handed emergency)

def release : SystemOp EngineMarketConfig := .governance (.execute (councilHost 173000) 3)

def released : System EngineMarketConfig :=
  commit (release.call timelock reached) (final handed emergencyRun)

/-- The same council proposes a market. -/
def listing : List (SystemOp EngineMarketConfig) := [
  .governance (.initialise (bank 100) admin keeper 172800),
  .governance (.queue (bank 200) 3 deployment.engine "set_market"
    [{ market, maxExecutionDeviationBps := 100 }] 4 173000),
  .governance (.execute (councilHost 173000) 3)]

theorem emergency_unaltered : (final handed emergencyRun).Unaltered timelock where
  admins c := by cases c <;> decide +kernel
  pending c := by cases c <;> decide +kernel
  apart := by decide +kernel
  code c := by cases c <;> decide +kernel

theorem release_step : SystemOp.Step timelock reached (final handed emergencyRun) release released := by
  obtain ⟨_, h⟩ := returns_commit (x := release.call timelock reached) (s := final handed emergencyRun)
    (by decide +kernel)
  exact ⟨_, _, rfl, rfl, h⟩

end Sample

open Sample in
theorem governed_rules_emergency :
    (released.rules = (final handed emergencyRun).rules ∨
      (∃ env p guardian, release = .peer (.role (.emergencyPause env p guardian)) ∧
        (final handed emergencyRun).guardian.get p.contract = some guardian ∧
        released.rules = { (final handed emergencyRun).rules with
          world := (final handed emergencyRun).rules.world.pause p }) ∨
      ∃ env id env₀ target action args wasmHash eta peer,
        release = .governance (.execute env id) ∧
        .governance (.queue env₀ id target action args wasmHash eta) ∈ labels emergencyRun ∧
        (∀ e, .governance (.cancel e id) ∉ labels emergencyRun) ∧
        env₀.timestamp + Governance.minSafeDelaySecs ≤ env.timestamp ∧
        reached (env.toEnv.callFrom timelock) ⟨target, action, args⟩ = some peer ∧
        ∃ governance, Returns peer.call { final handed emergencyRun with governance } () released) ∧
    (released.Governed timelock ∨ ∃ env id target action args peer,
      release = .governance (.execute env id) ∧
      reached (env.toEnv.callFrom timelock) ⟨target, action, args⟩ = some peer ∧ peer.Nominates) ∧
    ∀ call, release = .peer (.protocol (.direct call)) → ¬ call.AdminOnly :=
  SystemOp.governed_rules (isRun_execute (by decide +kernel)) rfl emergency_unaltered release_step trivial

open Sample in
theorem governed_markets_listing :
    AllStates (fun v => v.world.engine.market = handed.world.engine.market) handed
      (execute (SystemOp.call timelock reached) handed listing) := by
  refine SystemOp.governed_markets reached_lawful (isRun_commit handed listing) ?_ ?_
  · refine ⟨⟨⟨⟨fun c => by cases c <;> rfl, fun c => by cases c <;> rfl, by decide⟩,
      fun c => by cases c <;> rfl⟩, rfl⟩, ?_⟩
    intro e he
    simp only [execute, listing, List.mem_cons, List.not_mem_nil, or_false] at he
    rcases he with rfl | rfl | rfl <;>
      exact ⟨⟨⟨fun c => by cases c <;> decide +kernel, fun c => by cases c <;> decide +kernel,
        by decide +kernel⟩, fun c => by cases c <;> decide +kernel⟩, by decide +kernel⟩
  · intro e he
    simp only [execute, listing, List.mem_cons, List.not_mem_nil, or_false] at he
    rcases he with rfl | rfl | rfl <;> decide

end Kryon

import Kryon.Governance.Handover

/-! # How far a contract's handover has come

A contract is with the deployer, on its way or with the timelock. What the script's transactions
and those of others do to that is said contract by contract. -/
namespace Kryon
open Transaction Runs Program

namespace Handover

variable (cfg : Handover) {Val : Type}

/-! ## One contract's handover -/

/-- What the handover of a contract goes by. -/
structure Custody (Val : Type) where
  admin : Option Address
  pending : Option Address
  proposal : Option (GovernanceProposal Val)

def custody (s : Ledger Val) (c : Target) : Custody Val :=
  ⟨s.adminOf c, s.pendingAdminOf c, s.system.governance.proposal.get (cfg.proposalId c)⟩

variable (c : Target)

structure Kept (k : Custody Val) : Prop where
  admin : k.admin = some cfg.admin
  pending : k.pending = none ∨ k.pending = some cfg.governance
  proposal : k.proposal = none

structure Queued (k : Custody Val) : Prop where
  admin : k.admin = some cfg.admin
  pending : k.pending = some cfg.governance
  proposal : ∃ eta, k.proposal = some (cfg.acceptance c eta)

/-- An acceptance that was queued too late to matter may still lie there. -/
structure Handed (k : Custody Val) : Prop where
  admin : k.admin = some cfg.governance
  pending : k.pending = none
  proposal : ∀ p, k.proposal = some p → ∃ eta status, p = { cfg.acceptance c eta with status }

def Stage (k : Custody Val) : Prop := cfg.Kept k ∨ cfg.Queued c k ∨ cfg.Handed c k

/-- The timelock is the admin or is about to be. -/
def Nominated (k : Custody Val) : Prop :=
  k.pending = some cfg.governance ∨ k.admin = some cfg.governance

/-- That the contract was handed over shows, if not in its admin, in its proposal. -/
def Traced (k : Custody Val) : Prop := k.admin = some cfg.governance → k.proposal ≠ none

/-- What a transaction does to the handover of one contract. -/
inductive Moves (k : Custody Val) : Custody Val → Prop
  | same : Moves k k
  | nominate (hadmin : k.admin = some cfg.admin) : Moves k { k with pending := some cfg.governance }
  | queue (hnominated : cfg.Nominated k) (hnew : k.proposal = none) (eta : Nat) :
    Moves k { k with proposal := some (cfg.acceptance c eta) }
  | accept {p : GovernanceProposal Val} {next : Address} (hproposal : k.proposal = some p)
    (hqueued : p.status = .queued) (hpending : k.pending = some next) :
    Moves k { admin := some next, pending := none, proposal := some { p with status := .executed } }

variable {cfg c} {k k' : Custody Val}

theorem Stage.held (h : cfg.Stage c k) :
    (∃ a, k.admin = some a ∧ (a = cfg.admin ∨ a = cfg.governance)) ∧
      ∀ a, k.pending = some a → a = cfg.governance := by
  rcases h with hk | hq | hh
  · refine ⟨⟨_, hk.admin, .inl rfl⟩, fun a ha => ?_⟩
    rcases hk.pending with hnone | hsome
    · rw [hnone] at ha
      cases ha
    · exact Option.some.inj (ha.symm.trans hsome)
  · exact ⟨⟨_, hq.admin, .inl rfl⟩, fun a ha => Option.some.inj (ha.symm.trans hq.pending)⟩
  · refine ⟨⟨_, hh.admin, .inr rfl⟩, fun a ha => ?_⟩
    rw [hh.pending] at ha
    cases ha

/-- Who has been nominated stays so, or has accepted. -/
theorem Moves.nominated (h : cfg.Moves c k k') (hs : cfg.Stage c k) (hn : cfg.Nominated k) :
    cfg.Nominated k' := by
  cases h with
  | same => exact hn
  | nominate => exact .inl rfl
  | queue => exact hn
  | accept hproposal hqueued hpending =>
    obtain rfl := hs.held.2 _ hpending
    exact .inr rfl

theorem Moves.traced (h : cfg.Moves c k k') (ht : cfg.Traced k) : cfg.Traced k' := by
  cases h with
  | same | nominate => exact ht
  | queue | accept =>
    intro _ hnone
    cases hnone

theorem Moves.handed (h : cfg.Moves c k k') (hne : cfg.admin ≠ cfg.governance)
    (hh : cfg.Handed c k) : cfg.Handed c k' := by
  cases h with
  | same => exact hh
  | nominate hadmin => exact absurd (Option.some.inj (hadmin.symm.trans hh.admin)) hne
  | queue _ _ eta =>
    refine ⟨hh.admin, hh.pending, ?_⟩
    rintro p ⟨⟩
    exact ⟨eta, .queued, rfl⟩
  | accept hproposal hqueued hpending =>
    rw [hh.pending] at hpending
    cases hpending

theorem Moves.queued (h : cfg.Moves c k k') (hq : cfg.Queued c k) :
    cfg.Queued c k' ∨ cfg.Handed c k' := by
  cases h with
  | same => exact .inl hq
  | nominate => exact .inl ⟨hq.admin, rfl, hq.proposal⟩
  | queue _ hnew =>
    obtain ⟨_, hsome⟩ := hq.proposal
    rw [hnew] at hsome
    cases hsome
  | accept hproposal hqueued hpending =>
    obtain rfl := Option.some.inj (hpending.symm.trans hq.pending)
    obtain ⟨eta, hsome⟩ := hq.proposal
    obtain rfl := Option.some.inj (hproposal.symm.trans hsome)
    refine .inr ⟨rfl, rfl, ?_⟩
    rintro p ⟨⟩
    exact ⟨eta, .executed, rfl⟩

theorem Moves.kept (h : cfg.Moves c k k') (hne : cfg.admin ≠ cfg.governance) (hk : cfg.Kept k) :
    cfg.Kept k' ∨ cfg.Queued c k' := by
  cases h with
  | same => exact .inl hk
  | nominate => exact .inl ⟨hk.admin, .inr rfl, hk.proposal⟩
  | queue hnominated _ eta =>
    rcases hnominated with hpending | hadmin
    · exact .inr ⟨hk.admin, hpending, eta, rfl⟩
    · exact absurd (Option.some.inj (hk.admin.symm.trans hadmin)) hne
  | accept hproposal =>
    rw [hk.proposal] at hproposal
    cases hproposal

theorem Moves.stage (h : cfg.Moves c k k') (hne : cfg.admin ≠ cfg.governance) (hs : cfg.Stage c k) :
    cfg.Stage c k' := by
  rcases hs with hk | hq | hh
  · rcases h.kept hne hk with hk | hq
    · exact .inl hk
    · exact .inr (.inl hq)
  · exact .inr (h.queued hq)
  · exact .inr (.inr (h.handed hne hh))

/-! ## The transactions, contract by contract -/

section Transactions

variable {routes : Routes Val} {s t : Ledger Val} {env : GovernanceHost Val} {tx : Submission}

variable (cfg routes) in
/-- The two keys are apart, no two contracts share a proposal, and a call on `accept_admin`
reaches it. -/
structure Proper : Prop where
  ids : Function.Injective cfg.proposalId
  apart : ∀ a, a = cfg.admin ∨ a = cfg.governance → a ∉ cfg.contracts.contracts
  distinct : cfg.admin ≠ cfg.governance
  reached : ∀ env c, routes.peers env ⟨cfg.contracts.address c, "accept_admin", []⟩ =
    some (.role (.acceptAdmin env c))
  beside : ∀ env c, routes.risk env ⟨cfg.address c, "accept_admin", []⟩ =
    if c = .risk then some (.acceptAdmin env) else none

variable (cfg) in
/-- The deployer still runs the timelock, and every contract is somewhere on its way. -/
structure Handing (s : Ledger Val) : Prop where
  stage : ∀ c, cfg.Stage c (cfg.custody s c)
  admin : s.system.governance.admin = some cfg.admin
  pending : s.system.governance.pendingAdmin = none
  deployed : s.system.world.deployed = cfg.contracts

variable (cfg) in
/-- A transaction as seen from each contract. -/
structure Turn (s t : Ledger Val) : Prop where
  moves : ∀ c, cfg.Moves c (cfg.custody s c) (cfg.custody t c)
  admin : t.system.governance.admin = s.system.governance.admin
  pending : t.system.governance.pendingAdmin = s.system.governance.pendingAdmin
  deployed : t.system.world.deployed = s.system.world.deployed

theorem Turn.refl : cfg.Turn s s := ⟨fun _ => .same, rfl, rfl, rfl⟩

theorem Turn.handing (h : cfg.Turn s t) (hne : cfg.admin ≠ cfg.governance) (hs : cfg.Handing s) :
    cfg.Handing t where
  stage c := (h.moves c).stage hne (hs.stage c)
  admin := h.admin.trans hs.admin
  pending := h.pending.trans hs.pending
  deployed := h.deployed.trans hs.deployed

/-- Of the two keys the script's transactions carry the deployer's. -/
theorem authorizes_sentBy {sender a : Address} : (sentBy env sender).toEnv.Authorizes a ↔ a = sender := by
  simp [Env.Authorizes, sentBy]

theorem requireAuth_sentBy (sender : Address) : requireAuth (sentBy env sender).toEnv sender = .ok () :=
  requireAuth_ok.mpr (authorizes_sentBy.mpr rfl)

/-- A queued acceptance presumes a nomination. -/
def Submission.Due (cfg : Handover) (s : Ledger Val) : Submission → Prop
  | .queue c _ => cfg.Nominated (cfg.custody s c)
  | _ => True

theorem Submission.Due.mono (htx : tx.Due cfg s)
    (h : ∀ c, cfg.Nominated (cfg.custody s c) → cfg.Nominated (cfg.custody t c)) : tx.Due cfg t := by
  cases tx with
  | queue c eta => exact h c htx
  | nominateAdmin | execute => trivial

theorem nominate_returns {c : Target} :
    Returns (Submission.call cfg routes env (.nominateAdmin c)) s () t ↔
      s.adminOf c = some cfg.admin ∧ t = s.nominated cfg.governance c := by
  have sentByAdmin : ∀ {o : Option Address}, (∃ a, (do
      let admin ← okOr o .invalidConfig
      requireAuth (sentBy env cfg.admin).toEnv admin
      return admin : Res Address) = .ok a) ↔ o = some cfg.admin := by
    intro o
    constructor
    · rintro ⟨a, ha⟩
      obtain ⟨hrole, hauth⟩ := requireRole_ok ha
      rw [hrole, authorizes_sentBy.mp hauth]
    · rintro rfl
      exact ⟨cfg.admin, by simp [okOr, requireAuth_sentBy]⟩
  cases c with
  | core c =>
    constructor
    · intro h
      obtain ⟨system, hcall, rfl⟩ := onSystem_returns.mp h
      obtain ⟨a, ha, hcall⟩ := returns_readWith_bind.mp hcall
      obtain rfl := returns_modify.mp hcall
      exact ⟨sentByAdmin.mp ⟨a, ha⟩, rfl⟩
    · rintro ⟨hadmin, rfl⟩
      obtain ⟨a, ha⟩ := sentByAdmin.mpr hadmin
      exact onSystem_returns.mpr ⟨_, returns_readWith_bind.mpr ⟨a, ha, returns_modify.mpr rfl⟩, rfl⟩
  | risk =>
    constructor
    · intro h
      obtain ⟨risk, hcall, rfl⟩ := onRisk_returns.mp h
      obtain ⟨a, ha, hcall⟩ := returns_readWith_bind.mp hcall
      obtain rfl := returns_modify.mp hcall
      exact ⟨sentByAdmin.mp ⟨a, ha⟩, rfl⟩
    · rintro ⟨hadmin, rfl⟩
      obtain ⟨a, ha⟩ := sentByAdmin.mpr hadmin
      exact onRisk_returns.mpr ⟨_, returns_readWith_bind.mpr ⟨a, ha, returns_modify.mpr rfl⟩, rfl⟩

theorem nominate_custody {c : Target}
    (h : Returns (Submission.call cfg routes env (.nominateAdmin c)) s () t) :
    cfg.custody t c = { cfg.custody s c with pending := some cfg.governance } := by
  rw [(nominate_returns.mp h).2]
  simp [custody, Ledger.pendingAdminOf_nominated]

theorem queue_effect {c : Target} {eta : Nat}
    (h : Returns (Submission.call cfg routes env (.queue c eta)) s () t) :
    s.system.governance.proposal.get (cfg.proposalId c) = none ∧
      t = { s with system := { s.system with governance := { s.system.governance with
        proposal := s.system.governance.proposal.set (cfg.proposalId c) (cfg.acceptance c eta) } } } := by
  obtain ⟨system, hcall, rfl⟩ := onSystem_returns.mp h
  obtain ⟨governance, hop, rfl⟩ := onGovernance_returns.mp hcall
  have hstep : GovernanceOp.Step s.system.governance (.queue (sentBy env cfg.admin).toEnv (cfg.proposalId c)
      (cfg.address c) "accept_admin" [] 0 eta) governance := ⟨_, _, rfl, rfl, hop⟩
  cases hstep.timelock with
  | queue hnew => exact ⟨hnew, rfl⟩

theorem queue_custody {c : Target} {eta : Nat}
    (h : Returns (Submission.call cfg routes env (.queue c eta)) s () t) :
    cfg.custody t c = { cfg.custody s c with proposal := some (cfg.acceptance c eta) } := by
  rw [(queue_effect h).2]
  cases c <;> exact congrArg (Custody.mk _ _) (Store.get_set_self _ _ _)

/-- The acceptance that an execution dispatches, by the timelock. -/
theorem accept_returns (hcfg : cfg.Proper routes) (host : Env) {c : Target} :
    Returns (match routes.risk (host.callFrom cfg.governance) ⟨cfg.address c, "accept_admin", []⟩ with
      | some op => onRisk op.call
      | none => onSystem (SystemOp.invoke cfg.governance routes.peers host ⟨cfg.address c, "accept_admin", []⟩))
      s () t ↔
    ∃ next, s.pendingAdminOf c = some next ∧ (host.callFrom cfg.governance).Authorizes next ∧
      t = s.accepted next c := by
  rw [hcfg.beside]
  cases c with
  | core c =>
    simp only [reduceCtorEq, if_false, address, onSystem_returns, SystemOp.invoke, hcfg.reached, PeerOp.call,
      RoleOp.call, Roles.acceptAdmin, returns_readWith_bind, returns_lift_bind, returns_modify_bind,
      returns_modify, okOr_ok, requireAuth_ok]
    constructor
    · rintro ⟨system, ⟨next, hnext, _, hauth, rfl⟩, rfl⟩
      exact ⟨next, hnext, hauth, rfl⟩
    · rintro ⟨next, hnext, hauth, rfl⟩
      exact ⟨_, ⟨next, hnext, (), hauth, rfl⟩, rfl⟩
  | risk =>
    simp only [if_true, onRisk_returns, RiskOp.call, PerpRisk.acceptAdmin, returns_readWith_bind,
      returns_lift_bind, returns_modify_bind, returns_modify, okOr_ok, requireAuth_ok]
    constructor
    · rintro ⟨risk, ⟨next, hnext, _, hauth, rfl⟩, rfl⟩
      exact ⟨next, hnext, hauth, rfl⟩
    · rintro ⟨next, hnext, hauth, rfl⟩
      exact ⟨_, ⟨next, hnext, (), hauth, rfl⟩, rfl⟩

theorem execute_effect (hcfg : cfg.Proper routes) {c : Target} (hs : cfg.Stage c (cfg.custody s c))
    (h : Returns (Submission.call cfg routes env (.execute c)) s () t) :
    ∃ p next, s.system.governance.proposal.get (cfg.proposalId c) = some p ∧ p.status = .queued ∧
      s.pendingAdminOf c = some next ∧
      t = Ledger.accepted { s with system := { s.system with governance := { s.system.governance with
        proposal := s.system.governance.proposal.set (cfg.proposalId c) { p with status := .executed }
        invoked := s.system.governance.invoked ++ [⟨p.target, p.action, p.args⟩] } } } next c := by
  obtain ⟨r, governance, hexec, hinvoke⟩ := LedgerOp.execute_returns h
  obtain ⟨p, hp, hqueued, _, rfl⟩ := SystemOp.Governance.execute_proposal hexec
  have hcall : p.target = cfg.address c ∧ p.action = "accept_admin" ∧ p.args = [] := by
    rcases hs with hk | hq | hh
    · exact absurd (hk.proposal.symm.trans hp) (by simp)
    · obtain ⟨eta, hsome⟩ := hq.proposal
      obtain rfl := Option.some.inj (hp.symm.trans hsome)
      exact ⟨rfl, rfl, rfl⟩
    · obtain ⟨eta, status, rfl⟩ := hh.proposal p hp
      exact ⟨rfl, rfl, rfl⟩
  have hstep : GovernanceOp.Step s.system.governance (.execute (sentBy env cfg.admin) (cfg.proposalId c))
      governance := ⟨_, _, rfl, rfl, returns_void.mpr ⟨_, hexec⟩⟩
  cases hstep.timelock with
  | execute hp' =>
    obtain rfl := Option.some.inj (hp.symm.trans hp')
    obtain ⟨htarget, haction, hargs⟩ := hcall
    simp only [htarget, haction, hargs] at hinvoke
    obtain ⟨next, hnext, _, rfl⟩ := (accept_returns hcfg _).mp hinvoke
    refine ⟨p, next, hp, hqueued, ?_, by rw [htarget, haction, hargs]⟩
    rw [← hnext]
    cases c with
    | core c => cases c <;> rfl
    | risk => rfl

theorem execute_custody (hcfg : cfg.Proper routes) {c : Target} (hs : cfg.Stage c (cfg.custody s c))
    (h : Returns (Submission.call cfg routes env (.execute c)) s () t) :
    ∃ p next, (cfg.custody s c).proposal = some p ∧ p.status = .queued ∧
      (cfg.custody s c).pending = some next ∧
      cfg.custody t c = { admin := some next, pending := none, proposal := some { p with status := .executed } } := by
  obtain ⟨p, next, hp, hqueued, hnext, rfl⟩ := execute_effect hcfg hs h
  refine ⟨p, next, hp, hqueued, hnext, ?_⟩
  simp [custody, Ledger.pendingAdminOf_accepted, Ledger.adminOf_accepted]

/-- An execution concerns one contract. -/
theorem execute_frame (hcfg : cfg.Proper routes) {c k : Target} (hs : cfg.Stage c (cfg.custody s c))
    (h : Returns (Submission.call cfg routes env (.execute c)) s () t) (hk : k ≠ c) :
    cfg.custody t k = cfg.custody s k := by
  obtain ⟨p, next, _, _, _, rfl⟩ := execute_effect hcfg hs h
  have hid : cfg.proposalId k ≠ cfg.proposalId c := fun he => hk (hcfg.ids he)
  simp [custody, Ledger.pendingAdminOf_accepted, Ledger.adminOf_accepted, hk, hid]
  cases k with
  | core k => cases k <;> exact ⟨rfl, rfl⟩
  | risk => exact ⟨rfl, rfl⟩

theorem submission_turn (hcfg : cfg.Proper routes) (hs : cfg.Handing s) (hdue : tx.Due cfg s)
    (h : Returns (tx.call cfg routes env) s () t) : cfg.Turn s t := by
  have hid : ∀ {c k}, k ≠ c → cfg.proposalId k ≠ cfg.proposalId c := fun hne he => hne (hcfg.ids he)
  cases tx with
  | nominateAdmin c =>
    have hcustody := nominate_custody h
    obtain ⟨hadmin, rfl⟩ := nominate_returns.mp h
    refine ⟨fun k => ?_, by simp, by simp, by simp⟩
    by_cases hk : k = c
    · rw [hk, hcustody]
      exact .nominate hadmin
    · have hcustody : cfg.custody (s.nominated cfg.governance c) k = cfg.custody s k := by
        simp [custody, Ledger.pendingAdminOf_nominated, hk]
      rw [hcustody]
      exact .same
  | queue c eta =>
    have hcustody := queue_custody h
    obtain ⟨hnew, rfl⟩ := queue_effect h
    refine ⟨fun k => ?_, rfl, rfl, rfl⟩
    by_cases hk : k = c
    · rw [hk, hcustody]
      exact .queue hdue hnew eta
    · refine cast (congrArg (cfg.Moves k _) ?_) Moves.same
      cases k <;> exact congrArg (Custody.mk _ _) (Store.get_set_ne (hid hk)).symm
  | execute c =>
    have hframe : ∀ k, k ≠ c → cfg.custody t k = cfg.custody s k :=
      fun k hk => execute_frame hcfg (hs.stage c) h hk
    obtain ⟨p, next, hp, hqueued, hnext, hcustody⟩ := execute_custody hcfg (hs.stage c) h
    obtain ⟨_, _, _, _, _, rfl⟩ := execute_effect hcfg (hs.stage c) h
    refine ⟨fun k => ?_, by simp, by simp, by simp⟩
    by_cases hk : k = c
    · rw [hk, hcustody]
      exact .accept hp hqueued hnext
    · rw [hframe k hk]
      exact .same

/-- The guardian of the timelock holds executions up. -/
def Vetoes : LedgerOp Val → Prop
  | .system (.governance (.emergencyPause _ paused)) => paused = true
  | _ => False

variable (cfg) in
/-- What a transaction that neither key stands behind leaves alone. -/
structure Aside (s t : Ledger Val) : Prop where
  custody : ∀ c, cfg.custody t c = cfg.custody s c
  governance : t.system.governance = { s.system.governance with paused := t.system.governance.paused }
  guardian : t.system.guardian = s.system.guardian
  deployed : t.system.world.deployed = s.system.world.deployed

theorem Aside.turn (h : cfg.Aside s t) : cfg.Turn s t where
  moves c := (h.custody c).symm ▸ .same
  admin := by rw [h.governance]
  pending := by rw [h.governance]
  deployed := h.deployed

theorem Handing.heldBy (hcfg : cfg.Proper routes) (hs : cfg.Handing s) :
    s.system.HeldBy fun a => a = cfg.admin ∨ a = cfg.governance where
  admins c := (hs.stage (.core c)).held.1
  pending c next hnext := .inr ((hs.stage (.core c)).held.2 next hnext)
  apart := by
    rw [hs.deployed]
    exact hcfg.apart

theorem aside_of_rules {system : System Val} (h : system.rules = s.system.rules)
    (hg : system.governance = s.system.governance) : cfg.Aside s { s with system } where
  custody c := by
    unfold Handover.custody
    cases c with
    | core c =>
      simp only [Ledger.adminOf, Ledger.pendingAdminOf,
        rules_congr (fun v => v.world.adminOf c) (fun _ => by cases c <;> rfl) h,
        rules_congr (fun v => v.pendingAdminOf c) (fun _ => by cases c <;> rfl) h, hg]
    | risk => simp only [Ledger.adminOf, Ledger.pendingAdminOf, hg]
  governance := by rw [hg]
  guardian := rules_congr (fun v => v.guardian) (fun _ => rfl) h
  deployed := rules_congr (fun v => v.world.deployed) (fun _ => rfl) h

theorem aside_of_pause (p : Pausable) :
    cfg.Aside s { s with system := { s.system with world := s.system.world.pause p } } where
  custody c := by
    cases c with
    | core c => cases p <;> cases c <;> rfl
    | risk => rfl
  governance := rfl
  guardian := rfl
  deployed := by cases p <;> rfl

theorem Aside.trans {u : Ledger Val} (h : cfg.Aside s t) (h' : cfg.Aside t u) : cfg.Aside s u where
  custody c := (h'.custody c).trans (h.custody c)
  governance := by rw [h'.governance, h.governance]
  guardian := h'.guardian.trans h.guardian
  deployed := h'.deployed.trans h.deployed

theorem Uninvolved.held {op : LedgerOp Val} (hop : cfg.Uninvolved op) (a : Address)
    (ha : a = cfg.admin ∨ a = cfg.governance) : ¬ op.env.Authorizes a := by
  rcases ha with rfl | rfl
  · exact hop.1
  · exact hop.2

theorem peer_aside (hcfg : cfg.Proper routes) (hs : cfg.Handing s) {op : PeerOp} {system : System Val}
    (hop : cfg.Uninvolved (.system (.peer op) : LedgerOp Val)) (h : Returns op.call s.system () system) :
    cfg.Aside s { s with system } := by
  have hg := PeerOp.governance h
  rcases PeerOp.rules (hs.heldBy hcfg) hop.held h with hsame | ⟨env, p, guardian, rfl, _, hpause⟩
  · exact aside_of_rules hsame hg
  · have hrules : system.rules = System.rules { s.system with world := s.system.world.pause p } := by
      rw [hpause]
      cases p <;> rfl
    exact (aside_of_pause p).trans (aside_of_rules hrules hg)

/-- Of the timelock's calls the deployer's key leaves the others a pause. -/
theorem timelock_aside (hs : cfg.Handing s) {op : GovernanceOp Val}
    (hop : cfg.Uninvolved (.system (.governance op)))
    (h : Returns (LedgerOp.call cfg.governance routes (.system (.governance op))) s () t) :
    ∃ env paused, op = .emergencyPause env paused ∧
      t = { s with system := { s.system with governance := { s.system.governance with paused := some paused } } } := by
  have denied : ∀ {a}, Governance.requireAdmin (SystemOp.governance op).env s.system.governance = .ok a →
      False := by
    intro a ha
    obtain ⟨hrole, ha⟩ := requireRole_ok ha
    obtain rfl := Option.some.inj (hs.admin.symm.trans hrole)
    exact hop.1 ha
  cases op with
  | execute env id =>
    obtain ⟨_, _, hexec, _⟩ := LedgerOp.execute_returns h
    obtain ⟨_, ha, _⟩ := returns_readWith_bind.mp hexec
    exact (denied ha).elim
  | initialise env admin guardian minDelaySecs =>
    obtain ⟨_, hcall, rfl⟩ := onSystem_returns.mp h
    obtain ⟨g, hg, rfl⟩ := onGovernance_returns.mp hcall
    simp only [GovernanceOp.call, Governance.initialise, returns_get_bind, returns_lift_bind, reject_ok,
      hs.admin] at hg
    obtain ⟨_, hnone, _⟩ := hg
    exact absurd rfl hnone
  | nominateAdmin | setGuardian =>
    obtain ⟨_, hcall, rfl⟩ := onSystem_returns.mp h
    obtain ⟨g, hg, rfl⟩ := onGovernance_returns.mp hcall
    obtain ⟨_, ha, _⟩ := returns_readWith_bind.mp hg
    exact (denied ha).elim
  | queue | cancel =>
    obtain ⟨_, hcall, rfl⟩ := onSystem_returns.mp h
    obtain ⟨g, hg, rfl⟩ := onGovernance_returns.mp hcall
    obtain ⟨_, hg⟩ := returns_void.mp hg
    obtain ⟨_, ha, _⟩ := returns_readWith_bind.mp hg
    exact (denied ha).elim
  | acceptAdmin env =>
    obtain ⟨_, hcall, rfl⟩ := onSystem_returns.mp h
    obtain ⟨g, hg, rfl⟩ := onGovernance_returns.mp hcall
    obtain ⟨next, hnext, _⟩ := returns_readWith_bind.mp hg
    rw [hs.pending] at hnext
    cases hnext
  | emergencyPause env paused =>
    obtain ⟨_, hcall, rfl⟩ := onSystem_returns.mp h
    obtain ⟨g, hg, rfl⟩ := onGovernance_returns.mp hcall
    obtain ⟨_, _, hg⟩ := returns_readWith_bind.mp hg
    obtain rfl := returns_modify.mp hg
    exact ⟨env, paused, rfl, rfl⟩

theorem other_aside (hcfg : cfg.Proper routes) (hs : cfg.Handing s) {op : LedgerOp Val}
    (hop : cfg.Uninvolved op) (h : Returns (op.call cfg.governance routes) s () t) :
    cfg.Aside s t ∧
      (¬ Vetoes op → s.system.governance.isPaused = false → t.system.governance.isPaused = false) := by
  cases op with
  | risk op =>
    obtain ⟨risk, hcall, rfl⟩ := onRisk_returns.mp h
    obtain ⟨⟨admin, hadmin, hheld⟩, hpending⟩ := (hs.stage .risk).held
    rcases op.authorized hadmin hcall with ha | ⟨next, hnext, ha⟩
    · exact absurd ha (hop.held admin hheld)
    · exact absurd ha (hop.held next (.inr (hpending next hnext)))
  | system op =>
    cases op with
    | peer op =>
      obtain ⟨system, hcall, rfl⟩ := onSystem_returns.mp h
      have hg := PeerOp.governance hcall
      exact ⟨peer_aside hcfg hs hop hcall, fun _ hlive => hg ▸ hlive⟩
    | governance op =>
      obtain ⟨env, paused, rfl, rfl⟩ := timelock_aside hs hop h
      refine ⟨⟨fun c => ?_, rfl, rfl, rfl⟩, fun hveto _ => Bool.eq_false_iff.mpr hveto⟩
      cases c with
      | core c => cases c <;> rfl
      | risk => rfl

end Transactions

end Handover

end Kryon

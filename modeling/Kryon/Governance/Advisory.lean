import Kryon.Governance.Authority

/-! # The advisory contract (`perp-risk`)

A calculator that no other contract calls, with an admin who sets its markets and its code. It
is the one contract with an admin role that has no view of it. The ledger is the system with
this contract beside it. -/
namespace Kryon
open Transaction

/-- What the contract stores. -/
structure PerpRisk where
  admin : Option Address := none
  pendingAdmin : Option Address := none
  market : Store Nat MarketSnapshot := ∅
  /-- The code an upgrade put in the place of what was deployed. -/
  wasm : Option (BitVec 256) := none

namespace PerpRisk

abbrev RiskTx := Transaction PerpRisk Abort

def requireAdmin (env : Env) (s : PerpRisk) : Res Address := do
  let admin ← okOr s.admin .invalidConfig
  requireAuth env admin
  return admin

/-- The contract's `initialize`. -/
def initialise (env : Env) (admin : Address) : RiskTx Unit := do
  let s ← get
  reject (s.admin.isSome = true) .alreadyInitialized
  requireAuth env admin
  modify fun s => { s with admin := some admin }

def upgrade (env : Env) (newWasmHash : BitVec 256) : RiskTx Unit := do
  let _ ← readWith fun s => requireAdmin env s
  modify fun s => { s with wasm := some newWasmHash }

def nominateAdmin (env : Env) (nextAdmin : Address) : RiskTx Unit := do
  let _ ← readWith fun s => requireAdmin env s
  modify fun s => { s with pendingAdmin := some nextAdmin }

def acceptAdmin (env : Env) : RiskTx Unit := do
  let nextAdmin ← readWith fun s => okOr s.pendingAdmin .invalidConfig
  requireAuth env nextAdmin
  modify fun s => { s with admin := some nextAdmin }
  modify fun s => { s with pendingAdmin := none }

def setMarket (env : Env) (market : MarketSnapshot) : RiskTx Unit := do
  let _ ← readWith fun s => requireAdmin env s
  reject (market.config.marketId = 0 ∨ market.oraclePrice ≤ 0) .invalidConfig
  modify fun s => { s with market := s.market.set market.config.marketId market }

end PerpRisk

/-- A call that writes. -/
inductive RiskOp where
  | initialise (env : Env) (admin : Address)
  | upgrade (env : Env) (newWasmHash : BitVec 256)
  | nominateAdmin (env : Env) (nextAdmin : Address)
  | acceptAdmin (env : Env)
  | setMarket (env : Env) (market : MarketSnapshot)

namespace RiskOp

def env : RiskOp → Env
  | initialise env _ | upgrade env _ | nominateAdmin env _ | acceptAdmin env | setMarket env _ => env

def call : RiskOp → PerpRisk.RiskTx Unit
  | initialise env admin => PerpRisk.initialise env admin
  | upgrade env newWasmHash => PerpRisk.upgrade env newWasmHash
  | nominateAdmin env nextAdmin => PerpRisk.nominateAdmin env nextAdmin
  | acceptAdmin env => PerpRisk.acceptAdmin env
  | setMarket env market => PerpRisk.setMarket env market

/-- Nothing is written but by the admin or by whom the admin nominated. -/
theorem authorized {op : RiskOp} {s s' : PerpRisk} {admin : Address} (hadmin : s.admin = some admin)
    (h : Returns op.call s () s') :
    op.env.Authorizes admin ∨ ∃ next, s.pendingAdmin = some next ∧ op.env.Authorizes next := by
  have byAdmin : ∀ {a}, PerpRisk.requireAdmin op.env s = .ok a → op.env.Authorizes admin := by
    intro a ha
    obtain ⟨hrole, ha⟩ := requireRole_ok ha
    obtain rfl := Option.some.inj (hadmin.symm.trans hrole)
    exact ha
  cases op with
  | initialise env next =>
    simp only [call, PerpRisk.initialise, returns_get_bind, returns_lift_bind, reject_ok, hadmin] at h
    obtain ⟨_, hnone, _⟩ := h
    exact absurd rfl hnone
  | upgrade | nominateAdmin | setMarket =>
    obtain ⟨_, ha, _⟩ := returns_readWith_bind.mp h
    exact .inl (byAdmin ha)
  | acceptAdmin env =>
    obtain ⟨next, hnext, h⟩ := returns_readWith_bind.mp h
    obtain ⟨_, haccept, _⟩ := returns_lift_bind.mp h
    exact .inr ⟨next, okOr_ok.mp hnext, requireAuth_ok.mp haccept⟩

end RiskOp

/-! ## Beside the system -/

structure Ledger (Val : Type) where
  system : System Val
  risk : PerpRisk := {}

abbrev LedgerTx (Val : Type) := Transaction (Ledger Val) Abort

section Calls

variable {Val α : Type}

def onSystem (x : SystemTx Val α) : LedgerTx Val α := fun l =>
  (x.run l.system).map fun (a, system) => (a, { l with system })

def onRisk (x : PerpRisk.RiskTx α) : LedgerTx Val α := fun l =>
  (x.run l.risk).map fun (a, risk) => (a, { l with risk })

theorem onSystem_returns {x : SystemTx Val α} {l l' : Ledger Val} {a : α} :
    Returns (onSystem x) l a l' ↔ ∃ system, Returns x l.system a system ∧ l' = { l with system } := by
  unfold Returns onSystem
  simp only [StateT.run, except_map_ok, Prod.mk.injEq, Prod.exists]
  constructor
  · rintro ⟨b, system, hx, rfl, rfl⟩
    exact ⟨system, hx, rfl⟩
  · rintro ⟨system, hx, rfl⟩
    exact ⟨a, system, hx, rfl, rfl⟩

theorem onRisk_returns {x : PerpRisk.RiskTx α} {l l' : Ledger Val} {a : α} :
    Returns (onRisk x) l a l' ↔ ∃ risk, Returns x l.risk a risk ∧ l' = { l with risk } := by
  unfold Returns onRisk
  simp only [StateT.run, except_map_ok, Prod.mk.injEq, Prod.exists]
  constructor
  · rintro ⟨b, risk, hx, rfl, rfl⟩
    exact ⟨risk, hx, rfl⟩
  · rintro ⟨risk, hx, rfl⟩
    exact ⟨a, risk, hx, rfl, rfl⟩

end Calls

/-- How the host reaches the six contracts and the one beside them: none when the target of the
invocation is another contract. -/
structure Routes (Val : Type) where
  peers : Dispatch Val
  risk : Env → Invocation Val → Option RiskOp

inductive LedgerOp (Val : Type) where
  | system (op : SystemOp Val)
  | risk (op : RiskOp)

namespace LedgerOp

variable {Val : Type} (timelock : Address) (routes : Routes Val)

def env : LedgerOp Val → Env
  | system op => op.env
  | risk op => op.env

/-- A proposal of the timelock may be a call on any contract. -/
def execute (env : GovernanceHost Val) (id : BitVec 256) : LedgerTx Val Unit := do
  let proposal ← onSystem (onGovernance (Governance.execute env id))
  let call : Invocation Val :=
    { target := proposal.target, action := proposal.action, args := proposal.args }
  match routes.risk (env.toEnv.callFrom timelock) call with
  | some op => onRisk op.call
  | none => onSystem (SystemOp.invoke timelock routes.peers env.toEnv call)

def call : LedgerOp Val → LedgerTx Val Unit
  | system (.governance (.execute env id)) => execute timelock routes env id
  | system op => onSystem (op.call timelock routes.peers)
  | risk op => onRisk op.call

variable {timelock routes} {l l' : Ledger Val}

/-- What an execution does: the timelock's own step, and then the call it dispatches. -/
theorem execute_returns {env : GovernanceHost Val} {id : BitVec 256}
    (h : Returns (execute timelock routes env id) l () l') :
    ∃ p governance, Returns (Governance.execute env id) l.system.governance p governance ∧
      Returns (match routes.risk (env.toEnv.callFrom timelock) ⟨p.target, p.action, p.args⟩ with
        | some op => onRisk op.call
        | none => onSystem (SystemOp.invoke timelock routes.peers env.toEnv ⟨p.target, p.action, p.args⟩))
        { l with system := { l.system with governance } } () l' := by
  obtain ⟨p, m, hstep, hcall⟩ := returns_bind.mp h
  obtain ⟨system, hsystem, rfl⟩ := onSystem_returns.mp hstep
  obtain ⟨governance, hexec, rfl⟩ := onGovernance_returns.mp hsystem
  exact ⟨p, governance, hexec, hcall⟩

end LedgerOp

/-! ## One contract of seven -/

inductive Target where
  | core (c : Contract)
  | risk
  deriving DecidableEq, Repr

namespace Ledger

variable {Val : Type} (l : Ledger Val)

def adminOf : Target → Option Address
  | .core c => l.system.world.adminOf c
  | .risk => l.risk.admin

def pendingAdminOf : Target → Option Address
  | .core c => l.system.pendingAdminOf c
  | .risk => l.risk.pendingAdmin

/-- What the view `admin` returns. The risk contract has no such view. -/
def viewAdmin : Target → Option Address
  | .core c => l.system.world.adminOf c
  | .risk => none

/-- The two effects of the role's transactions. -/
def nominated (next : Address) : Target → Ledger Val
  | .core c => { l with system := l.system.setPendingAdmin next c }
  | .risk => { l with risk := { l.risk with pendingAdmin := some next } }

def accepted (next : Address) : Target → Ledger Val
  | .core c => { l with system :=
      System.removePendingAdmin { l.system with world := l.system.world.setAdmin next c } c }
  | .risk => { l with risk := { l.risk with admin := some next, pendingAdmin := none } }

variable {l} {a : Address} {t : Target}

@[simp] theorem adminOf_nominated (k : Target) : (l.nominated a t).adminOf k = l.adminOf k := by
  cases t <;> cases k <;> simp [nominated, adminOf]

theorem pendingAdminOf_nominated (k : Target) :
    (l.nominated a t).pendingAdminOf k = if k = t then some a else l.pendingAdminOf k := by
  cases t <;> cases k <;> simp [nominated, pendingAdminOf, System.pendingAdminOf_setPendingAdmin]

@[simp] theorem governance_nominated : (l.nominated a t).system.governance = l.system.governance := by
  cases t <;> simp [nominated]

@[simp] theorem guardian_nominated : (l.nominated a t).system.guardian = l.system.guardian := by
  cases t <;> simp [nominated]

@[simp] theorem deployed_nominated :
    (l.nominated a t).system.world.deployed = l.system.world.deployed := by
  cases t <;> simp [nominated]

theorem adminOf_accepted (k : Target) :
    (l.accepted a t).adminOf k = if k = t then some a else l.adminOf k := by
  cases t <;> cases k <;> simp [accepted, adminOf, World.adminOf_setAdmin]

theorem pendingAdminOf_accepted (k : Target) :
    (l.accepted a t).pendingAdminOf k = if k = t then none else l.pendingAdminOf k := by
  cases t <;> cases k <;> simp [accepted, pendingAdminOf, System.pendingAdminOf_removePendingAdmin]

@[simp] theorem governance_accepted : (l.accepted a t).system.governance = l.system.governance := by
  cases t <;> simp [accepted]

@[simp] theorem guardian_accepted : (l.accepted a t).system.guardian = l.system.guardian := by
  cases t <;> simp [accepted]

@[simp] theorem deployed_accepted :
    (l.accepted a t).system.world.deployed = l.system.world.deployed := by
  cases t <;> simp [accepted]

/-- An admin who reads as somebody is that one. -/
theorem adminOf_of_viewAdmin (h : l.viewAdmin t = some a) : l.adminOf t = some a := by
  cases t with
  | core c => exact h
  | risk => cases h

variable (l) in
/-- The timelock is the admin of all seven contracts, and stays so for now. -/
structure Governed (timelock : Address) : Prop where
  system : l.system.Governed timelock
  admin : l.risk.admin = some timelock
  pending : l.risk.pendingAdmin = none

end Ledger

end Kryon

import Kryon.Config
import Kryon.Governance.Timelock

/-! # The whole system

The six contracts with what an admin holds beyond the setters: the role itself, handed over
in two steps, the code, and a guardian who may pause but not release. Beside them stands the
timelock, whose executed proposals are calls on the six contracts like any other, made by
the timelock's own address. -/
namespace Kryon
open Transaction

/-- The contracts that a guardian may pause. -/
inductive Pausable where
  | vault | gateway
  deriving DecidableEq, Repr

def Pausable.contract : Pausable → Contract
  | vault => .vault
  | gateway => .gateway

namespace World

variable (w : World)

def setAdmin (admin : Address) : Contract → World
  | .oracle => { w with oracle := { w.oracle with admin := some admin } }
  | .vault => { w with vault := { w.vault with admin := some admin } }
  | .engine => { w with engine := { w.engine with admin := some admin } }
  | .insurance => { w with insurance := { w.insurance with admin := some admin } }
  | .liquidation => { w with liquidation := { w.liquidation with admin := some admin } }
  | .gateway => { w with gateway := { w.gateway with admin := some admin } }

def pause : Pausable → World
  | .vault => { w with vault := { w.vault with paused := true } }
  | .gateway => { w with gateway := { w.gateway with paused := true } }

variable {w} {a : Address} {c : Contract}

theorem adminOf_setAdmin (k : Contract) :
    (w.setAdmin a c).adminOf k = if k = c then some a else w.adminOf k := by
  cases c <;> cases k <;> rfl

@[simp] theorem deployed_setAdmin : (w.setAdmin a c).deployed = w.deployed := by
  cases c <;> rfl

end World

structure System (Val : Type) where
  world : World
  /-- Of every contract but the oracle adapter, whose storage has its own. -/
  pendingAdmin : Store Contract Address := ∅
  guardian : Store Contract Address := ∅
  /-- The code an upgrade put in the place of what was deployed. -/
  wasm : Store Contract (BitVec 256) := ∅
  governance : Governance Val := {}

namespace System

variable {Val : Type} (s : System Val)

def pendingAdminOf : Contract → Option Address
  | .oracle => s.world.oracle.pendingAdmin
  | c => s.pendingAdmin.get c

def setPendingAdmin (next : Address) : Contract → System Val
  | .oracle => { s with world := { s.world with oracle := { s.world.oracle with
      pendingAdmin := some next } } }
  | c => { s with pendingAdmin := s.pendingAdmin.set c next }

def removePendingAdmin : Contract → System Val
  | .oracle => { s with world := { s.world with oracle := { s.world.oracle with
      pendingAdmin := none } } }
  | c => { s with pendingAdmin := s.pendingAdmin.remove c }

variable {s} {a : Address} {c : Contract}

@[simp] theorem adminOf_setPendingAdmin (k : Contract) :
    (s.setPendingAdmin a c).world.adminOf k = s.world.adminOf k := by
  cases c <;> cases k <;> rfl

theorem pendingAdminOf_setPendingAdmin (k : Contract) :
    (s.setPendingAdmin a c).pendingAdminOf k = if k = c then some a else s.pendingAdminOf k := by
  cases c <;> cases k <;> simp [setPendingAdmin, pendingAdminOf]

@[simp] theorem governance_setPendingAdmin : (s.setPendingAdmin a c).governance = s.governance := by
  cases c <;> rfl

@[simp] theorem deployed_setPendingAdmin :
    (s.setPendingAdmin a c).world.deployed = s.world.deployed := by
  cases c <;> rfl

@[simp] theorem guardian_setPendingAdmin : (s.setPendingAdmin a c).guardian = s.guardian := by
  cases c <;> rfl

@[simp] theorem adminOf_removePendingAdmin (k : Contract) :
    (s.removePendingAdmin c).world.adminOf k = s.world.adminOf k := by
  cases c <;> cases k <;> rfl

theorem pendingAdminOf_removePendingAdmin (k : Contract) :
    (s.removePendingAdmin c).pendingAdminOf k = if k = c then none else s.pendingAdminOf k := by
  cases c <;> cases k <;> simp [removePendingAdmin, pendingAdminOf]

@[simp] theorem governance_removePendingAdmin : (s.removePendingAdmin c).governance = s.governance := by
  cases c <;> rfl

@[simp] theorem deployed_removePendingAdmin :
    (s.removePendingAdmin c).world.deployed = s.world.deployed := by
  cases c <;> rfl

@[simp] theorem guardian_removePendingAdmin : (s.removePendingAdmin c).guardian = s.guardian := by
  cases c <;> rfl

@[simp] theorem pendingAdminOf_setAdmin (k : Contract) :
    System.pendingAdminOf { s with world := s.world.setAdmin a c } k = s.pendingAdminOf k := by
  cases c <;> cases k <;> rfl

end System

abbrev SystemTx (Val : Type) := Transaction (System Val) Abort

/-! ## The admin role, the code and the pause -/

namespace Roles

variable {Val : Type}

def requireAdmin (env : Env) (c : Contract) (s : System Val) : Res Address := do
  let admin ← okOr (s.world.adminOf c) .invalidConfig
  requireAuth env admin
  return admin

def upgrade (env : Env) (c : Contract) (newWasmHash : BitVec 256) : SystemTx Val Unit := do
  let _ ← readWith fun s => requireAdmin env c s
  modify fun s => { s with wasm := s.wasm.set c newWasmHash }

def nominateAdmin (env : Env) (c : Contract) (nextAdmin : Address) : SystemTx Val Unit := do
  let _ ← readWith fun s => requireAdmin env c s
  modify fun s => s.setPendingAdmin nextAdmin c

def acceptAdmin (env : Env) (c : Contract) : SystemTx Val Unit := do
  let nextAdmin ← readWith fun s => okOr (s.pendingAdminOf c) .invalidConfig
  requireAuth env nextAdmin
  modify fun s => { s with world := s.world.setAdmin nextAdmin c }
  modify fun s => s.removePendingAdmin c

def setGuardian (env : Env) (p : Pausable) (guardian : Address) : SystemTx Val Unit := do
  let _ ← readWith fun s => requireAdmin env p.contract s
  modify fun s => { s with guardian := s.guardian.set p.contract guardian }

def emergencyPause (env : Env) (p : Pausable) (caller : Address) : SystemTx Val Unit := do
  requireAuth env caller
  let admin ← readWith fun s => okOr (s.world.adminOf p.contract) .invalidConfig
  let s ← get
  reject (caller ≠ admin ∧ s.guardian.get p.contract ≠ some caller) .unauthorized
  modify fun s => { s with world := s.world.pause p }

end Roles

inductive RoleOp where
  | upgrade (env : Env) (c : Contract) (newWasmHash : BitVec 256)
  | nominateAdmin (env : Env) (c : Contract) (nextAdmin : Address)
  | acceptAdmin (env : Env) (c : Contract)
  | setGuardian (env : Env) (p : Pausable) (guardian : Address)
  | emergencyPause (env : Env) (p : Pausable) (caller : Address)

namespace RoleOp

variable {Val : Type}

def env : RoleOp → Env
  | upgrade env .. | nominateAdmin env .. | acceptAdmin env .. | setGuardian env ..
  | emergencyPause env .. => env

def call : RoleOp → SystemTx Val Unit
  | upgrade env c newWasmHash => Roles.upgrade env c newWasmHash
  | nominateAdmin env c nextAdmin => Roles.nominateAdmin env c nextAdmin
  | acceptAdmin env c => Roles.acceptAdmin env c
  | setGuardian env p guardian => Roles.setGuardian env p guardian
  | emergencyPause env p caller => Roles.emergencyPause env p caller

end RoleOp

/-! ## The timelock's calls -/

/-- A call on the six contracts. -/
inductive PeerOp where
  | protocol (op : ProtocolOp)
  | role (op : RoleOp)

section Calls

variable {Val α : Type}

/-- A transaction of the six contracts, and one of the timelock. -/
def onWorld (x : Tx α) : SystemTx Val α := fun s =>
  (x.run s.world).map fun (a, world) => (a, { s with world })

def onGovernance (x : Governance.GovernanceTx Val α) : SystemTx Val α := fun s =>
  (x.run s.governance).map fun (a, governance) => (a, { s with governance })

theorem onWorld_returns {x : Tx α} {s s' : System Val} {a : α} :
    Returns (onWorld x) s a s' ↔ ∃ world, Returns x s.world a world ∧ s' = { s with world } := by
  unfold Returns onWorld
  simp only [StateT.run, except_map_ok, Prod.mk.injEq, Prod.exists]
  constructor
  · rintro ⟨b, world, hx, rfl, rfl⟩
    exact ⟨world, hx, rfl⟩
  · rintro ⟨world, hx, rfl⟩
    exact ⟨a, world, hx, rfl, rfl⟩

theorem onGovernance_returns {x : Governance.GovernanceTx Val α} {s s' : System Val} {a : α} :
    Returns (onGovernance x) s a s' ↔
      ∃ governance, Returns x s.governance a governance ∧ s' = { s with governance } := by
  unfold Returns onGovernance
  simp only [StateT.run, except_map_ok, Prod.mk.injEq, Prod.exists]
  constructor
  · rintro ⟨b, governance, hx, rfl, rfl⟩
    exact ⟨governance, hx, rfl⟩
  · rintro ⟨governance, hx, rfl⟩
    exact ⟨a, governance, hx, rfl, rfl⟩

end Calls

namespace PeerOp

variable {Val : Type}

def env : PeerOp → Env
  | protocol op => op.env
  | role op => op.env

def call : PeerOp → SystemTx Val Unit
  | protocol op => onWorld op.call
  | role op => op.call

end PeerOp

/-- How the host reaches the six contracts: the call that an invocation is, none when its
target is another contract. -/
abbrev Dispatch (Val : Type) := Env → Invocation Val → Option PeerOp

/-- The call is made under the host it is dispatched with. -/
def Dispatch.Lawful {Val : Type} (dispatch : Dispatch Val) : Prop :=
  ∀ env call op, dispatch env call = some op → op.env = env

inductive SystemOp (Val : Type) where
  | peer (op : PeerOp)
  | governance (op : GovernanceOp Val)

namespace SystemOp

variable {Val : Type} (timelock : Address) (dispatch : Dispatch Val)

/-- The host of the transaction. -/
def env : SystemOp Val → Env
  | peer op => op.env
  | governance (.execute env _) => env.toEnv
  | governance (.initialise env ..) | governance (.nominateAdmin env _) | governance (.acceptAdmin env)
  | governance (.queue env ..) | governance (.cancel env _) | governance (.emergencyPause env _)
  | governance (.setGuardian env _) => env

/-- `env.invoke_contract` on one of the six contracts, made by the timelock. -/
def invoke (env : Env) (call : Invocation Val) : SystemTx Val Unit :=
  match dispatch (env.callFrom timelock) call with
  | some op => op.call
  | none => return ()

def execute (env : GovernanceHost Val) (id : BitVec 256) : SystemTx Val Unit := do
  let proposal ← onGovernance (Governance.execute env id)
  invoke timelock dispatch env.toEnv
    { target := proposal.target, action := proposal.action, args := proposal.args }

def call : SystemOp Val → SystemTx Val Unit
  | peer op => op.call
  | governance (.execute env id) => execute timelock dispatch env id
  | governance op => onGovernance op.call

/-- One successful transaction. -/
abbrev Step : System Val → SystemOp Val → System Val → Prop :=
  Runs.CallStep (call timelock dispatch) fun s => s

end SystemOp

end Kryon

import Kryon.World
import Kryon.Lib.Runs

/-! # The governance timelock (`perp-governance`) -/
namespace Kryon
open Transaction

inductive ProposalStatus where
  | queued | executed | cancelled
  deriving DecidableEq, Repr

/-- `Val` is the host's type of contract call arguments. -/
structure GovernanceProposal (Val : Type) where
  id : BitVec 256
  target : Address
  action : Symbol
  /-- Passed verbatim to `target.action` at execution time. -/
  args : List Val
  wasmHash : BitVec 256
  eta : Nat
  status : ProposalStatus

/-- A call to another contract. -/
structure Invocation (Val : Type) where
  target : Address
  action : Symbol
  args : List Val

/-- What the contract stores, and the calls it has made. -/
structure Governance (Val : Type) where
  admin : Option Address := none
  pendingAdmin : Option Address := none
  guardian : Option Address := none
  minDelay : Option Nat := none
  paused : Option Bool := none
  proposal : Store (BitVec 256) (GovernanceProposal Val) := ∅
  invoked : List (Invocation Val) := []

/-- The host of a governance call, and what the contracts it calls answer. -/
structure GovernanceHost (Val : Type) extends Env where
  returns : Invocation Val → Bool

namespace Governance

variable {Val : Type}

/-- 48 hours. -/
def minSafeDelaySecs : Nat := 172800

abbrev GovernanceTx (Val : Type) := Transaction (Governance Val) Abort

def isPaused (s : Governance Val) : Bool := s.paused.getD false

def requireAdmin (env : Env) (s : Governance Val) : Res Address := do
  let admin ← okOr s.admin .invalidConfig
  requireAuth env admin
  return admin

def requireGuardian (env : Env) (s : Governance Val) : Res Address := do
  let guardian ← okOr s.guardian .invalidConfig
  requireAuth env guardian
  return guardian

/-- `env.invoke_contract`: a call that fails takes the whole transaction with it. -/
def invokeContract (env : GovernanceHost Val) (call : Invocation Val) : GovernanceTx Val Unit := do
  failIf (env.returns call = false) Abort.trap
  modify fun s => { s with invoked := s.invoked ++ [call] }

/-- The contract's `initialize`. -/
def initialise (env : Env) (admin guardian : Address) (minDelaySecs : Nat) : GovernanceTx Val Unit := do
  let s ← get
  reject (s.admin.isSome = true) .alreadyInitialized
  reject (minDelaySecs < minSafeDelaySecs) .invalidConfig
  requireAuth env admin
  modify fun s => { s with
    admin := some admin
    guardian := some guardian
    minDelay := some minDelaySecs
    paused := some false }

def nominateAdmin (env : Env) (nextAdmin : Address) : GovernanceTx Val Unit := do
  let _ ← readWith fun s => requireAdmin env s
  modify fun s => { s with pendingAdmin := some nextAdmin }

def acceptAdmin (env : Env) : GovernanceTx Val Unit := do
  let nextAdmin ← readWith fun s => okOr s.pendingAdmin .invalidConfig
  requireAuth env nextAdmin
  modify fun s => { s with admin := some nextAdmin, pendingAdmin := none }

def queue (env : Env) (id : BitVec 256) (target : Address) (action : Symbol) (args : List Val)
    (wasmHash : BitVec 256) (eta : Nat) : GovernanceTx Val (GovernanceProposal Val) := do
  let _ ← readWith fun s => requireAdmin env s
  let s ← get
  reject ((s.proposal.get id).isSome = true) .alreadyInitialized
  let minDelay ← okOr s.minDelay .invalidConfig
  -- `u64::checked_add`
  reject (env.timestamp + minDelay > u64Max) .mathOverflow
  reject (eta < env.timestamp + minDelay) .invalidConfig
  let proposal : GovernanceProposal Val :=
    { id, target, action, args, wasmHash, eta, status := .queued }
  modify fun s => { s with proposal := s.proposal.set id proposal }
  return proposal

def execute (env : GovernanceHost Val) (id : BitVec 256) :
    GovernanceTx Val (GovernanceProposal Val) := do
  let _ ← readWith fun s => requireAdmin env.toEnv s
  let s ← get
  reject (s.isPaused = true) .unauthorized
  let queued ← okOr (s.proposal.get id) .invalidConfig
  reject (queued.status ≠ .queued) .invalidConfig
  reject (env.timestamp < queued.eta) .unauthorized
  let proposal := { queued with status := .executed }
  modify fun s => { s with proposal := s.proposal.set id proposal }
  invokeContract env { target := proposal.target, action := proposal.action, args := proposal.args }
  return proposal

def cancel (env : Env) (id : BitVec 256) : GovernanceTx Val (GovernanceProposal Val) := do
  let _ ← readWith fun s => requireAdmin env s
  let s ← get
  let queued ← okOr (s.proposal.get id) .invalidConfig
  reject (queued.status ≠ .queued) .invalidConfig
  let proposal := { queued with status := .cancelled }
  modify fun s => { s with proposal := s.proposal.set id proposal }
  return proposal

def emergencyPause (env : Env) (paused : Bool) : GovernanceTx Val Unit := do
  let _ ← readWith fun s => requireGuardian env s
  modify fun s => { s with paused := some paused }

def setGuardian (env : Env) (guardian : Address) : GovernanceTx Val Unit := do
  let _ ← readWith fun s => requireAdmin env s
  modify fun s => { s with guardian := some guardian }

end Governance

/-! ## What a call does -/

inductive GovernanceOp (Val : Type) where
  | initialise (env : Env) (admin guardian : Address) (minDelaySecs : Nat)
  | nominateAdmin (env : Env) (nextAdmin : Address)
  | acceptAdmin (env : Env)
  | queue (env : Env) (id : BitVec 256) (target : Address) (action : Symbol) (args : List Val)
      (wasmHash : BitVec 256) (eta : Nat)
  | execute (env : GovernanceHost Val) (id : BitVec 256)
  | cancel (env : Env) (id : BitVec 256)
  | emergencyPause (env : Env) (paused : Bool)
  | setGuardian (env : Env) (guardian : Address)

namespace GovernanceOp

variable {Val : Type}

def call : GovernanceOp Val → Governance.GovernanceTx Val Unit
  | initialise env admin guardian minDelaySecs =>
    Governance.initialise env admin guardian minDelaySecs
  | nominateAdmin env nextAdmin => Governance.nominateAdmin env nextAdmin
  | acceptAdmin env => Governance.acceptAdmin env
  | queue env id target action args wasmHash eta =>
    void (Governance.queue env id target action args wasmHash eta)
  | execute env id => void (Governance.execute env id)
  | cancel env id => void (Governance.cancel env id)
  | emergencyPause env paused => Governance.emergencyPause env paused
  | setGuardian env guardian => Governance.setGuardian env guardian

/-- One successful call. A failed one changes nothing. -/
abbrev Step : Governance Val → GovernanceOp Val → Governance Val → Prop :=
  Runs.CallStep GovernanceOp.call fun s => s

end GovernanceOp

/-- The transitions of the timelock. -/
inductive TimelockStep {Val : Type} (s : Governance Val) :
    GovernanceOp Val → Governance Val → Prop
  | initialise {env admin guardian minDelaySecs} (hfresh : s.admin = none)
      (hsafe : Governance.minSafeDelaySecs ≤ minDelaySecs) :
      TimelockStep s (.initialise env admin guardian minDelaySecs)
        { s with
          admin := some admin
          guardian := some guardian
          minDelay := some minDelaySecs
          paused := some false }
  | nominateAdmin {env nextAdmin} :
      TimelockStep s (.nominateAdmin env nextAdmin) { s with pendingAdmin := some nextAdmin }
  | acceptAdmin {env nextAdmin} :
      TimelockStep s (.acceptAdmin env) { s with admin := some nextAdmin, pendingAdmin := none }
  | queue {env id target action args wasmHash eta minDelay} (hnew : s.proposal.get id = none)
      (hdelay : s.minDelay = some minDelay) (heta : env.timestamp + minDelay ≤ eta) :
      TimelockStep s (.queue env id target action args wasmHash eta)
        { s with
          proposal := s.proposal.set id
            { id, target, action, args, wasmHash, eta, status := .queued } }
  | execute {env id p} (hp : s.proposal.get id = some p) (hq : p.status = .queued)
      (hlive : s.isPaused = false) (heta : p.eta ≤ env.timestamp) :
      TimelockStep s (.execute env id)
        { s with
          proposal := s.proposal.set id { p with status := .executed }
          invoked := s.invoked ++ [{ target := p.target, action := p.action, args := p.args }] }
  | cancel {env id p} (hp : s.proposal.get id = some p) (hq : p.status = .queued) :
      TimelockStep s (.cancel env id)
        { s with proposal := s.proposal.set id { p with status := .cancelled } }
  | emergencyPause {env paused} :
      TimelockStep s (.emergencyPause env paused) { s with paused := some paused }
  | setGuardian {env guardian} :
      TimelockStep s (.setGuardian env guardian) { s with guardian := some guardian }

/-- Every successful call is a transition of the timelock. -/
theorem GovernanceOp.Step.timelock {Val : Type} {s s' : Governance Val} {op : GovernanceOp Val}
    (h : GovernanceOp.Step s op s') : TimelockStep s op s' := by
  obtain ⟨s, s', rfl, rfl, h⟩ := h
  cases op with
  | initialise env admin guardian minDelaySecs =>
    simp only [GovernanceOp.call, Governance.initialise, returns_bind, returns_get,
      returns_lift, reject_ok, returns_modify, Bool.not_eq_true, Option.isSome_eq_false_iff,
      Option.isNone_iff_eq_none] at h
    obtain ⟨_, _, ⟨rfl, rfl⟩, _, _, ⟨hfresh, rfl⟩, _, _, ⟨hsafe, rfl⟩, _, _, ⟨_, rfl⟩, rfl⟩ := h
    exact .initialise hfresh (by omega)
  | nominateAdmin env nextAdmin =>
    simp only [GovernanceOp.call, Governance.nominateAdmin, returns_bind,
      returns_readWith, returns_modify] at h
    obtain ⟨_, _, ⟨_, rfl⟩, rfl⟩ := h
    exact .nominateAdmin
  | acceptAdmin env =>
    simp only [GovernanceOp.call, Governance.acceptAdmin, returns_bind,
      returns_readWith, returns_lift, returns_modify] at h
    obtain ⟨_, _, ⟨_, rfl⟩, _, _, ⟨_, rfl⟩, rfl⟩ := h
    exact .acceptAdmin
  | queue env id target action args wasmHash eta =>
    obtain ⟨r, h⟩ := returns_void.mp h
    simp only [Governance.queue, returns_bind, returns_readWith, returns_get, returns_lift, reject_ok,
      okOr_ok, returns_modify, returns_pure, Bool.not_eq_true, Option.isSome_eq_false_iff,
      Option.isNone_iff_eq_none] at h
    obtain ⟨_, _, ⟨_, rfl⟩, _, _, ⟨rfl, rfl⟩, _, _, ⟨hnew, rfl⟩, minDelay, _, ⟨hdelay, rfl⟩, _, _,
      ⟨_, rfl⟩, _, _, ⟨heta, rfl⟩, _, _, rfl, _, rfl⟩ := h
    exact .queue hnew hdelay (by omega)
  | execute env id =>
    obtain ⟨r, h⟩ := returns_void.mp h
    simp only [Governance.execute, Governance.invokeContract, returns_bind, returns_readWith,
      returns_get, returns_lift, reject_ok, okOr_ok, failIf_ok, returns_modify, returns_pure,
      Bool.not_eq_true, not_not] at h
    obtain ⟨_, _, ⟨_, rfl⟩, _, _, ⟨rfl, rfl⟩, _, _, ⟨hlive, rfl⟩, p, _, ⟨hp, rfl⟩, _, _, ⟨hq, rfl⟩,
      _, _, ⟨heta, rfl⟩, _, _, rfl, _, _, ⟨_, _, ⟨_, rfl⟩, rfl⟩, _, rfl⟩ := h
    exact .execute hp hq hlive (by omega)
  | cancel env id =>
    obtain ⟨r, h⟩ := returns_void.mp h
    simp only [Governance.cancel, returns_bind, returns_readWith, returns_get, returns_lift, reject_ok,
      okOr_ok, returns_modify, returns_pure, not_not] at h
    obtain ⟨_, _, ⟨_, rfl⟩, _, _, ⟨rfl, rfl⟩, p, _, ⟨hp, rfl⟩, _, _, ⟨hq, rfl⟩, _, _, rfl, _, rfl⟩ := h
    exact .cancel hp hq
  | emergencyPause env paused =>
    simp only [GovernanceOp.call, Governance.emergencyPause, returns_bind,
      returns_readWith, returns_modify] at h
    obtain ⟨_, _, ⟨_, rfl⟩, rfl⟩ := h
    exact .emergencyPause
  | setGuardian env guardian =>
    simp only [GovernanceOp.call, Governance.setGuardian, returns_bind,
      returns_readWith, returns_modify] at h
    obtain ⟨_, _, ⟨_, rfl⟩, rfl⟩ := h
    exact .setGuardian

end Kryon

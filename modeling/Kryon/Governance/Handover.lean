import Kryon.Governance.Advisory
import Kryon.Lib.Pool

/-! # Handing the contracts to the timelock

The script with which the deployer gives its admin roles away. Its first phase nominates the
timelock for each contract and queues the acceptance; its second, two days later, has the
queued acceptances executed. Either can stop anywhere, be run again, and meet transactions
that an earlier run has given up on. -/
namespace Kryon
open Transaction Runs Program

/-! ## The script -/

/-- What the script is configured with: the contracts' addresses, the key that signs, and
the hash behind the proposals' ids. -/
structure Handover where
  contracts : Deployment
  /-- Of the advisory contract. -/
  risk : Address
  governance : Address
  admin : Address
  network : String
  sha256 : String → BitVec 256

def Deployment.address (d : Deployment) : Contract → Address
  | .oracle => d.oracle
  | .vault => d.vault
  | .engine => d.engine
  | .insurance => d.insurance
  | .liquidation => d.liquidation
  | .gateway => d.gateway

namespace Handover

/-- A transaction that the script signs. -/
inductive Submission where
  | nominateAdmin (c : Target)
  | queue (c : Target) (eta : Nat)
  | execute (c : Target)
  deriving DecidableEq, Repr

def Submission.method : Submission → String
  | nominateAdmin _ => "nominate_admin"
  | queue .. => "queue"
  | execute _ => "execute"

/-- What became of a transaction that was sent. -/
inductive Sent where
  | rejected (errorResult : String)
  | success (hash : String)
  | failed (hash : String)
  | unconfirmed (hash : String)
  deriving DecidableEq, Repr

/-- The script's questions to the RPC server and the clock, and its transactions. -/
inductive Request where
  | readGuardian (p : Pausable)
  | readAdmin (c : Target)
  | readMinDelay
  | readProposal (id : BitVec 256)
  | dateNow
  | simulate (tx : Submission)
  | submit (tx : Submission)

/-- A read is `null` when its simulation fails; a simulation answers with its error, if any. -/
abbrev Request.Ans (Val : Type) : Request → Type
  | readGuardian _ => Option Address
  | readAdmin _ => Option Address
  | readMinDelay => Option Nat
  | readProposal _ => Option (GovernanceProposal Val)
  | dateNow => Nat
  | simulate _ => Option String
  | submit _ => Sent

abbrev Script (Val α : Type) := Program Request (Request.Ans Val) String α

abbrev ask {Val : Type} (op : Request) : Script Val (op.Ans Val) := perform op

inductive Phase where
  | nominate | execute
  deriving DecidableEq, Repr

/-- `TARGETS` in its order. -/
def targets : List Target :=
  [.core .vault, .core .engine, .core .gateway, .core .oracle, .core .liquidation, .core .insurance, .risk]

def name : Target → String
  | .core .vault => "vault"
  | .core .engine => "engine"
  | .core .gateway => "orderGateway"
  | .core .oracle => "oracleAdapter"
  | .core .liquidation => "liquidation"
  | .core .insurance => "insurance"
  | .risk => "risk"

def pausable : Target → Option Pausable
  | .core .vault => some .vault
  | .core .gateway => some .gateway
  | _ => none

variable (cfg : Handover) {Val : Type}

/-- Deterministic, so that the second phase finds what the first has queued. -/
def proposalId (c : Target) : BitVec 256 :=
  cfg.sha256 ("kryon:handover:" ++ cfg.network ++ ":" ++ name c)

def send (execute : Bool) (tx : Submission) : Script Val Unit := do
  let error ← ask (.simulate tx)
  match error with
  | some error => throw (tx.method ++ " simulation failed: " ++ error)
  | none =>
    if execute then do
      let sent ← ask (.submit tx)
      match sent with
      | .rejected errorResult => throw (tx.method ++ " rejected: " ++ errorResult)
      | .success _ => pure ()
      | .failed hash => throw (tx.method ++ " failed on-chain: " ++ hash)
      | .unconfirmed hash => throw (tx.method ++ " never confirmed: " ++ hash)
    else pure ()

def missingGuardians : List Target → Script Val (List String)
  | [] => pure []
  | t :: rest =>
    match pausable t with
    | none => missingGuardians rest
    | some p => do
      let guardian ← ask (.readGuardian p)
      let missing ← missingGuardians rest
      return if guardian.isNone then name t :: missing else missing

/-- Refuse to hand over a pausable contract that has no fast-path guardian. -/
def assertGuardiansSet : Script Val Unit := do
  let missing ← missingGuardians targets
  if missing ≠ [] then
    throw ("No guardian set on: " ++ ", ".intercalate missing ++ ".\n" ++
      "   Set one BEFORE handover. After handover, pausing would have to go\n" ++
      "   through the 48h timelock — which is not an emergency stop.")
  else pure ()

def nominateTarget (execute : Bool) (eta : Nat) (t : Target) : Script Val Unit := do
  let current ← ask (.readAdmin t)
  if current = some cfg.governance then pure ()
  else do
    let existing ← ask (.readProposal (cfg.proposalId t))
    if existing.isSome then pure ()
    else do
      send execute (.nominateAdmin t)
      send execute (.queue t eta)

def phaseNominate (execute : Bool) : Script Val Unit := do
  let stored ← ask .readMinDelay
  let minDelay := stored.getD 172800
  let now ← ask .dateNow
  -- a margin over the on-chain minimum
  forEach targets (cfg.nominateTarget execute (now + minDelay + 600))

def executeTarget (execute : Bool) (now : Nat) (t : Target) : Script Val Unit := do
  let current ← ask (.readAdmin t)
  if current = some cfg.governance then pure ()
  else do
    let proposal ← ask (.readProposal (cfg.proposalId t))
    match proposal with
    | none => pure ()
    | some proposal => if now < proposal.eta then pure () else send execute (.execute t)

def phaseExecute (execute : Bool) : Script Val Unit := do
  let now ← ask .dateNow
  forEach targets (cfg.executeTarget execute now)

/-- `EXECUTE` is off in a dry run. -/
def main (phase : Phase) (execute : Bool) : Script Val Unit := do
  assertGuardiansSet
  match phase with
  | .nominate => cfg.phaseNominate execute
  | .execute => cfg.phaseExecute execute

/-! ## The chain it talks to -/

/-- The ledger, and the transactions on their way whose sender has stopped waiting. -/
structure Chain (Val : Type) where
  ledger : Ledger Val
  inFlight : List Submission := []

/-- How the server deals with a request. -/
inductive Server (Val : Type) where
  /-- As the ledger has it, under this host. -/
  | ledger (env : GovernanceHost Val)
  | error (detail : String)
  /-- A transaction is taken and not seen again in the forty seconds that the script waits. -/
  | unconfirmed
  | unreachable (message : String)

structure Reply (Val : Type) where
  server : Server Val
  /-- Of the machine that runs the script. -/
  clock : Nat := 0
  hash : String := ""

/-- A transaction that one key has signed. -/
def sentBy (env : GovernanceHost Val) (sender : Address) : GovernanceHost Val :=
  { env with invoker := none, signed := fun a => a == sender }

def address : Target → Address
  | .core c => cfg.contracts.address c
  | .risk => cfg.risk

/-- The acceptance that a contract's handover queues. -/
def acceptance (c : Target) (eta : Nat) : GovernanceProposal Val where
  id := cfg.proposalId c
  target := cfg.address c
  action := "accept_admin"
  args := []
  wasmHash := 0
  eta := eta
  status := .queued

def Submission.op (env : GovernanceHost Val) : Submission → LedgerOp Val
  | nominateAdmin (.core c) =>
    .system (.peer (.role (.nominateAdmin (sentBy env cfg.admin).toEnv c cfg.governance)))
  | nominateAdmin .risk => .risk (.nominateAdmin (sentBy env cfg.admin).toEnv cfg.governance)
  | queue c eta => .system (.governance (.queue (sentBy env cfg.admin).toEnv (cfg.proposalId c)
      (cfg.address c) "accept_admin" [] 0 eta))
  | execute c => .system (.governance (.execute (sentBy env cfg.admin) (cfg.proposalId c)))

variable (routes : Routes Val)

def Submission.call (env : GovernanceHost Val) (tx : Submission) : LedgerTx Val Unit :=
  (tx.op cfg env).call cfg.governance routes

def Reply.read {α : Type} (r : Reply Val) (stored : Option α) : Except String (Option α) :=
  match r.server with
  | .ledger _ => .ok stored
  | .unreachable message => .error message
  | _ => .ok none

/-- What a request answers and does. -/
def exec (op : Request) (r : Reply Val) (chain : Chain Val) : Except String (op.Ans Val) × Chain Val :=
  match op with
  | .readGuardian p => (r.read (chain.ledger.system.guardian.get p.contract), chain)
  | .readAdmin c => (r.read (chain.ledger.viewAdmin c), chain)
  | .readMinDelay => (r.read chain.ledger.system.governance.minDelay, chain)
  | .readProposal id => (r.read (chain.ledger.system.governance.proposal.get id), chain)
  | .dateNow => (.ok r.clock, chain)
  | .simulate tx =>
    (match r.server with
      | .ledger env =>
        .ok (if (tx.call cfg routes env).succeeds chain.ledger then none else some "HostError")
      | .error detail => .ok (some detail)
      | .unconfirmed => .ok (some "")
      | .unreachable message => .error message, chain)
  | .submit tx =>
    match r.server with
    | .ledger env =>
      (.ok (if (tx.call cfg routes env).succeeds chain.ledger then .success r.hash else .failed r.hash),
        { chain with ledger := commit (tx.call cfg routes env) chain.ledger })
    | .error detail => (.ok (.rejected detail), chain)
    | .unconfirmed => (.ok (.unconfirmed r.hash), { chain with inFlight := chain.inFlight ++ [tx] })
    -- the transaction may have reached the network all the same
    | .unreachable message => (.error message, { chain with inFlight := chain.inFlight ++ [tx] })

/-- Neither the deployer nor the timelock stands behind the transaction. -/
def Uninvolved (op : LedgerOp Val) : Prop :=
  ¬ op.env.Authorizes cfg.admin ∧ ¬ op.env.Authorizes cfg.governance

instance (env : Env) (a : Address) : Decidable (env.Authorizes a) :=
  inferInstanceAs (Decidable (env.invoker = some a ∨ env.signed a = true))

instance (op : LedgerOp Val) : Decidable (cfg.Uninvolved op) :=
  inferInstanceAs (Decidable (¬ op.env.Authorizes cfg.admin ∧ ¬ op.env.Authorizes cfg.governance))

/-- What happens on the chain beside the script: transactions of others, and those it has given
up on, which a ledger still takes or never will. -/
inductive Happening (Val : Type) where
  | other (op : LedgerOp Val)
  | lands (i : Nat) (env : GovernanceHost Val)
  | expires (i : Nat)

def happen (e : Happening Val) (chain : Chain Val) : Option (Chain Val) :=
  match e with
  | .other op =>
    if cfg.Uninvolved op then
      some { chain with ledger := commit (op.call cfg.governance routes) chain.ledger }
    else none
  | .lands i env => chain.inFlight[i]?.map fun tx =>
    { ledger := commit (tx.call cfg routes env) chain.ledger, inFlight := chain.inFlight.eraseIdx i }
  | .expires i => some { chain with inFlight := chain.inFlight.eraseIdx i }

end Handover

end Kryon

import Kryon.Storage

/-! # The deployed system and its transactions

One instance of each contract, the token ledgers they hold balances in, and the
host: ledger time, authorization, token contracts and cryptography. A call from
one contract to another goes to the deployed instance when the stored address is
the deployed one, and traps otherwise. -/
namespace Kryon
open Transaction

/-- Token holdings, keyed by token contract and holder. -/
abbrev Tokens := Store (Address × Address) Int

structure Deployment where
  oracle : Address
  vault : Address
  engine : Address
  insurance : Address
  liquidation : Address
  gateway : Address
  deriving DecidableEq, Repr

structure World where
  deployed : Deployment
  oracle : OracleStorage := {}
  vault : VaultStorage := {}
  engine : EngineStorage := {}
  insurance : InsuranceStorage := {}
  liquidation : LiquidationStorage := {}
  gateway : GatewayStorage := {}
  tokens : Tokens := ∅
  events : List CollateralSeized := []

/-- What an invocation sees of its host. The token contracts and the
cryptographic primitives are not part of the repository. -/
structure Env where
  timestamp : Nat
  /-- The contract that made this call; none for the transaction's own call. -/
  invoker : Option Address := none
  /-- The addresses whose authorization entries cover this transaction. -/
  signed : Address → Bool
  /-- Authorization entries for explicit arguments. -/
  signedArgs : Address → OrderAuthArgs → Bool
  /-- `token::Client::transfer`: asset, from, to and amount. -/
  transfer : Tokens → Address → Address → Address → Int → Option Tokens
  sha256 : List UInt8 → List UInt8
  ed25519Verify : BitVec 256 → List UInt8 → BitVec 512 → Bool

abbrev Tx := Transaction World Abort

/-- The environment of a call made by `contract`. -/
def Env.callFrom (env : Env) (contract : Address) : Env := { env with invoker := some contract }

@[simp] theorem Env.callFrom_timestamp (env : Env) (contract : Address) :
    (env.callFrom contract).timestamp = env.timestamp := rfl

/-- `address.require_auth()`: the calling contract is authorized by the call itself. -/
def requireAuth (env : Env) (address : Address) : Res Unit :=
  failIf (¬ (env.invoker = some address ∨ env.signed address = true)) .trap

def requireAuthForArgs (env : Env) (address : Address) (args : OrderAuthArgs) : Res Unit :=
  failIf (¬ (env.invoker = some address ∨ env.signedArgs address args = true)) .trap

/-- `env.invoke_contract` on a stored address. -/
def invoke {α : Type} (target deployed : Address) (call : Tx α) : Tx α := do
  failIf (target ≠ deployed) Abort.trap
  call

/-- A stored address must be the deployed one for a read-only call to reach it. -/
def reach (target deployed : Address) : Res Unit := failIf (target ≠ deployed) .trap

def tokenTransfer (env : Env) (asset source target : Address) (amount : Int) : Tx Unit := do
  let w ← get
  let tokens ← someOr (env.transfer w.tokens asset source target amount) Abort.trap
  modify fun w => { w with tokens }

/-- What `holder` has in the ledger of the token `asset`. -/
def Tokens.held (tokens : Tokens) (asset holder : Address) : Int := (tokens.get (asset, holder)).getD 0

/-- A transfer moves exactly its amount from the source to the target. -/
def Env.IdealTransfers (env : Env) : Prop :=
  ∀ {tokens tokens' : Tokens} {asset source target : Address} {amount : Int},
    env.transfer tokens asset source target amount = some tokens' → ∀ a holder,
      tokens'.held a holder = tokens.held a holder +
        (if a = asset ∧ holder = target then amount else 0) -
        (if a = asset ∧ holder = source then amount else 0)

@[simp] theorem requireAuth_ok {env : Env} {address : Address} {u : Unit} :
    requireAuth env address = .ok u ↔ env.invoker = some address ∨ env.signed address = true := by
  simp [requireAuth, or_iff_not_imp_left]

@[simp] theorem requireAuthForArgs_ok {env : Env} {address : Address} {args : OrderAuthArgs}
    {u : Unit} : requireAuthForArgs env address args = .ok u ↔
      env.invoker = some address ∨ env.signedArgs address args = true := by
  simp [requireAuthForArgs, or_iff_not_imp_left]

@[simp] theorem reach_ok {target deployed : Address} {u : Unit} :
    reach target deployed = .ok u ↔ target = deployed := by
  simp [reach]

@[simp] theorem invoke_returns {α : Type} {target deployed : Address} {call : Tx α} {w w' : World}
    {a : α} : Returns (invoke target deployed call) w a w' ↔
      target = deployed ∧ Returns call w a w' := by
  simp [invoke]

theorem invoke_run {α : Type} {target deployed : Address} {call : Tx α} {w : World}
    (h : target = deployed) : (invoke target deployed call).run w = call.run w := by
  have hreach : failIf (target ≠ deployed) Abort.trap = .ok () := failIf_ok.mpr (not_not.mpr h)
  exact run_lift_bind hreach

/-- A token transfer touches nothing but the token ledgers. -/
theorem tokenTransfer_returns {env : Env} {asset source target : Address} {amount : Int}
    {w w' : World} {u : Unit} :
    Returns (tokenTransfer env asset source target amount) w u w' ↔
      ∃ tokens, env.transfer w.tokens asset source target amount = some tokens ∧
        w' = { w with tokens } := by
  simp [tokenTransfer]

end Kryon

import Kryon.Venue.Matcher

/-! # The sign route and the reconciler (`client/app/api/settlements/[id]/sign/route.ts`,
`client/scripts/settlement-reconciler.ts`)

A queued settlement collects both parties' signed entries, is broadcast by whoever
claims it, and is brought to an end by the reconciler. -/
namespace Kryon.Venue

open Program

structure Response where
  status : Nat
  error : Option String := none
  outcome : Option String := none
  hash : Option Nat := none
  deriving DecidableEq, Repr

def refuse (status : Nat) (error : String) : Response := { status := status, error := some error }

def accept (outcome : String) : Response := { status := 200, outcome := some outcome }

/-! ## The sign route -/

structure SignRequest where
  id : Nat
  bodyTooLarge : Bool
  address : String
  signedAuthEntry : String
  withinRateLimit : Bool
  deriving DecidableEq, Repr

/-- The checks that need no database; `none` lets the request through. -/
def SignRequest.refusal (cfg : Config) (req : SignRequest) : Option Response :=
  if req.bodyTooLarge then some (refuse 413 "Body too large")
  else if req.signedAuthEntry = "" || req.address = "" then
    some (refuse 400 "Missing signedAuthEntry or address")
  else if !cfg.isValidEd25519PublicKey req.address then some (refuse 400 "Invalid address")
  else if req.signedAuthEntry.length > 8192 then some (refuse 400 "Invalid signed auth entry")
  else if !cfg.authEntryBelongsTo req.signedAuthEntry req.address then
    some (refuse 400 "Signed auth entry does not belong to the given address")
  else if !req.withinRateLimit then some (refuse 429 "Too many settlement requests")
  else none

/-- Which slot of the job the address fills. -/
def sideOf (payload : JobPayload) (address : String) : Option Side :=
  if payload.makerAddress = some address then some .maker
  else if payload.takerAddress = some address then some .taker
  else none

def validParties (cfg : Config) (payload : JobPayload) : Bool :=
  payload.makerAddress.any cfg.isValidEd25519PublicKey &&
    payload.takerAddress.any cfg.isValidEd25519PublicKey

/-- The transaction that a payload with both entries rebuilds to. -/
def rebuiltBody (payload : JobPayload) : Option TxBody :=
  match payload.assembledTxXdr, payload.makerSignedEntry, payload.takerSignedEntry with
  | some assembledTxXdr, some makerEntry, some takerEntry =>
    some (.rebuilt assembledTxXdr makerEntry takerEntry)
  | _, _, _ => none

/-- Decoding the stored envelope may throw as the account lookup does; `ERROR` throws. -/
def broadcast (payload : JobPayload) : Async Nat := do
  await .getAccount
  let now ← await .dateNow
  match rebuiltBody payload with
  | none => throw "XDR Read Error"
  | some body =>
    match ← await (.sendTransaction body (now / 1000 + 60)) with
    | .error detail => throw detail
    | .ok hash => return hash

/-- Mark the job failed; an error of the statement itself is dropped. -/
def markFailed (id : Nat) (message : String) : Async Unit :=
  tryCatch (await (.markFailed id message)) fun _ => return ()

/-- The claim is won: broadcast and store the hash. -/
def submitClaimed (cfg : Config) (id : Nat) (payload : JobPayload) : Async Response :=
  tryCatch
    (do
      match cfg.routeOperatorSecret with
      | none => return refuse 500 s!"Missing matcher fee-payer secret for {cfg.network}"
      | some _ =>
        let hash ← broadcast payload
        await (.storeSubmittedHash id hash)
        return { accept "submitted" with hash := some hash })
    fun message => do
      markFailed id message
      return refuse 500 s!"Settlement submission failed: {message}"

/-- The entry is merged: broadcast once both are there and the claim is won. -/
def claimAndSubmit (cfg : Config) (id : Nat) (payload : JobPayload) : Async Response := do
  if payload.makerSignedEntry.isNone || payload.takerSignedEntry.isNone then
    return accept "waiting_for_other_party"
  let claimed ← await (.claimQueued id)
  if !claimed then return accept "submitting"
  submitClaimed cfg id payload

/-- The handler behind the request checks. -/
def mergeAndSubmit (cfg : Config) (req : SignRequest) : Async Response := do
  match ← await (.selectJob req.id) with
  | none => return refuse 404 "TxJob not found"
  | some job =>
    if job.status ≠ .QUEUED then return refuse 409 "Already processed"
    let payload := job.unsignedXdr.getD {}
    if !validParties cfg payload then return refuse 500 "Malformed TxJob parties"
    match sideOf payload req.address with
    | none => return refuse 403 "Address not party to this fill"
    | some side =>
      match ← await (.mergeSignedEntry req.id side req.signedAuthEntry) with
      | none => return accept "already_processing"
      | some merged => claimAndSubmit cfg req.id merged

/-- `POST /api/settlements/[id]/sign`. -/
def sign (cfg : Config) (req : SignRequest) : Async Response :=
  match req.refusal cfg with
  | some response => return response
  | none => mergeAndSubmit cfg req

/-! ## The reconciler -/

/-- `if (!nonce) continue`. -/
def returnFilledOf (owner : String) (nonce : Option Int) (fillSize : Int) : Async Unit :=
  match nonce with
  | none => return ()
  | some nonce => await (.returnFilledOf owner nonce fillSize)

/-- `rollbackFill` of the reconciler. -/
def rollbackPayload (network : String) (payload : JobPayload) : Async Unit :=
  match payload.pendingTxHash, payload.makerAddress, payload.takerAddress, payload.fillSize with
  | some pendingTxHash, some makerAddress, some takerAddress, some fillSize => do
    await (.deleteFill network pendingTxHash)
    returnFilledOf makerAddress payload.makerNonce fillSize
    returnFilledOf takerAddress payload.takerNonce fillSize
  | _, _, _, _ => return ()

def rollbackJob (job : JobRow) : Async Unit := rollbackPayload job.network (job.unsignedXdr.getD {})

/-- Point the fill at the transaction that settled it. -/
def settleFillRow (network : String) (payload : JobPayload) (compareNonces : Bool) (hash ledger : Nat) :
    Async Unit :=
  match payload.pendingTxHash, payload.makerAddress, payload.takerAddress with
  | some pendingTxHash, some makerAddress, some takerAddress =>
    let nonces := if compareNonces then some (payload.makerNonce, payload.takerNonce) else none
    await (.settleFillRow network pendingTxHash makerAddress takerAddress nonces hash ledger)
  | _, _, _ => return ()

/-- The polls after a resubmission, two seconds apart; `left` of them to go. -/
def pollResubmitted (job : JobRow) (payload : JobPayload) (hash : Nat) : (left : Nat) → Async Unit
  | 0 => return ()
  | left + 1 => do
    await (.sleep 2000)
    match ← await (.getTransaction hash) with
    | .SUCCESS ledger =>
      await (.confirm job.id)
      settleFillRow job.network payload false hash ledger
    | .FAILED => await (.markFailed job.id "resubmit tx failed")
    | .NOT_FOUND => pollResubmitted job payload hash left

/-- What follows a resubmission's claim. -/
def resubmitClaimed (job : JobRow) (payload : JobPayload) : Async Unit :=
  tryCatch
    (do
      let hash ← broadcast payload
      await (.storeSubmittedHash job.id hash)
      pollResubmitted job payload hash 10)
    fun message => markFailed job.id message

def resubmitJob (cfg : Config) (job : JobRow) : Async Unit := do
  match cfg.reconcilerOperatorSecret with
  | none => return ()
  | some _ =>
    let payload := job.unsignedXdr.getD {}
    if (rebuiltBody payload).isNone then return ()
    let claimed ← await (.claimForResubmit job.id)
    if !claimed then return ()
    resubmitClaimed job payload

/-- The poll of `reconcileSubmitted`; an error is logged and ends the job's turn. -/
def pollSubmitted (hash : Nat) : Async (Option PollStatus) :=
  tryCatch (do return some (← await (.getTransaction hash))) fun _ => return none

def reconcileSubmitted (cfg : Config) (job : JobRow) : Async Unit := do
  match job.submittedHash with
  | none => return ()
  | some hash =>
    match ← pollSubmitted hash with
    | none => return ()
    | some (.SUCCESS ledger) =>
      await (.confirmSubmitted job.id)
      settleFillRow job.network (job.unsignedXdr.getD {}) true hash ledger
    | some .FAILED =>
      rollbackJob job
      await (.failFrom job.id .SUBMITTED "on-chain tx failed")
    | some .NOT_FOUND => resubmitJob cfg job

/-- A queued job whose parties did not sign in time. -/
def expireJob (job : JobRow) : Async Unit := do
  if Db.bothSigned job.unsignedXdr then return ()
  rollbackJob job
  await (.failFrom job.id .QUEUED "auth collection timeout")

/-- The tick of the reconciler. -/
def reconcilerTick (cfg : Config) : Async Unit := do
  let submitted ← await .submittedJobs
  forEach submitted (reconcileSubmitted cfg)
  let readyQueued ← await .readyQueuedJobs
  forEach readyQueued (resubmitJob cfg)
  let stale ← await (.staleQueuedJobs cfg.staleQueuedMinutes)
  forEach stale expireJob

/-! ## The order routes -/

/-- Errors worth another attempt. -/
def isTransient (message : String) : Bool :=
  ["fetch failed", "econnreset", "etimedout", "connect", "terminat", "timeout"].any fun part =>
    message.toLower.toList.tails.any part.toList.isPrefixOf

/-- One more try after each transient error, `left` times; `i` tries failed so far. -/
def retryFrom {α : Type} (p : Async α) (i : Nat) : (left : Nat) → Async α
  | 0 => p
  | left + 1 =>
    tryCatch p fun message => do
      if !isTransient message then throw message
      await (.sleep (100 * (i + 1)))
      retryFrom p (i + 1) left

/-- Three attempts in all. -/
def withRetry {α : Type} (p : Async α) : Async α := retryFrom p 0 2

/-- `POST /api/orders/cancel` for a request that has passed its checks. -/
def cancelOrder (owner : String) (nonce : Int) : Async Response :=
  tryCatch
    (do
      withRetry (await (.cancelOrder owner nonce))
      return accept "ok")
    fun _ => return refuse 500 "Failed to cancel order"

/-- `POST /api/orders/cancel-all` for a request that has passed its checks; no market is
all markets. -/
def cancelAllOrders (owner : String) (marketId : Option Nat) : Async Response := do
  let now ← await .dateNow
  tryCatch
    (do
      let nonces ← withRetry (await (.cancelAll owner marketId (now / 1000)))
      return accept s!"{nonces.length}")
    fun _ => return refuse 500 "Failed to cancel orders"

/-- `POST /api/orders` for an order that has passed its checks. -/
def placeOrder (order : RestingOrder) : Async Response :=
  tryCatch
    (do
      withRetry (await (.insertOrder { order with id := order.owner ++ ":" ++ order.nonce.repr }))
      return accept "ok")
    fun _ => return refuse 500 "Failed to persist order"

/-! ## Everything that runs -/

inductive Task
  | matcherTick
  | reconcilerTick
  | sign (req : SignRequest)
  | cancelOrder (owner : String) (nonce : Int)
  | cancelAll (owner : String) (marketId : Option Nat)
  | placeOrder (order : RestingOrder)
  deriving DecidableEq, Repr

/-- A route's answer goes to its caller. -/
def answered (p : Async Response) : Async Unit := do
  let _ ← p

def Task.program (cfg : Config) : Task → Async Unit
  | .matcherTick => Venue.matcherTick cfg
  | .reconcilerTick => Venue.reconcilerTick cfg
  | .sign req => answered (Venue.sign cfg req)
  | .cancelOrder owner nonce => answered (Venue.cancelOrder owner nonce)
  | .cancelAll owner marketId => answered (cancelAllOrders owner marketId)
  | .placeOrder order => answered (Venue.placeOrder order)

abbrev VenueEvent : Type := Event Op Reply World

abbrev VenuePool : Type := Pool Op Op.Ans String Reply World

abbrev VenueMove : Type := Move Reply Task Happening

/-- One move of any of the venue's programs or of what surrounds them. -/
abbrev VenueStep (cfg : Config) : VenuePool → VenueMove → VenuePool → Prop :=
  Pool.Step exec (Task.program cfg) happen

/-- No program has started yet. -/
def idlePool (w : World) : VenuePool := ⟨w, []⟩

/-- The moves one after the other. -/
def playVenue (cfg : Config) (w : World) (ms : List VenueMove) :
    Option (List (VenueMove × VenuePool)) :=
  (idlePool w).play exec (Task.program cfg) happen ms

/-- A run that plays through, and what `f` reads off it. -/
theorem exists_run_of_play {τ : Type} (cfg : Config) (w : World) (ms : List VenueMove)
    (f : List (VenueMove × VenuePool) → τ) {v : τ} (h : (playVenue cfg w ms).map f = some v) :
    ∃ run, Runs.IsRun (VenueStep cfg) (idlePool w) run ∧ f run = v := by
  obtain ⟨run, hrun, hv⟩ := Option.map_eq_some_iff.mp h
  exact ⟨run, Pool.isRun_play hrun, hv⟩

end Kryon.Venue

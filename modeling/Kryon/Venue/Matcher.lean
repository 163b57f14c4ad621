import Kryon.Venue.SigningMessage
import Kryon.Venue.Tables

/-! # The matcher (`client/scripts/matcher-service.ts`, `client/lib/stellar/settlement.ts`)

One tick matches each market's open orders and takes every match through persisting the
fill, submitting or queueing its settlement, and undoing the fill when that fails. -/
namespace Kryon.Venue

open Program

/-- The deployment, and what the wallet and network libraries decide. -/
structure Config where
  network : String
  passphrase : String
  /-- `MATCHER_MARKETS`. -/
  markets : List Nat
  maxDeviationBps : Int
  staleQueuedMinutes : Nat
  /-- `matcherOperatorSecret(network)` of the sign route. -/
  routeOperatorSecret : Option String
  /-- `MATCHER_OPERATOR_SECRET` of the reconciler. -/
  reconcilerOperatorSecret : Option String
  pubkeyHexFromAddress : String → String
  verifySignedMessage : String → String → String → Bool
  isValidEd25519PublicKey : String → Bool
  authEntryBelongsTo : String → String → Bool

/-! ## Fills -/

/-- Everything in `persistFill` that its `catch` guards. -/
def persistFillBody (network : String) (m : MatchResult) : Async Bool := do
  let inserted ← await (.insertFill network m)
  if !inserted then return false
  let makerUpdated ← await (.addFilled m.maker.id m.fillSize)
  if !makerUpdated then return false
  let takerUpdated ← await (.addFilled m.taker.id m.fillSize)
  if !takerUpdated then return false
  await (.recordTrade m.maker.marketId m.fillPrice m.fillValue)
  return true

def persistFill (network : String) (m : MatchResult) : Async Bool :=
  tryCatch (persistFillBody network m) fun _ => return false

def rollbackFillBody (network : String) (m : MatchResult) : Async Unit := do
  await (.deleteFill network m.pseudoTxHash)
  await (.returnVolume m.maker.marketId m.fillValue)
  await (.returnFilled m.maker.id m.fillSize)
  await (.returnFilled m.taker.id m.fillSize)

/-- An error is only logged. -/
def rollbackFill (network : String) (m : MatchResult) : Async Unit :=
  tryCatch (rollbackFillBody network m) fun _ => return ()

/-- An error is only logged. -/
def recordSettlementFailure (network fillHash reason : String) : Async Unit :=
  tryCatch (await (.recordFailure network fillHash reason)) fun _ => return ()

/-! ## Settlement -/

/-- The hash, or the reason why there is none. -/
abbrev SettleResult := Except String Nat

/-- The polls for a confirmation, two seconds apart; `left` of them to go. -/
def pollConfirmation (hash : Nat) : (left : Nat) → Async SettleResult
  | 0 => return .error s!"confirmation timed out after 60s, hash {hash}"
  | left + 1 => do
    await (.sleep 2000)
    match ← await (.getTransaction hash) with
    | .SUCCESS _ => return .ok hash
    | .FAILED => return .error s!"tx failed on-chain: {hash}"
    | .NOT_FOUND => pollConfirmation hash left

/-- Decoding a key or a signature may throw as the account lookup does. -/
def submitSettleFillSignedBody (fill : MatchResult) (makerSig takerSig : String) :
    Async SettleResult := do
  await .getAccount
  let body := TxBody.settleFillSigned fill makerSig takerSig
  let now ← await .dateNow
  match ← await (.simulateTransaction body) with
  | .error detail => return .error s!"simulation failed: {detail}"
  | .ok _ =>
    match ← await (.sendTransaction body (now / 1000 + 60)) with
    | .error detail => return .error s!"submit rejected: {detail}"
    | .ok hash => pollConfirmation hash 30

def submitSettleFillSigned (fill : MatchResult) (makerSig takerSig : String) : Async SettleResult :=
  tryCatch (submitSettleFillSignedBody fill makerSig takerSig) fun detail =>
    return .error s!"threw: {detail}"

/-- The assembled envelope; its two auth entries go to the parties for signing. -/
def simulateSettleFillBody (fill : MatchResult) : Async (Option String) := do
  await .getAccount
  match ← await (.simulateTransaction (.settleFill fill)) with
  | .error _ => return none
  | .ok (assembledTxXdr, entries) =>
    await .getLatestLedger
    if entries < 2 then return none
    return some assembledTxXdr

def simulateSettleFill (fill : MatchResult) : Async (Option String) :=
  tryCatch (simulateSettleFillBody fill) fun _ => return none

/-- A signature that is there and is not the empty text. -/
def signatureOf (o : RestingOrder) : Option String := o.signature.filter (· ≠ "")

/-- Both parties' signatures are stored: submit at once. -/
def settleSigned (network : String) (m : MatchResult) (makerSig takerSig : String) : Async Bool := do
  match ← submitSettleFillSigned m makerSig takerSig with
  | .ok hash =>
    await (.recordConfirmed network m.pseudoTxHash hash)
    return true
  | .error reason =>
    recordSettlementFailure network m.pseudoTxHash s!"signed fast path: {reason}"
    return false

/-- Queue the settlement for the parties to sign. -/
def queueSettlement (network : String) (m : MatchResult) : Async Bool := do
  match ← simulateSettleFill m with
  | none =>
    recordSettlementFailure network m.pseudoTxHash
      "simulateSettleFill returned null (auth-entry path)"
    return false
  | some assembledTxXdr =>
    await (.queueJob network m assembledTxXdr)
    return true

def executeSettlement (network : String) (m : MatchResult) : Async Bool :=
  match signatureOf m.maker, signatureOf m.taker with
  | some makerSig, some takerSig => settleSigned network m makerSig takerSig
  | _, _ => queueSettlement network m

/-! ## The tick -/

def settlementSigValid (cfg : Config) (o : RestingOrder) : Bool :=
  match signatureOf o with
  | none => true
  | some signature =>
    let payload : SignedOrderPayload :=
      { marketId := o.marketId
        isLong := o.isLong
        size := o.size.repr
        limitPrice := o.limitPrice.repr
        reduceOnly := o.reduceOnly
        nonce := o.nonce.repr
        expiryTs := o.expiryTs.repr }
    let message := orderSettlementMessage cfg.passphrase (cfg.pubkeyHexFromAddress o.owner) payload
    cfg.verifySignedMessage o.owner message signature

/-- Cancel each side whose signature cannot verify; was there one? -/
def quarantine (cfg : Config) : List RestingOrder → Async Bool
  | [] => return false
  | o :: rest =>
    if settlementSigValid cfg o then quarantine cfg rest
    else do
      await (.cancelPoisonOrder o.id)
      let _ ← quarantine cfg rest
      return true

/-- Settle a persisted fill, or undo it. -/
def settleOrRollback (network : String) (m : MatchResult) : Async Unit :=
  tryCatch
    (do
      let settled ← executeSettlement network m
      if !settled then rollbackFill network m)
    fun message => do
      recordSettlementFailure network m.pseudoTxHash s!"executeSettlement threw: {message}"
      rollbackFill network m

/-- One match of the tick's loop. -/
def processMatch (cfg : Config) (oracle : Option Int) (m : MatchResult) : Async Unit := do
  match oracle with
  | none => return ()
  | some price =>
    if !withinOracleBand cfg.maxDeviationBps m.fillPrice price then return ()
    let poisoned ← quarantine cfg [m.maker, m.taker]
    if poisoned then return ()
    let persisted ← persistFill cfg.network m
    if persisted then settleOrRollback cfg.network m

/-- The resting orders whose own price the engine would take. -/
def inBand (cfg : Config) (oracle : Option Int) (limitOrders : List RestingOrder) : List RestingOrder :=
  match oracle with
  | none => []
  | some price => limitOrders.filter fun o => withinOracleBand cfg.maxDeviationBps o.limitPrice price

theorem inBand_sublist (cfg : Config) (oracle : Option Int) (limitOrders : List RestingOrder) :
    (inBand cfg oracle limitOrders).Sublist limitOrders := by
  unfold inBand
  split
  · exact List.nil_sublist _
  · exact List.filter_sublist

def matchMarket (cfg : Config) (marketId : Nat) : Async Unit := do
  let limitOrders ← await (.loadRestingOrders marketId)
  let marketOrders ← await (.loadMarketOrders marketId)
  if limitOrders.isEmpty && marketOrders.isEmpty then return ()
  let oracle ← await (.loadOraclePrice marketId)
  forEach (matchAll (inBand cfg oracle limitOrders) marketOrders) (processMatch cfg oracle)

/-- The tick of the matcher. -/
def matcherTick (cfg : Config) : Async Unit := do
  let active ← await (.marketsWithOpenOrders cfg.markets)
  forEach cfg.markets fun marketId =>
    if active.contains marketId then matchMarket cfg marketId else pure ()

end Kryon.Venue

import Kryon.Lib.Pool
import Kryon.Lib.Table
import Kryon.Venue.Matching

/-! # The venue's database and its surroundings (`prisma/schema.prisma`)

The rows that matching and settlement read and write, every SQL statement of the
matcher, the sign route, the reconciler and the order routes as one indivisible step,
and the network as far as these programs see it: the transactions it took and what
became of them. Every job row here is of kind `settle_fill`. -/
namespace Kryon.Venue

inductive TxStatus
  | QUEUED | SUBMITTED | CONFIRMED | FAILED
  deriving DecidableEq, Repr

/-- The `txHash` column of a fill: the matcher's hash until it has settled, then the
network's. The two never coincide, since the first starts with `dbfill`. -/
inductive TxHash
  | pending (hash : String)
  | onChain (hash : Nat)
  deriving DecidableEq, Repr

/-- What the `unsignedXdr` column holds as JSON. -/
structure JobPayload where
  makerAddress : Option String := none
  takerAddress : Option String := none
  assembledTxXdr : Option String := none
  makerSignedEntry : Option String := none
  takerSignedEntry : Option String := none
  fillPrice : Option Int := none
  fillSize : Option Int := none
  pendingTxHash : Option String := none
  makerNonce : Option Int := none
  takerNonce : Option Int := none
  deriving DecidableEq, Repr

structure OrderRow extends RestingOrder where
  cancelled : Bool
  deriving DecidableEq, Repr

structure FillRow where
  network : String
  marketId : Nat
  maker : String
  makerNonce : Int
  taker : String
  takerNonce : Int
  fillSize : Int
  fillPrice : Int
  txHash : TxHash
  ledger : Nat
  deriving DecidableEq, Repr

structure MarketRow where
  id : Nat
  lastPrice : Int
  volume : Int
  lastOraclePrice : Int
  deriving DecidableEq, Repr

structure JobRow where
  id : Nat
  network : String
  payloadHash : String
  unsignedXdr : Option JobPayload
  status : TxStatus
  submittedHash : Option Nat
  lastError : Option String
  attempts : Nat
  createdAt : Nat
  updatedAt : Nat
  deriving DecidableEq, Repr

structure Db where
  orders : List OrderRow
  fills : List FillRow
  markets : List MarketRow
  jobs : List JobRow
  /-- The sequence behind the jobs' ids. -/
  nextJobId : Nat
  deriving DecidableEq, Repr

/-! ## The network -/

inductive TxBody
  /-- `settle_fill_signed` with the fill and both stored signatures. -/
  | settleFillSigned (fill : MatchResult) (makerSig takerSig : String)
  /-- `settle_fill` with the fill. -/
  | settleFill (fill : MatchResult)
  /-- The stored `settle_fill` operation with both signed entries. -/
  | rebuilt (assembledTxXdr makerEntry takerEntry : String)
  deriving DecidableEq, Repr

inductive Outcome
  | pending | applied | failed
  deriving DecidableEq, Repr

structure ChainTx where
  body : TxBody
  /-- The upper time bound, in seconds. -/
  maxTime : Nat
  outcome : Outcome
  /-- The ledger that took it. -/
  ledger : Nat
  deriving DecidableEq, Repr

/-- A transaction's hash is its place in `txs`; the clock is in milliseconds. -/
structure World where
  db : Db
  txs : List ChainTx
  now : Nat
  deriving DecidableEq, Repr

namespace World

/-- `Math.floor(Date.now() / 1000)`. -/
def nowSec (w : World) : Nat := w.now / 1000

def outcome (w : World) (hash : Nat) : Option Outcome := w.txs[hash]?.map (·.outcome)

end World

/-- What happens outside the venue's programs. -/
inductive Happening
  | later (ms : Nat)
  /-- A ledger takes a transaction within its time bound. -/
  | ledgerTakes (hash ledger : Nat) (applied : Bool)
  | oraclePrice (marketId : Nat) (price : Int)
  deriving DecidableEq, Repr

def happen : Happening → World → Option World
  | .later ms, w => some { w with now := w.now + ms }
  | .ledgerTakes hash ledger applied, w =>
    match w.txs[hash]? with
    | some tx =>
      if tx.outcome = .pending ∧ w.nowSec ≤ tx.maxTime then
        let outcome := if applied then .applied else .failed
        some { w with txs := w.txs.set hash { tx with outcome := outcome, ledger := ledger } }
      else none
    | none => none
  | .oraclePrice marketId price, w =>
    let markets := Table.update w.db.markets (·.id == marketId) ({ · with lastOraclePrice := price })
    some { w with db := { w.db with markets := markets } }

/-- What the outside world can change. -/
theorem happen_cases {e : Happening} {w w' : World} (h : happen e w = some w') :
    (∃ ms, w' = { w with now := w.now + ms }) ∨
    (∃ hash tx outcome ledger, w.txs[hash]? = some tx ∧ tx.outcome = .pending ∧
      w.nowSec ≤ tx.maxTime ∧
      w' = { w with txs := w.txs.set hash { tx with outcome := outcome, ledger := ledger } }) ∨
    (∃ markets, w' = { w with db := { w.db with markets := markets } }) := by
  cases e with
  | later ms => exact .inl ⟨ms, (Option.some.inj h).symm⟩
  | ledgerTakes hash ledger applied =>
    right; left
    simp only [happen] at h
    split at h
    · rename_i tx htx
      split at h
      · rename_i hopen
        exact ⟨hash, tx, _, ledger, htx, hopen.1, hopen.2, (Option.some.inj h).symm⟩
      · cases h
    · cases h
  | oraclePrice marketId price => exact .inr (.inr ⟨_, (Option.some.inj h).symm⟩)

/-! ## Operations -/

inductive Side
  | maker | taker
  deriving DecidableEq, Repr

/-- What the surroundings answer, as far as the tables and the network do not decide it. -/
inductive Reply
  | ok
  /-- It throws and has no effect. -/
  | fails (message : String)
  /-- The answer is the RPC server's own error. -/
  | rejects (detail : String)
  /-- It throws after it took effect. -/
  | lost (message : String)
  /-- The transaction is not reported yet; the time has passed already. -/
  | late
  /-- A simulation's envelope and its number of auth entries. -/
  | simulated (assembledTxXdr : String) (entries : Nat)
  deriving DecidableEq, Repr

/-- A statement with this reply took effect, answered or not. -/
def tookEffect : Reply → Bool
  | .fails _ => false
  | _ => true

/-- A statement with this reply took effect and answered. -/
def wentThrough : Reply → Bool
  | .fails _ | .lost _ => false
  | _ => true

theorem tookEffect_of_wentThrough {r : Reply} (h : wentThrough r = true) : tookEffect r = true := by
  cases r with
  | fails => cases h
  | _ => rfl

inductive PollStatus
  | SUCCESS (ledger : Nat)
  | FAILED
  | NOT_FOUND
  deriving DecidableEq, Repr

inductive Op
  -- the matcher
  | marketsWithOpenOrders (ids : List Nat)
  | loadRestingOrders (marketId : Nat)
  | loadMarketOrders (marketId : Nat)
  | loadOraclePrice (marketId : Nat)
  | cancelPoisonOrder (id : String)
  | insertFill (network : String) (m : MatchResult)
  | addFilled (id : String) (fillSize : Int)
  | recordTrade (marketId : Nat) (fillPrice fillValue : Int)
  | deleteFill (network txHash : String)
  | returnVolume (marketId : Nat) (fillValue : Int)
  | returnFilled (id : String) (fillSize : Int)
  | recordFailure (network fillHash reason : String)
  | recordConfirmed (network fillHash : String) (hash : Nat)
  | queueJob (network : String) (m : MatchResult) (assembledTxXdr : String)
  -- the sign route
  | selectJob (id : Nat)
  | mergeSignedEntry (id : Nat) (side : Side) (entry : String)
  | claimQueued (id : Nat)
  | storeSubmittedHash (id hash : Nat)
  | markFailed (id : Nat) (lastError : String)
  -- the reconciler
  | submittedJobs
  | readyQueuedJobs
  | staleQueuedJobs (minutes : Nat)
  | claimForResubmit (id : Nat)
  | confirm (id : Nat)
  | confirmSubmitted (id : Nat)
  | failFrom (id : Nat) (status : TxStatus) (lastError : String)
  | returnFilledOf (owner : String) (nonce fillSize : Int)
  | settleFillRow (network pendingTxHash maker taker : String)
      (nonces : Option (Option Int × Option Int)) (hash ledger : Nat)
  -- the order routes
  | insertOrder (order : RestingOrder)
  | cancelOrder (owner : String) (nonce : Int)
  | cancelAll (owner : String) (marketId : Option Nat) (nowSec : Nat)
  -- the RPC server and the clock
  | getAccount
  | getLatestLedger
  | simulateTransaction (body : TxBody)
  | sendTransaction (body : TxBody) (maxTime : Nat)
  | getTransaction (hash : Nat)
  | sleep (ms : Nat)
  | dateNow
  deriving DecidableEq, Repr

namespace Op

@[reducible] def Ans : Op → Type
  | marketsWithOpenOrders _ => List Nat
  | loadRestingOrders _ | loadMarketOrders _ => List RestingOrder
  | loadOraclePrice _ => Option Int
  | insertFill .. | addFilled .. | claimQueued _ | claimForResubmit _ => Bool
  | selectJob _ => Option JobRow
  | mergeSignedEntry .. => Option JobPayload
  | submittedJobs | readyQueuedJobs | staleQueuedJobs _ => List JobRow
  | cancelAll .. => List Int
  | simulateTransaction _ => Except String (String × Nat)
  | sendTransaction .. => Except String Nat
  | getTransaction _ => PollStatus
  | dateNow => Nat
  | _ => Unit

end Op

/-! ## Statements on the tables -/

namespace Db

/-- `"filledSize" < size` and not cancelled or expired. -/
def isOpen (nowSec : Nat) (o : OrderRow) : Bool :=
  !o.cancelled && o.filledSize < o.size && (o.expiryTs == 0 || (nowSec : Int) < o.expiryTs)

def marketsWithOpenOrders (db : Db) (ids : List Nat) (nowSec : Nat) : List Nat :=
  ids.filter fun id => db.orders.any fun o =>
    o.marketId == id && !o.cancelled && o.filledSize < o.size && (nowSec : Int) < o.expiryTs

/-- Insertion sort is stable, so it puts the later key last. -/
def loadRestingOrders (db : Db) (marketId nowSec : Nat) : List RestingOrder :=
  let rows := db.orders.filter fun o => o.marketId == marketId && isOpen nowSec o && o.limitPrice != 0
  ((rows.map (·.toRestingOrder)).insertionSort (·.createdAt ≤ ·.createdAt)).insertionSort
    (·.limitPrice ≤ ·.limitPrice)

def loadMarketOrders (db : Db) (marketId nowSec : Nat) : List RestingOrder :=
  let rows := db.orders.filter fun o => o.marketId == marketId && isOpen nowSec o && o.limitPrice == 0
  (rows.map (·.toRestingOrder)).insertionSort (·.createdAt ≤ ·.createdAt)

/-- A load returns open orders of the table. -/
theorem mem_loadRestingOrders {db : Db} {marketId nowSec : Nat} {o : RestingOrder}
    (h : o ∈ db.loadRestingOrders marketId nowSec) :
    ∃ row ∈ db.orders, isOpen nowSec row = true ∧ row.toRestingOrder = o := by
  have hmem := (List.mem_insertionSort _).mp ((List.mem_insertionSort _).mp h)
  obtain ⟨row, hrow, rfl⟩ := List.mem_map.mp hmem
  obtain ⟨hold, hp⟩ := List.mem_filter.mp hrow
  simp only [Bool.and_eq_true] at hp
  exact ⟨row, hold, hp.1.2, rfl⟩

theorem mem_loadMarketOrders {db : Db} {marketId nowSec : Nat} {o : RestingOrder}
    (h : o ∈ db.loadMarketOrders marketId nowSec) :
    ∃ row ∈ db.orders, isOpen nowSec row = true ∧ row.toRestingOrder = o := by
  obtain ⟨row, hrow, rfl⟩ := List.mem_map.mp ((List.mem_insertionSort _).mp h)
  obtain ⟨hold, hp⟩ := List.mem_filter.mp hrow
  simp only [Bool.and_eq_true] at hp
  exact ⟨row, hold, hp.1.2, rfl⟩

def loadOraclePrice (db : Db) (marketId : Nat) : Option Int :=
  match db.markets.find? (·.id == marketId) with
  | none => none
  | some row => if row.lastOraclePrice > 0 then some row.lastOraclePrice else none

def updateOrders (db : Db) (p : OrderRow → Bool) (f : OrderRow → OrderRow) : Db :=
  { db with orders := Table.update db.orders p f }

def updateMarkets (db : Db) (p : MarketRow → Bool) (f : MarketRow → MarketRow) : Db :=
  { db with markets := Table.update db.markets p f }

def updateJobs (db : Db) (p : JobRow → Bool) (f : JobRow → JobRow) : Db :=
  { db with jobs := Table.update db.jobs p f }

/-- The row of a new fill. -/
def fillRow (network : String) (m : MatchResult) : FillRow where
  network := network
  marketId := m.maker.marketId
  maker := m.maker.owner
  makerNonce := m.maker.nonce
  taker := m.taker.owner
  takerNonce := m.taker.nonce
  fillSize := m.fillSize
  fillPrice := m.fillPrice
  txHash := .pending m.pseudoTxHash
  ledger := 0

/-- The unique key of the table of fills. -/
def sameFill (a b : FillRow) : Bool :=
  a.network == b.network && a.txHash == b.txHash && a.maker == b.maker &&
    a.makerNonce == b.makerNonce && a.taker == b.taker && a.takerNonce == b.takerNonce

/-- `ON CONFLICT DO NOTHING RETURNING id`. -/
def insertFill (db : Db) (network : String) (m : MatchResult) : Bool × Db :=
  if db.fills.any (sameFill · (fillRow network m)) then (false, db)
  else (true, { db with fills := db.fills ++ [fillRow network m] })

def fits (fillSize : Int) (o : OrderRow) : Bool := o.filledSize + fillSize ≤ o.size

def addFilled (db : Db) (id : String) (fillSize : Int) : Bool × Db :=
  let p := fun o : OrderRow => o.id == id && fits fillSize o
  (db.orders.any p, db.updateOrders p fun o => { o with filledSize := o.filledSize + fillSize })

/-- `GREATEST(0, "filledSize" - fillSize)`. -/
def giveBack (fillSize : Int) (o : OrderRow) : OrderRow :=
  { o with filledSize := max 0 (o.filledSize - fillSize) }

def deleteFill (db : Db) (network txHash : String) : Db :=
  { db with fills := Table.delete db.fills fun f => f.network == network && f.txHash == .pending txHash }

/-- The unique key of the table of jobs. -/
def jobOf (network payloadHash : String) (j : JobRow) : Bool :=
  j.network == network && j.payloadHash == payloadHash

def upsertJob (db : Db) (new : JobRow) (f : JobRow → JobRow) : Db :=
  { db with
    jobs := Table.upsert db.jobs (jobOf new.network new.payloadHash) { new with id := db.nextJobId } f
    nextJobId := db.nextJobId + 1 }

/-- The values of an INSERT; the upsert chooses the id. -/
def newJob (network payloadHash : String) (now : Nat) (status : TxStatus) : JobRow where
  id := 0
  network := network
  payloadHash := payloadHash
  unsignedXdr := none
  status := status
  submittedHash := none
  lastError := none
  attempts := 0
  createdAt := now
  updatedAt := now

def recordFailure (db : Db) (network fillHash reason : String) (now : Nat) : Db :=
  let new := newJob network fillHash now .FAILED
  db.upsertJob { new with lastError := some reason, attempts := 1 } fun j =>
    { j with status := .FAILED, lastError := some reason, attempts := j.attempts + 1, updatedAt := now }

/-- The payload is the text `{}`. -/
def recordConfirmed (db : Db) (network fillHash : String) (hash now : Nat) : Db :=
  let new := newJob network fillHash now .CONFIRMED
  db.upsertJob { new with unsignedXdr := some {}, submittedHash := some hash } fun j =>
    { j with status := .CONFIRMED, submittedHash := some hash, updatedAt := now }

/-- The payload of a match whose parties have yet to sign. -/
def queuedPayload (m : MatchResult) (assembledTxXdr : String) : JobPayload where
  makerAddress := some m.maker.owner
  takerAddress := some m.taker.owner
  assembledTxXdr := some assembledTxXdr
  fillPrice := some m.fillPrice
  fillSize := some m.fillSize
  pendingTxHash := some m.pseudoTxHash
  makerNonce := some m.maker.nonce
  takerNonce := some m.taker.nonce

/-- On conflict the payload is replaced and the status kept. -/
def queueJob (db : Db) (network : String) (m : MatchResult) (assembledTxXdr : String) (now : Nat) : Db :=
  let payload := queuedPayload m assembledTxXdr
  let new := newJob network m.pseudoTxHash now .QUEUED
  db.upsertJob { new with unsignedXdr := some payload } fun j =>
    { j with unsignedXdr := some payload, updatedAt := now }

/-- `unsignedXdr || {[field]: entry}`. -/
def withEntry (side : Side) (entry : String) (payload : JobPayload) : JobPayload :=
  match side with
  | .maker => { payload with makerSignedEntry := some entry }
  | .taker => { payload with takerSignedEntry := some entry }

def mergeSignedEntry (db : Db) (id : Nat) (side : Side) (entry : String) (now : Nat) :
    Option JobPayload × Db :=
  let p := fun j : JobRow => j.id == id && j.status == .QUEUED
  let db' := db.updateJobs p fun j =>
    { j with unsignedXdr := j.unsignedXdr.map (withEntry side entry), updatedAt := now }
  (((db.jobs.find? p).bind (·.unsignedXdr)).map (withEntry side entry), db')

def claimable (id : Nat) (j : JobRow) : Bool := j.id == id && j.status == .QUEUED

/-- `status IN ('QUEUED', 'SUBMITTED') AND (status = 'QUEUED' OR "submittedHash" IS NULL)`. -/
def reclaimable (id : Nat) (j : JobRow) : Bool :=
  j.id == id && (j.status == .QUEUED || j.status == .SUBMITTED) &&
    (j.status == .QUEUED || j.submittedHash == none)

/-- The row of a claim that succeeds. -/
def claim (db : Db) (p : JobRow → Bool) (now : Nat) : Bool × Db :=
  (db.jobs.any p, db.updateJobs p fun j => { j with status := .SUBMITTED, updatedAt := now })

def setStatus (db : Db) (p : JobRow → Bool) (status : TxStatus) (lastError : Option String)
    (now : Nat) : Db :=
  db.updateJobs p fun j =>
    { j with status := status, lastError := lastError <|> j.lastError, updatedAt := now }

def submittedJobs (db : Db) (now : Nat) : List JobRow :=
  (db.jobs.filter fun j => j.status == .SUBMITTED && j.updatedAt + 30000 < now).take 50

def bothSigned (payload : Option JobPayload) : Bool :=
  match payload with
  | some p => p.makerSignedEntry.isSome && p.takerSignedEntry.isSome
  | none => false

def readyQueuedJobs (db : Db) (now : Nat) : List JobRow :=
  (db.jobs.filter fun j =>
    j.status == .QUEUED && bothSigned j.unsignedXdr && j.updatedAt + 30000 < now).take 20

def staleQueuedJobs (db : Db) (minutes now : Nat) : List JobRow :=
  db.jobs.filter fun j => j.status == .QUEUED && j.createdAt + minutes * 60000 < now

/-- A resubmission does not compare the nonces. -/
def settlesRow (network pendingTxHash maker taker : String)
    (nonces : Option (Option Int × Option Int)) (f : FillRow) : Bool :=
  f.network == network && f.txHash == .pending pendingTxHash && f.maker == maker && f.taker == taker &&
    match nonces with
    | some (makerNonce, takerNonce) => some f.makerNonce == makerNonce && some f.takerNonce == takerNonce
    | none => true

def cancelMatching (db : Db) (p : OrderRow → Bool) : Db := db.updateOrders p ({ · with cancelled := true })

/-- `ON CONFLICT (id) DO NOTHING`. -/
def insertOrder (db : Db) (order : RestingOrder) (now : Nat) : Db :=
  if db.orders.any (·.id == order.id) then db
  else
    let row : OrderRow := ⟨{ order with filledSize := 0, createdAt := now }, false⟩
    { db with orders := db.orders ++ [row] }

def liveOf (owner : String) (marketId : Option Nat) (nowSec : Nat) (o : OrderRow) : Bool :=
  o.owner == owner && (marketId.isNone || marketId == some o.marketId) && !o.cancelled &&
    (nowSec : Int) < o.expiryTs && o.filledSize < o.size

end Db

/-! ## What each operation does -/

/-- A statement takes effect and answers, or it throws, before or after it took effect. -/
def sql {β : Type} (r : Reply) (w : World) (f : Db → β × Db) : Except String β × World :=
  match r with
  | .fails message => (.error message, w)
  | .lost message => (.error message, { w with db := (f w.db).2 })
  | _ => (.ok (f w.db).1, { w with db := (f w.db).2 })

/-- A statement without rows to return. -/
def sqlUnit (r : Reply) (w : World) (f : Db → Db) : Except String Unit × World :=
  sql r w fun db => ((), f db)

/-- A statement that only reads. -/
def sqlRows {β : Type} (r : Reply) (w : World) (f : Db → β) : Except String β × World :=
  sql r w fun db => (f db, db)

/-- An RPC call that changes nothing here. -/
def rpc {β : Type} (r : Reply) (w : World) (a : β) : Except String β × World :=
  match r with
  | .fails message | .lost message => (.error message, w)
  | _ => (.ok a, w)

namespace World

/-- The network's report on a transaction, which may be late. -/
def report (w : World) (hash : Nat) (r : Reply) : PollStatus :=
  match r, w.txs[hash]? with
  | .late, _ => .NOT_FOUND
  | _, some tx =>
    match tx.outcome with
    | .applied => .SUCCESS tx.ledger
    | .failed => .FAILED
    | .pending => .NOT_FOUND
  | _, none => .NOT_FOUND

/-- After a sleep, whose time others may have slept through as well. -/
def slept (w : World) (ms : Nat) : Reply → World
  | .late => w
  | _ => { w with now := w.now + ms }

/-- The network takes a transaction. -/
def take (w : World) (body : TxBody) (maxTime : Nat) : World :=
  { w with txs := w.txs ++ [⟨body, maxTime, .pending, 0⟩] }

end World

def send (r : Reply) (w : World) (body : TxBody) (maxTime : Nat) :
    Except String (Except String Nat) × World :=
  match r with
  | .fails message => (.error message, w)
  | .rejects detail => (.ok (.error detail), w)
  | .lost message => (.error message, w.take body maxTime)
  | _ => (.ok (.ok w.txs.length), w.take body maxTime)

def simulate (r : Reply) (w : World) : Except String (Except String (String × Nat)) × World :=
  match r with
  | .fails message | .lost message => (.error message, w)
  | .rejects detail => (.ok (.error detail), w)
  | .simulated assembledTxXdr entries => (.ok (.ok (assembledTxXdr, entries)), w)
  | _ => (.ok (.ok ("", 2)), w)

def exec : (op : Op) → Reply → World → Except String op.Ans × World
  | .marketsWithOpenOrders ids, r, w => sqlRows r w fun db => db.marketsWithOpenOrders ids w.nowSec
  | .loadRestingOrders marketId, r, w => sqlRows r w fun db => db.loadRestingOrders marketId w.nowSec
  | .loadMarketOrders marketId, r, w => sqlRows r w fun db => db.loadMarketOrders marketId w.nowSec
  | .loadOraclePrice marketId, r, w => sqlRows r w fun db => db.loadOraclePrice marketId
  | .cancelPoisonOrder id, r, w => sqlUnit r w fun db => db.cancelMatching (·.id == id)
  | .insertFill network m, r, w => sql r w fun db => db.insertFill network m
  | .addFilled id fillSize, r, w => sql r w fun db => db.addFilled id fillSize
  | .recordTrade marketId fillPrice fillValue, r, w => sqlUnit r w fun db =>
    db.updateMarkets (·.id == marketId) fun m =>
      { m with lastPrice := fillPrice, volume := m.volume + fillValue }
  | .deleteFill network txHash, r, w => sqlUnit r w fun db => db.deleteFill network txHash
  | .returnVolume marketId fillValue, r, w => sqlUnit r w fun db =>
    db.updateMarkets (·.id == marketId) fun m => { m with volume := max 0 (m.volume - fillValue) }
  | .returnFilled id fillSize, r, w => sqlUnit r w fun db =>
    db.updateOrders (·.id == id) (Db.giveBack fillSize)
  | .recordFailure network fillHash reason, r, w => sqlUnit r w fun db =>
    db.recordFailure network fillHash reason w.now
  | .recordConfirmed network fillHash hash, r, w => sqlUnit r w fun db =>
    db.recordConfirmed network fillHash hash w.now
  | .queueJob network m assembledTxXdr, r, w => sqlUnit r w fun db =>
    db.queueJob network m assembledTxXdr w.now
  | .selectJob id, r, w => sqlRows r w fun db => db.jobs.find? (·.id == id)
  | .mergeSignedEntry id side entry, r, w => sql r w fun db => db.mergeSignedEntry id side entry w.now
  | .claimQueued id, r, w => sql r w fun db => db.claim (Db.claimable id) w.now
  | .storeSubmittedHash id hash, r, w => sqlUnit r w fun db =>
    db.updateJobs (·.id == id) fun j => { j with submittedHash := some hash, updatedAt := w.now }
  | .markFailed id lastError, r, w => sqlUnit r w fun db =>
    db.setStatus (·.id == id) .FAILED (some lastError) w.now
  | .submittedJobs, r, w => sqlRows r w fun db => db.submittedJobs w.now
  | .readyQueuedJobs, r, w => sqlRows r w fun db => db.readyQueuedJobs w.now
  | .staleQueuedJobs minutes, r, w => sqlRows r w fun db => db.staleQueuedJobs minutes w.now
  | .claimForResubmit id, r, w => sql r w fun db => db.claim (Db.reclaimable id) w.now
  | .confirm id, r, w => sqlUnit r w fun db => db.setStatus (·.id == id) .CONFIRMED none w.now
  | .confirmSubmitted id, r, w => sqlUnit r w fun db =>
    db.setStatus (fun j => j.id == id && j.status == .SUBMITTED) .CONFIRMED none w.now
  | .failFrom id status lastError, r, w => sqlUnit r w fun db =>
    db.setStatus (fun j => j.id == id && j.status == status) .FAILED (some lastError) w.now
  | .returnFilledOf owner nonce fillSize, r, w => sqlUnit r w fun db =>
    db.updateOrders (fun o => o.owner == owner && o.nonce == nonce) (Db.giveBack fillSize)
  | .settleFillRow network pendingTxHash maker taker nonces hash ledger, r, w =>
    sqlUnit r w fun db => { db with
      fills := Table.update db.fills (Db.settlesRow network pendingTxHash maker taker nonces)
        fun f => { f with txHash := .onChain hash, ledger := ledger } }
  | .insertOrder order, r, w => sqlUnit r w fun db => db.insertOrder order w.now
  | .cancelOrder owner nonce, r, w => sqlUnit r w fun db =>
    db.cancelMatching fun o => o.owner == owner && o.nonce == nonce
  | .cancelAll owner marketId nowSec, r, w => sql r w fun db =>
    let p := Db.liveOf owner marketId nowSec
    ((db.orders.filter p).map (·.nonce), db.cancelMatching p)
  | .getAccount, r, w => rpc r w ()
  | .getLatestLedger, r, w => rpc r w ()
  | .simulateTransaction _, r, w => simulate r w
  | .sendTransaction body maxTime, r, w => send r w body maxTime
  | .getTransaction hash, r, w => rpc r w (w.report hash r)
  | .sleep ms, r, w => (.ok (), w.slept ms r)
  | .dateNow, _, w => (.ok w.now, w)

theorem Db.insertOrder_eq (db : Db) (order : RestingOrder) (now : Nat) : db.insertOrder order now =
    { db with orders := Table.insertNew db.orders (·.id == order.id)
                          ⟨{ order with filledSize := 0, createdAt := now }, false⟩ } := by
  unfold insertOrder Table.insertNew
  split <;> rfl

/-- A statement leaves the tables as they are or takes effect. -/
theorem sql_world {β : Type} {P : World → Prop} {r : Reply} {w : World} {f : Db → β × Db} (h : P w)
    (hf : P { w with db := (f w.db).2 }) : P (sql r w f).2 := by
  cases r with
  | fails message => exact h
  | _ => exact hf

theorem sql_throws {β : Type} {r : Reply} {w : World} {f : Db → β × Db} (h : wentThrough r = false) :
    ∃ message, (sql r w f).1 = .error message := by
  cases r with
  | fails message | lost message => exact ⟨message, rfl⟩
  | _ => cases h

theorem sql_answers {β : Type} {r : Reply} {w : World} {f : Db → β × Db} (h : wentThrough r = true) :
    sql r w f = (.ok (f w.db).1, { w with db := (f w.db).2 }) := by
  cases r with
  | fails | lost => cases h
  | _ => rfl

theorem sql_skips {β : Type} {r : Reply} {w : World} {f : Db → β × Db} (h : tookEffect r = false) :
    (sql r w f).2 = w := by
  cases r with
  | fails => rfl
  | _ => cases h

theorem sql_takes {β : Type} {r : Reply} {w : World} {f : Db → β × Db} (h : tookEffect r = true) :
    (sql r w f).2 = { w with db := (f w.db).2 } := by
  cases r with
  | fails => cases h
  | _ => rfl

/-- The database is left alone. -/
@[simp] theorem rpc_world {β : Type} (r : Reply) (w : World) (a : β) : (rpc r w a).2 = w := by
  cases r <;> rfl

@[simp] theorem simulate_world (r : Reply) (w : World) : (simulate r w).2 = w := by
  cases r <;> rfl

@[simp] theorem sqlRows_world {β : Type} (r : Reply) (w : World) (f : Db → β) :
    (sqlRows r w f).2 = w := by
  cases r <;> rfl

theorem sqlRows_ok {β : Type} {r : Reply} {w : World} {f : Db → β} {rows : β}
    (h : (sqlRows r w f).1 = .ok rows) : rows = f w.db := by
  cases r with
  | fails | lost => cases h
  | _ => exact (Except.ok.inj h).symm

@[simp] theorem send_db (r : Reply) (w : World) (body : TxBody) (maxTime : Nat) :
    (send r w body maxTime).2.db = w.db := by
  cases r <;> rfl

@[simp] theorem slept_db (w : World) (ms : Nat) (r : Reply) : (w.slept ms r).db = w.db := by
  cases r <;> rfl

/-- The statements that write the table of jobs. -/
def Op.writesJobs : Op → Bool
  | .recordFailure .. | .recordConfirmed .. | .queueJob .. | .mergeSignedEntry .. | .claimQueued _
  | .storeSubmittedHash .. | .markFailed .. | .claimForResubmit _ | .confirm _ | .confirmSubmitted _
  | .failFrom .. => true
  | _ => false

/-- Every other operation leaves the table as it is. -/
theorem jobs_of_not_writes {op : Op} (h : op.writesJobs = false) (r : Reply) (w : World) :
    (exec op r w).2.db.jobs = w.db.jobs ∧ (exec op r w).2.db.nextJobId = w.db.nextJobId := by
  cases op with
  | recordFailure | recordConfirmed | queueJob | mergeSignedEntry | claimQueued | storeSubmittedHash
  | markFailed | claimForResubmit | confirm | confirmSubmitted | failFrom => cases h
  | insertFill network m =>
    refine sql_world (P := fun w' => w'.db.jobs = w.db.jobs ∧ w'.db.nextJobId = w.db.nextJobId)
      ⟨rfl, rfl⟩ ?_
    show (w.db.insertFill network m).2.jobs = _ ∧ (w.db.insertFill network m).2.nextJobId = _
    unfold Db.insertFill
    split
    · exact ⟨rfl, rfl⟩
    · exact ⟨rfl, rfl⟩
  | insertOrder order =>
    refine sql_world (P := fun w' => w'.db.jobs = w.db.jobs ∧ w'.db.nextJobId = w.db.nextJobId)
      ⟨rfl, rfl⟩ ?_
    show (w.db.insertOrder order w.now).jobs = _ ∧ (w.db.insertOrder order w.now).nextJobId = _
    unfold Db.insertOrder
    split
    · exact ⟨rfl, rfl⟩
    · exact ⟨rfl, rfl⟩
  | getAccount | getLatestLedger | simulateTransaction | sendTransaction | getTransaction | sleep =>
    cases r <;> exact ⟨rfl, rfl⟩
  | dateNow => exact ⟨rfl, rfl⟩
  | _ =>
    exact sql_world (P := fun w' => w'.db.jobs = w.db.jobs ∧ w'.db.nextJobId = w.db.nextJobId)
      ⟨rfl, rfl⟩ ⟨rfl, rfl⟩

/-- An operation only adds transactions to the network. -/
theorem exec_txs (op : Op) (r : Reply) (w : World) : ∃ taken, (exec op r w).2.txs = w.txs ++ taken := by
  cases op with
  | sendTransaction body maxTime =>
    cases r with
    | fails | rejects => exact ⟨[], (List.append_nil _).symm⟩
    | _ => exact ⟨_, rfl⟩
  | getAccount | getLatestLedger | simulateTransaction | getTransaction | sleep =>
    cases r <;> exact ⟨[], (List.append_nil _).symm⟩
  | dateNow => exact ⟨[], (List.append_nil _).symm⟩
  | _ =>
    exact sql_world (P := fun w' => ∃ taken, w'.txs = w.txs ++ taken)
      ⟨[], (List.append_nil _).symm⟩ ⟨[], (List.append_nil _).symm⟩

theorem exec_outcome {op : Op} {r : Reply} {w : World} {hash : Nat} {o : Outcome}
    (h : w.outcome hash = some o) : (exec op r w).2.outcome hash = some o := by
  obtain ⟨taken, htxs⟩ := exec_txs op r w
  obtain ⟨tx, htx, rfl⟩ := Option.map_eq_some_iff.mp h
  show (exec op r w).2.txs[hash]?.map _ = _
  rw [htxs, List.getElem?_append_left (List.getElem?_eq_some_iff.mp htx).1, htx]
  rfl

/-- What the venue's programs are written in. -/
abbrev Async (α : Type) : Type := Program Op Op.Ans String α

/-- `await` one operation. -/
abbrev await (op : Op) : Async op.Ans := Program.perform op

end Kryon.Venue

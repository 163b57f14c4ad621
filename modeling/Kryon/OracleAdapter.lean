import Kryon.World

/-! # The oracle adapter (`perp-oracle-adapter`) -/
namespace Kryon.OracleAdapter
open Transaction

abbrev OracleTx := Transaction OracleStorage Abort

def requireAdmin (env : Env) (s : OracleStorage) : Res Address := do
  let admin ← okOr s.admin .invalidConfig
  requireAuth env admin
  return admin

def loadConfig (s : OracleStorage) (asset : Symbol) : Res FeedConfig :=
  okOr (s.config.get asset) .invalidConfig

def getPrice (env : Env) (s : OracleStorage) (asset : Symbol) (overrideGuard : Option OracleGuard) :
    Res OracleSnapshot := do
  let config ← loadConfig s asset
  reject (config.active = false) .invalidConfig
  let snapshot ← okOr (s.price.get asset) .staleOracle
  -- the snapshot must come from the write path the feed is configured for
  reject (snapshot.source ≠ config.source) .oracleQuorumNotMet
  let guard := overrideGuard.getD config.guard
  snapshot.validate env.timestamp guard
  return snapshot

theorem getPrice_pos {env : Env} {s : OracleStorage} {asset : Symbol} {guard : Option OracleGuard}
    {snapshot : OracleSnapshot} (h : getPrice env s asset guard = .ok snapshot) :
    0 < snapshot.price := by
  simp only [getPrice, except_bind_ok, except_pure_ok] at h
  obtain ⟨_, _, _, _, _, _, _, _, _, hv, rfl⟩ := h
  exact OracleSnapshot.validate_price hv

/-! ## Configuration -/

/-- The contract's `initialize`. -/
def initialise (env : Env) (admin : Address) : OracleTx Unit := do
  let s ← get
  reject (s.admin.isSome = true) .alreadyInitialized
  requireAuth env admin
  modify fun s => { s with admin := some admin }

def validateGuard (guard : OracleGuard) : Res Unit := do
  reject (guard.maxAgeSecs = 0) .invalidConfig
  reject (guard.maxConfidenceBps > 10000) .invalidConfig

def setFeed (env : Env) (asset : Symbol) (publisher : Address) (source : OracleSource)
    (guard : OracleGuard) (active : Bool) : OracleTx Unit := do
  let _ ← readWith fun s => requireAdmin env s
  validateGuard guard
  let config : FeedConfig :=
    { publisher, source, guard, active, requiredSources := [source], minSources := 1
      maxSourceDeviationBps := 0 }
  modify fun s => { s with
    sourcePublisher := s.sourcePublisher.set (asset, source) publisher
    config := s.config.set asset config }

def nominateAdmin (env : Env) (nextAdmin : Address) : OracleTx Unit := do
  let _ ← readWith fun s => requireAdmin env s
  modify fun s => { s with pendingAdmin := some nextAdmin }

def acceptAdmin (env : Env) : OracleTx Unit := do
  let nextAdmin ← readWith fun s => okOr s.pendingAdmin .invalidConfig
  requireAuth env nextAdmin
  modify fun s => { s with admin := some nextAdmin, pendingAdmin := none }

def validateQuorumSources (seen : List OracleSource) : List OracleSource → Res Unit
  | [] => return ()
  | source :: rest => do
    reject (source = .quorum ∨ source ∈ seen) .invalidConfig
    validateQuorumSources (seen ++ [source]) rest

def validateQuorumConfig (requiredSources : List OracleSource)
    (minSources maxSourceDeviationBps : Nat) : Res Unit := do
  reject (requiredSources = [] ∨ minSources < 3 ∨ minSources % 2 = 0 ∨
    minSources > requiredSources.length ∨ maxSourceDeviationBps > 10000) .invalidConfig
  validateQuorumSources [] requiredSources

def setQuorumFeed (env : Env) (asset : Symbol) (guard : OracleGuard)
    (requiredSources : List OracleSource) (minSources maxSourceDeviationBps : Nat) (active : Bool) :
    OracleTx Unit := do
  let admin ← readWith fun s => requireAdmin env s
  validateGuard guard
  validateQuorumConfig requiredSources minSources maxSourceDeviationBps
  let config : FeedConfig :=
    { publisher := admin, source := .quorum, guard, active, requiredSources, minSources
      maxSourceDeviationBps }
  modify fun s => { s with config := s.config.set asset config }

def setSourcePublisher (env : Env) (asset : Symbol) (source : OracleSource) (publisher : Address) :
    OracleTx Unit := do
  let _ ← readWith fun s => requireAdmin env s
  reject (source = .quorum) .invalidConfig
  modify fun s => { s with sourcePublisher := s.sourcePublisher.set (asset, source) publisher }

/-! ## The two write paths -/

structure OracleObservation where
  publisher : Address
  source : OracleSource
  price : Int
  confidence : Int
  publishTime : Nat
  deriving DecidableEq, Repr

def validateMonotonicPublishTime (s : OracleStorage) (asset : Symbol) (publishTime : Nat) :
    Res Unit := match s.price.get asset with
  | some previous => reject (publishTime ≤ previous.publishTime) .staleOracle
  | none => return ()

def writePrice (env : Env) (asset : Symbol) (publisher : Address) (price confidence : Int)
    (publishTime : Nat) : OracleTx OracleSnapshot := do
  requireAuth env publisher
  let config ← readWith fun s => loadConfig s asset
  reject (config.active = false) .invalidConfig
  reject (config.publisher ≠ publisher) .unauthorized
  let snapshot : OracleSnapshot :=
    { asset, price, confidence, source := config.source, publishTime, writeTime := env.timestamp }
  snapshot.validate env.timestamp config.guard
  readWith fun s => validateMonotonicPublishTime s asset publishTime
  modify fun s => { s with price := s.price.set asset snapshot }
  return snapshot

def validateObservationSource (config : FeedConfig) (seenSources : List OracleSource)
    (source : OracleSource) : Res Unit := do
  reject (source ∉ config.requiredSources) .invalidConfig
  reject (source ∈ seenSources) .duplicateOracleSource

/-- What the loop over the observations carries. -/
structure Observed where
  prices : List Int := []
  maxConfidence : Int := 0
  publishTime : Nat
  seenSources : List OracleSource := []

def observe (env : Env) (s : OracleStorage) (asset : Symbol) (config : FeedConfig) (seen : Observed)
    (observation : OracleObservation) : Res Observed := do
  validateObservationSource config seen.seenSources observation.source
  let expectedPublisher ← okOr (s.sourcePublisher.get (asset, observation.source)) .invalidConfig
  requireAuth env observation.publisher
  reject (observation.publisher ≠ expectedPublisher) .unauthorized
  let snapshot : OracleSnapshot :=
    { asset, price := observation.price, confidence := observation.confidence
      source := observation.source, publishTime := observation.publishTime
      writeTime := env.timestamp }
  snapshot.validate env.timestamp config.guard
  return {
    prices := seen.prices ++ [observation.price]
    maxConfidence := max seen.maxConfidence observation.confidence
    publishTime := min seen.publishTime observation.publishTime
    seenSources := seen.seenSources ++ [observation.source] }

/-- Move `key` in front of the larger ones among the sorted prices, the last price first. -/
def insertPrice (key : Int) : List Int → List Int
  | [] => [key]
  | previous :: rest =>
    if previous ≤ key then key :: previous :: rest else previous :: insertPrice key rest

def sortPrices (prices : List Int) : List Int :=
  (prices.foldl (fun sorted key => insertPrice key sorted) []).reverse

def validateSourceDeviation (prices : List Int) (median : Int) (maxSourceDeviationBps : Nat) :
    Res Unit := do
  let maxDelta ← applyBps median maxSourceDeviationBps
  prices.forM fun price => do
    let delta ← if price ≥ median then checkedSub price median else checkedSub median price
    reject (delta > maxDelta) .oracleDeviationTooWide

def writeQuorumPrice (env : Env) (asset : Symbol) (observations : List OracleObservation) :
    OracleTx OracleSnapshot := do
  let config ← readWith fun s => loadConfig s asset
  reject (config.active = false ∨ config.source ≠ .quorum) .invalidConfig
  reject (observations.length < config.minSources) .oracleQuorumNotMet
  let seen ← readWith fun s =>
    observations.foldlM (observe env s asset config) { publishTime := env.timestamp }
  reject (seen.seenSources.length < config.minSources) .oracleQuorumNotMet
  let prices := sortPrices seen.prices
  let median ← okOr prices[prices.length / 2]? .oracleQuorumNotMet
  validateSourceDeviation prices median config.maxSourceDeviationBps
  readWith fun s => validateMonotonicPublishTime s asset seen.publishTime
  let snapshot : OracleSnapshot :=
    { asset, price := median, confidence := seen.maxConfidence, source := .quorum
      publishTime := seen.publishTime, writeTime := env.timestamp }
  snapshot.validate env.timestamp config.guard
  modify fun s => { s with price := s.price.set asset snapshot }
  return snapshot

/-- A price depends on the ledger time only through the host. -/
theorem getPrice_congr {env env' : Env} (h : env.timestamp = env'.timestamp) (s : OracleStorage)
    (asset : Symbol) (guard : Option OracleGuard) :
    getPrice env s asset guard = getPrice env' s asset guard := by
  simp only [getPrice, h]

end Kryon.OracleAdapter

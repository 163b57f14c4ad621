import Kryon.OracleAdapter
import Kryon.Deployed
import Kryon.Lib.Runs

/-! # The stored snapshots over whole runs

Whatever is configured in between, and whichever of the two paths writes, the price entry
of an asset is a register that only an accepted write overwrites, with a snapshot that is
published later than the one before it. -/
namespace Kryon
open Transaction Runs

inductive OracleOp where
  | initialise (env : Env) (admin : Address)
  | setFeed (env : Env) (asset : Symbol) (publisher : Address) (source : OracleSource)
      (guard : OracleGuard) (active : Bool)
  | nominateAdmin (env : Env) (nextAdmin : Address)
  | acceptAdmin (env : Env)
  | setQuorumFeed (env : Env) (asset : Symbol) (guard : OracleGuard)
      (requiredSources : List OracleSource) (minSources maxSourceDeviationBps : Nat) (active : Bool)
  | setSourcePublisher (env : Env) (asset : Symbol) (source : OracleSource) (publisher : Address)
  | writePrice (env : Env) (asset : Symbol) (publisher : Address) (price confidence : Int)
      (publishTime : Nat)
  | writeQuorumPrice (env : Env) (asset : Symbol)
      (observations : List OracleAdapter.OracleObservation)
  | getPrice (env : Env) (asset : Symbol) (overrideGuard : Option OracleGuard)

namespace OracleOp

/-- The ledger time of the call. -/
def time : OracleOp → Nat
  | initialise env .. | setFeed env .. | nominateAdmin env .. | acceptAdmin env
  | setQuorumFeed env .. | setSourcePublisher env .. | writePrice env .. | writeQuorumPrice env ..
  | getPrice env .. => env.timestamp

/-- The two writes, each with the asset it is for. -/
def write : OracleOp → Option (Symbol × OracleAdapter.OracleTx OracleSnapshot)
  | writePrice env asset publisher price confidence publishTime =>
    some (asset, OracleAdapter.writePrice env asset publisher price confidence publishTime)
  | writeQuorumPrice env asset observations =>
    some (asset, OracleAdapter.writeQuorumPrice env asset observations)
  | _ => none

def call : OracleOp → OracleAdapter.OracleTx Unit
  | initialise env admin => OracleAdapter.initialise env admin
  | setFeed env asset publisher source guard active =>
    OracleAdapter.setFeed env asset publisher source guard active
  | nominateAdmin env nextAdmin => OracleAdapter.nominateAdmin env nextAdmin
  | acceptAdmin env => OracleAdapter.acceptAdmin env
  | setQuorumFeed env asset guard requiredSources minSources maxSourceDeviationBps active =>
    OracleAdapter.setQuorumFeed env asset guard requiredSources minSources maxSourceDeviationBps
      active
  | setSourcePublisher env asset source publisher =>
    OracleAdapter.setSourcePublisher env asset source publisher
  | writePrice env asset publisher price confidence publishTime =>
    void (OracleAdapter.writePrice env asset publisher price confidence publishTime)
  | writeQuorumPrice env asset observations =>
    void (OracleAdapter.writeQuorumPrice env asset observations)
  | getPrice env asset overrideGuard =>
    void (readWith fun s => OracleAdapter.getPrice env s asset overrideGuard)

/-- What the call writes for the asset, if it is a write that succeeds. -/
def written (asset : Symbol) (s : OracleStorage) (op : OracleOp) : Option OracleSnapshot :=
  match op.write with
  | some (a, x) => if a = asset then x.value s else none
  | none => none

/-- One call; one that fails is rolled back. -/
abbrev Step : OracleStorage → OracleOp → OracleStorage → Prop := CommitStep call

end OracleOp

/-! ## What a write stores -/

namespace OracleAdapter

/-- A snapshot that a write at `now` may store over what is there. -/
structure Accepted (now : Nat) (s : OracleStorage) (asset : Symbol) (snapshot : OracleSnapshot) :
    Prop where
  price : 0 < snapshot.price
  confidence : 0 ≤ snapshot.confidence
  published : snapshot.publishTime ≤ snapshot.writeTime
  written : snapshot.writeTime = now
  newer : ∀ previous, s.price.get asset = some previous →
    previous.publishTime < snapshot.publishTime

variable {env : Env} {asset : Symbol} {s s' : OracleStorage} {snapshot : OracleSnapshot}

theorem accepted_of_validated {guard : OracleGuard} {u v : Unit}
    (hwritten : snapshot.writeTime = env.timestamp)
    (hvalid : snapshot.validate env.timestamp guard = .ok u)
    (hnewer : validateMonotonicPublishTime s asset snapshot.publishTime = .ok v) :
    Accepted env.timestamp s asset snapshot := by
  have hv := OracleSnapshot.validate_valid hvalid
  refine ⟨hv.price, hv.confidence, hwritten ▸ hv.published, hwritten, ?_⟩
  intro previous hprevious
  rw [validateMonotonicPublishTime, hprevious] at hnewer
  exact Nat.lt_of_not_le (reject_ok.mp hnewer)

theorem writePrice_stores {publisher : Address} {price confidence : Int} {publishTime : Nat}
    (h : Returns (writePrice env asset publisher price confidence publishTime) s snapshot s') :
    Accepted env.timestamp s asset snapshot ∧
      s' = { s with price := s.price.set asset snapshot } := by
  simp only [writePrice, returns_lift_bind, returns_readWith_bind, returns_modify_bind,
    returns_pure] at h
  obtain ⟨_, _, config, _, _, _, _, _, _, hvalid, _, hnewer, rfl, rfl⟩ := h
  exact ⟨accepted_of_validated rfl hvalid hnewer, rfl⟩

/-- A quorum write that succeeds, by what it checked and what it stores. -/
theorem writeQuorumPrice_ok {observations : List OracleObservation} :
    Returns (writeQuorumPrice env asset observations) s snapshot s' ↔
    ∃ config, loadConfig s asset = .ok config ∧ config.active ≠ false ∧ config.source = .quorum ∧
      config.minSources ≤ observations.length ∧ ∃ seen,
      observations.foldlM (observe env s asset config) { publishTime := env.timestamp } = .ok seen ∧
      config.minSources ≤ seen.seenSources.length ∧ ∃ median,
      (sortPrices seen.prices)[(sortPrices seen.prices).length / 2]? = some median ∧
      (∃ u, validateSourceDeviation (sortPrices seen.prices) median
        config.maxSourceDeviationBps = .ok u) ∧
      (∃ u, validateMonotonicPublishTime s asset seen.publishTime = .ok u) ∧
      snapshot = { asset, price := median, confidence := seen.maxConfidence, source := .quorum
                   publishTime := seen.publishTime, writeTime := env.timestamp } ∧
      (∃ u, snapshot.validate env.timestamp config.guard = .ok u) ∧
      s' = { s with price := s.price.set asset snapshot } := by
  simp only [writeQuorumPrice, returns_lift_bind, returns_readWith_bind, returns_modify_bind,
    returns_pure, reject_ok, okOr_ok, not_or, not_lt]
  constructor
  · rintro ⟨config, hconfig, _, ⟨hactive, hsource⟩, _, henough, seen, hseen, _, hsources, median,
      hmedian, u, hdeviation, v, hnewer, w, hvalid, rfl, rfl⟩
    exact ⟨config, hconfig, hactive, not_not.mp hsource, henough, seen, hseen, hsources, median,
      hmedian, ⟨u, hdeviation⟩, ⟨v, hnewer⟩, rfl, ⟨w, hvalid⟩, rfl⟩
  · rintro ⟨config, hconfig, hactive, hsource, henough, seen, hseen, hsources, median, hmedian,
      ⟨u, hdeviation⟩, ⟨v, hnewer⟩, rfl, ⟨w, hvalid⟩, rfl⟩
    exact ⟨config, hconfig, (), ⟨hactive, not_not.mpr hsource⟩, (), henough, seen, hseen, (),
      hsources, median, hmedian, u, hdeviation, v, hnewer, w, hvalid, rfl, rfl⟩

theorem writeQuorumPrice_stores {observations : List OracleObservation}
    (h : Returns (writeQuorumPrice env asset observations) s snapshot s') :
    Accepted env.timestamp s asset snapshot ∧
      s' = { s with price := s.price.set asset snapshot } := by
  obtain ⟨_, _, _, _, _, _, _, _, _, _, _, ⟨_, hnewer⟩, rfl, ⟨_, hvalid⟩, rfl⟩ := writeQuorumPrice_ok.mp h
  exact ⟨accepted_of_validated rfl hvalid hnewer, rfl⟩

/-- A snapshot that is read comes from the configured source and is within the guard. -/
theorem getPrice_spec {guard : Option OracleGuard} (h : getPrice env s asset guard = .ok snapshot) :
    ∃ config, s.config.get asset = some config ∧ s.price.get asset = some snapshot ∧
      snapshot.source = config.source ∧
      snapshot.Valid env.timestamp (guard.getD config.guard) := by
  simp only [getPrice, loadConfig, except_bind_ok, except_pure_ok, okOr_ok, reject_ok, not_not] at h
  obtain ⟨config, hconfig, _, _, _, hstored, _, hsource, _, hvalid, rfl⟩ := h
  exact ⟨config, hconfig, hstored, hsource, OracleSnapshot.validate_valid hvalid⟩

end OracleAdapter

/-! ## One call -/

namespace OracleOp

variable {op : OracleOp} {asset : Symbol} {s s' : OracleStorage}

theorem write_stores {a : Symbol} {x : OracleAdapter.OracleTx OracleSnapshot}
    {snapshot : OracleSnapshot} (hw : op.write = some (a, x)) (h : Returns x s snapshot s') :
    OracleAdapter.Accepted op.time s a snapshot ∧
      s' = { s with price := s.price.set a snapshot } := by
  cases op with
  | writePrice env asset publisher price confidence publishTime =>
    obtain ⟨rfl, rfl⟩ := Prod.mk.inj (Option.some.inj hw)
    exact OracleAdapter.writePrice_stores h
  | writeQuorumPrice env asset observations =>
    obtain ⟨rfl, rfl⟩ := Prod.mk.inj (Option.some.inj hw)
    exact OracleAdapter.writeQuorumPrice_stores h
  | _ => cases hw

/-- A call that writes no price keeps all of them. -/
theorem keeps_price {u : Unit} (hw : op.write = none) (h : Returns op.call s u s') :
    s'.price = s.price := by
  cases op with
  | writePrice | writeQuorumPrice => cases hw
  | initialise env admin =>
    simp only [call, OracleAdapter.initialise, returns_lift_bind, returns_get_bind,
      returns_modify] at h
    obtain ⟨_, _, _, _, rfl⟩ := h
    rfl
  | setFeed env asset publisher source guard active =>
    simp only [call, OracleAdapter.setFeed, returns_lift_bind, returns_readWith_bind,
      returns_modify] at h
    obtain ⟨_, _, _, _, rfl⟩ := h
    rfl
  | nominateAdmin env nextAdmin =>
    simp only [call, OracleAdapter.nominateAdmin, returns_readWith_bind, returns_modify] at h
    obtain ⟨_, _, rfl⟩ := h
    rfl
  | acceptAdmin env =>
    simp only [call, OracleAdapter.acceptAdmin, returns_lift_bind, returns_readWith_bind,
      returns_modify] at h
    obtain ⟨_, _, _, _, rfl⟩ := h
    rfl
  | setQuorumFeed env asset guard requiredSources minSources maxSourceDeviationBps active =>
    simp only [call, OracleAdapter.setQuorumFeed, returns_lift_bind, returns_readWith_bind,
      returns_modify] at h
    obtain ⟨_, _, _, _, _, _, rfl⟩ := h
    rfl
  | setSourcePublisher env asset source publisher =>
    simp only [call, OracleAdapter.setSourcePublisher, returns_lift_bind, returns_readWith_bind,
      returns_modify] at h
    obtain ⟨_, _, _, _, rfl⟩ := h
    rfl
  | getPrice env asset overrideGuard =>
    obtain ⟨_, h⟩ := returns_void.mp h
    obtain ⟨_, rfl⟩ := returns_readWith.mp h
    rfl

theorem call_of_write {a : Symbol} {x : OracleAdapter.OracleTx OracleSnapshot}
    (hw : op.write = some (a, x)) : op.call = void x := by
  cases op with
  | writePrice | writeQuorumPrice =>
    obtain ⟨rfl, rfl⟩ := Prod.mk.inj (Option.some.inj hw)
    rfl
  | _ => cases hw

theorem written_accepted {snapshot : OracleSnapshot} (h : op.written asset s = some snapshot) :
    OracleAdapter.Accepted op.time s asset snapshot := by
  unfold written at h
  split at h
  · rename_i a x hw
    split at h
    · rename_i ha
      exact ha ▸ (write_stores hw (returns_of_value h)).1
    · cases h
  · cases h

/-- The price entry of an asset is what the call writes for it, or else what it was. -/
theorem Step.price (h : Step s op s') :
    s'.price.get asset = (op.written asset s).or (s.price.get asset) := by
  obtain rfl : s' = commit op.call s := h
  unfold written
  cases hw : op.write with
  | none =>
    show _ = s.price.get asset
    rcases commit_cases op.call s with ⟨u, hc⟩ | ⟨_, hc⟩
    · rw [keeps_price hw hc]
    · rw [hc]
  | some w =>
    obtain ⟨a, x⟩ := w
    rw [call_of_write hw, commit_void]
    show _ = (if a = asset then value x s else none).or (s.price.get asset)
    cases hx : value x s with
    | none => rw [commit_of_value hx, ite_self, Option.none_or]
    | some snapshot =>
      rw [(write_stores hw (returns_of_value hx)).2]
      by_cases ha : a = asset
      · rw [ha, if_pos rfl, Option.some_or, Store.get_set_self]
      · rw [if_neg ha, Option.none_or, Store.get_set_ne (Ne.symm ha)]

end OracleOp

/-! ## Runs -/

/-- The snapshots that the writes of an asset stored in a run. -/
abbrev acceptedSnapshots (asset : Symbol) : OracleStorage → List (OracleOp × OracleStorage) →
    List OracleSnapshot := outputs (OracleOp.written asset)

/-- **The oracle store.** In every run from an unused contract, failing calls included: the
snapshot of an asset is the last one a write of it stored; those are published one strictly
after the other, whatever is configured in between, and each has a positive price, a
non-negative confidence and a publish time before its write time, that of the call; a call
that does not write an asset leaves its snapshot alone; and a snapshot that is read comes
from the source that is configured and is within the guard that applies. -/
theorem oracle_store {t : List (OracleOp × OracleStorage)} (hr : IsRun OracleOp.Step {} t) :
    (∀ asset, (final {} t).price.get asset = (acceptedSnapshots asset {} t).getLast?) ∧
    (∀ asset, ((acceptedSnapshots asset {} t).map OracleSnapshot.publishTime).Pairwise (· < ·)) ∧
    (∀ {now}, (∀ op ∈ labels t, op.time ≤ now) → ∀ {asset snapshot},
      (final {} t).price.get asset = some snapshot →
      0 < snapshot.price ∧ 0 ≤ snapshot.confidence ∧
      snapshot.publishTime ≤ snapshot.writeTime ∧ snapshot.writeTime ≤ now) ∧
    (∀ {op asset s'}, OracleOp.Step (final {} t) op s' → op.written asset (final {} t) = none →
      s'.price.get asset = (final {} t).price.get asset) ∧
    ∀ {env : Env} {asset guard snapshot},
      OracleAdapter.getPrice env (final {} t) asset guard = .ok snapshot →
      ∃ config, (final {} t).config.get asset = some config ∧
        (final {} t).price.get asset = some snapshot ∧ snapshot.source = config.source ∧
        snapshot.Valid env.timestamp (guard.getD config.guard) := by
  have hlast : ∀ asset, (final {} t).price.get asset = (acceptedSnapshots asset {} t).getLast? := by
    intro asset
    have hregister := last_output (v := fun s : OracleStorage => s.price.get asset)
      (f := OracleOp.written asset) (hr.mono fun s op s' h => h.price)
    exact hregister.trans Option.or_none
  refine ⟨hlast, ?_, ?_, ?_, fun h => OracleAdapter.getPrice_spec h⟩
  · intro asset
    have hchain := outputs_isChain (v := fun s : OracleStorage => s.price.get asset)
      (f := OracleOp.written asset) (R := fun a b => a.publishTime < b.publishTime)
      (hr.mono fun s op s' h => ⟨h.price, fun a ha b hb => (OracleOp.written_accepted ha).newer b hb⟩)
    exact List.isChain_iff_pairwise.mp ((List.isChain_map _).mpr hchain)
  · intro now hnow asset snapshot hget
    have hmem : snapshot ∈ acceptedSnapshots asset {} t :=
      List.mem_of_getLast? ((hlast asset).symm.trans hget)
    obtain ⟨op, hop, haccepted⟩ := exists_label_of_output
      (P := fun op x => ∃ s, OracleAdapter.Accepted op.time s asset x)
      (hr.mono fun s op s' _ x hx => ⟨s, OracleOp.written_accepted hx⟩) hmem
    obtain ⟨s, ha⟩ := haccepted
    exact ⟨ha.price, ha.confidence, ha.published, ha.written ▸ hnow op hop⟩
  · intro op asset s' h hnone
    rw [h.price, hnone, Option.none_or]

namespace Sample

def guard60 : OracleGuard := { maxAgeSecs := 60, maxConfidenceBps := 100 }

def reported (source : OracleSource) (price : Int) (publishTime : Nat) :
    OracleAdapter.OracleObservation := { publisher := keeper, source, price, confidence := 1, publishTime }

/-- A feed with one publisher, a replay of its price, and the switch to a quorum of three. -/
def quoted : List OracleOp := [
  .initialise (host 1000) admin,
  .setFeed (host 1000) "BTC" keeper .reflector guard60 true,
  .writePrice (host 1010) "BTC" keeper 500 1 1005,
  .writePrice (host 1020) "BTC" keeper 500 1 1005,
  .setSourcePublisher (host 1020) "BTC" .pyth keeper,
  .setSourcePublisher (host 1020) "BTC" .redStone keeper,
  .setQuorumFeed (host 1020) "BTC" guard60 [.reflector, .pyth, .redStone] 3 1000 true,
  .writeQuorumPrice (host 1030) "BTC"
    [reported .pyth 510 1029, reported .reflector 520 1028, reported .redStone 505 1025],
  .getPrice (host 1040) "BTC" none]

def quotedRun : List (OracleOp × OracleStorage) := execute OracleOp.call {} quoted

end Sample

open Sample in
theorem oracle_store_quoted :
    (acceptedSnapshots "BTC" {} quotedRun).map OracleSnapshot.publishTime = [1005, 1025] ∧
    (∀ asset, (final {} quotedRun).price.get asset =
      (acceptedSnapshots asset {} quotedRun).getLast?) ∧
    (∀ asset, ((acceptedSnapshots asset {} quotedRun).map OracleSnapshot.publishTime).Pairwise
      (· < ·)) ∧
    (∀ {now}, (∀ op ∈ labels quotedRun, op.time ≤ now) → ∀ {asset snapshot},
      (final {} quotedRun).price.get asset = some snapshot →
      0 < snapshot.price ∧ 0 ≤ snapshot.confidence ∧
      snapshot.publishTime ≤ snapshot.writeTime ∧ snapshot.writeTime ≤ now) ∧
    (∀ {op asset s'}, OracleOp.Step (final {} quotedRun) op s' →
      op.written asset (final {} quotedRun) = none →
      s'.price.get asset = (final {} quotedRun).price.get asset) ∧
    ∀ {env : Env} {asset guard snapshot},
      OracleAdapter.getPrice env (final {} quotedRun) asset guard = .ok snapshot →
      ∃ config, (final {} quotedRun).config.get asset = some config ∧
        (final {} quotedRun).price.get asset = some snapshot ∧ snapshot.source = config.source ∧
        snapshot.Valid env.timestamp (guard.getD config.guard) :=
  ⟨by decide +kernel, oracle_store (isRun_commit _ _)⟩

end Kryon

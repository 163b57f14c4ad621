import Kryon.OracleAdapter.Snapshots
import Kryon.Lib.Median
import Mathlib.Data.List.Sort

/-! # Quorum prices withstand a corrupted minority

The contract sorts the observed prices in place. What the loops compute is the ordered
insertion of one price after the other, so the price that is stored is a median of what was
observed, in whatever order that was submitted. -/
namespace Kryon.OracleAdapter
open Transaction

/-! ## The sort -/

/-- The inner loop of `sort_prices`: the key is on its way down from `position`. -/
def shiftPrices (key : Int) (prices : List Int) : Nat → Res (List Int)
  | 0 => return prices.set 0 key
  | previousIndex + 1 => do
    let previous ← okOr prices[previousIndex]? .invalidPrice
    if previous ≤ key then return prices.set (previousIndex + 1) key
    else shiftPrices key (prices.set (previousIndex + 1) previous) previousIndex

def sortPricesInPlace (prices : List Int) : Res (List Int) :=
  (List.range' 1 (prices.length - 1)).foldlM (fun prices index => do
    let key ← okOr prices[index]? .invalidPrice
    shiftPrices key prices index) prices

theorem insertPrice_eq (key : Int) (sorted : List Int) :
    insertPrice key sorted = sorted.orderedInsert (· ≥ ·) key := by
  induction sorted with
  | nil => rfl
  | cons previous rest ih =>
    unfold insertPrice
    rw [ih, List.orderedInsert_cons]

/-- The prices below the key stay where they are, those above it move up by one. -/
theorem shiftPrices_eq (key : Int) (sorted : List Int) (x : Int) (rest : List Int) :
    shiftPrices key (sorted.reverse ++ x :: rest) sorted.length =
      .ok ((insertPrice key sorted).reverse ++ rest) := by
  induction sorted generalizing x rest with
  | nil => rfl
  | cons previous sorted ih =>
    have hget : ((previous :: sorted).reverse ++ x :: rest)[sorted.length]? = some previous := by
      simp
    have hset : ∀ y, ((previous :: sorted).reverse ++ x :: rest).set (sorted.length + 1) y =
        sorted.reverse ++ previous :: y :: rest := by
      intro y
      rw [List.reverse_cons, List.append_assoc, List.set_append_right _ _ (by simp)]
      simp
    rw [List.length_cons, shiftPrices, hget]
    show (if previous ≤ key then _ else _) = _
    unfold insertPrice
    split
    · rw [hset]
      simp [pure, Except.pure]
    · rw [hset, ih]
      simp

/-- The loop over the prices, with those before `index` sorted. -/
theorem sortFrom_eq (sorted rest : List Int) :
    (List.range' sorted.length rest.length).foldlM (fun prices index => do
        let key ← okOr prices[index]? .invalidPrice
        shiftPrices key prices index) (sorted.reverse ++ rest) =
      .ok (rest.foldl (fun sorted key => insertPrice key sorted) sorted).reverse := by
  induction rest generalizing sorted with
  | nil => simp [pure, Except.pure]
  | cons key rest ih =>
    have hget : (sorted.reverse ++ key :: rest)[sorted.length]? = some key := by simp
    have hlength : (insertPrice key sorted).length = sorted.length + 1 := by
      rw [insertPrice_eq, List.orderedInsert_length]
    rw [List.length_cons, List.range'_succ, List.foldlM_cons, hget]
    show (shiftPrices key _ _ >>= _) = _
    rw [shiftPrices_eq, except_bind_of_ok rfl, ← hlength, ih, List.foldl_cons]

theorem sortPricesInPlace_eq (prices : List Int) :
    sortPricesInPlace prices = .ok (sortPrices prices) := by
  cases prices with
  | nil => rfl
  | cons first rest => exact sortFrom_eq [first] rest

theorem insertAll_sorted (prices sorted : List Int) (h : sorted.Pairwise (· ≥ ·)) :
    (prices.foldl (fun sorted key => insertPrice key sorted) sorted).Pairwise (· ≥ ·) ∧
    (prices.foldl (fun sorted key => insertPrice key sorted) sorted).Perm (prices ++ sorted) := by
  induction prices generalizing sorted with
  | nil => exact ⟨h, .refl _⟩
  | cons key prices ih =>
    have hinsert : (insertPrice key sorted).Pairwise (· ≥ ·) := by
      rw [insertPrice_eq]
      exact List.Pairwise.orderedInsert key sorted h
    have hkey : (insertPrice key sorted).Perm (key :: sorted) := by
      rw [insertPrice_eq]
      exact List.perm_orderedInsert _ key sorted
    obtain ⟨hsorted, hperm⟩ := ih _ hinsert
    exact ⟨hsorted, hperm.trans ((hkey.append_left prices).trans List.perm_middle)⟩

theorem sortPrices_sorted (prices : List Int) : (sortPrices prices).Pairwise (· ≤ ·) :=
  List.pairwise_reverse.mpr (insertAll_sorted prices [] List.Pairwise.nil).1

theorem sortPrices_perm (prices : List Int) : (sortPrices prices).Perm prices := by
  have hperm := (insertAll_sorted prices [] List.Pairwise.nil).2
  rw [List.append_nil] at hperm
  exact (List.reverse_perm _).trans hperm

theorem sortPrices_congr {prices prices' : List Int} (h : prices.Perm prices') :
    sortPrices prices = sortPrices prices' :=
  ((sortPrices_perm prices).trans (h.trans (sortPrices_perm prices').symm)).eq_of_pairwise
    (fun _ _ _ _ => Int.le_antisymm) (sortPrices_sorted prices) (sortPrices_sorted prices')

/-! ## The observations -/

/-- What the loop asks of an observation whatever came before it. -/
structure Admitted (env : Env) (s : OracleStorage) (asset : Symbol) (config : FeedConfig)
    (observation : OracleObservation) : Prop where
  required : observation.source ∈ config.requiredSources
  publisher : s.sourcePublisher.get (asset, observation.source) = some observation.publisher
  authorized : ∃ u, requireAuth env observation.publisher = .ok u
  valid : ∃ u, OracleSnapshot.validate
    { asset, price := observation.price, confidence := observation.confidence
      source := observation.source, publishTime := observation.publishTime
      writeTime := env.timestamp } env.timestamp config.guard = .ok u

def Observed.add (seen : Observed) (observation : OracleObservation) : Observed where
  prices := seen.prices ++ [observation.price]
  maxConfidence := max seen.maxConfidence observation.confidence
  publishTime := min seen.publishTime observation.publishTime
  seenSources := seen.seenSources ++ [observation.source]

variable {env : Env} {s s' : OracleStorage} {asset : Symbol} {config : FeedConfig}
  {seen seen' : Observed} {observation : OracleObservation}
  {observations observations' : List OracleObservation} {snapshot : OracleSnapshot}

theorem observe_ok : observe env s asset config seen observation = .ok seen' ↔
    Admitted env s asset config observation ∧ observation.source ∉ seen.seenSources ∧
      seen' = seen.add observation := by
  simp only [observe, validateObservationSource, except_bind_ok, except_pure_ok, reject_ok, okOr_ok,
    not_not]
  constructor
  · rintro ⟨_, ⟨_, hrequired, hfresh⟩, publisher, hpublisher, u, hauth, _, rfl, v, hvalid, rfl⟩
    exact ⟨⟨hrequired, hpublisher, ⟨u, hauth⟩, ⟨v, hvalid⟩⟩, hfresh, rfl⟩
  · rintro ⟨⟨hrequired, hpublisher, ⟨u, hauth⟩, ⟨v, hvalid⟩⟩, hfresh, rfl⟩
    exact ⟨(), ⟨(), hrequired, hfresh⟩, _, hpublisher, u, hauth, (), rfl, v, hvalid, rfl⟩

/-- The loop ends if every observation is admitted and no source comes twice. -/
theorem observeAll_ok : observations.foldlM (observe env s asset config) seen = .ok seen' ↔
    (∀ o ∈ observations, Admitted env s asset config o) ∧
    (observations.map OracleObservation.source).Nodup ∧
    (∀ o ∈ observations, o.source ∉ seen.seenSources) ∧
    seen' = observations.foldl Observed.add seen := by
  induction observations generalizing seen with
  | nil =>
    rw [List.foldlM_nil, except_pure_ok]
    simp [eq_comm]
  | cons o observations ih =>
    rw [List.foldlM_cons, except_bind_ok, List.map_cons, List.nodup_cons, List.foldl_cons]
    simp only [observe_ok, ih, List.forall_mem_cons]
    constructor
    · rintro ⟨_, ⟨hadmitted, hfresh, rfl⟩, hall, hnodup, hdisjoint, rfl⟩
      refine ⟨⟨hadmitted, hall⟩, ⟨?_, hnodup⟩, ⟨hfresh, ?_⟩, rfl⟩
      · intro hmem
        obtain ⟨o', ho', hsource⟩ := List.mem_map.mp hmem
        exact hdisjoint o' ho' (List.mem_append_right _ (List.mem_singleton.mpr hsource))
      · intro o' ho' hseen
        exact hdisjoint o' ho' (List.mem_append_left _ hseen)
    · rintro ⟨⟨hadmitted, hall⟩, ⟨hnew, hnodup⟩, ⟨hfresh, hdisjoint⟩, rfl⟩
      refine ⟨_, ⟨hadmitted, hfresh, rfl⟩, hall, hnodup, ?_, rfl⟩
      intro o' ho' hseen
      rcases List.mem_append.mp hseen with hold | hsource
      · exact hdisjoint o' ho' hold
      · exact hnew (List.mem_map.mpr ⟨o', ho', List.mem_singleton.mp hsource⟩)

theorem addAll_prices : (observations.foldl Observed.add seen).prices =
    seen.prices ++ observations.map OracleObservation.price := by
  induction observations generalizing seen with
  | nil => simp
  | cons o observations ih => rw [List.foldl_cons, ih, List.map_cons, List.append_cons]; rfl

theorem addAll_seenSources : (observations.foldl Observed.add seen).seenSources =
    seen.seenSources ++ observations.map OracleObservation.source := by
  induction observations generalizing seen with
  | nil => simp
  | cons o observations ih => rw [List.foldl_cons, ih, List.map_cons, List.append_cons]; rfl

theorem addAll_maxConfidence : (observations.foldl Observed.add seen).maxConfidence =
    (observations.map OracleObservation.confidence).foldl max seen.maxConfidence := by
  induction observations generalizing seen with
  | nil => rfl
  | cons o observations ih => rw [List.foldl_cons, ih]; rfl

theorem addAll_publishTime : (observations.foldl Observed.add seen).publishTime =
    (observations.map OracleObservation.publishTime).foldl min seen.publishTime := by
  induction observations generalizing seen with
  | nil => rfl
  | cons o observations ih => rw [List.foldl_cons, ih]; rfl

/-- The largest confidence and the earliest time bound those of every observation. -/
theorem addAll_bounds (seen : Observed) :
    (seen.maxConfidence ≤ (observations.foldl Observed.add seen).maxConfidence ∧
      (observations.foldl Observed.add seen).publishTime ≤ seen.publishTime) ∧
    ∀ o ∈ observations, o.confidence ≤ (observations.foldl Observed.add seen).maxConfidence ∧
      (observations.foldl Observed.add seen).publishTime ≤ o.publishTime := by
  induction observations generalizing seen with
  | nil => exact ⟨⟨le_rfl, le_rfl⟩, fun o ho => by cases ho⟩
  | cons o observations ih =>
    obtain ⟨⟨hconfidence, htime⟩, hall⟩ := ih (seen.add o)
    rw [List.foldl_cons]
    refine ⟨⟨(le_max_left _ _).trans hconfidence, htime.trans (min_le_left _ _)⟩, ?_⟩
    rw [List.forall_mem_cons]
    exact ⟨⟨(le_max_right _ _).trans hconfidence, htime.trans (min_le_right _ _)⟩, hall⟩

/-- What the loop carries does not depend on the order of the observations, except for the
orders in which it holds the prices and the sources. -/
theorem addAll_perm (seen : Observed) (h : observations.Perm observations') :
    sortPrices (observations.foldl Observed.add seen).prices =
      sortPrices (observations'.foldl Observed.add seen).prices ∧
    (observations.foldl Observed.add seen).seenSources.length =
      (observations'.foldl Observed.add seen).seenSources.length ∧
    (observations.foldl Observed.add seen).maxConfidence =
      (observations'.foldl Observed.add seen).maxConfidence ∧
    (observations.foldl Observed.add seen).publishTime =
      (observations'.foldl Observed.add seen).publishTime := by
  refine ⟨?_, ?_, ?_, ?_⟩
  · rw [addAll_prices, addAll_prices]
    exact sortPrices_congr ((h.map _).append_left _)
  · rw [addAll_seenSources, addAll_seenSources]
    exact ((h.map _).append_left _).length_eq
  · rw [addAll_maxConfidence, addAll_maxConfidence]
    exact (h.map _).foldl_eq' (fun _ _ _ _ _ => max_right_comm _ _ _) _
  · rw [addAll_publishTime, addAll_publishTime]
    exact (h.map _).foldl_eq' (fun _ _ _ _ _ => min_right_comm _ _ _) _

/-! ## The write -/

/-- The check passes only if every price is within the deviation of the median. -/
theorem validateSourceDeviation_ok {prices : List Int} {median : Int} {bps : Nat} {u : Unit}
    (hpos : 0 ≤ median) (h : validateSourceDeviation prices median bps = .ok u) :
    ∀ price ∈ prices, |price - median| * bpsDenominator ≤ median * bps := by
  simp only [validateSourceDeviation, except_bind_ok, applyBps_ok] at h
  obtain ⟨maxDelta, ⟨_, _, hmax⟩, hall⟩ := h
  have hnn : 0 ≤ median * bps := by positivity
  rw [Int.tdiv_eq_ediv_of_nonneg hnn] at hmax
  have hfloor : maxDelta * 10000 ≤ median * bps := hmax ▸ Int.ediv_mul_le _ (by decide)
  clear hmax
  induction prices with
  | nil => exact fun price hprice => by cases hprice
  | cons first prices ih =>
    rw [List.forM] at hall
    obtain ⟨_, hfirst, hrest⟩ := except_bind_ok.mp hall
    refine List.forall_mem_cons.mpr ⟨?_, ih hrest⟩
    have hdelta : |first - median| ≤ maxDelta := by
      split at hfirst
      case isTrue habove =>
        simp only [except_bind_ok, checkedSub_ok, reject_ok, not_lt] at hfirst
        obtain ⟨delta, ⟨_, rfl⟩, hle⟩ := hfirst
        rw [abs_of_nonneg (by omega)]
        exact hle
      case isFalse hbelow =>
        simp only [except_bind_ok, checkedSub_ok, reject_ok, not_lt] at hfirst
        obtain ⟨delta, ⟨_, rfl⟩, hle⟩ := hfirst
        rw [abs_of_neg (by omega)]
        omega
    show _ * 10000 ≤ _
    omega

/-- The order in which the observations are submitted does not matter. -/
theorem writeQuorumPrice_perm (h : observations.Perm observations')
    (hr : Returns (writeQuorumPrice env asset observations) s snapshot s') :
    Returns (writeQuorumPrice env asset observations') s snapshot s' := by
  rw [writeQuorumPrice_ok] at hr ⊢
  obtain ⟨config, hconfig, hactive, hsource, henough, seen, hseen, hsources, median, hmedian,
    hdeviation, hnewer, hsnapshot, hvalid, hs'⟩ := hr
  obtain ⟨hadmitted, hnodup, hdisjoint, rfl⟩ := observeAll_ok.mp hseen
  obtain ⟨hprices, hlength, hconfidence, htime⟩ :=
    addAll_perm { publishTime := env.timestamp } h
  have hseen' := observeAll_ok.mpr ⟨fun o ho => hadmitted o (h.mem_iff.mpr ho),
    (h.map _).nodup_iff.mp hnodup, fun o ho => hdisjoint o (h.mem_iff.mpr ho), rfl⟩
  refine ⟨config, hconfig, hactive, hsource, h.length_eq ▸ henough, _, hseen', hlength ▸ hsources,
    median, hprices ▸ hmedian, hprices ▸ hdeviation, htime ▸ hnewer, ?_, hvalid, hs'⟩
  rw [hsnapshot, hconfidence, htime]

/-- What a stored quorum price owes to the observations. -/
structure Representative (bps : Nat) (observations : List OracleObservation)
    (snapshot : OracleSnapshot) : Prop where
  /-- Less than half of the sources cannot move the price past all of the others. -/
  robust : ∀ corrupted : OracleSource → Bool,
    2 * observations.countP (fun o => corrupted o.source) < observations.length →
    (∃ o ∈ observations, corrupted o.source = false ∧ o.price ≤ snapshot.price) ∧
    ∃ o ∈ observations, corrupted o.source = false ∧ snapshot.price ≤ o.price
  deviation : ∀ o ∈ observations, |o.price - snapshot.price| * bpsDenominator ≤ snapshot.price * bps
  confidence : ∀ o ∈ observations, o.confidence ≤ snapshot.confidence
  publishTime : ∀ o ∈ observations, snapshot.publishTime ≤ o.publishTime

theorem writeQuorumPrice_representative
    (h : Returns (writeQuorumPrice env asset observations) s snapshot s') :
    s'.price.get asset = some snapshot ∧ (observations.map OracleObservation.source).Nodup ∧
    ∃ config, s.config.get asset = some config ∧
      Representative config.maxSourceDeviationBps observations snapshot := by
  obtain ⟨config, hconfig, -, -, -, seen, hseen, -, median, hmedian, ⟨_, hdeviation⟩, -, rfl,
    ⟨_, hvalid⟩, rfl⟩ := writeQuorumPrice_ok.mp h
  obtain ⟨-, hnodup, -, rfl⟩ := observeAll_ok.mp hseen
  have hpos := OracleSnapshot.validate_price hvalid
  rw [addAll_prices, List.nil_append] at hmedian hdeviation
  obtain ⟨hlt, rfl⟩ := List.getElem?_eq_some_iff.mp hmedian
  refine ⟨Store.get_set_self .., hnodup, config, okOr_ok.mp hconfig, ?_, ?_, ?_, ?_⟩
  · intro corrupted hfew
    exact Median.middle_between (f := OracleObservation.price) (sortPrices_sorted _)
      (sortPrices_perm _) hfew hlt
  · intro o ho
    exact validateSourceDeviation_ok hpos.le hdeviation o.price
      ((sortPrices_perm _).mem_iff.mpr (List.mem_map_of_mem ho))
  · exact fun o ho => ((addAll_bounds _).2 o ho).1
  · exact fun o ho => ((addAll_bounds _).2 o ho).2

/-- **Quorum prices are robust.** In every state, so with every feed that can be configured:
the same observations in another order are accepted alike and store the same snapshot; the
loops that sort in place end with the prices in ascending order; and a write that succeeds
stores a price that is between two honest ones as long as fewer than half of the sources
that were observed, each of them once, are corrupted, with every observed price within the
configured deviation of it, no observed confidence above its confidence and none of the
observed publish times before its publish time. -/
theorem quorum_robust :
    (∀ {env : Env} {asset : Symbol} {observations observations' : List OracleObservation},
      observations.Perm observations' → ∀ {s s' : OracleStorage} {snapshot : OracleSnapshot},
        Returns (writeQuorumPrice env asset observations) s snapshot s' ↔
          Returns (writeQuorumPrice env asset observations') s snapshot s') ∧
    (∀ prices, sortPricesInPlace prices = .ok (sortPrices prices) ∧
      (sortPrices prices).Pairwise (· ≤ ·) ∧ (sortPrices prices).Perm prices) ∧
    ∀ {env : Env} {asset : Symbol} {observations : List OracleObservation} {s s' : OracleStorage}
      {snapshot : OracleSnapshot},
      Returns (writeQuorumPrice env asset observations) s snapshot s' →
      s'.price.get asset = some snapshot ∧ (observations.map OracleObservation.source).Nodup ∧
      ∃ config, s.config.get asset = some config ∧
        Representative config.maxSourceDeviationBps observations snapshot := by
  refine ⟨?_, ?_, ?_⟩
  · intro env asset observations observations' h s s' snapshot
    exact ⟨writeQuorumPrice_perm h, writeQuorumPrice_perm h.symm⟩
  · intro prices
    exact ⟨sortPricesInPlace_eq prices, sortPrices_sorted prices, sortPrices_perm prices⟩
  · intro env asset observations s s' snapshot h
    exact writeQuorumPrice_representative h

end Kryon.OracleAdapter

namespace Kryon.Sample
open Transaction

/-- The quorum feed as it is configured, and three reports for it. -/
def quorumStore : OracleStorage := Runs.final {} (Runs.execute OracleOp.call {} (quoted.take 7))

def reports : List OracleAdapter.OracleObservation :=
  [reported .pyth 510 1029, reported .reflector 560 1028, reported .redStone 505 1025]

open OracleAdapter in
theorem quorum_robust_reports : ∃ snapshot s',
    Returns (writeQuorumPrice (host 1030) "BTC" reports) quorumStore snapshot s' ∧
    Returns (writeQuorumPrice (host 1030) "BTC" reports.reverse) quorumStore snapshot s' ∧
    s'.price.get "BTC" = some snapshot ∧
    ∃ config, quorumStore.config.get "BTC" = some config ∧
      Representative config.maxSourceDeviationBps reports snapshot := by
  obtain ⟨snapshot, h⟩ := returns_commit
    (show (writeQuorumPrice (host 1030) "BTC" reports).succeeds quorumStore = true by decide +kernel)
  obtain ⟨hperm, _, hstored⟩ := quorum_robust
  obtain ⟨hget, _, hconfig⟩ := hstored h
  exact ⟨snapshot, _, h, (hperm (List.reverse_perm reports).symm).mp h, hget, hconfig⟩

end Kryon.Sample

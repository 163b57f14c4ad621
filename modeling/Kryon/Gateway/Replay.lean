import Kryon.Deployed
import Kryon.Gateway.Effects
import Kryon.Lib.Runs

/-! # Cancellation and replay

A cancel tombstone and a fill counter both outlive the call that wrote them only
until anybody may reclaim them. The tombstone is retained from the time of the
cancel, and the counter under the expiry of the last order filled under its nonce;
the order they guard carries an expiry of its own. First what the four calls do to
the two tables, then when an order stays blocked, and when its fills stay counted. -/
namespace Kryon
open Transaction Runs

/-! ## The two tables -/

namespace Gateway

variable {env : Env} {w w' : World} {owner : Address} {nonce now : Nat}

theorem cancelOrder_effect {expiryTs : Nat} {u : Unit}
    (h : Returns (cancelOrder env owner nonce expiryTs) w u w') :
    w'.gateway = { w.gateway with
      cancelled := w.gateway.cancelled.set (owner, nonce)
        (max expiryTs (saturatingAdd env.timestamp maxOrderTtlSecs)) } := by
  simp only [cancelOrder, returns_lift_bind, store_returns] at h
  obtain ⟨_, _, rfl⟩ := h
  rfl

/-- A call on `owner` and `nonces` may take the entry of `key` retained until then. -/
def Reclaims (now : Nat) (owner : Address) (nonces : List Nat) (key : Address × Nat)
    (retainUntil : Nat) : Prop :=
  key.1 = owner ∧ key.2 ∈ nonces ∧ reclaimable now retainUntil

/-- `s'` is `s` without the entries that a call on `owner` and `nonces` takes. -/
structure Reclaimed (now : Nat) (owner : Address) (nonces : List Nat) (s s' : GatewayStorage) :
    Prop where
  filled : ∀ key entry, s'.filled.get key = some entry ↔
    s.filled.get key = some entry ∧ ¬ Reclaims now owner nonces key entry.expiryTs
  cancelled : ∀ key retainUntil, s'.cancelled.get key = some retainUntil ↔
    s.cancelled.get key = some retainUntil ∧ ¬ Reclaims now owner nonces key retainUntil

theorem reclaims_singleton {key : Address × Nat} {retainUntil : Nat} :
    Reclaims now owner [nonce] key retainUntil ↔
      key = (owner, nonce) ∧ reclaimable now retainUntil := by
  unfold Reclaims
  rw [List.mem_singleton, ← and_assoc, Prod.ext_iff]

theorem reclaimEntry_of_some {V : Type} {expiryOf : V → Nat} {key : Address × Nat}
    {table : Store (Address × Nat) V} {found : V} (h : table.get key = some found) :
    reclaimEntry now expiryOf key table =
      if reclaimable now (expiryOf found) then (table.remove key, 1) else (table, 0) := by
  unfold reclaimEntry
  rw [h]

theorem reclaimEntry_of_none {V : Type} {expiryOf : V → Nat} {key : Address × Nat}
    {table : Store (Address × Nat) V} (h : table.get key = none) :
    reclaimEntry now expiryOf key table = (table, 0) := by
  unfold reclaimEntry
  rw [h]

theorem reclaimEntry_get {V : Type} (expiryOf : V → Nat) (table : Store (Address × Nat) V)
    (key : Address × Nat) (entry : V) :
    (reclaimEntry now expiryOf (owner, nonce) table).1.get key = some entry ↔
      table.get key = some entry ∧ ¬ Reclaims now owner [nonce] key (expiryOf entry) := by
  rw [reclaims_singleton]
  cases hfound : table.get (owner, nonce) with
  | none =>
    rw [reclaimEntry_of_none hfound]
    refine ⟨fun he => ⟨he, ?_⟩, And.left⟩
    rintro ⟨rfl, _⟩
    rw [hfound] at he
    cases he
  | some found =>
    rw [reclaimEntry_of_some hfound]
    by_cases hr : reclaimable now (expiryOf found)
    · rw [if_pos hr]
      by_cases hk : key = (owner, nonce)
      · rw [hk, Store.get_remove_self, hfound]
        refine ⟨nofun, fun ⟨he, hno⟩ => ?_⟩
        exact absurd (Option.some.inj he ▸ hr) fun h => hno ⟨rfl, h⟩
      · rw [Store.get_remove_ne hk]
        exact ⟨fun he => ⟨he, fun h => hk h.1⟩, And.left⟩
    · rw [if_neg hr]
      refine ⟨fun he => ⟨he, ?_⟩, And.left⟩
      rintro ⟨rfl, h⟩
      exact hr (Option.some.inj (hfound.symm.trans he) ▸ h)

theorem reclaimNonces_effect {nonces : List Nat} {n m : Nat}
    (h : Returns (reclaimNonces now owner n nonces) w m w') :
    Reclaimed now owner nonces w.gateway w'.gateway := by
  induction nonces generalizing n w with
  | nil =>
    obtain ⟨_, rfl⟩ := returns_pure.mp h
    exact ⟨fun key e => by simp [Reclaims], fun key r => by simp [Reclaims]⟩
  | cons nonce rest ih =>
    simp only [reclaimNonces, returns_get_bind, returns_store_bind, returns_lift_bind] at h
    obtain ⟨_, _, hrest⟩ := h
    obtain ⟨hfilled, hcancelled⟩ := ih hrest
    have hcons : ∀ key r, ¬ Reclaims now owner (nonce :: rest) key r ↔
        ¬ Reclaims now owner [nonce] key r ∧ ¬ Reclaims now owner rest key r := fun key r => by
      simp only [Reclaims, List.mem_cons, List.not_mem_nil, or_false]
      tauto
    refine ⟨fun key e => ?_, fun key r => ?_⟩
    · rw [hfilled, hcons, ← and_assoc]
      exact and_congr_left' (reclaimEntry_get FilledEntry.expiryTs w.gateway.filled key e)
    · rw [hcancelled, hcons, ← and_assoc]
      exact and_congr_left' (reclaimEntry_get id w.gateway.cancelled key r)

/-- A fill raises two counters, of different owners, and leaves the tombstones alone. -/
theorem FillSettled.tables {fill : MatchedFill} (h : FillSettled env fill w w') :
    w'.gateway = (w.gateway.fillMore fill.maker fill.fillSize).fillMore fill.taker fill.fillSize := by
  obtain ⟨_, _, _, _, rfl⟩ := h.parties
  rfl

end Gateway

namespace GatewayStorage

theorem filledOf_fillMore (s : GatewayStorage) (order : Order) (amount : Int) (owner : Address)
    (nonce : Nat) : (s.fillMore order amount).filledOf owner nonce =
      if owner = order.owner ∧ nonce = order.nonce then s.filledOf owner nonce + amount
      else s.filledOf owner nonce := by
  by_cases hk : owner = order.owner ∧ nonce = order.nonce
  · obtain ⟨rfl, rfl⟩ := hk
    simp [filledOf, fillMore]
  · have hne : (owner, nonce) ≠ (order.owner, order.nonce) := fun he => hk (Prod.mk.inj he)
    rw [if_neg hk, filledOf, fillMore, Store.get_set_ne hne, filledOf]

end GatewayStorage

/-! ## Runs of the gateway -/

inductive GatewayOp where
  | cancelOrder (env : Env) (owner : Address) (nonce expiryTs : Nat)
  | reclaimOrderState (env : Env) (owner : Address) (nonces : List Nat)
  | settleFill (env : Env) (fill : MatchedFill)
  | settleFillSigned (env : Env) (fill : MatchedFill) (makerSig takerSig : BitVec 512)

namespace GatewayOp

def call : GatewayOp → Tx Unit
  | cancelOrder env owner nonce expiryTs => void (Gateway.cancelOrder env owner nonce expiryTs)
  | reclaimOrderState env owner nonces => void (Gateway.reclaimOrderState env owner nonces)
  | settleFill env fill => void (Gateway.settleFill env fill)
  | settleFillSigned env fill makerSig takerSig =>
    void (Gateway.settleFillSigned env fill makerSig takerSig)

def env : GatewayOp → Env
  | cancelOrder env _ _ _ => env
  | reclaimOrderState env _ _ => env
  | settleFill env _ => env
  | settleFillSigned env _ _ _ => env

/-- The fill a call settles, if it is a settlement. -/
def fill? : GatewayOp → Option MatchedFill
  | settleFill _ fill => some fill
  | settleFillSigned _ fill _ _ => some fill
  | _ => none

/-- How much of `order` a call fills, as the maker or the taker. -/
def fills (op : GatewayOp) (order : Order) : Int :=
  op.fill?.elim 0 fun fill => if order = fill.maker ∨ order = fill.taker then fill.fillSize else 0

end GatewayOp

/-- The gateway between two calls: the ledger time of the last one, its storage, and
how much of each order value was filled since the run began. -/
structure GatewayHistory where
  now : Nat
  gateway : GatewayStorage
  settled : Order → Int

/-- One successful call, no earlier than the last; the other contracts may be in any state. -/
structure GatewayOp.Step (s : GatewayHistory) (op : GatewayOp) (s' : GatewayHistory) : Prop where
  call : CallStep GatewayOp.call World.gateway s.gateway op s'.gateway
  time : s.now ≤ op.env.timestamp
  now : s'.now = op.env.timestamp
  settled : ∀ order, s'.settled order = s.settled order + op.fills order

open Gateway

variable {s s' : GatewayHistory} {op : GatewayOp} {order : Order} {fill : MatchedFill}

theorem GatewayOp.Step.fillSettled (h : op.Step s s') (hf : op.fill? = some fill) :
    ∃ w w', w.gateway = s.gateway ∧ w'.gateway = s'.gateway ∧ FillSettled op.env fill w w' := by
  obtain ⟨w, w', hw, hw', hcall⟩ := h.call
  cases op with
  | settleFill env f =>
    obtain rfl := Option.some.inj hf
    obtain ⟨r, hr⟩ := returns_void.mp hcall
    exact ⟨w, w', hw, hw', settleFill_settled hr⟩
  | settleFillSigned env f makerSig takerSig =>
    obtain rfl := Option.some.inj hf
    obtain ⟨r, hr⟩ := returns_void.mp hcall
    exact ⟨w, w', hw, hw', settleFillSigned_settled hr⟩
  | cancelOrder | reclaimOrderState => cases hf

/-- What a call does to the two tables. -/
theorem GatewayOp.Step.cases (h : op.Step s s') :
    (∃ env owner nonce expiryTs, op = .cancelOrder env owner nonce expiryTs ∧
      s'.gateway = { s.gateway with
        cancelled := s.gateway.cancelled.set (owner, nonce)
          (max expiryTs (saturatingAdd env.timestamp maxOrderTtlSecs)) }) ∨
    (∃ env owner nonces, op = .reclaimOrderState env owner nonces ∧
      Reclaimed env.timestamp owner nonces s.gateway s'.gateway) ∨
    (∃ fill, op.fill? = some fill ∧ ValidFill op.env.timestamp s.gateway fill ∧
      s'.gateway =
        (s.gateway.fillMore fill.maker fill.fillSize).fillMore fill.taker fill.fillSize) := by
  have hsettle : ∀ fill, op.fill? = some fill → ValidFill op.env.timestamp s.gateway fill ∧
      s'.gateway =
        (s.gateway.fillMore fill.maker fill.fillSize).fillMore fill.taker fill.fillSize := by
    intro fill hf
    obtain ⟨w, w', hw, hw', hs⟩ := h.fillSettled hf
    rw [← hw, ← hw']
    exact ⟨hs.valid, hs.tables⟩
  obtain ⟨w, w', hw, hw', hcall⟩ := h.call
  cases op with
  | cancelOrder env owner nonce expiryTs =>
    obtain ⟨r, hr⟩ := returns_void.mp hcall
    exact .inl ⟨env, owner, nonce, expiryTs, rfl, by rw [← hw, ← hw']; exact cancelOrder_effect hr⟩
  | reclaimOrderState env owner nonces =>
    obtain ⟨r, hr⟩ := returns_void.mp hcall
    refine .inr (.inl ⟨env, owner, nonces, rfl, ?_⟩)
    rw [← hw, ← hw']
    exact reclaimNonces_effect hr
  | settleFill env fill => exact .inr (.inr ⟨fill, rfl, hsettle fill rfl⟩)
  | settleFillSigned env fill makerSig takerSig => exact .inr (.inr ⟨fill, rfl, hsettle fill rfl⟩)

theorem GatewayOp.fills_of_fill {op : GatewayOp} (hf : op.fill? = some fill) (order : Order) :
    op.fills order = if order = fill.maker ∨ order = fill.taker then fill.fillSize else 0 := by
  simp [GatewayOp.fills, hf]

theorem GatewayOp.Step.time_le (h : op.Step s s') : s.now ≤ s'.now := h.now ▸ h.time

namespace GatewayHistory

/-- The history after a call in a world with this history's gateway. -/
def next (s : GatewayHistory) (w : World) (op : GatewayOp) : GatewayHistory where
  now := op.env.timestamp
  gateway := (commit op.call { w with gateway := s.gateway }).gateway
  settled order := s.settled order + op.fills order

/-- Make the calls one after the other, each in a world of its own. -/
def run (s : GatewayHistory) : List (World × GatewayOp) → List (GatewayOp × GatewayHistory)
  | [] => []
  | (w, op) :: calls => (op, s.next w op) :: (s.next w op).run calls

/-- Each call succeeds, at a time not before the last. -/
def runs (s : GatewayHistory) : List (World × GatewayOp) → Bool
  | [] => true
  | (w, op) :: calls =>
    decide (s.now ≤ op.env.timestamp) && op.call.succeeds { w with gateway := s.gateway } &&
      (s.next w op).runs calls

theorem isRun_run {s : GatewayHistory} (calls : List (World × GatewayOp))
    (h : s.runs calls = true) : IsRun GatewayOp.Step s (s.run calls) := by
  induction calls generalizing s with
  | nil => trivial
  | cons c calls ih =>
    obtain ⟨w, op⟩ := c
    simp only [runs, Bool.and_eq_true, decide_eq_true_eq] at h
    obtain ⟨⟨htime, hcall⟩, hrest⟩ := h
    obtain ⟨_, hreturns⟩ := returns_commit hcall
    exact ⟨⟨⟨_, _, rfl, rfl, hreturns⟩, htime, rfl, fun _ => rfl⟩, ih hrest⟩

end GatewayHistory

/-- The call does not settle a fill of `order`. -/
def NotSettled (order : Order) (_ : GatewayHistory) (op : GatewayOp) : Prop :=
  ∀ fill, op.fill? = some fill → order ≠ fill.maker ∧ order ≠ fill.taker

/-! ## Cancelled orders -/

/-- The order's tombstone is there, or the order has expired. -/
def Blocks (order : Order) (s : GatewayHistory) : Prop :=
  (s.gateway.cancelled.get (order.owner, order.nonce)).isSome = true ∨ order.expiryTs < s.now

/-- A reclaim that takes the order's tombstone comes after the order's own expiry. -/
def KeepsTombstone (order : Order) (s : GatewayHistory) : GatewayOp → Prop
  | .reclaimOrderState env owner nonces => ∀ retainUntil,
      s.gateway.cancelled.get (order.owner, order.nonce) = some retainUntil →
      Reclaims env.timestamp owner nonces (order.owner, order.nonce) retainUntil →
      order.expiryTs < env.timestamp
  | _ => True

/-- A validated order is neither cancelled nor expired. -/
theorem Blocks.notSettled (hb : Blocks order s) (h : op.Step s s') : NotSettled order s op := by
  intro fill hf
  obtain ⟨w, w', hw, _, hs⟩ := h.fillSettled hf
  have hvalid : ∀ o, ValidOrder op.env.timestamp w.gateway o fill.fillSize fill.fillPrice →
      order ≠ o := by
    rintro o hv rfl
    rcases hb with hcancelled | hexpired
    · rw [← hw, hv.uncancelled] at hcancelled
      cases hcancelled
    · have := hv.unexpired
      have := h.time
      omega
  exact ⟨hvalid _ hs.valid.maker, hvalid _ hs.valid.taker⟩

theorem Blocks.of_tombstone {retainUntil : Nat}
    (h : s.gateway.cancelled.get (order.owner, order.nonce) = some retainUntil) : Blocks order s :=
  .inl (by simp [h])

theorem blocks_iff (hb : Blocks order s) (h : op.Step s s') :
    Blocks order s' ↔ KeepsTombstone order s op := by
  have hlater : order.expiryTs < s.now → Blocks order s' := fun he => .inr (he.trans_le h.time_le)
  rcases h.cases with ⟨env, owner, nonce, expiryTs, rfl, hg⟩ | ⟨env, owner, nonces, rfl, hr⟩ |
    ⟨fill, hf, _, hg⟩
  · refine iff_of_true ?_ trivial
    rcases hb with hcancelled | hexpired
    · left
      rw [hg]
      by_cases hk : (order.owner, order.nonce) = (owner, nonce)
      · rw [hk, Store.get_set_self]; rfl
      · rwa [Store.get_set_ne hk]
    · exact hlater hexpired
  · have hnow : s'.now = env.timestamp := h.now
    constructor
    · intro hb' retainUntil hget hrec
      rcases hb' with hcancelled | hexpired
      · obtain ⟨r, hr'⟩ := Option.isSome_iff_exists.mp hcancelled
        obtain ⟨hold, hno⟩ := (hr.cancelled _ _).mp hr'
        obtain rfl := Option.some.inj (hold.symm.trans hget)
        exact absurd hrec hno
      · exact hnow ▸ hexpired
    · intro hkeep
      rcases hb with hcancelled | hexpired
      · obtain ⟨r, hget⟩ := Option.isSome_iff_exists.mp hcancelled
        by_cases hrec : Reclaims env.timestamp owner nonces (order.owner, order.nonce) r
        · exact .inr (hnow ▸ hkeep r hget hrec)
        · exact .of_tombstone ((hr.cancelled _ _).mpr ⟨hget, hrec⟩)
      · exact hlater hexpired
  · have hkeep : KeepsTombstone order s op := by
      cases op with
      | settleFill | settleFillSigned => trivial
      | cancelOrder | reclaimOrderState => cases hf
    refine iff_of_true ?_ hkeep
    rcases hb with hcancelled | hexpired
    · exact .inl (by rw [hg]; exact hcancelled)
    · exact hlater hexpired

theorem Blocks.of_cancel {env : Env} {expiryTs : Nat}
    (h : GatewayOp.Step s (.cancelOrder env order.owner order.nonce expiryTs) s') :
    Blocks order s' := by
  rcases h.cases with ⟨_, _, _, _, heq, hg⟩ | ⟨_, _, _, heq, _⟩ | ⟨_, hf, _⟩
  · cases heq
    exact .of_tombstone (by rw [hg]; exact Store.get_set_self _ _ _)
  · cases heq
  · cases hf

/-- **Cancellation lasts exactly as long as the tombstone outlives the order.** After
`cancel_order` with any hint, an order of that owner and nonce is blocked in every
state of a run if and only if each reclaim of the run that takes its tombstone comes
after the order's own expiry; and then no call of the run settles it. -/
theorem cancel_blocks_iff (order : Order) {env : Env} {expiryTs : Nat} {s₀ : GatewayHistory}
    {t : List (GatewayOp × GatewayHistory)}
    (hcancel : GatewayOp.Step s₀ (.cancelOrder env order.owner order.nonce expiryTs) s)
    (hr : IsRun GatewayOp.Step s t) :
    (AllStates (Blocks order) s t ↔ AllSteps (KeepsTombstone order) s t) ∧
    (AllSteps (KeepsTombstone order) s t → AllSteps (NotSettled order) s t) := by
  have hiff : ∀ s (op : GatewayOp) s', True → Blocks order s → op.Step s s' →
      (Blocks order s' ↔ KeepsTombstone order s op) := fun s op s' _ hb h => blocks_iff hb h
  have hall := allStates_iff_allSteps (fun _ _ _ _ _ => trivial) hiff trivial
    (Blocks.of_cancel hcancel) hr
  have hnot : ∀ s (op : GatewayOp) s', Blocks order s → op.Step s s' → NotSettled order s op :=
    fun s op s' hb h => hb.notSettled h
  exact ⟨hall, fun hkeep => (hall.mpr hkeep).allSteps hnot hr⟩

namespace Sample

/-- A gateway with an operator, and nothing cancelled or filled. -/
def idle : GatewayHistory where
  now := 0
  gateway := (trading 0).gateway
  settled _ := 0

/-- Just past the retention of a tombstone written at 1000 and the grace period. -/
def afterRetention : Nat := 1000 + 8 * 86400 + 1

/-- Signed while its nonce is still cancelled; good for another week. -/
def lateBid : Order := bid precision 7 (afterRetention + 3600)

def lateFill : MatchedFill := matched lateBid (ask precision 1 (afterRetention + 3600)) precision

def cancelBid : GatewayOp := .cancelOrder (host 1000) alice 7 0

def cancelled : GatewayHistory := idle.next (trading 1000) cancelBid

def reclaimBid : GatewayOp := .reclaimOrderState (host afterRetention) alice [7]

def revival : List (World × GatewayOp) :=
  [(trading afterRetention, reclaimBid),
    (trading afterRetention, .settleFill (host afterRetention) lateFill)]

end Sample

open Sample in
/-- A tombstone reclaimed at the end of its retention, and the order it blocked filled. -/
theorem cancelled_order_fills :
    GatewayOp.Step idle cancelBid cancelled ∧ IsRun GatewayOp.Step cancelled (cancelled.run revival) ∧
    ¬ AllSteps (NotSettled lateBid) cancelled (cancelled.run revival) :=
  ⟨(GatewayHistory.isRun_run [(trading 1000, cancelBid)] (by decide +kernel)).1,
    GatewayHistory.isRun_run _ (by decide +kernel), fun h => (h.2.1 lateFill rfl).1 rfl⟩

open Sample in
/-- The same order stays blocked while its tombstone is retained. -/
theorem cancel_blocks_iff_retained :
    AllSteps (NotSettled lateBid) cancelled
      (cancelled.run [(trading 2000, .reclaimOrderState (host 2000) alice [7])]) := by
  have hcancel : GatewayOp.Step idle cancelBid cancelled :=
    (GatewayHistory.isRun_run [(trading 1000, cancelBid)] (by decide +kernel)).1
  have hrun : IsRun GatewayOp.Step cancelled
      (cancelled.run [(trading 2000, .reclaimOrderState (host 2000) alice [7])]) :=
    GatewayHistory.isRun_run _ (by decide +kernel)
  refine (cancel_blocks_iff lateBid hcancel hrun).2 ⟨fun r hget hrec => ?_, trivial⟩
  obtain rfl := Option.some.inj (hget.symm.trans (by decide +kernel :
    cancelled.gateway.cancelled.get (alice, 7) = some (1000 + 7 * 86400)))
  exact absurd hrec.2.2 (by decide)

/-! ## Filled orders -/

/-- The order's fills are all in its counter, or the order has expired. -/
def Counts (order : Order) (s : GatewayHistory) : Prop :=
  s.settled order ≤ s.gateway.filledOf order.owner order.nonce ∨ order.expiryTs < s.now

/-- A reclaim that takes the order's counter comes before its first fill or after its
own expiry. -/
def KeepsCounter (order : Order) (s : GatewayHistory) : GatewayOp → Prop
  | .reclaimOrderState env owner nonces => ∀ entry,
      s.gateway.filled.get (order.owner, order.nonce) = some entry →
      Reclaims env.timestamp owner nonces (order.owner, order.nonce) entry.expiryTs →
      s.settled order ≤ 0 ∨ order.expiryTs < env.timestamp
  | _ => True

theorem filledOf_of_get {entry : FilledEntry} {g : GatewayStorage} {owner : Address} {nonce : Nat}
    (h : g.filled.get (owner, nonce) = some entry) : g.filledOf owner nonce = entry.amount := by
  simp [GatewayStorage.filledOf, h]

theorem filledOf_of_none {g : GatewayStorage} {owner : Address} {nonce : Nat}
    (h : g.filled.get (owner, nonce) = none) : g.filledOf owner nonce = 0 := by
  simp [GatewayStorage.filledOf, h]

/-- What a fill adds to the counter of an order's owner and nonce: at least what it
adds to the order. -/
theorem fills_le_counter (h : op.Step s s') (hf : op.fill? = some fill) (order : Order) :
    s.gateway.filledOf order.owner order.nonce + op.fills order ≤
      s'.gateway.filledOf order.owner order.nonce := by
  obtain ⟨w, w', hw, hw', hs⟩ := h.fillSettled hf
  have hsize := hs.valid.size_pos
  have howners := hs.valid.owners
  rw [← hw, ← hw', hs.tables, GatewayOp.fills_of_fill hf, GatewayStorage.filledOf_fillMore,
    GatewayStorage.filledOf_fillMore]
  by_cases hm : order = fill.maker
  · subst hm
    rw [if_pos (.inl rfl), if_neg fun hk => howners hk.1, if_pos ⟨rfl, rfl⟩]
  · by_cases ht : order = fill.taker
    · subst ht
      rw [if_pos (.inr rfl), if_pos ⟨rfl, rfl⟩, if_neg fun hk => howners hk.1.symm]
    · rw [if_neg (by tauto)]
      split <;> split <;> omega

theorem counts_iff (hc : Counts order s) (h : op.Step s s') :
    Counts order s' ↔ KeepsCounter order s op := by
  have hlater : order.expiryTs < s.now → Counts order s' := fun he => .inr (he.trans_le h.time_le)
  rcases h.cases with ⟨env, owner, nonce, expiryTs, rfl, hg⟩ | ⟨env, owner, nonces, rfl, hr⟩ |
    ⟨fill, hf, _, _⟩
  · refine iff_of_true ?_ trivial
    rcases hc with hle | hexpired
    · left
      rw [h.settled, hg]
      simpa [GatewayOp.fills, GatewayOp.fill?, GatewayStorage.filledOf] using hle
    · exact hlater hexpired
  · have hnow : s'.now = env.timestamp := h.now
    have hsettled : s'.settled order = s.settled order := by
      rw [h.settled]; simp [GatewayOp.fills, GatewayOp.fill?]
    cases hget : s.gateway.filled.get (order.owner, order.nonce) with
    | none =>
      have hnone : s'.gateway.filled.get (order.owner, order.nonce) = none := by
        cases hg' : s'.gateway.filled.get (order.owner, order.nonce) with
        | none => rfl
        | some e => exact absurd ((hr.filled _ e).mp hg').1 (by simp [hget])
      refine iff_of_true ?_ fun entry he => absurd (hget.symm.trans he) (by simp)
      rcases hc with hle | hexpired
      · left
        rwa [hsettled, filledOf_of_none hnone, ← filledOf_of_none hget]
      · exact hlater hexpired
    | some entry =>
      by_cases hrec : Reclaims env.timestamp owner nonces (order.owner, order.nonce) entry.expiryTs
      · have hgone : s'.gateway.filled.get (order.owner, order.nonce) = none := by
          cases hg' : s'.gateway.filled.get (order.owner, order.nonce) with
          | none => rfl
          | some e =>
            obtain ⟨hold, hno⟩ := (hr.filled _ e).mp hg'
            obtain rfl := Option.some.inj (hold.symm.trans hget)
            exact absurd hrec hno
        have hkeep : KeepsCounter order s (.reclaimOrderState env owner nonces) ↔
            s.settled order ≤ 0 ∨ order.expiryTs < env.timestamp := by
          refine ⟨fun hk => hk entry hget hrec, fun hk e he _ => hk⟩
        rw [hkeep, Counts, hsettled, filledOf_of_none hgone, hnow]
      · have hstay : s'.gateway.filled.get (order.owner, order.nonce) = some entry :=
          (hr.filled _ _).mpr ⟨hget, hrec⟩
        have hkeep : KeepsCounter order s (.reclaimOrderState env owner nonces) := fun e he hrec' => by
          obtain rfl := Option.some.inj (hget.symm.trans he)
          exact absurd hrec' hrec
        refine iff_of_true ?_ hkeep
        rcases hc with hle | hexpired
        · left
          rwa [hsettled, filledOf_of_get hstay, ← filledOf_of_get hget]
        · exact hlater hexpired
  · have hkeep : KeepsCounter order s op := by
      cases op with
      | settleFill | settleFillSigned => trivial
      | cancelOrder | reclaimOrderState => cases hf
    refine iff_of_true ?_ hkeep
    rcases hc with hle | hexpired
    · have := fills_le_counter h hf order
      left
      rw [h.settled]
      omega
    · exact hlater hexpired

/-- A counted order cannot be filled past its size. -/
theorem Counts.settled_le (hc : Counts order s) (hle : s.settled order ≤ order.size)
    (h : op.Step s s') : s'.settled order ≤ order.size := by
  rw [h.settled]
  cases hf : op.fill? with
  | none => simpa [GatewayOp.fills, hf] using hle
  | some fill =>
    obtain ⟨w, w', hw, _, hs⟩ := h.fillSettled hf
    rw [GatewayOp.fills_of_fill hf]
    have hvalid : ∀ o, order = o →
        ValidOrder op.env.timestamp w.gateway o fill.fillSize fill.fillPrice →
        s.settled order + fill.fillSize ≤ order.size := by
      rintro o rfl hv
      rcases hc with hcount | hexpired
      · have := hv.filled
        rw [hw] at this
        omega
      · have := hv.unexpired
        have := h.time
        omega
    split
    · rename_i hside
      rcases hside with hm | ht
      · exact hvalid _ hm hs.valid.maker
      · exact hvalid _ ht hs.valid.taker
    · omega

/-- A fresh gateway: any configuration and tombstones, and nothing filled. -/
def GatewayHistory.fresh (now : Nat) (config : GatewayStorage) : GatewayHistory where
  now
  gateway := { config with filled := ∅ }
  settled _ := 0

/-- **No overfill in the runs that keep the counter.** In a run from a gateway without
fills, an order's fills stay in its counter until it expires if and only if each
reclaim that takes the counter comes before the order's first fill or after its own
expiry; and then they sum to at most its size in every state. -/
theorem fills_counted_iff (order : Order) {now : Nat} {config : GatewayStorage}
    {t : List (GatewayOp × GatewayHistory)} (hsize : 0 ≤ order.size)
    (hr : IsRun GatewayOp.Step (.fresh now config) t) :
    (AllStates (Counts order) (.fresh now config) t ↔
      AllSteps (KeepsCounter order) (.fresh now config) t) ∧
    (AllSteps (KeepsCounter order) (.fresh now config) t →
      AllStates (fun s => s.settled order ≤ order.size) (.fresh now config) t) := by
  have hcount : Counts order (.fresh now config) :=
    .inl (by simp [GatewayHistory.fresh, GatewayStorage.filledOf])
  have hiff : ∀ s (op : GatewayOp) s', True → Counts order s → op.Step s s' →
      (Counts order s' ↔ KeepsCounter order s op) := fun s op s' _ hc h => counts_iff hc h
  have hall := allStates_iff_allSteps (fun _ _ _ _ _ => trivial) hiff trivial hcount hr
  have hbound : ∀ s (op : GatewayOp) s', Counts order s ∧ s.settled order ≤ order.size →
      KeepsCounter order s op → op.Step s s' → Counts order s' ∧ s'.settled order ≤ order.size :=
    fun s op s' hs hkeep h => ⟨(counts_iff hs.1 h).mpr hkeep, hs.1.settled_le hs.2 h⟩
  exact ⟨hall, fun hkeep => (invariant hbound ⟨hcount, hsize⟩ hr hkeep).mono fun s hs => hs.2⟩

namespace Sample

/-- Past the expiry of an order good until 1060, and the grace period. -/
def afterGrace : Nat := 1060 + 86400 + 1

/-- Good for a week. -/
def longBid : Order := bid (2 * precision) 7 (1000 + 7 * 86400)

/-- Under the same nonce, good for a minute. -/
def shortBid : Order := bid (3 * precision) 7 1060

def longFill (nonce : Nat) : MatchedFill :=
  matched longBid (ask (2 * precision) nonce (1000 + 7 * 86400)) (2 * precision)

def shortFill : MatchedFill := matched shortBid (ask precision 2 1060) precision

/-- The long order filled, its counter put under the short one's expiry and reclaimed. -/
def overwritten : List (World × GatewayOp) := [
  (trading 1000, .settleFill (host 1000) (longFill 1)),
  (trading 1000, .settleFill (host 1000) shortFill),
  (trading afterGrace, .reclaimOrderState (host afterGrace) alice [7])]

def refilled : List (World × GatewayOp) :=
  overwritten ++ [(trading afterGrace, .settleFill (host afterGrace) (longFill 3))]

def unfilled : GatewayHistory := .fresh 1000 (trading 1000).gateway

end Sample

open Sample in
/-- An order filled twice over. -/
theorem reclaimed_counter_overfills :
    IsRun GatewayOp.Step unfilled (unfilled.run refilled) ∧
    ¬ AllStates (fun s => s.settled longBid ≤ longBid.size) unfilled (unfilled.run refilled) := by
  refine ⟨GatewayHistory.isRun_run _ (by decide +kernel), fun h => ?_⟩
  have := h.at_final
  revert this
  decide +kernel

open Sample in
/-- One fill of the order, and a reclaim that finds its counter retained. -/
theorem fills_counted_iff_once :
    AllStates (fun s => s.settled longBid ≤ longBid.size) unfilled (unfilled.run [
      (trading 1000, .settleFill (host 1000) (longFill 1)),
      (trading afterGrace, .reclaimOrderState (host afterGrace) alice [7])]) := by
  refine (fills_counted_iff longBid (by decide) (GatewayHistory.isRun_run _ (by decide +kernel))).2
    ⟨trivial, fun entry hget hrec => ?_, trivial⟩
  obtain rfl := Option.some.inj (hget.symm.trans (by decide +kernel :
    (unfilled.next (trading 1000) (.settleFill (host 1000) (longFill 1))).gateway.filled.get
      (alice, 7) = some { amount := 2 * precision, expiryTs := 1000 + 7 * 86400 }))
  exact absurd hrec.2.2 (by decide)

end Kryon

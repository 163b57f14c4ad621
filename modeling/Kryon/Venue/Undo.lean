import Kryon.Venue.Agreement
import Kryon.Venue.MatchSafety

/-! # Taking a fill back twice

The matcher and the reconciler each have a `rollbackFill`. The reconciler's runs again when
the process stops between the rollback and the mark on the job. Deleting the fill twice is
harmless; taking its size off an order twice is so only when there is nothing else to take
it off. The reconciler does not give back the market's volume at all. -/
namespace Kryon.Venue
open Program

/-- `rollbackFill` of the reconciler, `n` times in a row. -/
def rollbackTimes (network : String) (payload : JobPayload) : Nat → Async Unit
  | 0 => return ()
  | n + 1 => do
    rollbackPayload network payload
    rollbackTimes network payload n

/-- The database after a program that runs alone and whose statements all go through. -/
def Db.after {α : Type} (p : Async α) (w : World) : Db := (play exec (fun _ => .ok) p 0 w).2.1.db

/-- The order is one of the match's two. -/
def MatchResult.names (m : MatchResult) (o : OrderRow) : Bool :=
  (o.owner == m.maker.owner && o.nonce == m.maker.nonce) ||
    (o.owner == m.taker.owner && o.nonce == m.taker.nonce)

/-- The fills that are left when those under the match's pending hash are gone. -/
def Db.otherFills (db : Db) (network : String) (m : MatchResult) : List FillRow :=
  (db.deleteFill network m.pseudoTxHash).fills

/-- The fill is gone, both orders count what is left, and everything, the market's volume
too, is as the matcher's own rollback leaves it. -/
structure ExactlyUndone (network : String) (m : MatchResult) (w : World) (db : Db) : Prop where
  gone : ∀ f ∈ db.fills, f.pendingAs network m.pseudoTxHash = false
  counted : ∀ o ∈ db.orders, m.names o = true → o.filledSize = booked db.fills o.owner o.nonce
  asMatcher : db = Db.after (rollbackFill network m) w

/-- What makes `n + 1` rollbacks of the reconciler exact. -/
structure Undoable (network : String) (m : MatchResult) (n : Nat) (db : Db) : Prop where
  /-- There is no volume to give back. -/
  volume : ∀ market ∈ db.markets, market.id = m.maker.marketId →
    max 0 (market.volume - m.fillValue) = market.volume
  /-- Each order counts the fill and its other fills; or it has no others and counts no more. -/
  counts : ∀ o ∈ db.orders, m.names o = true →
    o.filledSize = booked (db.otherFills network m) o.owner o.nonce + m.fillSize ∨
      (booked (db.otherFills network m) o.owner o.nonce = 0 ∧ o.filledSize ≤ m.fillSize)
  /-- A second time there is nothing left to take it off. -/
  once : n = 0 ∨ ∀ o ∈ db.orders, m.names o = true →
    booked (db.otherFills network m) o.owner o.nonce = 0

/-! ## The two rollbacks -/

variable {network : String} {m : MatchResult} {payload : JobPayload} {w : World} {db : Db}
  {orders : List OrderRow} {n : Nat}

/-- What the reconciler's rollback makes of the tables. -/
def Db.rolledBack (db : Db) (network : String) (m : MatchResult) (fillSize : Int) : Db :=
  { db.deleteFill network m.pseudoTxHash with
    orders := Table.update db.orders m.names (Db.giveBack fillSize) }

theorem giveBack_giveBack {s t : Int} (hs : 0 ≤ s) (o : OrderRow) :
    Db.giveBack s (Db.giveBack t o) = Db.giveBack (t + s) o := by
  have hmax : max 0 (max 0 (o.filledSize - t) - s) = max 0 (o.filledSize - (t + s)) := by omega
  simp only [Db.giveBack, hmax]

theorem names_giveBack {s : Int} (o : OrderRow) : m.names (Db.giveBack s o) = m.names o := rfl

/-- One order after the other is both at once: no order is both. -/
theorem giveBack_both (orders : List OrderRow) (s : Int) {p q : OrderRow → Bool} (hne : m.maker.owner ≠ m.taker.owner)
    (hp : ∀ o ∈ orders, p o = (o.owner == m.maker.owner && o.nonce == m.maker.nonce))
    (hq : ∀ o ∈ orders, q (Db.giveBack s o) = q o ∧
      q o = (o.owner == m.taker.owner && o.nonce == m.taker.nonce)) :
    Table.update (Table.update orders p (Db.giveBack s)) q (Db.giveBack s) =
      Table.update orders m.names (Db.giveBack s) := by
  unfold Table.update
  rw [List.map_map]
  refine List.map_congr_left fun o ho => ?_
  rw [Function.comp_apply, MatchResult.names, ← hp o ho, ← (hq o ho).2]
  cases hpo : p o with
  | false => simp
  | true =>
    have howner : o.owner = m.maker.owner := by
      have := (hp o ho).symm.trans hpo
      simp only [Bool.and_eq_true, beq_iff_eq] at this
      exact this.1
    have hno : q o = false := by
      rw [(hq o ho).2, howner, beq_false_of_ne hne, Bool.false_and]
    simp [(hq o ho).1, hno]

theorem rolledBack_rolledBack {s t : Int} (ht : 0 ≤ t) :
    (db.rolledBack network m s).rolledBack network m t = db.rolledBack network m (s + t) := by
  have hfills : ∀ fills : List FillRow, ∀ p : FillRow → Bool,
      Table.delete (Table.delete fills p) p = Table.delete fills p := by
    intro fills p
    simp [Table.delete]
  have horders : Table.update (Table.update db.orders m.names (Db.giveBack s)) m.names
      (Db.giveBack t) = Table.update db.orders m.names (Db.giveBack (s + t)) := by
    unfold Table.update
    rw [List.map_map]
    refine List.map_congr_left fun o _ => ?_
    rw [Function.comp_apply]
    cases hnames : m.names o with
    | false => simp [hnames]
    | true => simp [names_giveBack, hnames, giveBack_giveBack ht]
  show ({ db with fills := _, orders := _ } : Db) = { db with fills := _, orders := _ }
  congr 1
  exact hfills _ _

/-- The payload that the matcher stored with the match's job, signed or not. -/
structure JobPayload.Of (payload : JobPayload) (m : MatchResult) : Prop where
  hash : payload.pendingTxHash = some m.pseudoTxHash
  terms : payload.terms = some m.terms

theorem play_rollbackPayload (hp : payload.Of m) (hne : m.maker.owner ≠ m.taker.owner) (k : Nat) :
    play exec (fun _ => .ok) (rollbackPayload network payload) k w =
      (.ok (), { w with db := w.db.rolledBack network m m.fillSize }, k + 3) := by
  obtain ⟨hhash, hterms⟩ := hp
  simp only [JobPayload.terms, Option.bind_eq_bind, Option.bind_eq_some_iff, Option.pure_def,
    Option.some.injEq, MatchResult.terms] at hterms
  obtain ⟨_, hmaker, _, hmakerNonce, _, htaker, _, htakerNonce, _, hsize, hall⟩ := hterms
  obtain ⟨rfl, rfl, rfl, rfl, rfl⟩ := Terms.mk.inj hall
  simp only [rollbackPayload, hhash, hmaker, hmakerNonce, htaker, htakerNonce, hsize, returnFilledOf]
  have horders := giveBack_both w.db.orders m.fillSize hne (fun o _ => rfl)
    (fun o _ => ⟨rfl, rfl⟩)
  show (_, ({ w with db := { w.db with fills := _, orders := _ } } : World), _) = _
  rw [Db.rolledBack, ← horders]
  rfl

/-- Run after run takes the size off again. -/
theorem play_rollbackTimes (hp : payload.Of m) (hne : m.maker.owner ≠ m.taker.owner)
    (hsize : 0 ≤ m.fillSize) (k : Nat) :
    ∃ k', play exec (fun _ => .ok) (rollbackTimes network payload (n + 1)) k w =
      (.ok (), { w with db := w.db.rolledBack network m ((n + 1 : Nat) * m.fillSize) }, k') := by
  induction n generalizing k w with
  | zero =>
    refine ⟨k + 3, ?_⟩
    rw [rollbackTimes, play_bind (play_rollbackPayload hp hne k)]
    simp [rollbackTimes]
  | succ n ih =>
    obtain ⟨k', hk'⟩ := ih (w := { w with db := w.db.rolledBack network m m.fillSize }) (k + 3)
    refine ⟨k', ?_⟩
    have hsum : m.fillSize + (n + 1 : Nat) * m.fillSize = (n + 1 + 1 : Nat) * m.fillSize := by
      push_cast
      ring
    rw [rollbackTimes, play_bind (play_rollbackPayload hp hne k), hk',
      rolledBack_rolledBack (by positivity), hsum]

/-- The matcher's own rollback gives the market's volume back as well. -/
theorem after_rollbackFill (hids : (w.db.orders.map (·.id)).Nodup)
    (hnames : ∀ o ∈ w.db.orders, o.id = orderId o.owner o.nonce) (hm : Matched w.db m)
    (hne : m.maker.owner ≠ m.taker.owner) :
    Db.after (rollbackFill network m) w = { w.db.rolledBack network m m.fillSize with
      markets := Table.update w.db.markets (·.id == m.maker.marketId) fun market =>
        { market with volume := max 0 (market.volume - m.fillValue) } } := by
  have hbyName : ∀ {x : RestingOrder}, Listed w.db x → ∀ o ∈ w.db.orders,
      (o.id == x.id) = (o.owner == x.owner && o.nonce == x.nonce) := by
    intro x hx o ho
    rw [Bool.eq_iff_iff, beq_iff_eq, hx.iff hids hnames o ho, Bool.and_eq_true, beq_iff_eq, beq_iff_eq]
  have horders := giveBack_both w.db.orders m.fillSize
    (p := (·.id == m.maker.id)) (q := (·.id == m.taker.id)) hne (hbyName hm.maker)
    (fun o ho => ⟨rfl, hbyName hm.taker o ho⟩)
  show ({ w.db with fills := _, orders := _, markets := _ } : Db) = _
  rw [Db.rolledBack, ← horders]
  rfl

theorem giveBack_eq {s t : Int} {o : OrderRow} :
    Db.giveBack s o = Db.giveBack t o ↔ max 0 (o.filledSize - s) = max 0 (o.filledSize - t) := by
  constructor
  · exact congrArg fun o : OrderRow => o.filledSize
  · intro h
    simp only [Db.giveBack, h]

/-- Both orders count what is left, by what they counted before. -/
theorem counted_iff {s : Int} {fills : List FillRow} :
    (∀ o ∈ Table.update orders m.names (Db.giveBack s), m.names o = true →
      o.filledSize = booked fills o.owner o.nonce) ↔
    ∀ o ∈ orders, m.names o = true → max 0 (o.filledSize - s) = booked fills o.owner o.nonce := by
  constructor
  · intro h o ho hnames
    exact h (Db.giveBack s o) (Table.mem_update.mpr (.inr ⟨o, ho, hnames, rfl⟩)) hnames
  · intro h o ho hnames
    rcases Table.mem_update.mp ho with ⟨_, hno⟩ | ⟨o', ho', hyes, rfl⟩
    · rw [hnames] at hno
      cases hno
    · exact h o' ho' hyes

/-- The volume is what it was before it was given back. -/
theorem volume_iff {markets : List MarketRow} {id : Nat} {value : Int} :
    (markets = Table.update markets (·.id == id) fun market =>
      { market with volume := max 0 (market.volume - value) }) ↔
    ∀ market ∈ markets, market.id = id → max 0 (market.volume - value) = market.volume := by
  rw [eq_comm, Table.update_eq_self]
  refine forall₂_congr fun market _ => ?_
  rw [beq_iff_eq]
  refine imp_congr_right fun _ => ⟨congrArg MarketRow.volume, fun h => by rw [h]⟩

/-- An order counts its remaining fills, and as it does after one run, exactly if it counted the
fill with them, or neither, and with more than one run there are none. -/
theorem counts_iff {filledSize size rest : Int} (hsize : 0 < size) (hrest : 0 ≤ rest) :
    (max 0 (filledSize - (n + 1 : Nat) * size) = rest ∧
      max 0 (filledSize - (n + 1 : Nat) * size) = max 0 (filledSize - size)) ↔
    (filledSize = rest + size ∨ (rest = 0 ∧ filledSize ≤ size)) ∧ (n = 0 ∨ rest = 0) := by
  have hmore : (n + 1 : Nat) * size = size + n * size := by
    push_cast
    ring
  rw [hmore]
  rcases Nat.eq_zero_or_pos n with rfl | hpos
  · rw [Nat.cast_zero, zero_mul]
    omega
  · -- the runs after the first take off another `size` at least
    have hextra : size ≤ n * size := by
      have : (1 : Int) ≤ n := by omega
      nlinarith
    omega

/-- Exact is: the volume stays, and each of the two orders is as it should be. -/
theorem exactlyUndone_iff (hids : (w.db.orders.map (·.id)).Nodup)
    (hnames : ∀ o ∈ w.db.orders, o.id = orderId o.owner o.nonce) (hm : Matched w.db m)
    (hne : m.maker.owner ≠ m.taker.owner) (hp : payload.Of m) :
    ExactlyUndone network m w (Db.after (rollbackTimes network payload (n + 1)) w) ↔
      (∀ market ∈ w.db.markets, market.id = m.maker.marketId →
        max 0 (market.volume - m.fillValue) = market.volume) ∧
      ∀ o ∈ w.db.orders, m.names o = true →
        max 0 (o.filledSize - (n + 1 : Nat) * m.fillSize) =
            booked (w.db.otherFills network m) o.owner o.nonce ∧
          max 0 (o.filledSize - (n + 1 : Nat) * m.fillSize) = max 0 (o.filledSize - m.fillSize) := by
  obtain ⟨k, hplay⟩ : ∃ k, play exec (fun _ => .ok) (rollbackTimes network payload (n + 1)) 0 w =
      (.ok (), { w with db := w.db.rolledBack network m ((n + 1 : Nat) * m.fillSize) }, k) :=
    play_rollbackTimes hp hne hm.size.le 0
  have hafter : Db.after (rollbackTimes network payload (n + 1)) w =
      w.db.rolledBack network m ((n + 1 : Nat) * m.fillSize) :=
    congrArg (fun ended => ended.2.1.db) hplay
  rw [hafter]
  constructor
  · intro h
    have hcounted := counted_iff.mp h.counted
    have hsame := h.asMatcher
    rw [after_rollbackFill hids hnames hm hne] at hsame
    have horders := Table.update_inj.mp (congrArg Db.orders hsame)
    refine ⟨volume_iff.mp (congrArg Db.markets hsame), fun o ho hnamed => ?_⟩
    exact ⟨hcounted o ho hnamed, giveBack_eq.mp (horders o ho hnamed)⟩
  · rintro ⟨hvolume, hboth⟩
    refine ⟨fun f hf => (Table.mem_delete.mp hf).2, ?_, ?_⟩
    · exact counted_iff.mpr fun o ho hnamed => (hboth o ho hnamed).1
    · rw [after_rollbackFill hids hnames hm hne]
      have horders : Table.update w.db.orders m.names (Db.giveBack ((n + 1 : Nat) * m.fillSize)) =
          Table.update w.db.orders m.names (Db.giveBack m.fillSize) :=
        Table.update_inj.mpr fun o ho hnamed => giveBack_eq.mpr (hboth o ho hnamed).2
      have hmarkets := volume_iff.mpr hvolume
      unfold Db.rolledBack
      rw [horders, ← hmarkets]
      rfl

/-- **When the rollback is exact.** For every database whose orders have ids of their own and
every match of two orders in it: after one or more runs of the reconciler's rollback the
fill is gone, both orders count their remaining fills, and everything is as the matcher's
rollback leaves it after one run, if and only if there is no volume to give back, each order
counted the fill and its others, and with more than one run there are no others. -/
theorem rollback_exact_iff (hids : (w.db.orders.map (·.id)).Nodup)
    (hnames : ∀ o ∈ w.db.orders, o.id = orderId o.owner o.nonce) (hm : Matched w.db m)
    (hne : m.maker.owner ≠ m.taker.owner) (hsizes : ∀ f ∈ w.db.fills, 0 < f.fillSize)
    (hp : payload.Of m) (n : Nat) :
    ExactlyUndone network m w (Db.after (rollbackTimes network payload (n + 1)) w) ↔
      Undoable network m n w.db := by
  have hrest : ∀ o : OrderRow, 0 ≤ booked (w.db.otherFills network m) o.owner o.nonce := fun o =>
    booked_nonneg (fun f hf => hsizes f (Table.mem_delete.mp hf).1) _ _
  rw [exactlyUndone_iff hids hnames hm hne hp]
  constructor
  · rintro ⟨hvolume, hboth⟩
    have hcounts := fun o ho hnamed => (counts_iff hm.size (hrest o)).mp (hboth o ho hnamed)
    refine ⟨hvolume, fun o ho hnamed => (hcounts o ho hnamed).1, ?_⟩
    by_cases hn : n = 0
    · exact .inl hn
    · exact .inr fun o ho hnamed => (hcounts o ho hnamed).2.resolve_left hn
  · intro h
    refine ⟨h.volume, fun o ho hnamed => (counts_iff hm.size (hrest o)).mpr ⟨h.counts o ho hnamed, ?_⟩⟩
    exact h.once.imp_right fun honce => honce o ho hnamed

namespace Sample

def placed (owner : String) (isLong : Bool) (filledSize : Int) : RestingOrder :=
  { resting owner isLong 50000000 2000000000000000000 1 with
    id := orderId owner 1, filledSize := filledSize }

/-- Alice's order has traded three units with Bob and is now matched for two with Carol. -/
def secondMatch : MatchResult :=
  ⟨placed "alice" true 30000000, placed "carol" false 0, 20000000, 2000000000000000000⟩

def firstMatch : MatchResult :=
  ⟨placed "alice" true 0, placed "bob" false 0, 30000000, 2000000000000000000⟩

/-- Both fills have been persisted. -/
def twoFills : World where
  db := { orders := [⟨placed "alice" true 50000000, false⟩, ⟨placed "bob" false 30000000, false⟩,
            ⟨placed "carol" false 20000000, false⟩]
          fills := [Db.fillRow "testnet" firstMatch, Db.fillRow "testnet" secondMatch]
          markets := [⟨1, 2000000000000000000, 100000000, 0⟩], jobs := [], nextJobId := 1 }
  txs := []
  now := 1000

/-- A match whose value rounds to nothing, the only one of its orders. -/
def dustMatch : MatchResult := ⟨placed "alice" true 0, placed "carol" false 0, 1, 1⟩

def dustFill : World where
  db := { orders := [⟨placed "alice" true 1, false⟩, ⟨placed "carol" false 1, false⟩]
          fills := [Db.fillRow "testnet" dustMatch]
          markets := [⟨1, 1, 100000000, 0⟩], jobs := [], nextJobId := 1 }
  txs := []
  now := 1000

end Sample

open Sample in
/-- One run keeps the volume of a fill that is gone; two take its size off another fill. -/
theorem rollback_not_exact :
    ((Db.after (rollbackTimes "testnet" (Db.queuedPayload secondMatch "AAAA") 1) twoFills).markets.map
      (·.volume) = [100000000] ∧
    (Db.after (rollbackFill "testnet" secondMatch) twoFills).markets.map (·.volume) = [60000000]) ∧
    ((Db.after (rollbackTimes "testnet" (Db.queuedPayload secondMatch "AAAA") 2) twoFills).orders.map
      (·.filledSize) = [10000000, 30000000, 0] ∧
    booked (Db.after (rollbackTimes "testnet" (Db.queuedPayload secondMatch "AAAA") 2) twoFills).fills
      "alice" 1 = 30000000) ∧
    ¬ ExactlyUndone "testnet" secondMatch twoFills
      (Db.after (rollbackTimes "testnet" (Db.queuedPayload secondMatch "AAAA") 1) twoFills) ∧
    ¬ ExactlyUndone "testnet" secondMatch twoFills
      (Db.after (rollbackTimes "testnet" (Db.queuedPayload secondMatch "AAAA") 2) twoFills) := by
  refine ⟨by decide +kernel, by decide +kernel, ?_, ?_⟩
  · intro h
    exact absurd (congrArg (fun db => db.markets.map (·.volume)) h.asMatcher) (by decide +kernel)
  · intro h
    exact absurd (congrArg (fun db => db.markets.map (·.volume)) h.asMatcher) (by decide +kernel)

open Sample in
theorem rollback_exact_iff_dust :
    ExactlyUndone "testnet" dustMatch dustFill
      (Db.after (rollbackTimes "testnet" (Db.queuedPayload dustMatch "AAAA") 2) dustFill) :=
  (rollback_exact_iff (by decide +kernel) (by decide +kernel)
    ⟨⟨_, List.mem_cons_self, rfl, rfl, rfl⟩, ⟨_, List.mem_cons_of_mem _ List.mem_cons_self, rfl, rfl, rfl⟩,
      by decide⟩ (by decide) (by decide +kernel) ⟨rfl, rfl⟩ 1).mpr
    ⟨by decide +kernel, by decide +kernel, by decide +kernel⟩

end Kryon.Venue

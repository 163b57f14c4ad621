import Kryon.Engine.OpenInterest

/-! # The position book

Ids tell a user's positions apart, so the position a trade finds is the one it was
asked for. A trade moves its user's net exposure in its market, and the market's
imbalance of long and short open interest, by the signed size it trades. -/
namespace Kryon
open Engine

/-- A size on the long or the short side. -/
def signed (isLong : Bool) (size : Int) : Int := if isLong then size else -size

@[simp] theorem signed_neg (isLong : Bool) (size : Int) :
    signed isLong (-size) = -signed isLong size := by
  cases isLong <;> simp [signed]

@[simp] theorem signed_not (isLong : Bool) (size : Int) :
    signed (!isLong) size = -signed isLong size := by
  cases isLong <;> simp [signed]

theorem signed_add (isLong : Bool) (a b : Int) :
    signed isLong (a + b) = signed isLong a + signed isLong b := by
  cases isLong with
  | false => simp only [signed, Bool.false_eq_true, if_false, neg_add]
  | true => simp only [signed, if_true]

/-- What a position adds to its owner's net exposure in a market. -/
def Position.exposure (marketId : Nat) (p : Position) : Int :=
  if p.marketId = marketId then signed p.isLong p.size else 0

namespace EngineStorage

variable (s : EngineStorage)

def netExposure (user : Address) (marketId : Nat) : Int :=
  ((s.loadPositions user).map (Position.exposure marketId)).sum

def imbalance (marketId : Nat) : Int :=
  s.sideOpenInterest marketId true - s.sideOpenInterest marketId false

end EngineStorage

/-- A user's positions have different ids, all below the next one to be given out. -/
structure DistinctIds (s : EngineStorage) : Prop where
  nodup : ∀ user, ((s.loadPositions user).map Position.positionId).Nodup
  below : ∀ user, ∀ p ∈ s.loadPositions user, ∀ n, s.nextPositionId = some n → p.positionId < n

namespace DistinctIds

variable {s : EngineStorage} {w w' : World} {user : Address} {before after : Option Position}
  {marketId : Nat} {isLong : Bool} {change pnl : Int}

theorem unique (h : DistinctIds s) {p q : Position} (hp : p ∈ s.loadPositions user)
    (hq : q ∈ s.loadPositions user) (hid : p.positionId = q.positionId) : p = q :=
  List.inj_on_of_nodup_map (h.nodup user) hp hq hid

/-- Every trade keeps the ids apart, whoever makes it. -/
theorem trade (hd : DistinctIds w.engine)
    (h : PositionTrade w w' user before after marketId isLong change pnl) :
    DistinctIds w'.engine := by
  obtain ⟨positions, ht, hone⟩ := h.traded
  have hmono : ∀ n', w'.engine.nextPositionId = some n' →
      ∃ n, w.engine.nextPositionId = some n ∧ n ≤ n' := by
    intro n' hn'
    cases hb : before with
    | none =>
      obtain ⟨p, _, _, hnext, hnext'⟩ := h.opened hb
      rw [hnext'] at hn'
      obtain rfl := Option.some.inj hn'
      exact ⟨_, hnext, Nat.le_succ _⟩
    | some p =>
      have hkept := (h.kept p hb).2
      exact ⟨n', hkept ▸ hn', le_rfl⟩
  constructor
  · intro u
    rw [ht.loadPositions]
    by_cases hu : u = user
    · rw [if_pos hu]
      refine hone.nodup_map (hd.nodup user) ?_
      intro q hq
      cases hb : before with
      | none =>
        obtain ⟨p, hp, _, hnext, _⟩ := h.opened hb
        obtain rfl := Option.some.inj (hp.symm.trans hq)
        right
        intro hmem
        obtain ⟨r, hr, hid⟩ := List.mem_map.mp hmem
        exact absurd (hd.below user r hr _ hnext) (by omega)
      | some p => exact .inl ⟨p, rfl, ((h.kept p hb).1 q hq).1⟩
    · rw [if_neg hu]
      exact hd.nodup u
  · intro u q hq n' hn'
    obtain ⟨n, hn, hle⟩ := hmono n' hn'
    rw [ht.loadPositions] at hq
    by_cases hu : u = user
    · rw [if_pos hu] at hq
      rcases hone.mem hq with hold | hnew
      · exact (hd.below user q hold n hn).trans_le hle
      · cases hb : before with
        | none =>
          obtain ⟨p, hp, _, _, hnext'⟩ := h.opened hb
          obtain rfl := Option.some.inj (hp.symm.trans hnew)
          rw [hnext'] at hn'
          obtain rfl := Option.some.inj hn'
          exact Nat.lt_succ_self _
        | some p =>
          rw [((h.kept p hb).1 q hnew).1]
          exact (hd.below user p (hone.before_mem hb) n hn).trans_le hle
    · rw [if_neg hu] at hq
      exact (hd.below u q hq n hn).trans_le hle

end DistinctIds

/-! ## What a trade does to exposure and imbalance -/

section Trade

variable {w w' : World} {user : Address} {before after : Option Position} {marketId : Nat}
  {isLong : Bool} {change pnl : Int}

theorem netExposure_trade (h : PositionTrade w w' user before after marketId isLong change pnl)
    (u : Address) (m : Nat) : w'.engine.netExposure u m = w.engine.netExposure u m +
      if u = user ∧ m = marketId then signed isLong change else 0 := by
  obtain ⟨positions, ht, hone⟩ := h.traded
  have hsized : ∀ o : Option Position,
      (∀ p, o = some p → p.marketId = marketId ∧ p.isLong = isLong) →
      o.elim 0 (Position.exposure m) =
        if m = marketId then signed isLong (o.elim 0 Position.size) else 0 := by
    intro o hp
    cases o with
    | none => cases isLong <;> simp [signed]
    | some p =>
      obtain ⟨rfl, rfl⟩ := hp p rfl
      simp only [Option.elim_some, Position.exposure, eq_comm]
  unfold EngineStorage.netExposure
  rw [ht.loadPositions]
  by_cases hu : u = user
  · subst hu
    rw [if_pos rfl, hone.sum_map, hsized before fun p hp => h.side p (.inl hp),
      hsized after fun p hp => h.side p (.inr hp), h.size, signed_add]
    by_cases hm : m = marketId
    · simp only [hm, if_true, and_self]
      ring
    · simp [hm]
  · simp [hu]

theorem imbalance_trade (h : PositionTrade w w' user before after marketId isLong change pnl)
    (m : Nat) : w'.engine.imbalance m = w.engine.imbalance m +
      if m = marketId then signed isLong change else 0 := by
  obtain ⟨positions, ht, _⟩ := h.traded
  unfold EngineStorage.imbalance
  rw [ht.sideOpenInterest, ht.sideOpenInterest]
  by_cases hm : m = marketId
  · cases isLong <;> simp [hm, signed] <;> ring
  · simp [hm]

end Trade

end Kryon

import Kryon.Deployed
import Kryon.Engine.Effects
import Kryon.Lib.Runs

/-! # The aggregate open-interest policy

Each market may cap its open interest at a multiple of the insurance fund, in bps. The fund
is pooled, so the engine also keeps the sum of these caps and, where one is set, a ceiling
on the sum. -/
namespace Kryon
open Transaction Runs

/-! ## The two calls -/

/-- `u32::checked_sub` and `checked_add`. -/
def checkedSubU32 (a b : Nat) : Res Nat := if b ≤ a then .ok (a - b) else .error (.code .mathOverflow)

def checkedAddU32 (a b : Nat) : Res Nat :=
  if a + b ≤ u32Max then .ok (a + b) else .error (.code .mathOverflow)

@[simp] theorem checkedSubU32_ok {a b c : Nat} : checkedSubU32 a b = .ok c ↔ b ≤ a ∧ a - b = c := by
  unfold checkedSubU32
  split <;> simp_all

@[simp] theorem checkedAddU32_ok {a b c : Nat} :
    checkedAddU32 a b = .ok c ↔ a + b ≤ u32Max ∧ a + b = c := by
  unfold checkedAddU32
  split <;> simp_all

namespace EngineStorage

variable (s : EngineStorage)

def oiPolicyOf (marketId : Nat) : Nat := (s.oiPolicy.get marketId).getD 0

def totalOiPolicy : Nat := s.totalOiPolicyBps.getD 0

/-- Zero is stored as nothing, for the market and for the sum. -/
def storeOiPolicy (marketId bps totalBps : Nat) : EngineStorage :=
  { s with
    oiPolicy := if bps = 0 then s.oiPolicy.remove marketId else s.oiPolicy.set marketId bps
    totalOiPolicyBps := if totalBps = 0 then none else some totalBps }

end EngineStorage

namespace Engine

/-- The sum once the market's policy is `bps`. -/
def nextTotalOiPolicy (s : EngineStorage) (marketId bps : Nat) : Res Nat := do
  let rest ← checkedSubU32 s.totalOiPolicy (s.oiPolicyOf marketId)
  checkedAddU32 rest bps

def requireTotalOiPolicy (s : EngineStorage) (totalBps : Nat) : Res Unit :=
  match s.maxTotalOiPolicyBps with
  | none => .ok ()
  | some maxTotalBps => reject (totalBps > maxTotalBps) .aggregateOiPolicyExceeded

def setOiPolicy (env : Env) (marketId maxOiPerInsuranceBps : Nat) : Tx Unit := do
  let _ ← readWith fun w => requireAdmin env w.engine
  reject (marketId = 0) .invalidConfig
  let newTotalBps ← readWith fun w => nextTotalOiPolicy w.engine marketId maxOiPerInsuranceBps
  readWith fun w => requireTotalOiPolicy w.engine newTotalBps
  store fun s => s.storeOiPolicy marketId maxOiPerInsuranceBps newTotalBps

def setMaxTotalOiPolicyBps (env : Env) (maxTotalBps : Nat) : Tx Unit := do
  let _ ← readWith fun w => requireAdmin env w.engine
  store fun s => { s with maxTotalOiPolicyBps := if maxTotalBps = 0 then none else some maxTotalBps }

end Engine

/-! ## The ledger -/

/-- What the two calls read and write. -/
structure OiLedger where
  policy : Store Nat Nat := ∅
  total : Option Nat := none
  ceiling : Option Nat := none

def World.oiLedger (w : World) : OiLedger where
  policy := w.engine.oiPolicy
  total := w.engine.totalOiPolicyBps
  ceiling := w.engine.maxTotalOiPolicyBps

namespace OiLedger

variable (s : OiLedger)

def policyOf (marketId : Nat) : Nat := (s.policy.get marketId).getD 0

def totalBps : Nat := s.total.getD 0

/-- The caps of all markets together. -/
noncomputable def sum : Int := s.policy.sum fun _ bps => (bps : Int)

/-- The sum is within the ceiling, if there is one. -/
def UnderCeiling : Prop := ∀ maxTotalBps, s.ceiling = some maxTotalBps → s.totalBps ≤ maxTotalBps

def withPolicy (marketId bps : Nat) : OiLedger :=
  let totalBps := s.totalBps - s.policyOf marketId + bps
  { s with
    policy := if bps = 0 then s.policy.remove marketId else s.policy.set marketId bps
    total := if totalBps = 0 then none else some totalBps }

def withCeiling (maxTotalBps : Nat) : OiLedger :=
  { s with ceiling := if maxTotalBps = 0 then none else some maxTotalBps }

@[simp] theorem totalBps_withPolicy (marketId bps : Nat) :
    (s.withPolicy marketId bps).totalBps = s.totalBps - s.policyOf marketId + bps := by
  by_cases hzero : s.totalBps - s.policyOf marketId + bps = 0
  · rw [hzero]
    exact congrArg (Option.getD · 0) (if_pos hzero)
  · exact congrArg (Option.getD · 0) (if_neg hzero)

theorem entry_eq_policyOf (marketId : Nat) :
    s.policy.entry (fun _ bps => (bps : Int)) marketId = s.policyOf marketId := by
  unfold Store.entry policyOf
  cases s.policy.get marketId <;> rfl

/-- Replacing a market's cap replaces its share of the sum. -/
theorem sum_withPolicy (marketId bps : Nat) :
    (s.withPolicy marketId bps).sum = s.sum - s.policyOf marketId + bps := by
  unfold sum withPolicy
  by_cases hzero : bps = 0
  · rw [if_pos hzero, Store.sum_remove, entry_eq_policyOf, hzero]
    simp
  · rw [if_neg hzero, Store.sum_set, entry_eq_policyOf]

theorem underCeiling_withCeiling (maxTotalBps : Nat) :
    (s.withCeiling maxTotalBps).UnderCeiling ↔ maxTotalBps ≠ 0 → s.totalBps ≤ maxTotalBps := by
  unfold withCeiling UnderCeiling
  by_cases hzero : maxTotalBps = 0
  · simp [hzero]
  · simp [hzero, totalBps]

/-- The stored sum is the sum of the caps; no cap is zero and market zero has none. -/
structure Balanced : Prop where
  total : (s.totalBps : Int) = s.sum
  fits : s.totalBps ≤ u32Max
  listed : ∀ marketId bps, s.policy.get marketId = some bps → marketId ≠ 0 ∧ 0 < bps

theorem balanced_empty : Balanced {} where
  total := (Store.sum_empty _).symm
  fits := Nat.zero_le _
  listed _ _ h := nomatch h

namespace Balanced

variable {s}

theorem policyOf_le (hs : s.Balanced) (marketId : Nat) : s.policyOf marketId ≤ s.totalBps := by
  have hle := Store.entry_le_sum (s := s.policy) (f := fun _ bps => (bps : Int))
    (fun _ bps _ => Int.natCast_nonneg bps) marketId
  have htotal := hs.total
  rw [entry_eq_policyOf] at hle
  unfold sum at htotal
  omega

theorem withPolicy (hs : s.Balanced) {marketId bps : Nat} (hmarket : marketId ≠ 0)
    (hfits : s.totalBps - s.policyOf marketId + bps ≤ u32Max) :
    (s.withPolicy marketId bps).Balanced := by
  refine ⟨?_, by rwa [totalBps_withPolicy], fun k v hk => ?_⟩
  · have htotal := hs.total
    have hle := hs.policyOf_le marketId
    rw [totalBps_withPolicy, sum_withPolicy]
    omega
  · unfold OiLedger.withPolicy at hk
    by_cases hzero : bps = 0
    · simp only [if_pos hzero, Store.get_remove] at hk
      split at hk
      · cases hk
      · exact hs.listed k v hk
    · simp only [if_neg hzero, Store.get_set] at hk
      split at hk
      · rename_i hkey
        obtain rfl := Option.some.inj hk
        exact ⟨hkey ▸ hmarket, Nat.pos_of_ne_zero hzero⟩
      · exact hs.listed k v hk

theorem withCeiling (hs : s.Balanced) (maxTotalBps : Nat) : (s.withCeiling maxTotalBps).Balanced :=
  ⟨hs.total, hs.fits, hs.listed⟩

/-- A sum above zero is some market's. -/
theorem exists_policy (hs : s.Balanced) (h : 0 < s.totalBps) :
    ∃ marketId bps, s.policy.get marketId = some bps := by
  by_contra hnone
  push Not at hnone
  have hempty : s.policy = ∅ := Store.ext fun k => Option.eq_none_iff_forall_ne_some.mpr (hnone k)
  have htotal := hs.total
  unfold sum at htotal
  rw [hempty, Store.sum_empty] at htotal
  omega

end Balanced
end OiLedger

/-! ## What the calls do to it -/

/-- The engine's administrator signs. -/
def AdminSigns (env : Env) (w : World) : Prop := ∃ admin, Engine.requireAdmin env w.engine = .ok admin

namespace Engine

variable {env : Env} {w w' : World} {marketId bps : Nat} {u : Unit}

theorem requireTotalOiPolicy_ok {totalBps : Nat} :
    requireTotalOiPolicy w.engine totalBps = .ok u ↔
      ∀ maxTotalBps, w.oiLedger.ceiling = some maxTotalBps → totalBps ≤ maxTotalBps := by
  unfold requireTotalOiPolicy World.oiLedger
  cases w.engine.maxTotalOiPolicyBps <;> simp

/-- When `set_oi_policy` is accepted, and what it leaves. -/
theorem setOiPolicy_returns :
    Returns (setOiPolicy env marketId bps) w u w' ↔
      AdminSigns env w ∧ marketId ≠ 0 ∧ w.oiLedger.policyOf marketId ≤ w.oiLedger.totalBps ∧
      w.oiLedger.totalBps - w.oiLedger.policyOf marketId + bps ≤ u32Max ∧
      (∀ maxTotalBps, w.oiLedger.ceiling = some maxTotalBps →
        w.oiLedger.totalBps - w.oiLedger.policyOf marketId + bps ≤ maxTotalBps) ∧
      w' = { w with
        engine := w.engine.storeOiPolicy marketId bps
          (w.oiLedger.totalBps - w.oiLedger.policyOf marketId + bps) } := by
  have hnext (totalBps : Nat) : nextTotalOiPolicy w.engine marketId bps = .ok totalBps ↔
      w.oiLedger.policyOf marketId ≤ w.oiLedger.totalBps ∧
      w.oiLedger.totalBps - w.oiLedger.policyOf marketId + bps ≤ u32Max ∧
      w.oiLedger.totalBps - w.oiLedger.policyOf marketId + bps = totalBps := by
    unfold nextTotalOiPolicy
    simp only [except_bind_ok, checkedSubU32_ok, checkedAddU32_ok, and_assoc, exists_and_left,
      exists_eq_left']
    rfl
  simp only [setOiPolicy, returns_readWith_bind, returns_lift_bind, reject_ok, hnext,
    requireTotalOiPolicy_ok, store, returns_modify, and_assoc, exists_and_left, exists_eq_left',
    exists_and_right, exists_const]
  exact Iff.rfl

theorem setMaxTotalOiPolicyBps_returns :
    Returns (setMaxTotalOiPolicyBps env bps) w u w' ↔
      AdminSigns env w ∧ w' = { w with
        engine := { w.engine with maxTotalOiPolicyBps := if bps = 0 then none else some bps } } := by
  simp only [setMaxTotalOiPolicyBps, returns_readWith_bind, store, returns_modify, exists_and_right]
  exact Iff.rfl

end Engine

inductive OiOp where
  | setOiPolicy (env : Env) (marketId maxOiPerInsuranceBps : Nat)
  | setMaxTotalOiPolicyBps (env : Env) (maxTotalBps : Nat)

namespace OiOp

def call : OiOp → Tx Unit
  | .setOiPolicy env marketId bps => Engine.setOiPolicy env marketId bps
  | .setMaxTotalOiPolicyBps env maxTotalBps => Engine.setMaxTotalOiPolicyBps env maxTotalBps

/-- One accepted call, on the ledger. -/
abbrev Step : OiLedger → OiOp → OiLedger → Prop := CallStep OiOp.call World.oiLedger

/-- One call, accepted or refused. -/
abbrev Attempt : OiLedger → OiOp → OiLedger → Prop := AttemptStep OiOp.call World.oiLedger

variable {s s' : OiLedger} {op : OiOp}

/-- Everything an accepted call can do to the ledger. -/
theorem Step.cases (h : op.Step s s') :
    (∃ env marketId bps, op = .setOiPolicy env marketId bps ∧ marketId ≠ 0 ∧
      s.totalBps - s.policyOf marketId + bps ≤ u32Max ∧ s' = s.withPolicy marketId bps ∧
      s'.UnderCeiling) ∨
    ∃ env maxTotalBps, op = .setMaxTotalOiPolicyBps env maxTotalBps ∧
      s' = s.withCeiling maxTotalBps := by
  obtain ⟨w, w', rfl, rfl, h⟩ := h
  cases op with
  | setOiPolicy env marketId bps =>
    obtain ⟨_, hmarket, _, hfits, hceiling, rfl⟩ := Engine.setOiPolicy_returns.mp h
    refine .inl ⟨env, marketId, bps, rfl, hmarket, hfits, rfl, fun maxTotalBps hmax => ?_⟩
    have hle := hceiling maxTotalBps hmax
    rwa [← OiLedger.totalBps_withPolicy] at hle
  | setMaxTotalOiPolicyBps env maxTotalBps =>
    obtain ⟨_, rfl⟩ := Engine.setMaxTotalOiPolicyBps_returns.mp h
    exact .inr ⟨env, maxTotalBps, rfl, rfl⟩

theorem Step.balanced (hs : s.Balanced) (h : op.Step s s') : s'.Balanced := by
  rcases h.cases with ⟨_, marketId, bps, _, hmarket, hfits, rfl, _⟩ | ⟨_, maxTotalBps, _, rfl⟩
  · exact hs.withPolicy hmarket hfits
  · exact hs.withCeiling maxTotalBps

end OiOp

/-! ## The sum over every history -/

/-- What holds of the ledger and of the next call on it, whatever that is. -/
structure OiLedger.Aggregates (s : OiLedger) : Prop where
  total : (s.totalBps : Int) = s.policy.sum fun _ bps => (bps : Int)
  subtracts : ∀ marketId, (checkedSubU32 s.totalBps (s.policyOf marketId)).isOk
  rejected : ∀ (op : OiOp) (w : World), w.oiLedger = s → (∀ w', ¬ Returns op.call w () w') →
    (commit op.call w).oiLedger = s
  capped : ∀ (env : Env) (marketId bps maxTotalBps : Nat) (w w' : World), w.oiLedger = s →
    Returns (Engine.setOiPolicy env marketId bps) w () w' →
    w'.engine.maxTotalOiPolicyBps = some maxTotalBps → w'.engine.totalOiPolicy ≤ maxTotalBps

theorem OiLedger.Balanced.aggregates {s : OiLedger} (hs : s.Balanced) : s.Aggregates where
  total := hs.total
  subtracts marketId := by
    unfold checkedSubU32
    rw [if_pos (hs.policyOf_le marketId)]
    rfl
  rejected op w hw hnone := by
    rcases commit_cases op.call w with ⟨_, h⟩ | ⟨_, h⟩
    · exact absurd h (hnone _)
    · rw [h, hw]
  capped env marketId bps maxTotalBps w w' hw h hmax := by
    have hstep : (OiOp.setOiPolicy env marketId bps).Step s w'.oiLedger := ⟨w, w', hw, rfl, h⟩
    rcases hstep.cases with ⟨_, _, _, _, _, _, _, hunder⟩ | ⟨_, _, hop, _⟩
    · exact hunder maxTotalBps hmax
    · cases hop

/-- Whatever is called in whatever order, accepted or refused: the stored sum is the sum of
all caps, a market's cap can be taken out of it, a refused call changes nothing and an
accepted cap leaves the sum within the ceiling. -/
theorem oiPolicy_aggregates {t : List (OiOp × OiLedger)} (hr : IsRun OiOp.Attempt {} t) :
    AllStates OiLedger.Aggregates {} t :=
  (invariant_of_attempts (fun _ _ _ hs h => OiOp.Step.balanced hs h) OiLedger.balanced_empty hr).mono
    fun _ hs => hs.aggregates

namespace Sample

/-- Two caps that fit under a ceiling, a third that does not, and the first taken away. -/
def oiCalls : List OiOp :=
  [.setMaxTotalOiPolicyBps (host 1000) 30000, .setOiPolicy (host 1000) 1 20000,
    .setOiPolicy (host 1000) 2 10000, .setOiPolicy (host 1000) 3 1, .setOiPolicy (host 1000) 1 0]

/-- Two caps, then a ceiling below their sum. -/
def ceilingCalls (maxTotalBps : Nat) : List OiOp :=
  [.setOiPolicy (host 1000) 1 20000, .setOiPolicy (host 1000) 2 20000,
    .setMaxTotalOiPolicyBps (host 1000) maxTotalBps]

end Sample

open Sample in
theorem oiPolicy_aggregates_refused :
    AllStates OiLedger.Aggregates {} (viewed World.oiLedger (execute OiOp.call (trading 1000) oiCalls)) :=
  oiPolicy_aggregates (isRun_attempts (trading 1000) oiCalls)

/-! ## Lowering a cap -/

/-- Whatever market has a cap, its administrator can lower it or set it again. -/
def OiLedger.LowersFreely (s : OiLedger) : Prop :=
  ∀ (env : Env) (w : World) (marketId old bps : Nat), w.oiLedger = s → AdminSigns env w →
    s.policy.get marketId = some old → 0 < bps → bps ≤ old →
    ∃ w', Returns (Engine.setOiPolicy env marketId bps) w () w'

/-- A ceiling is set only where the sum already fits under it. -/
def OiOp.CeilingAbove (s : OiLedger) : OiOp → Prop
  | .setOiPolicy _ _ _ => True
  | .setMaxTotalOiPolicyBps _ maxTotalBps => maxTotalBps ≠ 0 → s.totalBps ≤ maxTotalBps

namespace OiLedger

/-- Every ledger can be the one of an engine whose administrator signs. -/
theorem exists_adminSigns (s : OiLedger) : ∃ env w, w.oiLedger = s ∧ AdminSigns env w := by
  let w := wired Sample.deployment Sample.admin Sample.usdc 0
  exact ⟨Sample.host 0, { w with
    engine := { w.engine with
      oiPolicy := s.policy
      totalOiPolicyBps := s.total
      maxTotalOiPolicyBps := s.ceiling } }, rfl, Sample.admin, rfl⟩

variable {s : OiLedger}

/-- Above its ceiling the ledger refuses to have a cap set again to what it is. -/
theorem lowersFreely_iff (hs : s.Balanced) : s.LowersFreely ↔ s.UnderCeiling := by
  constructor
  · intro h maxTotalBps hmax
    by_contra hover
    obtain ⟨marketId, old, hget⟩ := hs.exists_policy (by omega)
    obtain ⟨env, w, rfl, hadmin⟩ := exists_adminSigns s
    obtain ⟨w', hw'⟩ := h env w marketId old old rfl hadmin hget (hs.listed _ _ hget).2 le_rfl
    obtain ⟨_, _, hle, _, hceiling, _⟩ := Engine.setOiPolicy_returns.mp hw'
    have hold : w.oiLedger.policyOf marketId = old := by rw [policyOf, hget]; rfl
    have := hceiling maxTotalBps hmax
    omega
  · rintro h env w marketId old bps rfl hadmin hget _ hbps
    have hold : w.oiLedger.policyOf marketId = old := by rw [policyOf, hget]; rfl
    have hle := hs.policyOf_le marketId
    have hfits := hs.fits
    refine ⟨_, Engine.setOiPolicy_returns.mpr ⟨hadmin, (hs.listed _ _ hget).1, hle, by omega,
      fun maxTotalBps hmax => ?_, rfl⟩⟩
    have := h maxTotalBps hmax
    omega

end OiLedger

/-- In the states an engine goes through a cap can always be lowered if and only if no
ceiling was ever set below the sum as it stood. -/
theorem lowersFreely_iff_ceilings {t : List (OiOp × OiLedger)} (hr : IsRun OiOp.Step {} t) :
    AllStates OiLedger.LowersFreely {} t ↔ AllSteps OiOp.CeilingAbove {} t := by
  have hempty : OiLedger.LowersFreely {} :=
    (OiLedger.lowersFreely_iff OiLedger.balanced_empty).mpr fun _ h => nomatch h
  have hstep : ∀ s op s', OiLedger.Balanced s → OiOp.Step s op s' → s'.Balanced :=
    fun _ _ _ hs h => h.balanced hs
  refine allStates_iff_allSteps hstep (fun s op s' hs _ h => ?_) OiLedger.balanced_empty hempty hr
  rw [OiLedger.lowersFreely_iff (h.balanced hs)]
  rcases h.cases with ⟨_, _, _, rfl, _, _, _, hunder⟩ | ⟨_, maxTotalBps, rfl, rfl⟩
  · exact iff_of_true hunder trivial
  · exact s.underCeiling_withCeiling maxTotalBps

open Sample in
/-- Two markets have a cap of 20000 bps each when the ceiling is set to 30000: lowering one
of them to 15000 is refused. -/
theorem lowering_refused :
    IsRun OiOp.Step {} (viewed World.oiLedger (execute OiOp.call (trading 1000) (ceilingCalls 30000))) ∧
    (final (trading 1000) (execute OiOp.call (trading 1000) (ceilingCalls 30000))).engine.oiPolicyOf 1 =
      20000 ∧
    ((Engine.setOiPolicy (host 1000) 1 15000).run
      (final (trading 1000) (execute OiOp.call (trading 1000) (ceilingCalls 30000)))).map Prod.fst =
        .error (.code .aggregateOiPolicyExceeded) :=
  ⟨isRun_execute (w := trading 1000) (by decide +kernel), by decide +kernel, by decide +kernel⟩

open Sample in
/-- Under a ceiling that the sum meets exactly caps can be lowered. -/
theorem lowersFreely_iff_ceilings_exact :
    AllStates OiLedger.LowersFreely {}
      (viewed World.oiLedger (execute OiOp.call (trading 1000) (ceilingCalls 40000))) := by
  have hr : IsRun OiOp.Step {}
      (viewed World.oiLedger (execute OiOp.call (trading 1000) (ceilingCalls 40000))) :=
    isRun_execute (w := trading 1000) (by decide +kernel)
  exact (lowersFreely_iff_ceilings hr).mpr ⟨trivial, trivial, fun _ => by decide +kernel, trivial⟩

end Kryon

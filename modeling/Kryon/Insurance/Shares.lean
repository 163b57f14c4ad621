import Kryon.Deployed
import Kryon.Insurance.Effects
import Kryon.Lib.Runs

/-! # The staking share ledger

`TotalShares` is a second copy of the sum of the stakers' live shares. Shares are
retired lazily: an epoch change writes every entry of the asset off at once, and
stale entries and stale unstake requests stay in storage. First the ledger's own
transitions, as an abstract model the contract refines; then which of them keep
the two copies equal. -/
namespace Kryon
open Transaction Runs

/-! ## Calls -/

inductive StakingOp where
  | stake (env : Env) (staker asset : Address) (amount : Int)
  | requestUnstake (env : Env) (staker asset : Address) (shares : Int)
  | withdrawUnstaked (env : Env) (staker asset : Address)
  | sweepToOperating (env : Env) (asset : Address) (amount : Int)
  | deposit (env : Env) (funder asset : Address) (amount : Int)
  | payLiquidator (env : Env) (liquidator asset : Address) (amount : Int)
  | coverDeficit (env : Env) (asset : Address) (amount : Int)

namespace StakingOp

def call : StakingOp → Tx Unit
  | stake env staker asset amount => void (Insurance.stake env staker asset amount)
  | requestUnstake env staker asset shares =>
    void (Insurance.requestUnstake env staker asset shares)
  | withdrawUnstaked env staker asset => void (Insurance.withdrawUnstaked env staker asset)
  | sweepToOperating env asset amount => void (Insurance.sweepToOperating env asset amount)
  | deposit env funder asset amount => void (Insurance.deposit env funder asset amount)
  | payLiquidator env liquidator asset amount =>
    void (Insurance.payLiquidator env liquidator asset amount)
  | coverDeficit env asset amount => void (Insurance.coverDeficit env asset amount)

/-- One successful call on the fund; the rest of the system may be in any state. -/
abbrev Step : InsuranceStorage → StakingOp → InsuranceStorage → Prop :=
  CallStep StakingOp.call World.insurance

end StakingOp

/-! ## The ledger's transitions -/

namespace InsuranceStorage

def mint (s : InsuranceStorage) (asset staker : Address) (minted : Int) : InsuranceStorage :=
  { s with
    shares := s.shares.set (asset, staker)
      { epoch := s.epochOf asset, shares := s.sharesOf asset staker + minted }
    totalShares := s.totalShares.set asset (s.totalSharesOf asset + minted) }

def request (s : InsuranceStorage) (asset staker : Address) (shares : Int) (unlockTime : Nat) :
    InsuranceStorage :=
  { s with
    pendingUnstake := s.pendingUnstake.set (asset, staker)
      { shares, unlockTime, epoch := s.epochOf asset } }

def retire (s : InsuranceStorage) (asset : Address) : InsuranceStorage :=
  { s with
    epoch := s.epoch.set asset (s.epochOf asset + 1)
    totalShares := s.totalShares.remove asset }

/-- The state with other reserves: the ledger does not look at these. -/
def withReserves (s : InsuranceStorage) (balance stakedBalance : Store Address Int) :
    InsuranceStorage := { s with balance, stakedBalance }

end InsuranceStorage

/-- What a call does to the share ledger. -/
inductive LedgerStep (s : InsuranceStorage) : StakingOp → InsuranceStorage → Prop
  | mint {env staker asset amount minted} (hm : 0 ≤ minted) :
      LedgerStep s (.stake env staker asset amount) (s.mint asset staker minted)
  | request {env staker asset shares unlockTime} (hpos : 0 < shares)
      (hle : shares ≤ s.sharesOf asset staker) :
      LedgerStep s (.requestUnstake env staker asset shares) (s.request asset staker shares unlockTime)
  | redeem {env staker asset r} (hr : s.pendingUnstake.get (asset, staker) = some r)
      (he : r.epoch = s.epochOf asset) :
      LedgerStep s (.withdrawUnstaked env staker asset) (s.burn asset staker r.shares)
  | discard {env staker asset r} (hr : s.pendingUnstake.get (asset, staker) = some r)
      (he : r.epoch ≠ s.epochOf asset) :
      LedgerStep s (.withdrawUnstaked env staker asset) (s.discardRequest asset staker)
  | sweep {env asset amount} : LedgerStep s (.sweepToOperating env asset amount) s
  | wipe {env asset amount} : LedgerStep s (.sweepToOperating env asset amount) (s.retire asset)
  | deposit {env funder asset amount} : LedgerStep s (.deposit env funder asset amount) s
  | payLiquidator {env liquidator asset amount} :
      LedgerStep s (.payLiquidator env liquidator asset amount) s
  | coverDeficit {env asset amount} : LedgerStep s (.coverDeficit env asset amount) s

/-- Every successful call is a ledger transition, up to the fund's two reserves. -/
theorem StakingOp.Step.ledger {s s' : InsuranceStorage} {op : StakingOp} (h : op.Step s s') :
    ∃ t balance stakedBalance, LedgerStep s op t ∧ s' = t.withReserves balance stakedBalance := by
  obtain ⟨w, w', rfl, rfl, h⟩ := h
  cases op with
  | stake env staker asset amount =>
    obtain ⟨r, h⟩ := returns_void.mp h
    obtain ⟨_, hpos, hm, tokens, _, rfl⟩ := Insurance.stake_effect h
    exact ⟨_, _, _, .mint (Insurance.mintedShares_nonneg hpos hm), rfl⟩
  | requestUnstake env staker asset shares =>
    obtain ⟨r, h⟩ := returns_void.mp h
    obtain ⟨hpos, hle, _, rfl⟩ := Insurance.requestUnstake_effect h
    exact ⟨_, _, _, .request hpos hle, rfl⟩
  | withdrawUnstaked env staker asset =>
    obtain ⟨r, h⟩ := returns_void.mp h
    obtain ⟨_, request, hr, hstale | ⟨he, _, hpaid⟩⟩ := Insurance.withdrawUnstaked_effect h
    · obtain ⟨he, _, rfl⟩ := hstale
      exact ⟨_, _, _, .discard hr he, rfl⟩
    · rcases hpaid with ⟨_, rfl⟩ | ⟨_, tokens, _, rfl⟩
      · exact ⟨_, _, _, .redeem hr he, rfl⟩
      · exact ⟨_, _, _, .redeem hr he, rfl⟩
  | sweepToOperating env asset amount =>
    obtain ⟨r, h⟩ := returns_void.mp h
    rcases Insurance.sweepToOperating_effect h with rfl | ⟨_, _, s, rfl, ⟨_, rfl⟩ | ⟨_, _, rfl⟩⟩
    · exact ⟨_, _, _, .sweep, rfl⟩
    · exact ⟨_, _, _, .sweep, rfl⟩
    · exact ⟨_, _, _, .wipe, rfl⟩
  | deposit env funder asset amount =>
    obtain ⟨r, h⟩ := returns_void.mp h
    obtain ⟨_, _, tokens, _, rfl⟩ := Insurance.deposit_effect h
    exact ⟨_, _, _, .deposit, rfl⟩
  | payLiquidator env liquidator asset amount =>
    obtain ⟨r, h⟩ := returns_void.mp h
    obtain ⟨_, _, tokens, _, rfl⟩ := Insurance.payLiquidator_effect h
    exact ⟨_, _, _, .payLiquidator, rfl⟩
  | coverDeficit env asset amount =>
    obtain ⟨r, h⟩ := returns_void.mp h
    obtain ⟨_, _, ⟨_, rfl⟩ | ⟨_, _, tokens, _, _, rfl⟩⟩ := Insurance.coverDeficit_effect h
    · exact ⟨_, _, _, .coverDeficit, rfl⟩
    · exact ⟨_, _, _, .coverDeficit, rfl⟩

/-! ## The ledger after each transition -/

namespace InsuranceStorage

variable {s t : InsuranceStorage} {asset staker a u : Address} {x : Int}

@[simp] theorem epochOf_mint : (s.mint asset staker x).epochOf a = s.epochOf a := rfl

@[simp] theorem epochOf_burn : (s.burn asset staker x).epochOf a = s.epochOf a := rfl

@[simp] theorem epochOf_discardRequest :
    (s.discardRequest asset staker).epochOf a = s.epochOf a := rfl

theorem epochOf_retire :
    (s.retire asset).epochOf a = if a = asset then s.epochOf asset + 1 else s.epochOf a := by
  by_cases h : a = asset
  · subst h; simp [epochOf, retire]
  · simp [epochOf, retire, h]

theorem sharesOf_congr (hs : t.shares.get (a, u) = s.shares.get (a, u))
    (he : t.epochOf a = s.epochOf a) : t.sharesOf a u = s.sharesOf a u := by
  simp only [sharesOf, hs, he]

theorem sharesOf_of_get {b : ShareBalance} (h : s.shares.get (a, u) = some b) :
    s.sharesOf a u = if b.epoch = s.epochOf a then b.shares else 0 := by
  unfold sharesOf
  rw [h]
  by_cases he : b.epoch = s.epochOf a <;> simp [Option.filter, he]

theorem sharesOf_of_none (h : s.shares.get (a, u) = none) : s.sharesOf a u = 0 := by
  simp [sharesOf, h]

theorem sharesOf_mint : (s.mint asset staker x).sharesOf a u =
    if a = asset ∧ u = staker then s.sharesOf asset staker + x else s.sharesOf a u := by
  by_cases h : a = asset ∧ u = staker
  · obtain ⟨rfl, rfl⟩ := h
    have hg : (s.mint a u x).shares.get (a, u) =
        some { epoch := s.epochOf a, shares := s.sharesOf a u + x } := Store.get_set_self _ _ _
    simp [sharesOf_of_get hg]
  · rw [if_neg h]
    exact sharesOf_congr (Store.get_set_ne fun he => h (Prod.mk.inj he)) rfl

theorem sharesOf_discardRequest : (s.discardRequest asset staker).sharesOf a u =
    if a = asset ∧ u = staker then 0 else s.sharesOf a u := by
  by_cases h : a = asset ∧ u = staker
  · obtain ⟨rfl, rfl⟩ := h
    rw [if_pos ⟨rfl, rfl⟩]
    exact sharesOf_of_none (Store.get_remove_self _ _)
  · rw [if_neg h]
    exact sharesOf_congr (Store.get_remove_ne fun he => h (Prod.mk.inj he)) rfl

theorem sharesOf_burn (hle : x ≤ s.sharesOf asset staker) : (s.burn asset staker x).sharesOf a u =
    if a = asset ∧ u = staker then s.sharesOf asset staker - x else s.sharesOf a u := by
  by_cases h : a = asset ∧ u = staker
  · obtain ⟨rfl, rfl⟩ := h
    rw [if_pos ⟨rfl, rfl⟩]
    by_cases hz : s.sharesOf a u - x ≤ 0
    · rw [sharesOf_of_none (by simp [burn, hz])]
      omega
    · have hg : (s.burn a u x).shares.get (a, u) =
          some { epoch := s.epochOf a, shares := s.sharesOf a u - x } := by simp [burn, hz]
      simp [sharesOf_of_get hg]
  · rw [if_neg h]
    have hne : (a, u) ≠ (asset, staker) := fun he => h (Prod.mk.inj he)
    refine sharesOf_congr ?_ rfl
    simp only [burn]
    split
    · exact Store.get_remove_ne hne
    · exact Store.get_set_ne hne

@[simp] theorem totalSharesOf_mint : (s.mint asset staker x).totalSharesOf a =
    if a = asset then s.totalSharesOf asset + x else s.totalSharesOf a := by
  by_cases h : a = asset
  · subst h; simp [totalSharesOf, mint]
  · simp [totalSharesOf, mint, h]

theorem totalSharesOf_burn (hle : x ≤ s.totalSharesOf asset) :
    (s.burn asset staker x).totalSharesOf a =
      if a = asset then s.totalSharesOf asset - x else s.totalSharesOf a := by
  have ht : (s.burn asset staker x).totalShares =
      if s.totalSharesOf asset - x ≤ 0 then s.totalShares.remove asset
      else s.totalShares.set asset (s.totalSharesOf asset - x) := rfl
  rw [totalSharesOf, ht]
  by_cases hz : s.totalSharesOf asset - x ≤ 0
  · rw [if_pos hz, Store.get_remove]
    by_cases h : a = asset
    · rw [if_pos h, if_pos h, Option.getD_none]; omega
    · rw [if_neg h, if_neg h, totalSharesOf]
  · rw [if_neg hz, Store.get_set]
    by_cases h : a = asset
    · rw [if_pos h, if_pos h, Option.getD_some]
    · rw [if_neg h, if_neg h, totalSharesOf]

theorem totalSharesOf_retire : (s.retire asset).totalSharesOf a =
    if a = asset then 0 else s.totalSharesOf a := by
  by_cases h : a = asset
  · subst h; simp [totalSharesOf, retire]
  · simp [totalSharesOf, retire, h]

/-! ## Epoch stamps -/

/-- Nothing is stamped with a future epoch, and a live request is covered by live shares. -/
structure Stamped (s : InsuranceStorage) : Prop where
  entry : ∀ {asset staker b}, s.shares.get (asset, staker) = some b → b.epoch ≤ s.epochOf asset
  nonneg : ∀ asset staker, 0 ≤ s.sharesOf asset staker
  request : ∀ {asset staker r}, s.pendingUnstake.get (asset, staker) = some r →
    r.epoch ≤ s.epochOf asset ∧ (r.epoch = s.epochOf asset → r.shares ≤ s.sharesOf asset staker)

/-- An epoch change writes off every share of the asset. -/
theorem Stamped.sharesOf_retire (h : s.Stamped) :
    (s.retire asset).sharesOf a u = if a = asset then 0 else s.sharesOf a u := by
  by_cases ha : a = asset
  · subst ha
    rw [if_pos rfl]
    cases hg : s.shares.get (a, u) with
    | none => exact sharesOf_of_none hg
    | some b =>
      have hb := h.entry hg
      rw [sharesOf_of_get (s := s.retire a) hg, epochOf_retire, if_pos rfl, if_neg (by omega)]
  · rw [if_neg ha]
    exact sharesOf_congr rfl (by rw [epochOf_retire, if_neg ha])

theorem Stamped.mint (h : s.Stamped) (hx : 0 ≤ x) : (s.mint asset staker x).Stamped where
  entry {a u b} hg := by
    by_cases hk : (a, u) = (asset, staker)
    · obtain ⟨rfl, rfl⟩ := Prod.mk.inj hk
      obtain rfl := Option.some.inj ((Store.get_set_self _ _ _).symm.trans hg)
      exact le_rfl
    · exact h.entry ((Store.get_set_ne hk).symm.trans hg)
  nonneg a u := by
    have := h.nonneg a u
    have := h.nonneg asset staker
    rw [sharesOf_mint]
    split <;> omega
  request {a u r} hr := by
    obtain ⟨hle, hcov⟩ := h.request hr
    refine ⟨hle, fun he => (hcov he).trans ?_⟩
    rw [sharesOf_mint]
    split
    · rename_i hk
      obtain ⟨rfl, rfl⟩ := hk
      omega
    · exact le_rfl

theorem Stamped.addRequest {n : Nat} (h : s.Stamped) (hx : x ≤ s.sharesOf asset staker) :
    (InsuranceStorage.request s asset staker x n).Stamped where
  entry hg := h.entry hg
  nonneg := h.nonneg
  request {a u r} hr := by
    by_cases hk : (a, u) = (asset, staker)
    · obtain ⟨rfl, rfl⟩ := Prod.mk.inj hk
      obtain rfl := Option.some.inj ((Store.get_set_self _ _ _).symm.trans hr)
      exact ⟨le_rfl, fun _ => hx⟩
    · exact h.request ((Store.get_set_ne hk).symm.trans hr)

/-- Dropping a staker's request together with part of its shares keeps every other
request covered. -/
theorem Stamped.settle (h : s.Stamped) {y : Int} (hy : 0 ≤ y)
    (hp : t.pendingUnstake = s.pendingUnstake.remove (asset, staker))
    (he : t.epoch = s.epoch)
    (hs : ∀ a u, t.sharesOf a u = if a = asset ∧ u = staker then y else s.sharesOf a u)
    (hentry : ∀ {a u b}, t.shares.get (a, u) = some b → b.epoch ≤ s.epochOf a) : t.Stamped where
  entry hg := by
    have := hentry hg
    simpa only [epochOf, he] using this
  nonneg a u := by
    have := h.nonneg a u
    rw [hs]
    split <;> omega
  request {a u r} hr := by
    rw [hp] at hr
    by_cases hk : (a, u) = (asset, staker)
    · rw [hk, Store.get_remove_self] at hr; cases hr
    · rw [Store.get_remove_ne hk] at hr
      have := h.request hr
      rw [hs, if_neg fun hh => hk (Prod.ext hh.1 hh.2)]
      simpa only [epochOf, he] using this

theorem Stamped.discardRequest (h : s.Stamped) : (s.discardRequest asset staker).Stamped := by
  refine h.settle le_rfl rfl rfl (fun a u => sharesOf_discardRequest) fun {a u b} hg => ?_
  by_cases hk : (a, u) = (asset, staker)
  · rw [hk] at hg
    exact absurd ((Store.get_remove_self _ _).symm.trans hg) (by simp)
  · exact h.entry ((Store.get_remove_ne hk).symm.trans hg)

theorem Stamped.burn (h : s.Stamped) (hx : x ≤ s.sharesOf asset staker) :
    (s.burn asset staker x).Stamped := by
  refine h.settle (y := s.sharesOf asset staker - x) (by omega) rfl rfl
    (fun a u => sharesOf_burn hx) fun {a u b} hg => ?_
  simp only [InsuranceStorage.burn] at hg
  by_cases hk : (a, u) = (asset, staker)
  · obtain ⟨rfl, rfl⟩ := Prod.mk.inj hk
    split at hg
    · rw [Store.get_remove_self] at hg; cases hg
    · rw [Store.get_set_self] at hg; obtain rfl := Option.some.inj hg; exact le_rfl
  · split at hg
    · exact h.entry ((Store.get_remove_ne hk).symm.trans hg)
    · exact h.entry ((Store.get_set_ne hk).symm.trans hg)

theorem Stamped.retire (h : s.Stamped) : (s.retire asset).Stamped where
  entry {a u b} hg := by
    have := h.entry (s := s) hg
    rw [epochOf_retire]
    split
    · subst_vars; omega
    · exact this
  nonneg a u := by
    have := h.nonneg a u
    rw [h.sharesOf_retire]
    split <;> omega
  request {a u r} hr := by
    obtain ⟨hle, hcov⟩ := h.request (s := s) hr
    rw [epochOf_retire, h.sharesOf_retire]
    split
    · subst_vars; exact ⟨by omega, fun he => by omega⟩
    · exact ⟨hle, hcov⟩

end InsuranceStorage

namespace InsuranceStorage

/-! ## The two copies -/

/-- `TotalShares` is the sum of `shares_of` over all stakers. -/
def SharesBalanced (s : InsuranceStorage) : Prop :=
  ∀ asset, s.totalSharesOf asset = ∑ᶠ staker, s.sharesOf asset staker

variable {s : InsuranceStorage} {asset staker : Address} {x : Int}

theorem finite_support_sharesOf (s : InsuranceStorage) (asset : Address) :
    (Function.support (s.sharesOf asset)).Finite :=
  Store.finite_support_of_row (s := s.shares) asset fun _ h => sharesOf_of_none h

/-- What the shares add up to after a change to one staker's. -/
theorem sum_sharesOf_change {t : InsuranceStorage} {y : Int}
    (hs : ∀ a u, t.sharesOf a u = if a = asset ∧ u = staker then y else s.sharesOf a u) (a : Address) :
    ∑ᶠ u, t.sharesOf a u =
      ∑ᶠ u, s.sharesOf a u + if a = asset then y - s.sharesOf asset staker else 0 := by
  by_cases ha : a = asset
  · subst ha
    rw [finsum_change (s.finite_support_sharesOf a) staker fun u hu => by
      rw [hs, if_neg fun hh => hu hh.2], hs, if_pos ⟨rfl, rfl⟩, if_pos rfl]
    omega
  · rw [if_neg ha, Int.add_zero]
    exact finsum_congr fun u => by rw [hs, if_neg fun hh => ha hh.1]

/-- A ledger that differs from a balanced one in one staker's shares is balanced
exactly when its total moved by the same amount. -/
theorem SharesBalanced.change {t : InsuranceStorage} {y z : Int} (h : s.SharesBalanced)
    (hs : ∀ a u, t.sharesOf a u = if a = asset ∧ u = staker then y else s.sharesOf a u)
    (ht : ∀ a, t.totalSharesOf a = if a = asset then z else s.totalSharesOf a) :
    t.SharesBalanced ↔ z - s.totalSharesOf asset = y - s.sharesOf asset staker := by
  constructor
  · intro hb
    have hself := hb asset
    rw [ht, if_pos rfl, sum_sharesOf_change hs, if_pos rfl, ← h asset] at hself
    omega
  · intro he a
    rw [ht, sum_sharesOf_change hs, ← h a]
    split
    · subst_vars
      omega
    · omega

/-- No staker's live shares exceed the total of a balanced ledger. -/
theorem SharesBalanced.sharesOf_le (h : s.SharesBalanced) (hn : ∀ a u, 0 ≤ s.sharesOf a u) :
    s.sharesOf asset staker ≤ s.totalSharesOf asset := by
  rw [h asset]
  exact single_le_finsum staker (s.finite_support_sharesOf asset) fun u => hn asset u

end InsuranceStorage

open InsuranceStorage

/-- A withdrawal finds its request current, or the staker without live shares;
every other call is free of conditions. -/
def StakingOp.NoStaleRequest (s : InsuranceStorage) : StakingOp → Prop
  | .withdrawUnstaked _ staker asset => ∀ request,
      s.pendingUnstake.get (asset, staker) = some request →
      request.epoch = s.epochOf asset ∨ s.sharesOf asset staker = 0
  | _ => True

variable {s s' t : InsuranceStorage} {op : StakingOp}

theorem LedgerStep.stamped (h : LedgerStep s op t) (hs : s.Stamped) : t.Stamped := by
  cases h with
  | mint hm => exact hs.mint hm
  | request _ hle => exact hs.addRequest hle
  | redeem hr he => exact hs.burn ((hs.request hr).2 he)
  | discard => exact hs.discardRequest
  | wipe => exact hs.retire
  | sweep | deposit | payLiquidator | coverDeficit => exact hs

/-- From a balanced ledger, exactly the stale withdrawals of a staker with live
shares unbalance it. -/
theorem LedgerStep.balanced_iff (h : LedgerStep s op t) (hs : s.Stamped) (hb : s.SharesBalanced) :
    t.SharesBalanced ↔ op.NoStaleRequest s := by
  cases h with
  | @mint env staker asset amount minted hm =>
    rw [hb.change (fun a u => sharesOf_mint) (fun a => totalSharesOf_mint)]
    simp [StakingOp.NoStaleRequest]
  | @redeem env staker asset r hr he =>
    have hle := (hs.request hr).2 he
    have htot : s.sharesOf asset staker ≤ s.totalSharesOf asset := hb.sharesOf_le hs.nonneg
    rw [hb.change (fun a u => sharesOf_burn hle) (fun a => totalSharesOf_burn (hle.trans htot))]
    simp [StakingOp.NoStaleRequest, hr, he]
  | @discard env staker asset r hr he =>
    rw [hb.change (z := s.totalSharesOf asset) (fun a u => sharesOf_discardRequest)
      (fun a => by split <;> simp_all [totalSharesOf, InsuranceStorage.discardRequest])]
    simp [StakingOp.NoStaleRequest, hr, he, eq_comm]
  | @wipe env asset amount =>
    refine iff_of_true (fun a => ?_) trivial
    rw [totalSharesOf_retire]
    split
    · rename_i ha
      exact (finsum_eq_zero_of_forall_eq_zero fun u => by rw [hs.sharesOf_retire, if_pos ha]).symm
    · rename_i ha
      rw [hb a]
      exact finsum_congr fun u => by rw [hs.sharesOf_retire, if_neg ha]
  | request | sweep | deposit | payLiquidator | coverDeficit => exact iff_of_true hb trivial

/-- A call keeps the staker's live shares: none go but those redeemed by the
staker's own current request, unless the asset's epoch changed. -/
def SharesKept (s : InsuranceStorage) (op : StakingOp) (s' : InsuranceStorage) : Prop :=
  ∀ asset staker, s'.epochOf asset = s.epochOf asset →
    s.sharesOf asset staker ≤ s'.sharesOf asset staker ∨
    ∃ env request, op = .withdrawUnstaked env staker asset ∧
      s.pendingUnstake.get (asset, staker) = some request ∧ request.epoch = s.epochOf asset ∧
      s'.sharesOf asset staker = s.sharesOf asset staker - request.shares

theorem LedgerStep.sharesKept_iff (h : LedgerStep s op t) (hs : s.Stamped) :
    SharesKept s op t ↔ op.NoStaleRequest s := by
  cases h with
  | @mint env staker asset amount minted hm =>
    refine iff_of_true (fun a u _ => .inl ?_) trivial
    rw [sharesOf_mint]
    split
    · rename_i hk
      obtain ⟨rfl, rfl⟩ := hk
      omega
    · exact le_rfl
  | @redeem env staker asset r hr he =>
    refine iff_of_true (fun a u _ => ?_) (by simp [StakingOp.NoStaleRequest, hr, he])
    rw [sharesOf_burn ((hs.request hr).2 he)]
    by_cases hk : a = asset ∧ u = staker
    · obtain ⟨rfl, rfl⟩ := hk
      exact .inr ⟨env, r, rfl, hr, he, by rw [if_pos ⟨rfl, rfl⟩]⟩
    · rw [if_neg hk]
      exact .inl le_rfl
  | @discard env staker asset r hr he =>
    simp only [StakingOp.NoStaleRequest, hr, Option.some.injEq, forall_eq', he, false_or]
    constructor
    · intro hk
      rcases hk asset staker rfl with hle | ⟨_, r', _, hr', he', _⟩
      · have := hs.nonneg asset staker
        rw [sharesOf_discardRequest, if_pos ⟨rfl, rfl⟩] at hle
        omega
      · rw [hr] at hr'
        exact absurd (Option.some.inj hr' ▸ he') he
    · intro hz a u _
      rw [sharesOf_discardRequest]
      split
      · rename_i hk
        obtain ⟨rfl, rfl⟩ := hk
        exact .inl hz.le
      · exact .inl le_rfl
  | @wipe env asset amount =>
    refine iff_of_true (fun a u he => .inl ?_) trivial
    rw [epochOf_retire] at he
    rw [hs.sharesOf_retire]
    split
    · rename_i ha
      rw [if_pos ha, ha] at he
      omega
    · exact le_rfl
  | request | sweep | deposit | payLiquidator | coverDeficit =>
    exact iff_of_true (fun a u _ => .inl le_rfl) trivial

/-! ## Steps and runs of the contract -/

theorem StakingOp.Step.stamped (hs : s.Stamped) (h : op.Step s s') : s'.Stamped := by
  obtain ⟨t, balance, stakedBalance, ht, rfl⟩ := h.ledger
  obtain ⟨he, hn, hr⟩ := ht.stamped hs
  exact ⟨he, hn, hr⟩

theorem StakingOp.Step.balanced_iff (hs : s.Stamped) (hb : s.SharesBalanced) (h : op.Step s s') :
    s'.SharesBalanced ↔ op.NoStaleRequest s := by
  obtain ⟨t, balance, stakedBalance, ht, rfl⟩ := h.ledger
  exact ht.balanced_iff hs hb

theorem StakingOp.Step.sharesKept_iff (hs : s.Stamped) (h : op.Step s s') :
    SharesKept s op s' ↔ op.NoStaleRequest s := by
  obtain ⟨t, balance, stakedBalance, ht, rfl⟩ := h.ledger
  exact ht.sharesKept_iff hs

/-- Any configuration and reserves, and nobody staked yet. -/
def InsuranceStorage.unstaked (config : InsuranceStorage) : InsuranceStorage :=
  { config with shares := ∅, epoch := ∅, totalShares := ∅, pendingUnstake := ∅ }

theorem unstaked_stamped (config : InsuranceStorage) : config.unstaked.Stamped where
  entry h := by cases h
  nonneg _ _ := le_rfl
  request h := by cases h

theorem unstaked_balanced (config : InsuranceStorage) : config.unstaked.SharesBalanced :=
  fun _ => (finsum_eq_zero_of_forall_eq_zero fun _ => rfl).symm

theorem balanced_run_iff {config : InsuranceStorage} {t : List (StakingOp × InsuranceStorage)}
    (hr : IsRun StakingOp.Step config.unstaked t) :
    AllStates SharesBalanced config.unstaked t ↔
      AllSteps (fun s op => op.NoStaleRequest s) config.unstaked t := by
  have hstep : ∀ s (op : StakingOp) s', s.Stamped → op.Step s s' → s'.Stamped :=
    fun s op s' hs h => StakingOp.Step.stamped hs h
  have hiff : ∀ s (op : StakingOp) s', s.Stamped → s.SharesBalanced → op.Step s s' →
      (s'.SharesBalanced ↔ op.NoStaleRequest s) :=
    fun s op s' hs hb h => StakingOp.Step.balanced_iff hs hb h
  exact allStates_iff_allSteps hstep hiff (unstaked_stamped config) (unstaked_balanced config) hr

/-- **The share ledger adds up exactly in the runs with no stale withdrawal.** In a
run from an unstaked fund every state has `TotalShares` equal to the sum of the
stakers' live shares if and only if each withdrawal of the run finds its request
current or its staker without live shares; and each further call keeps every
staker's live shares if and only if it meets the same condition. -/
theorem share_ledger_iff {config : InsuranceStorage} {t : List (StakingOp × InsuranceStorage)}
    (hr : IsRun StakingOp.Step config.unstaked t) :
    (AllStates SharesBalanced config.unstaked t ↔
      AllSteps (fun s op => op.NoStaleRequest s) config.unstaked t) ∧
    ∀ op s', StakingOp.Step (final config.unstaked t) op s' →
      (SharesKept (final config.unstaked t) op s' ↔ op.NoStaleRequest (final config.unstaked t)) := by
  refine ⟨balanced_run_iff hr, fun op s' h => ?_⟩
  have hstamped : AllStates Stamped config.unstaked t :=
    invariant_of_step (fun _ _ _ hs h => StakingOp.Step.stamped hs h) (unstaked_stamped config) hr
  exact StakingOp.Step.sharesKept_iff hstamped.at_final h

/-! ## A staker who stakes again before withdrawing a stale request -/

namespace Sample

def fund : World := world (100 * precision) 1000

/-- Alice stakes and asks to leave, the admin sweeps the pool, and alice stakes
again before she withdraws the old request. -/
def restake : List StakingOp := [
  .stake (host 1000) alice usdc 100,
  .requestUnstake (host 1000) alice usdc 100,
  .sweepToOperating (host 1000) usdc 100,
  .stake (host 1000) alice usdc 50,
  .withdrawUnstaked (host 605800) alice usdc]

def restakeRun : List (StakingOp × InsuranceStorage) :=
  viewed World.insurance (execute StakingOp.call fund restake)

theorem restake_isRun : IsRun StakingOp.Step fund.insurance.unstaked restakeRun :=
  isRun_execute (w := fund) (by decide +kernel)

end Sample

open Sample in
/-- The stale withdrawal deletes the 50 shares alice bought in the new epoch. -/
theorem restake_loses_shares : IsRun StakingOp.Step fund.insurance.unstaked restakeRun ∧
    ¬ AllStates SharesBalanced fund.insurance.unstaked restakeRun := by
  refine ⟨restake_isRun, fun h => ?_⟩
  obtain ⟨_, _, _, _, hlast, _⟩ := (balanced_run_iff restake_isRun).mp h
  have hstale := hlast { shares := 100, unlockTime := 605800, epoch := 0 } (by decide +kernel)
  revert hstale
  decide +kernel

open Sample in
theorem share_ledger_iff_restake :
    (AllStates SharesBalanced fund.insurance.unstaked restakeRun ↔
      AllSteps (fun s op => op.NoStaleRequest s) fund.insurance.unstaked restakeRun) ∧
    ∀ op s', StakingOp.Step (final fund.insurance.unstaked restakeRun) op s' →
      (SharesKept (final fund.insurance.unstaked restakeRun) op s' ↔
        op.NoStaleRequest (final fund.insurance.unstaked restakeRun)) :=
  share_ledger_iff restake_isRun

end Kryon

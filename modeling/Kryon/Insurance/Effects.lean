import Kryon.Insurance

/-! # What the insurance fund's operations do

For each operation, what a successful call implies: the checks that passed and
the state it leaves, as an update of the state before. The token ledger is what the
token contract made of it. -/
namespace Kryon

namespace InsuranceStorage

variable (s : InsuranceStorage)

/-- A redeemed request: `burnt` shares leave the staker and the total, an entry
or a total that reaches zero is dropped, and the request is gone. -/
def burn (asset staker : Address) (burnt : Int) : InsuranceStorage :=
  { s with
    shares := if s.sharesOf asset staker - burnt ≤ 0 then s.shares.remove (asset, staker)
      else s.shares.set (asset, staker)
        { epoch := s.epochOf asset, shares := s.sharesOf asset staker - burnt }
    totalShares := if s.totalSharesOf asset - burnt ≤ 0 then s.totalShares.remove asset
      else s.totalShares.set asset (s.totalSharesOf asset - burnt)
    pendingUnstake := s.pendingUnstake.remove (asset, staker) }

/-- A stale request: the request and the staker's share entry are both dropped. -/
def discardRequest (asset staker : Address) : InsuranceStorage :=
  { s with
    shares := s.shares.remove (asset, staker)
    pendingUnstake := s.pendingUnstake.remove (asset, staker) }

def addBalance (asset : Address) (x : Int) : InsuranceStorage :=
  { s with balance := s.balance.set asset (s.balanceOf asset + x) }

def addStaked (asset : Address) (x : Int) : InsuranceStorage :=
  { s with stakedBalance := s.stakedBalance.set asset (s.stakedBalanceOf asset + x) }

def setBadDebt (asset : Address) (x : Int) : InsuranceStorage :=
  { s with badDebt := s.badDebt.set asset x }

variable {s} {asset a : Address} {x : Int}

theorem balanceOf_addBalance :
    (s.addBalance asset x).balanceOf a = s.balanceOf a + if a = asset then x else 0 := by
  by_cases h : a = asset
  · subst h; simp [balanceOf, addBalance]
  · simp [balanceOf, addBalance, h]

theorem stakedBalanceOf_addStaked :
    (s.addStaked asset x).stakedBalanceOf a = s.stakedBalanceOf a + if a = asset then x else 0 := by
  by_cases h : a = asset
  · subst h; simp [stakedBalanceOf, addStaked]
  · simp [stakedBalanceOf, addStaked, h]

theorem badDebtOf_setBadDebt :
    (s.setBadDebt asset x).badDebtOf a = if a = asset then x else s.badDebtOf a := by
  by_cases h : a = asset
  · subst h; simp [badDebtOf, setBadDebt]
  · simp [badDebtOf, setBadDebt, h]

@[simp] theorem balanceOf_addStaked : (s.addStaked asset x).balanceOf a = s.balanceOf a := rfl

@[simp] theorem stakedBalanceOf_addBalance :
    (s.addBalance asset x).stakedBalanceOf a = s.stakedBalanceOf a := rfl

end InsuranceStorage

namespace Insurance
open Transaction

variable {env : Env} {w w' : World} {staker asset : Address} {amount r : Int}

@[simp] theorem store_returns {f : InsuranceStorage → InsuranceStorage} {u : Unit} :
    Returns (store f) w u w' ↔ w' = { w with insurance := f w.insurance } := by
  simp [store]

/-! ## The operating reserve -/

theorem increaseBalance_effect (h : Returns (increaseBalance asset amount) w r w') :
    w' = { w with insurance := w.insurance.addBalance asset amount } := by
  simp only [increaseBalance, returns_bind, returns_readWith, checkedAdd_ok, store_returns,
    returns_pure] at h
  obtain ⟨_, _, ⟨⟨_, rfl⟩, rfl⟩, _, _, rfl, _, rfl⟩ := h
  rfl

theorem decreaseBalance_effect (h : Returns (decreaseBalance asset amount) w r w') :
    w' = { w with insurance := w.insurance.addBalance asset (-amount) } := by
  simp only [decreaseBalance, returns_bind, returns_readWith, checkedSub_ok, store_returns,
    returns_pure] at h
  obtain ⟨_, _, ⟨⟨_, rfl⟩, rfl⟩, _, _, rfl, _, rfl⟩ := h
  rfl

theorem deposit_effect {funder : Address} (h : Returns (deposit env funder asset amount) w r w') :
    (env.invoker = some funder ∨ env.signed funder = true) ∧ 0 < amount ∧ ∃ tokens,
      env.transfer w.tokens asset funder w.deployed.insurance amount = some tokens ∧
      w' = { w with tokens, insurance := w.insurance.addBalance asset amount } := by
  simp only [deposit, returns_bind, returns_lift, returns_get, requireAuth_ok, reject_ok,
    tokenTransfer_returns] at h
  obtain ⟨_, _, ⟨hauth, rfl⟩, _, _, ⟨hpos, rfl⟩, _, _, ⟨rfl, rfl⟩, _, _, ⟨tokens, ht, rfl⟩, h⟩ := h
  obtain rfl := increaseBalance_effect h
  exact ⟨hauth, by omega, tokens, ht, rfl⟩

theorem payLiquidator_effect {liquidator : Address}
    (h : Returns (payLiquidator env liquidator asset amount) w r w') :
    0 < amount ∧ amount ≤ w.insurance.balanceOf asset ∧ ∃ tokens,
      env.transfer w.tokens asset w.deployed.insurance liquidator amount = some tokens ∧
      w' = { w with tokens, insurance := w.insurance.addBalance asset (-amount) } := by
  simp only [payLiquidator, returns_bind, returns_lift, returns_readWith, returns_get, reject_ok,
    tokenTransfer_returns, returns_pure] at h
  obtain ⟨_, _, ⟨_, rfl⟩, _, _, ⟨hpos, rfl⟩, _, _, ⟨rfl, rfl⟩, _, _, ⟨hle, rfl⟩, _, _, hd,
    _, _, ⟨tokens, ht, rfl⟩, _, rfl⟩ := h
  obtain rfl := decreaseBalance_effect hd
  exact ⟨by omega, by omega, tokens, ht, rfl⟩

/-- The fund pays between nothing and the whole deficit, and no more than it has. -/
theorem coverDeficit_effect (h : Returns (coverDeficit env asset amount) w r w') :
    0 ≤ r ∧ r ≤ amount ∧ ((r = 0 ∧ w' = w) ∨ (r ≤ w.insurance.balanceOf asset ∧ ∃ vault tokens,
      (env.invoker = some vault ∨ env.signed vault = true) ∧
      env.transfer w.tokens asset w.deployed.insurance vault r = some tokens ∧
      w' = { w with tokens, insurance := w.insurance.addBalance asset (-r) })) := by
  simp only [coverDeficit, requireVault, returns_bind, returns_lift, returns_readWith, returns_get,
    reject_ok, except_bind_ok, requireAuth_ok, except_pure_ok] at h
  obtain ⟨vault, _, ⟨⟨_, _, _, hauth, rfl⟩, rfl⟩, _, _, ⟨hpos, rfl⟩, _, _, ⟨rfl, rfl⟩, h⟩ := h
  rcases returns_ite.mp h with ⟨_, hnone⟩ | ⟨hcov, hpaid⟩
  · obtain ⟨rfl, rfl⟩ := returns_pure.mp hnone
    exact ⟨le_rfl, by omega, .inl ⟨rfl, rfl⟩⟩
  · simp only [returns_bind, tokenTransfer_returns, returns_pure] at hpaid
    obtain ⟨_, _, hd, _, _, ⟨tokens, ht, rfl⟩, rfl, rfl⟩ := hpaid
    obtain rfl := decreaseBalance_effect hd
    refine ⟨by omega, ?_, .inr ⟨?_, _, tokens, hauth, ht, rfl⟩⟩
    · split <;> omega
    · split <;> omega

/-- Covering a deficit touches the token ledgers and the operating balances only. -/
theorem coverDeficit_touches (h : Returns (coverDeficit env asset amount) w r w') :
    ∃ tokens balance, w' = { w with tokens, insurance := { w.insurance with balance } } := by
  obtain ⟨_, _, hpaid⟩ := coverDeficit_effect h
  rcases hpaid with hnone | hpaid
  · exact ⟨_, _, hnone.2⟩
  · obtain ⟨_, _, tokens, _, _, rfl⟩ := hpaid
    exact ⟨tokens, _, rfl⟩

theorem recordBadDebt_effect (h : Returns (recordBadDebt env asset amount) w r w') :
    0 < amount ∧ w' = { w with
      insurance := w.insurance.setBadDebt asset (w.insurance.badDebtOf asset + amount) } := by
  simp only [recordBadDebt, returns_bind, returns_lift, returns_readWith, reject_ok, checkedAdd_ok,
    store_returns, returns_pure] at h
  obtain ⟨_, _, ⟨_, rfl⟩, _, _, ⟨hpos, rfl⟩, _, _, ⟨⟨_, rfl⟩, rfl⟩, _, _, rfl, _, rfl⟩ := h
  exact ⟨by omega, rfl⟩

theorem reduceBadDebt_effect (h : Returns (reduceBadDebt env asset amount) w r w') :
    r = max 0 (w.insurance.badDebtOf asset - amount) ∧
      w' = { w with insurance := w.insurance.setBadDebt asset r } := by
  simp only [reduceBadDebt, returns_bind, returns_lift, returns_readWith, checkedSub_ok,
    store_returns, returns_pure] at h
  obtain ⟨_, _, ⟨_, rfl⟩, _, _, ⟨_, rfl⟩, _, _, ⟨⟨_, rfl⟩, rfl⟩, _, _, rfl, rfl, rfl⟩ := h
  exact ⟨rfl, rfl⟩

/-! ## Staking -/

theorem increaseStakedBalance_effect (h : Returns (increaseStakedBalance asset amount) w r w') :
    w' = { w with insurance := w.insurance.addStaked asset amount } := by
  simp only [increaseStakedBalance, returns_bind, returns_readWith, checkedAdd_ok, store_returns,
    returns_pure] at h
  obtain ⟨_, _, ⟨⟨_, rfl⟩, rfl⟩, _, _, rfl, _, rfl⟩ := h
  rfl

theorem decreaseStakedBalance_effect (h : Returns (decreaseStakedBalance asset amount) w r w') :
    w' = { w with insurance := w.insurance.addStaked asset (-amount) } := by
  simp only [decreaseStakedBalance, returns_bind, returns_readWith, checkedSub_ok, store_returns,
    returns_pure] at h
  obtain ⟨_, _, ⟨⟨_, rfl⟩, rfl⟩, _, _, rfl, _, rfl⟩ := h
  rfl

theorem mintedShares_nonneg {totalShares nav minted : Int} (hpos : 0 < amount)
    (h : mintedShares amount totalShares nav = .ok minted) : 0 ≤ minted := by
  unfold mintedShares at h
  split at h
  · cases h; omega
  · obtain ⟨_, _, rfl⟩ := mulDiv_ok.mp h
    exact Int.tdiv_nonneg (Int.mul_nonneg (by omega) (by omega)) (by omega)

theorem stake_effect (h : Returns (stake env staker asset amount) w r w') :
    (env.invoker = some staker ∨ env.signed staker = true) ∧ 0 < amount ∧
      mintedShares amount (w.insurance.totalSharesOf asset) (w.insurance.stakedBalanceOf asset) = .ok r ∧
      ∃ tokens, env.transfer w.tokens asset staker w.deployed.insurance amount = some tokens ∧
      w' = { w with
      tokens
      insurance := { w.insurance.addStaked asset amount with
        shares := w.insurance.shares.set (asset, staker)
          { epoch := w.insurance.epochOf asset, shares := w.insurance.sharesOf asset staker + r }
        totalShares := w.insurance.totalShares.set asset
          (w.insurance.totalSharesOf asset + r) } } := by
  simp only [stake, returns_lift_bind, returns_get_bind, requireAuth_ok, reject_ok] at h
  obtain ⟨_, hauth, _, hpos, h⟩ := h
  obtain ⟨_, _, htransfer, h⟩ := returns_bind.mp h
  obtain ⟨tokens, ht, rfl⟩ := tokenTransfer_returns.mp htransfer
  obtain ⟨_, _, hstaked, h⟩ := returns_bind.mp h
  obtain rfl := increaseStakedBalance_effect hstaked
  simp only [returns_lift_bind, returns_readWith_bind, checkedAdd_ok] at h
  obtain ⟨minted, hm, _, ⟨_, rfl⟩, h⟩ := h
  obtain ⟨_, _, hshares, h⟩ := returns_bind.mp h
  obtain rfl := store_returns.mp hshares
  obtain ⟨_, hadd, h⟩ := returns_lift_bind.mp h
  obtain ⟨_, rfl⟩ := checkedAdd_ok.mp hadd
  obtain ⟨_, _, htotal, h⟩ := returns_bind.mp h
  obtain rfl := store_returns.mp htotal
  obtain ⟨rfl, rfl⟩ := returns_pure.mp h
  exact ⟨hauth, by omega, hm, tokens, ht, rfl⟩

theorem requestUnstake_effect {shares : Int} {n : Nat}
    (h : Returns (requestUnstake env staker asset shares) w n w') :
    0 < shares ∧ shares ≤ w.insurance.sharesOf asset staker ∧
      w.insurance.pendingUnstake.get (asset, staker) = none ∧
      w' = { w with insurance := { w.insurance with
        pendingUnstake := w.insurance.pendingUnstake.set (asset, staker)
          { shares, unlockTime := n, epoch := w.insurance.epochOf asset } } } := by
  simp only [requestUnstake, returns_bind, returns_lift, returns_get, reject_ok, toU64OrTrap_ok,
    store_returns, returns_pure, Bool.not_eq_true, Option.isSome_eq_false_iff,
    Option.isNone_iff_eq_none] at h
  obtain ⟨_, _, ⟨_, rfl⟩, _, _, ⟨hpos, rfl⟩, _, _, ⟨rfl, rfl⟩, _, _, ⟨hle, rfl⟩, _, _,
    ⟨hnone, rfl⟩, _, _, ⟨⟨_, rfl⟩, rfl⟩, _, _, rfl, rfl, rfl⟩ := h
  exact ⟨by omega, by omega, hnone, rfl⟩

/-- The staker is paid from the staked pool; nothing is paid for a claim of nothing. -/
theorem payUnstaker_effect {u : Unit} (h : Returns (payUnstaker env staker asset amount) w u w') :
    (amount ≤ 0 ∧ w' = w) ∨ (0 < amount ∧ ∃ tokens,
      env.transfer w.tokens asset w.deployed.insurance staker amount = some tokens ∧
      w' = { w with tokens, insurance := w.insurance.addStaked asset (-amount) }) := by
  rcases returns_ite.mp h with ⟨hpos, hpay⟩ | ⟨hpos, hnone⟩
  · simp only [returns_bind, returns_get, tokenTransfer_returns] at hpay
    obtain ⟨_, _, ⟨rfl, rfl⟩, _, _, hd, tokens, ht, rfl⟩ := hpay
    obtain rfl := decreaseStakedBalance_effect hd
    exact .inr ⟨hpos, tokens, ht, rfl⟩
  · exact .inl ⟨by omega, (returns_pure.mp hnone).2⟩

theorem burnShares_effect {request : PendingUnstakeRequest} {totalShares : Int} {u v : Unit}
    {wb : World} (hburn : Returns (burnShares staker asset request totalShares) w u wb)
    (hclear : Returns (store fun s =>
      { s with pendingUnstake := s.pendingUnstake.remove (asset, staker) }) wb v w')
    (he : request.epoch = w.insurance.epochOf asset)
    (ht : totalShares = w.insurance.totalSharesOf asset) :
    w' = { w with insurance := w.insurance.burn asset staker request.shares } := by
  subst ht
  simp only [burnShares, returns_bind, returns_readWith, returns_lift, checkedSub_ok,
    store_returns] at hburn hclear
  obtain ⟨_, _, ⟨⟨_, rfl⟩, rfl⟩, _, _, rfl, _, _, ⟨⟨_, rfl⟩, rfl⟩, rfl⟩ := hburn
  rw [hclear, he]
  rfl

theorem withdrawUnstaked_effect (h : Returns (withdrawUnstaked env staker asset) w r w') :
    (env.invoker = some staker ∨ env.signed staker = true) ∧
    ∃ request, w.insurance.pendingUnstake.get (asset, staker) = some request ∧
      ((request.epoch ≠ w.insurance.epochOf asset ∧ r = 0 ∧
          w' = { w with insurance := w.insurance.discardRequest asset staker }) ∨
        (request.epoch = w.insurance.epochOf asset ∧
          redemptionValue request.shares (w.insurance.stakedBalanceOf asset)
            (w.insurance.totalSharesOf asset) = .ok r ∧
          ((r ≤ 0 ∧ w' = { w with insurance := w.insurance.burn asset staker request.shares }) ∨
            (0 < r ∧ ∃ tokens,
              env.transfer w.tokens asset w.deployed.insurance staker r = some tokens ∧
              w' = { w with
                tokens
                insurance := (w.insurance.addStaked asset (-r)).burn asset staker request.shares })))) := by
  simp only [withdrawUnstaked, returns_lift_bind, returns_get_bind, requireAuth_ok, okOr_ok] at h
  obtain ⟨_, hauth, request, hreq, _, _, h⟩ := h
  refine ⟨hauth, request, hreq, ?_⟩
  rcases returns_ite.mp h with ⟨hstale, hs⟩ | ⟨hcurrent, hc⟩
  · simp only [returns_bind, store_returns, returns_pure] at hs
    obtain ⟨_, _, rfl, rfl, rfl⟩ := hs
    exact .inl ⟨hstale, rfl, rfl⟩
  · have hepoch : request.epoch = w.insurance.epochOf asset := not_not.mp hcurrent
    refine .inr ⟨hepoch, ?_⟩
    simp only [returns_lift_bind] at hc
    obtain ⟨payout, hvalue, hc⟩ := hc
    obtain ⟨_, wp, hpay, hc⟩ := returns_bind.mp hc
    obtain ⟨_, wb, hburn, hc⟩ := returns_bind.mp hc
    obtain ⟨_, wc, hclear, hret⟩ := returns_bind.mp hc
    obtain ⟨rfl, rfl⟩ := returns_pure.mp hret
    refine ⟨hvalue, ?_⟩
    rcases payUnstaker_effect hpay with hnone | hpaid
    · obtain ⟨hle, rfl⟩ := hnone
      exact .inl ⟨hle, burnShares_effect hburn hclear hepoch rfl⟩
    · obtain ⟨hpos, tokens, ht, rfl⟩ := hpaid
      exact .inr ⟨hpos, tokens, ht, burnShares_effect hburn hclear hepoch rfl⟩

theorem retireSharesIfWiped_effect {u : Unit} (h : Returns (retireSharesIfWiped asset) w u w') :
    ((0 < w.insurance.stakedBalanceOf asset ∨ w.insurance.totalSharesOf asset ≤ 0) ∧ w' = w) ∨
    (w.insurance.stakedBalanceOf asset ≤ 0 ∧ 0 < w.insurance.totalSharesOf asset ∧
      w' = { w with insurance := { w.insurance with
        epoch := w.insurance.epoch.set asset (w.insurance.epochOf asset + 1)
        totalShares := w.insurance.totalShares.remove asset } }) := by
  simp only [retireSharesIfWiped, returns_bind, returns_get] at h
  obtain ⟨_, _, ⟨rfl, rfl⟩, h⟩ := h
  rcases returns_ite.mp h with ⟨hlive, hkeep⟩ | ⟨hwiped, hretire⟩
  · exact .inl ⟨hlive, (returns_pure.mp hkeep).2⟩
  · simp only [returns_bind, returns_lift, store_returns] at hretire
    obtain ⟨_, _, ⟨_, rfl⟩, rfl⟩ := hretire
    exact .inr ⟨by omega, by omega, rfl⟩

/-- Swept value goes from the staked pool to the operating one. -/
theorem sweepToOperating_effect (h : Returns (sweepToOperating env asset amount) w r w') :
    w' = w ∨ (0 < r ∧ r ≤ w.insurance.stakedBalanceOf asset ∧
      ∃ s, s = (w.insurance.addStaked asset (-r)).addBalance asset r ∧
      (((0 < s.stakedBalanceOf asset ∨ s.totalSharesOf asset ≤ 0) ∧ w' = { w with insurance := s }) ∨
        (s.stakedBalanceOf asset ≤ 0 ∧ 0 < s.totalSharesOf asset ∧ w' = { w with insurance := { s with
          epoch := s.epoch.set asset (s.epochOf asset + 1)
          totalShares := s.totalShares.remove asset } }))) := by
  simp only [sweepToOperating, returns_bind, returns_lift, returns_readWith, returns_get] at h
  obtain ⟨_, _, ⟨_, rfl⟩, _, _, ⟨_, rfl⟩, _, _, ⟨rfl, rfl⟩, h⟩ := h
  rcases returns_ite.mp h with ⟨_, hnone⟩ | ⟨hpos, hswept⟩
  · exact .inl (returns_pure.mp hnone).2
  · simp only [returns_bind, returns_pure] at hswept
    obtain ⟨_, _, hd, _, _, hi, _, _, hretire, rfl, rfl⟩ := hswept
    obtain rfl := decreaseStakedBalance_effect hd
    obtain rfl := increaseBalance_effect hi
    refine .inr ⟨by omega, ?_, _, rfl, retireSharesIfWiped_effect hretire⟩
    split <;> omega

end Insurance
end Kryon

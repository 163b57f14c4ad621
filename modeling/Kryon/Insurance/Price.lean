import Kryon.Insurance.Custody
import Kryon.Lib.SharePrice

/-! # What a share is worth

The staked pool is priced by its shares. A share ledger is backed when it claims no
more than its total, and has shares exactly while it has value. -/
namespace Kryon
open Transaction Runs

/-! ## Minting and redeeming at the pool's price -/

namespace Insurance

variable {amount totalShares nav minted shares payout : Int}

theorem mintedShares_spec (hpos : 0 < amount) (hnn : 0 ≤ totalShares) (hnav : 0 ≤ nav)
    (hlive : 0 < totalShares ↔ 0 < nav) (h : mintedShares amount totalShares nav = .ok minted) :
    0 < totalShares + minted ∧ minted * nav ≤ amount * totalShares := by
  unfold mintedShares at h
  split at h
  case isTrue hempty =>
    obtain rfl := Except.ok.inj h
    have hshares : totalShares = 0 := by omega
    have hvalue : nav = 0 := by omega
    simp [hshares, hvalue, hpos]
  case isFalse hheld =>
    obtain ⟨_, _, rfl⟩ := mulDiv_ok.mp h
    have hfloor := SharePrice.tdiv_mul_le (a := amount * totalShares) (d := nav)
      (Int.mul_nonneg hpos.le hnn)
    have hquotient := Int.tdiv_nonneg (Int.mul_nonneg hpos.le hnn) hnav
    exact ⟨by omega, hfloor⟩

/-- A redemption of live shares is rounded down, takes the whole pool with the last
share and leaves value behind otherwise. -/
theorem redemptionValue_spec (hpos : 0 < shares) (hle : shares ≤ totalShares) (hnav : 0 < nav)
    (h : redemptionValue shares nav totalShares = .ok payout) :
    0 ≤ payout ∧ payout * totalShares ≤ shares * nav ∧
      (shares = totalShares → payout = nav) ∧ (shares < totalShares → payout < nav) := by
  unfold redemptionValue at h
  rw [if_neg (by omega)] at h
  obtain ⟨claim, hclaim, hmin⟩ := except_bind_ok.mp h
  obtain rfl := except_pure_ok.mp hmin
  obtain ⟨_, _, rfl⟩ := mulDiv_ok.mp hclaim
  have hnn : 0 ≤ shares * nav := Int.mul_nonneg hpos.le hnav.le
  have hfloor := SharePrice.tdiv_mul_le (d := totalShares) hnn
  have hquotient : 0 ≤ (shares * nav).tdiv totalShares := Int.tdiv_nonneg hnn (by omega)
  have hcapped : min ((shares * nav).tdiv totalShares) nav * totalShares ≤ shares * nav :=
    (Int.mul_le_mul_of_nonneg_right (min_le_left _ _) (by omega)).trans hfloor
  refine ⟨by omega, hcapped, ?_, ?_⟩
  · intro he
    rw [he, Int.mul_tdiv_cancel_left _ (by omega), min_self]
  · intro hpart
    exact SharePrice.paid_lt hnav (by omega) hpart hcapped

end Insurance

/-! ## Backed ledgers -/

namespace InsuranceStorage

/-- The shares claimed are no more than those counted, requests ask for something, and
there are shares exactly while there is value. -/
structure Backed (s : InsuranceStorage) : Prop where
  stamped : s.Stamped
  requested : ∀ {asset staker r}, s.pendingUnstake.get (asset, staker) = some r → 0 < r.shares
  claimed : ∀ asset, ∑ᶠ staker, s.sharesOf asset staker ≤ s.totalSharesOf asset
  staked : ∀ asset, 0 ≤ s.stakedBalanceOf asset
  live : ∀ asset, 0 < s.totalSharesOf asset ↔ 0 < s.stakedBalanceOf asset

variable {s t : InsuranceStorage} {asset staker : Address} {x y : Int}

theorem Backed.sharesOf_le (h : s.Backed) : s.sharesOf asset staker ≤ s.totalSharesOf asset :=
  (single_le_finsum staker (s.finite_support_sharesOf asset) fun u => h.stamped.nonneg asset u).trans
    (h.claimed asset)

theorem Backed.totalSharesOf_nonneg (h : s.Backed) : 0 ≤ s.totalSharesOf asset :=
  (finsum_nonneg fun u => h.stamped.nonneg asset u).trans (h.claimed asset)

/-- The operating reserve and the bad debt back no shares. -/
theorem Backed.withOperating (h : s.Backed) (balance badDebt : Store Address Int) :
    Backed { s with balance, badDebt } :=
  ⟨⟨h.stamped.entry, h.stamped.nonneg, h.stamped.request⟩, h.requested, h.claimed, h.staked, h.live⟩

/-- Value and shares of one asset change together, and those of the others do not. -/
theorem Backed.priced (h : s.Backed) {total : Int}
    (hstaked : ∀ a, t.stakedBalanceOf a = s.stakedBalanceOf a + if a = asset then x else 0)
    (htotal : ∀ a, t.totalSharesOf a = if a = asset then total else s.totalSharesOf a)
    (hnn : 0 ≤ s.stakedBalanceOf asset + x) (hlive : 0 < total ↔ 0 < s.stakedBalanceOf asset + x) :
    (∀ a, 0 ≤ t.stakedBalanceOf a) ∧ ∀ a, 0 < t.totalSharesOf a ↔ 0 < t.stakedBalanceOf a := by
  constructor
  · intro a
    rw [hstaked]
    split
    · subst_vars; exact hnn
    · rw [add_zero]; exact h.staked a
  · intro a
    rw [hstaked, htotal]
    split
    · subst_vars; exact hlive
    · rw [add_zero]; exact h.live a

theorem Backed.mint (h : s.Backed) (hy : 0 ≤ y) (hx : 0 < s.stakedBalanceOf asset + x)
    (htotal : 0 < s.totalSharesOf asset + y) : ((s.addStaked asset x).mint asset staker y).Backed := by
  have hpriced := h.priced (t := (s.addStaked asset x).mint asset staker y)
    (fun a => stakedBalanceOf_addStaked) (fun a => totalSharesOf_mint) hx.le (iff_of_true htotal hx)
  have hstaked : (s.addStaked asset x).Stamped := ⟨h.stamped.entry, h.stamped.nonneg, h.stamped.request⟩
  refine ⟨hstaked.mint hy, h.requested, fun a => ?_, hpriced.1, hpriced.2⟩
  have hold := h.claimed a
  rw [sum_sharesOf_change (fun a u => sharesOf_mint), totalSharesOf_mint]
  show ∑ᶠ u, s.sharesOf a u + _ ≤ if a = asset then s.totalSharesOf asset + y else s.totalSharesOf a
  split
  · subst_vars; omega
  · omega

theorem Backed.addRequest {n : Nat} (h : s.Backed) (hpos : 0 < x)
    (hle : x ≤ s.sharesOf asset staker) : (InsuranceStorage.request s asset staker x n).Backed where
  stamped := h.stamped.addRequest hle
  requested {a u r} hr := by
    by_cases hk : (a, u) = (asset, staker)
    · rw [hk] at hr
      obtain rfl := Option.some.inj ((Store.get_set_self _ _ _).symm.trans hr)
      exact hpos
    · exact h.requested ((Store.get_set_ne hk).symm.trans hr)
  claimed := h.claimed
  staked := h.staked
  live := h.live

theorem Backed.requested_of_remove (h : s.Backed) {a u : Address} {r : PendingUnstakeRequest}
    (hr : (s.pendingUnstake.remove (asset, staker)).get (a, u) = some r) : 0 < r.shares := by
  by_cases hk : (a, u) = (asset, staker)
  · rw [hk, Store.get_remove_self] at hr
    cases hr
  · exact h.requested ((Store.get_remove_ne hk).symm.trans hr)

theorem Backed.discardRequest (h : s.Backed) : (s.discardRequest asset staker).Backed where
  stamped := h.stamped.discardRequest
  requested := h.requested_of_remove
  claimed a := by
    have hold := h.claimed a
    have hnn := h.stamped.nonneg asset staker
    rw [sum_sharesOf_change (fun a u => sharesOf_discardRequest)]
    show _ ≤ s.totalSharesOf a
    split <;> omega
  staked := h.staked
  live := h.live

/-- Redeemed shares leave with their payout `y`: the whole value with the last share. -/
theorem Backed.burn (h : s.Backed) {stakedBalance : Store Address Int}
    (hpaid : ∀ a, stakedBalanceOf { s with stakedBalance } a =
      s.stakedBalanceOf a - if a = asset then y else 0)
    (hx : x ≤ s.sharesOf asset staker) (hy : y ≤ s.stakedBalanceOf asset)
    (hlive : 0 < s.totalSharesOf asset - x ↔ 0 < s.stakedBalanceOf asset - y) :
    (InsuranceStorage.burn { s with stakedBalance } asset staker x).Backed := by
  have htotal : x ≤ s.totalSharesOf asset := hx.trans h.sharesOf_le
  have hpriced := h.priced (t := InsuranceStorage.burn { s with stakedBalance } asset staker x)
    (x := -y) (fun a => ?_) (fun a => totalSharesOf_burn (s := { s with stakedBalance }) htotal)
    (Int.sub_nonneg.mpr hy) hlive
  · have hstaked : Stamped { s with stakedBalance } :=
      ⟨h.stamped.entry, h.stamped.nonneg, h.stamped.request⟩
    refine ⟨hstaked.burn hx, h.requested_of_remove, fun a => ?_, hpriced.1, hpriced.2⟩
    have hold := h.claimed a
    rw [sum_sharesOf_change (fun a u => sharesOf_burn (s := { s with stakedBalance }) hx),
      totalSharesOf_burn (s := { s with stakedBalance }) htotal]
    show ∑ᶠ u, s.sharesOf a u + (if a = asset then s.sharesOf asset staker - x -
      s.sharesOf asset staker else 0) ≤ if a = asset then s.totalSharesOf asset - x else s.totalSharesOf a
    split
    · subst_vars; omega
    · omega
  · show stakedBalanceOf { s with stakedBalance } a = _
    rw [hpaid]
    split <;> omega

/-- A sweep that leaves value behind. -/
theorem Backed.sweep (h : s.Backed) (hle : 0 < s.stakedBalanceOf asset - x)
    (hpos : 0 < x) : (s.addStaked asset (-x)).Backed := by
  have hbefore : 0 < s.totalSharesOf asset := (h.live asset).mpr (by omega)
  have htotal : ∀ a, (s.addStaked asset (-x)).totalSharesOf a =
      if a = asset then s.totalSharesOf asset else s.totalSharesOf a := by
    intro a
    show s.totalSharesOf a = _
    split
    · rename_i ha
      rw [ha]
    · rfl
  have hpriced := h.priced (fun a => stakedBalanceOf_addStaked) htotal hle.le (iff_of_true hbefore hle)
  exact ⟨⟨h.stamped.entry, h.stamped.nonneg, h.stamped.request⟩, h.requested, h.claimed, hpriced.1,
    hpriced.2⟩

/-- A sweep of the whole value retires the shares. -/
theorem Backed.wipe (h : s.Backed) (he : s.stakedBalanceOf asset = x) :
    ((s.addStaked asset (-x)).retire asset).Backed := by
  have hpriced := h.priced (t := (s.addStaked asset (-x)).retire asset) (x := -x)
    (fun a => stakedBalanceOf_addStaked) (fun a => totalSharesOf_retire) (by omega) (by omega)
  have hstaked : (s.addStaked asset (-x)).Stamped :=
    ⟨h.stamped.entry, h.stamped.nonneg, h.stamped.request⟩
  refine ⟨hstaked.retire, h.requested, fun a => ?_, hpriced.1, hpriced.2⟩
  have hold := h.claimed a
  rw [totalSharesOf_retire]
  split
  · rename_i ha
    exact (finsum_eq_zero_of_forall_eq_zero fun u => by rw [hstaked.sharesOf_retire, if_pos ha]).le
  · rename_i ha
    refine le_trans (le_of_eq (finsum_congr fun u => ?_)) hold
    rw [hstaked.sharesOf_retire, if_neg ha]
    rfl

/-- What one share is worth. -/
def sharePrice (s : InsuranceStorage) (asset : Address) : ℚ :=
  (s.stakedBalanceOf asset : ℚ) / s.totalSharesOf asset

end InsuranceStorage

/-! ## What the calls keep -/

open InsuranceStorage

variable {s s' : InsuranceStorage} {op : FundOp}

def FundOp.Sweeps : FundOp → Prop
  | .staking (.sweepToOperating ..) => True
  | _ => False

theorem BooksStep.backed (h : BooksStep s op s') (hs : s.Backed) : s'.Backed := by
  cases h with
  | deposit | payLiquidator | coverDeficit | recordBadDebt | reduceBadDebt =>
    exact hs.withOperating _ _
  | coverNothing | sweepNothing => exact hs
  | @stake env staker asset amount minted hpos hm =>
    have hnav := hs.staked asset
    have hspec := Insurance.mintedShares_spec hpos hs.totalSharesOf_nonneg hnav (hs.live asset) hm
    exact hs.mint (Insurance.mintedShares_nonneg hpos hm) (by omega) hspec.1
  | requestUnstake hpos hle => exact hs.addRequest hpos hle
  | discard => exact hs.discardRequest
  | @redeemNothing env staker asset r payout hr he hv hnone =>
    have hpos := hs.requested hr
    have hle := (hs.stamped.request hr).2 he
    have htotal := hle.trans hs.sharesOf_le
    have hnav := (hs.live asset).mp (by omega)
    obtain ⟨_, _, hall, _⟩ := Insurance.redemptionValue_spec hpos htotal hnav hv
    have hpart : r.shares ≠ s.totalSharesOf asset := fun heq => by have := hall heq; omega
    refine hs.burn (y := 0) (fun a => ?_) hle hnav.le (by omega)
    show s.stakedBalanceOf a = _
    split <;> omega
  | @redeem env staker asset r payout hr he hv hpos =>
    have hreq := hs.requested hr
    have hle := (hs.stamped.request hr).2 he
    have htotal := hle.trans hs.sharesOf_le
    have hnav := (hs.live asset).mp (by omega)
    obtain ⟨_, _, hall, hpart⟩ := Insurance.redemptionValue_spec hreq htotal hnav hv
    refine hs.burn (y := payout) (fun a => ?_) hle ?_ ?_
    · have hleft : (s.addStaked asset (-payout)).stakedBalanceOf a =
        s.stakedBalanceOf a + if a = asset then -payout else 0 := stakedBalanceOf_addStaked
      refine hleft.trans ?_
      split <;> omega
    · rcases htotal.eq_or_lt with heq | hlt
      · exact (hall heq).le
      · exact (hpart hlt).le
    · constructor
      · intro hleft
        have := hpart (by omega)
        omega
      · intro hleft
        have hne : r.shares ≠ s.totalSharesOf asset := fun heq => by have := hall heq; omega
        omega
  | @sweep env asset amount swept t hpos hle ht hlive =>
    rw [ht] at hlive ⊢
    rw [stakedBalanceOf_addBalance, stakedBalanceOf_addStaked, if_pos rfl] at hlive
    have hshares : 0 < s.totalSharesOf asset := (hs.live asset).mpr (by omega)
    have hleft : 0 < s.stakedBalanceOf asset - swept := by
      rcases hlive with hvalue | hnone
      · omega
      · exact absurd hnone (not_le.mpr hshares)
    exact (hs.sweep hleft hpos).withOperating _ _
  | @wipe env asset amount swept t hpos hle ht hwiped hheld =>
    rw [ht] at hwiped ⊢
    rw [stakedBalanceOf_addBalance, stakedBalanceOf_addStaked, if_pos rfl] at hwiped
    exact (hs.wipe (by omega)).withOperating _ _

/-- Only a sweep lowers what a share is worth. -/
theorem BooksStep.sharePrice_le (h : BooksStep s op s') (hs : s.Backed) (hop : ¬ op.Sweeps)
    {asset : Address} (hbefore : 0 < s.totalSharesOf asset) (hafter : 0 < s'.totalSharesOf asset) :
    s.sharePrice asset ≤ s'.sharePrice asset := by
  cases h with
  | deposit | payLiquidator | coverDeficit | recordBadDebt | reduceBadDebt | coverNothing
  | requestUnstake | discard => exact le_rfl
  | sweepNothing | sweep | wipe => exact absurd trivial hop
  | @stake env staker a amount minted hpos hm =>
    have hstaked : ((s.addStaked a amount).mint a staker minted).stakedBalanceOf asset =
      s.stakedBalanceOf asset + if asset = a then amount else 0 := stakedBalanceOf_addStaked
    have htotal : ((s.addStaked a amount).mint a staker minted).totalSharesOf asset =
      if asset = a then s.totalSharesOf a + minted else s.totalSharesOf asset := totalSharesOf_mint
    by_cases ha : asset = a
    · subst ha
      have hspec := Insurance.mintedShares_spec hpos hs.totalSharesOf_nonneg (hs.staked asset)
        (hs.live asset) hm
      rw [sharePrice, sharePrice, hstaked, htotal, if_pos rfl, if_pos rfl]
      exact SharePrice.price_mint hbefore (Insurance.mintedShares_nonneg hpos hm) hspec.2
    · rw [sharePrice, sharePrice, hstaked, htotal, if_neg ha, if_neg ha, Int.add_zero]
  | @redeemNothing env staker a r payout hr he hv hnone =>
    have hpos := hs.requested hr
    have hle := (hs.stamped.request hr).2 he
    have htotal : (s.burn a staker r.shares).totalSharesOf asset =
      if asset = a then s.totalSharesOf a - r.shares else s.totalSharesOf asset :=
        totalSharesOf_burn (hle.trans hs.sharesOf_le)
    by_cases ha : asset = a
    · subst ha
      rw [if_pos rfl] at htotal
      have hpaid : 0 * s.totalSharesOf asset ≤ r.shares * s.stakedBalanceOf asset := by
        rw [Int.zero_mul]
        exact Int.mul_nonneg hpos.le (hs.staked asset)
      have hprice := SharePrice.price_burn hbefore (htotal ▸ hafter) hpaid
      rw [Int.sub_zero] at hprice
      rw [sharePrice, sharePrice, htotal]
      exact hprice
    · rw [sharePrice, sharePrice, htotal, if_neg ha]
      exact le_rfl
  | @redeem env staker a r payout hr he hv hpos =>
    have hreq := hs.requested hr
    have hle := (hs.stamped.request hr).2 he
    have htotal : ((s.addStaked a (-payout)).burn a staker r.shares).totalSharesOf asset =
      if asset = a then s.totalSharesOf a - r.shares else s.totalSharesOf asset :=
        totalSharesOf_burn (s := s.addStaked a (-payout)) (hle.trans hs.sharesOf_le)
    have hstaked : ((s.addStaked a (-payout)).burn a staker r.shares).stakedBalanceOf asset =
      s.stakedBalanceOf asset + if asset = a then -payout else 0 := stakedBalanceOf_addStaked
    by_cases ha : asset = a
    · subst ha
      rw [if_pos rfl] at htotal hstaked
      have hspec := Insurance.redemptionValue_spec hreq (hle.trans hs.sharesOf_le)
        ((hs.live asset).mp hbefore) hv
      rw [sharePrice, sharePrice, htotal, hstaked]
      exact SharePrice.price_burn hbefore (htotal ▸ hafter) hspec.2.1
    · rw [sharePrice, sharePrice, htotal, hstaked, if_neg ha, if_neg ha, Int.add_zero]

/-! ## Staking and leaving at once -/

/-- Redeeming what a stake minted, with nothing in between, pays no more than was staked. -/
theorem round_trip_le {env₁ env₂ env₃ : Env} {staker asset : Address} {amount minted payout : Int}
    {unlockTime : Nat} {w₁ w₁' w₂ w₂' w₃ w₃' : World} (hs : w₁.insurance.books.Backed)
    (hstake : Returns (Insurance.stake env₁ staker asset amount) w₁ minted w₁')
    (hbooks₂ : w₂.insurance.books = w₁'.insurance.books)
    (hrequest : Returns (Insurance.requestUnstake env₂ staker asset minted) w₂ unlockTime w₂')
    (hbooks₃ : w₃.insurance.books = w₂'.insurance.books)
    (hwithdraw : Returns (Insurance.withdrawUnstaked env₃ staker asset) w₃ payout w₃') :
    payout ≤ amount := by
  obtain ⟨_, hpos, hm, tokens, _, rfl⟩ := Insurance.stake_effect hstake
  obtain ⟨hminted, _, _, rfl⟩ := Insurance.requestUnstake_effect hrequest
  obtain ⟨_, request, hr, hleft⟩ := Insurance.withdrawUnstaked_effect hwithdraw
  have hbooks : w₃.insurance.books =
      ((w₁.insurance.books.addStaked asset amount).mint asset staker minted).request asset staker
        minted unlockTime :=
    hbooks₃.trans (congrArg (fun s => s.request asset staker minted unlockTime) hbooks₂)
  have hepoch : w₃.insurance.epochOf asset = w₁.insurance.epochOf asset :=
    congrArg (fun s => s.epochOf asset) hbooks
  have hstaked : w₃.insurance.stakedBalanceOf asset = w₁.insurance.stakedBalanceOf asset + amount := by
    refine (congrArg (fun s => s.stakedBalanceOf asset) hbooks).trans ?_
    exact stakedBalanceOf_addStaked.trans (by rw [if_pos rfl]; rfl)
  have htotal : w₃.insurance.totalSharesOf asset = w₁.insurance.totalSharesOf asset + minted := by
    have hmint : ((w₁.insurance.books.addStaked asset amount).mint asset staker minted).totalSharesOf
        asset = if asset = asset then w₁.insurance.totalSharesOf asset + minted
          else w₁.insurance.totalSharesOf asset := totalSharesOf_mint
    rw [if_pos rfl] at hmint
    exact (congrArg (fun s => s.totalSharesOf asset) hbooks).trans hmint
  have hpending : w₃.insurance.pendingUnstake.get (asset, staker) =
      some { shares := minted, unlockTime, epoch := w₁.insurance.epochOf asset } :=
    (congrArg (fun s => s.pendingUnstake.get (asset, staker)) hbooks).trans (Store.get_set_self _ _ _)
  obtain rfl := Option.some.inj (hpending.symm.trans hr)
  rcases hleft with hstale | hcurrent
  · exact absurd hepoch.symm hstale.1
  · have hnav : 0 ≤ w₁.insurance.stakedBalanceOf asset := hs.staked asset
    have hshares : 0 ≤ w₁.insurance.totalSharesOf asset := hs.totalSharesOf_nonneg
    have hmint := Insurance.mintedShares_spec hpos hshares hnav (hs.live asset) hm
    have hvalue := hcurrent.2.1
    rw [hstaked, htotal] at hvalue
    have hredeem := Insurance.redemptionValue_spec hminted (by omega) (by omega) hvalue
    exact SharePrice.round_trip hmint.1 hmint.2 hredeem.2.1

/-! ## Runs -/

theorem fresh_backed (fund : Address) : (FundView.fresh fund).books.Backed where
  stamped := unstaked_stamped {}
  requested h := by cases h
  claimed _ := (finsum_eq_zero_of_forall_eq_zero fun _ => rfl).le
  staked _ := le_rfl
  live _ := Iff.rfl

theorem FundOp.Step.backed {v v' : FundView} (h : FundOp.Step v op v') (hv : v.books.Backed) :
    v'.books.Backed := by
  obtain ⟨w, w', rfl, rfl, h⟩ := h
  exact (booksStep h).2.backed hv

theorem run_backed {fund : Address} {t : List (FundOp × FundView)}
    (hr : IsRun FundOp.Step (.fresh fund) t) : AllStates (fun v => v.books.Backed) (.fresh fund) t :=
  invariant_of_step (fun _ _ _ hv h => h.backed hv) (fresh_backed fund) hr

/-- **The price of a share.** In every state of a run there are shares exactly while
there is staked value; no call but a sweep lowers what a share is worth; and staking and
redeeming the minted shares, with nothing in between, pays no more than was staked. -/
theorem share_price {fund : Address} {t : List (FundOp × FundView)}
    (hr : IsRun FundOp.Step (.fresh fund) t) :
    AllStates (fun v => ∀ asset, 0 < v.books.totalSharesOf asset ↔ 0 < v.books.stakedBalanceOf asset)
      (.fresh fund) t ∧
    (∀ op v', FundOp.Step (final (.fresh fund) t) op v' → ¬ op.Sweeps → ∀ asset,
      0 < (final (.fresh fund) t).books.totalSharesOf asset → 0 < v'.books.totalSharesOf asset →
      (final (.fresh fund) t).books.sharePrice asset ≤ v'.books.sharePrice asset) ∧
    ∀ {env₁ env₂ env₃ : Env} {staker asset : Address} {amount minted payout : Int} {unlockTime : Nat}
      {w₁ w₁' w₂ w₂' w₃ w₃' : World}, w₁.insurance.books = (final (.fresh fund) t).books →
      Returns (Insurance.stake env₁ staker asset amount) w₁ minted w₁' →
      w₂.insurance.books = w₁'.insurance.books →
      Returns (Insurance.requestUnstake env₂ staker asset minted) w₂ unlockTime w₂' →
      w₃.insurance.books = w₂'.insurance.books →
      Returns (Insurance.withdrawUnstaked env₃ staker asset) w₃ payout w₃' → payout ≤ amount := by
  have hbacked := run_backed hr
  refine ⟨hbacked.mono fun v hv => hv.live, ?_, ?_⟩
  · intro op v' h hop asset hbefore hafter
    have hv := hbacked.at_final
    obtain ⟨w, w', hw, rfl, h⟩ := h
    rw [← hw] at hv hbefore ⊢
    exact (FundOp.booksStep h).2.sharePrice_le hv hop hbefore hafter
  · intro env₁ env₂ env₃ staker asset amount minted payout unlockTime w₁ w₁' w₂ w₂' w₃ w₃' hw
      hstake hbooks₂ hrequest hbooks₃ hwithdraw
    have hv := hbacked.at_final
    rw [← hw] at hv
    exact round_trip_le hv hstake hbooks₂ hrequest hbooks₃ hwithdraw

open Sample in
theorem share_price_served :
    AllStates (fun v => ∀ asset, 0 < v.books.totalSharesOf asset ↔ 0 < v.books.stakedBalanceOf asset)
      (.fresh deployment.insurance) (fundRun served) ∧
    (∀ op v', FundOp.Step (final (.fresh deployment.insurance) (fundRun served)) op v' →
      ¬ op.Sweeps → ∀ asset,
      0 < (final (.fresh deployment.insurance) (fundRun served)).books.totalSharesOf asset →
      0 < v'.books.totalSharesOf asset →
      (final (.fresh deployment.insurance) (fundRun served)).books.sharePrice asset ≤
        v'.books.sharePrice asset) ∧
    ∀ {env₁ env₂ env₃ : Env} {staker asset : Address} {amount minted payout : Int} {unlockTime : Nat}
      {w₁ w₁' w₂ w₂' w₃ w₃' : World},
      w₁.insurance.books = (final (.fresh deployment.insurance) (fundRun served)).books →
      Returns (Insurance.stake env₁ staker asset amount) w₁ minted w₁' →
      w₂.insurance.books = w₁'.insurance.books →
      Returns (Insurance.requestUnstake env₂ staker asset minted) w₂ unlockTime w₂' →
      w₃.insurance.books = w₂'.insurance.books →
      Returns (Insurance.withdrawUnstaked env₃ staker asset) w₃ payout w₃' → payout ≤ amount :=
  share_price (fundRun_isRun (by decide +kernel))

end Kryon

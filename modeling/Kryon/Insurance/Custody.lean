import Kryon.Insurance.Shares

/-! # The fund's books and its tokens

The fund keeps two pools in one token balance: an operating reserve and the staked
capital. First what each call does to the books, as transitions the contract refines;
then the books against the tokens the fund holds. -/
namespace Kryon
open Transaction Runs

inductive FundOp where
  | staking (op : StakingOp)
  | recordBadDebt (env : Env) (asset : Address) (amount : Int)
  | reduceBadDebt (env : Env) (asset : Address) (amount : Int)

def StakingOp.env : StakingOp → Env
  | stake env .. | requestUnstake env .. | withdrawUnstaked env .. | sweepToOperating env ..
  | deposit env .. | payLiquidator env .. | coverDeficit env .. => env

/-- The fund as its books and the tokens behind them. -/
structure FundView where
  address : Address
  books : InsuranceStorage
  holding : Address → Int

/-- The contract's configuration is not part of its books. -/
def InsuranceStorage.books (s : InsuranceStorage) : InsuranceStorage :=
  { s with admin := none, liquidation := none, vault := none }

def World.fund (w : World) : FundView where
  address := w.deployed.insurance
  books := w.insurance.books
  holding asset := w.tokens.held asset w.deployed.insurance

namespace FundOp

def env : FundOp → Env
  | staking op => op.env
  | recordBadDebt env .. | reduceBadDebt env .. => env

def call : FundOp → Tx Unit
  | staking op => op.call
  | recordBadDebt env asset amount => void (Insurance.recordBadDebt env asset amount)
  | reduceBadDebt env asset amount => void (Insurance.reduceBadDebt env asset amount)

/-- One successful call on the fund. The configuration and the rest of the system may
change freely between calls; nobody sends the fund tokens outside of them. -/
abbrev Step : FundView → FundOp → FundView → Prop := CallStep FundOp.call World.fund

end FundOp

/-! ## What a call does to the books -/

open InsuranceStorage in
inductive BooksStep (s : InsuranceStorage) : FundOp → InsuranceStorage → Prop
  | deposit {env funder asset amount} (hpos : 0 < amount) :
      BooksStep s (.staking (.deposit env funder asset amount)) (s.addBalance asset amount)
  | payLiquidator {env liquidator asset amount} (hpos : 0 < amount)
      (hle : amount ≤ s.balanceOf asset) :
      BooksStep s (.staking (.payLiquidator env liquidator asset amount))
        (s.addBalance asset (-amount))
  | coverNothing {env asset amount} : BooksStep s (.staking (.coverDeficit env asset amount)) s
  | coverDeficit {env asset amount covered} (hle : covered ≤ s.balanceOf asset) :
      BooksStep s (.staking (.coverDeficit env asset amount)) (s.addBalance asset (-covered))
  | recordBadDebt {env asset amount} (hpos : 0 < amount) :
      BooksStep s (.recordBadDebt env asset amount)
        (s.setBadDebt asset (s.badDebtOf asset + amount))
  | reduceBadDebt {env asset amount} :
      BooksStep s (.reduceBadDebt env asset amount)
        (s.setBadDebt asset (max 0 (s.badDebtOf asset - amount)))
  | stake {env staker asset amount minted} (hpos : 0 < amount)
      (hm : Insurance.mintedShares amount (s.totalSharesOf asset) (s.stakedBalanceOf asset) =
        .ok minted) :
      BooksStep s (.staking (.stake env staker asset amount))
        ((s.addStaked asset amount).mint asset staker minted)
  | requestUnstake {env staker asset shares unlockTime} (hpos : 0 < shares)
      (hle : shares ≤ s.sharesOf asset staker) :
      BooksStep s (.staking (.requestUnstake env staker asset shares))
        (s.request asset staker shares unlockTime)
  | discard {env staker asset} :
      BooksStep s (.staking (.withdrawUnstaked env staker asset)) (s.discardRequest asset staker)
  | redeemNothing {env staker asset r payout}
      (hr : s.pendingUnstake.get (asset, staker) = some r) (he : r.epoch = s.epochOf asset)
      (hv : Insurance.redemptionValue r.shares (s.stakedBalanceOf asset) (s.totalSharesOf asset) =
        .ok payout) (hnone : payout ≤ 0) :
      BooksStep s (.staking (.withdrawUnstaked env staker asset)) (s.burn asset staker r.shares)
  | redeem {env staker asset r payout}
      (hr : s.pendingUnstake.get (asset, staker) = some r) (he : r.epoch = s.epochOf asset)
      (hv : Insurance.redemptionValue r.shares (s.stakedBalanceOf asset) (s.totalSharesOf asset) =
        .ok payout) (hpos : 0 < payout) :
      BooksStep s (.staking (.withdrawUnstaked env staker asset))
        ((s.addStaked asset (-payout)).burn asset staker r.shares)
  | sweepNothing {env asset amount} : BooksStep s (.staking (.sweepToOperating env asset amount)) s
  | sweep {env asset amount swept t} (hpos : 0 < swept) (hle : swept ≤ s.stakedBalanceOf asset)
      (ht : t = (s.addStaked asset (-swept)).addBalance asset swept)
      (hlive : 0 < t.stakedBalanceOf asset ∨ t.totalSharesOf asset ≤ 0) :
      BooksStep s (.staking (.sweepToOperating env asset amount)) t
  | wipe {env asset amount swept t} (hpos : 0 < swept) (hle : swept ≤ s.stakedBalanceOf asset)
      (ht : t = (s.addStaked asset (-swept)).addBalance asset swept)
      (hwiped : t.stakedBalanceOf asset ≤ 0) (hheld : 0 < t.totalSharesOf asset) :
      BooksStep s (.staking (.sweepToOperating env asset amount)) (t.retire asset)

/-- Every successful call is a transition of the books and leaves the deployment alone. -/
theorem FundOp.booksStep {op : FundOp} {w w' : World} (h : Returns op.call w () w') :
    w'.deployed = w.deployed ∧ BooksStep w.insurance.books op w'.insurance.books := by
  cases op with
  | recordBadDebt env asset amount =>
    obtain ⟨r, h⟩ := returns_void.mp h
    obtain ⟨hpos, rfl⟩ := Insurance.recordBadDebt_effect h
    exact ⟨rfl, .recordBadDebt hpos⟩
  | reduceBadDebt env asset amount =>
    obtain ⟨r, h⟩ := returns_void.mp h
    obtain ⟨rfl, rfl⟩ := Insurance.reduceBadDebt_effect h
    exact ⟨rfl, .reduceBadDebt⟩
  | staking op =>
    cases op with
    | stake env staker asset amount =>
      obtain ⟨r, h⟩ := returns_void.mp h
      obtain ⟨_, hpos, hm, tokens, _, rfl⟩ := Insurance.stake_effect h
      exact ⟨rfl, .stake hpos hm⟩
    | requestUnstake env staker asset shares =>
      obtain ⟨r, h⟩ := returns_void.mp h
      obtain ⟨hpos, hle, _, rfl⟩ := Insurance.requestUnstake_effect h
      exact ⟨rfl, .requestUnstake hpos hle⟩
    | withdrawUnstaked env staker asset =>
      obtain ⟨r, h⟩ := returns_void.mp h
      obtain ⟨_, request, hr, hstale | ⟨he, hv, hpaid⟩⟩ := Insurance.withdrawUnstaked_effect h
      · obtain ⟨_, _, rfl⟩ := hstale
        exact ⟨rfl, .discard⟩
      · rcases hpaid with ⟨hnone, rfl⟩ | ⟨hpos, tokens, _, rfl⟩
        · exact ⟨rfl, .redeemNothing hr he hv hnone⟩
        · exact ⟨rfl, .redeem hr he hv hpos⟩
    | sweepToOperating env asset amount =>
      obtain ⟨r, h⟩ := returns_void.mp h
      rcases Insurance.sweepToOperating_effect h with
        rfl | ⟨hpos, hle, s, rfl, ⟨hlive, rfl⟩ | ⟨hwiped, hheld, rfl⟩⟩
      · exact ⟨rfl, .sweepNothing⟩
      · exact ⟨rfl, .sweep hpos hle rfl hlive⟩
      · have hstep : BooksStep w.insurance.books (.staking (.sweepToOperating env asset amount))
            (((w.insurance.books.addStaked asset (-r)).addBalance asset r).retire asset) :=
          .wipe hpos hle rfl hwiped hheld
        exact ⟨rfl, hstep⟩
    | deposit env funder asset amount =>
      obtain ⟨r, h⟩ := returns_void.mp h
      obtain ⟨_, hpos, tokens, _, rfl⟩ := Insurance.deposit_effect h
      exact ⟨rfl, .deposit hpos⟩
    | payLiquidator env liquidator asset amount =>
      obtain ⟨r, h⟩ := returns_void.mp h
      obtain ⟨hpos, hle, tokens, _, rfl⟩ := Insurance.payLiquidator_effect h
      exact ⟨rfl, .payLiquidator hpos hle⟩
    | coverDeficit env asset amount =>
      obtain ⟨r, h⟩ := returns_void.mp h
      obtain ⟨_, _, ⟨_, rfl⟩ | ⟨hle, _, tokens, _, _, rfl⟩⟩ := Insurance.coverDeficit_effect h
      · exact ⟨rfl, .coverNothing⟩
      · exact ⟨rfl, .coverDeficit hle⟩

/-! ## The books against the tokens -/

/-- What the fund holds beyond its books. -/
def FundView.surplus (v : FundView) (asset : Address) : Int :=
  v.holding asset - (v.books.balanceOf asset + v.books.stakedBalanceOf asset)

/-- A reward whose recipient is the fund leaves the books but not the fund. -/
def FundOp.paidToItself (fund asset : Address) : FundOp → Int
  | staking (.payLiquidator _ liquidator a amount) =>
    if asset = a ∧ fund = liquidator then amount else 0
  | _ => 0

/-- The host of a call on `fund`: token contracts move what they are asked to, and the
fund, which calls only token contracts, authorizes nothing. -/
structure Env.HostOf (env : Env) (fund : Address) : Prop where
  ideal : env.IdealTransfers
  unsigned : ¬ (env.invoker = some fund ∨ env.signed fund = true)

section Surplus

variable {env : Env} {w w' : World} {tokens : Tokens} {asset source target a : Address} {x : Int}

theorem holding_received (hhost : env.HostOf w.deployed.insurance)
    (hauth : env.invoker = some source ∨ env.signed source = true)
    (ht : env.transfer w.tokens asset source w.deployed.insurance x = some tokens) :
    tokens.held a w.deployed.insurance = w.fund.holding a + if a = asset then x else 0 := by
  have hne : w.deployed.insurance ≠ source := by
    intro he
    exact hhost.unsigned (he ▸ hauth)
  rw [hhost.ideal ht]
  simp [hne, World.fund]

theorem holding_sent (hhost : env.HostOf w.deployed.insurance)
    (ht : env.transfer w.tokens asset w.deployed.insurance target x = some tokens) :
    tokens.held a w.deployed.insurance = w.fund.holding a +
      (if a = asset ∧ w.deployed.insurance = target then x else 0) - if a = asset then x else 0 := by
  rw [hhost.ideal ht]
  simp [World.fund]

theorem surplus_fund : w.fund.surplus a = w.tokens.held a w.deployed.insurance -
    (w.insurance.balanceOf a + w.insurance.stakedBalanceOf a) := rfl

/-- A call keeps what the fund holds beyond its books, but for a reward it pays itself. -/
theorem FundOp.surplus_step {op : FundOp} (h : Returns op.call w () w')
    (hhost : op.env.HostOf w.deployed.insurance) :
    w'.fund.surplus a = w.fund.surplus a + op.paidToItself w.deployed.insurance a := by
  cases op with
  | recordBadDebt env asset amount =>
    obtain ⟨r, h⟩ := returns_void.mp h
    obtain ⟨_, rfl⟩ := Insurance.recordBadDebt_effect h
    exact (Int.add_zero _).symm
  | reduceBadDebt env asset amount =>
    obtain ⟨r, h⟩ := returns_void.mp h
    obtain ⟨rfl, rfl⟩ := Insurance.reduceBadDebt_effect h
    exact (Int.add_zero _).symm
  | staking op =>
    cases op with
    | stake env staker asset amount =>
      obtain ⟨r, h⟩ := returns_void.mp h
      obtain ⟨hauth, _, _, tokens, ht, rfl⟩ := Insurance.stake_effect h
      show tokens.held a w.deployed.insurance - (w.insurance.balanceOf a +
        (w.insurance.addStaked asset amount).stakedBalanceOf a) = w.fund.surplus a + 0
      rw [holding_received hhost hauth ht, InsuranceStorage.stakedBalanceOf_addStaked, surplus_fund]
      simp only [World.fund]
      omega
    | requestUnstake env staker asset shares =>
      obtain ⟨r, h⟩ := returns_void.mp h
      obtain ⟨_, _, _, rfl⟩ := Insurance.requestUnstake_effect h
      exact (Int.add_zero _).symm
    | withdrawUnstaked env staker asset =>
      obtain ⟨r, h⟩ := returns_void.mp h
      obtain ⟨hauth, request, _, hstale | ⟨_, _, hpaid⟩⟩ := Insurance.withdrawUnstaked_effect h
      · obtain ⟨_, _, rfl⟩ := hstale
        exact (Int.add_zero _).symm
      · rcases hpaid with ⟨_, rfl⟩ | ⟨_, tokens, ht, rfl⟩
        · exact (Int.add_zero _).symm
        · have hne : w.deployed.insurance ≠ staker := fun he => hhost.unsigned (he ▸ hauth)
          show tokens.held a w.deployed.insurance - (w.insurance.balanceOf a +
            (w.insurance.addStaked asset (-r)).stakedBalanceOf a) = w.fund.surplus a + 0
          rw [holding_sent hhost ht, InsuranceStorage.stakedBalanceOf_addStaked, surplus_fund]
          simp only [World.fund, hne, and_false, if_false]
          split <;> omega
    | sweepToOperating env asset amount =>
      obtain ⟨r, h⟩ := returns_void.mp h
      have hmoved : ∀ s, s = (w.insurance.addStaked asset (-r)).addBalance asset r →
          s.balanceOf a + s.stakedBalanceOf a = w.insurance.balanceOf a + w.insurance.stakedBalanceOf a := by
        rintro s rfl
        rw [InsuranceStorage.balanceOf_addBalance, InsuranceStorage.stakedBalanceOf_addBalance,
          InsuranceStorage.balanceOf_addStaked, InsuranceStorage.stakedBalanceOf_addStaked]
        split <;> omega
      rcases Insurance.sweepToOperating_effect h with
        rfl | ⟨_, _, s, hs, ⟨_, rfl⟩ | ⟨_, _, rfl⟩⟩
      · exact (Int.add_zero _).symm
      · show w.fund.holding a - (s.balanceOf a + s.stakedBalanceOf a) = w.fund.surplus a + 0
        rw [hmoved s hs, Int.add_zero]
        rfl
      · show w.fund.holding a - (s.balanceOf a + s.stakedBalanceOf a) = w.fund.surplus a + 0
        rw [hmoved s hs, Int.add_zero]
        rfl
    | deposit env funder asset amount =>
      obtain ⟨r, h⟩ := returns_void.mp h
      obtain ⟨hauth, _, tokens, ht, rfl⟩ := Insurance.deposit_effect h
      show tokens.held a w.deployed.insurance - ((w.insurance.addBalance asset amount).balanceOf a +
        w.insurance.stakedBalanceOf a) = w.fund.surplus a + 0
      rw [holding_received hhost hauth ht, InsuranceStorage.balanceOf_addBalance, surplus_fund]
      simp only [World.fund]
      omega
    | payLiquidator env liquidator asset amount =>
      obtain ⟨r, h⟩ := returns_void.mp h
      obtain ⟨_, _, tokens, ht, rfl⟩ := Insurance.payLiquidator_effect h
      show tokens.held a w.deployed.insurance -
        ((w.insurance.addBalance asset (-amount)).balanceOf a + w.insurance.stakedBalanceOf a) =
          w.fund.surplus a + if a = asset ∧ w.deployed.insurance = liquidator then amount else 0
      rw [holding_sent hhost ht, InsuranceStorage.balanceOf_addBalance, surplus_fund]
      simp only [World.fund]
      split <;> split <;> omega
    | coverDeficit env asset amount =>
      obtain ⟨r, h⟩ := returns_void.mp h
      obtain ⟨_, _, ⟨_, rfl⟩ | ⟨_, vault, tokens, hauth, ht, rfl⟩⟩ := Insurance.coverDeficit_effect h
      · exact (Int.add_zero _).symm
      · have hne : w.deployed.insurance ≠ vault := fun he => hhost.unsigned (he ▸ hauth)
        show tokens.held a w.deployed.insurance -
          ((w.insurance.addBalance asset (-r)).balanceOf a + w.insurance.stakedBalanceOf a) =
            w.fund.surplus a + 0
        rw [holding_sent hhost ht, InsuranceStorage.balanceOf_addBalance, surplus_fund]
        simp only [World.fund, hne, and_false, if_false]
        split <;> omega

end Surplus

/-! ## Custody -/

/-- The two pools and the recorded bad debt are not negative. -/
structure InsuranceStorage.Solvent (s : InsuranceStorage) : Prop where
  balance : ∀ asset, 0 ≤ s.balanceOf asset
  staked : ∀ asset, 0 ≤ s.stakedBalanceOf asset
  badDebt : ∀ asset, 0 ≤ s.badDebtOf asset

theorem InsuranceStorage.Solvent.addBalance {s : InsuranceStorage} {asset : Address} {x : Int}
    (h : s.Solvent) (hx : 0 ≤ s.balanceOf asset + x) : (s.addBalance asset x).Solvent where
  balance a := by
    have hold := h.balance a
    rw [balanceOf_addBalance]
    split
    · subst_vars; exact hx
    · omega
  staked := h.staked
  badDebt := h.badDebt

theorem InsuranceStorage.Solvent.addStaked {s : InsuranceStorage} {asset : Address} {x : Int}
    (h : s.Solvent) (hx : 0 ≤ s.stakedBalanceOf asset + x) : (s.addStaked asset x).Solvent where
  balance := h.balance
  staked a := by
    have hold := h.staked a
    rw [stakedBalanceOf_addStaked]
    split
    · subst_vars; exact hx
    · omega
  badDebt := h.badDebt

theorem InsuranceStorage.Solvent.setBadDebt {s : InsuranceStorage} {asset : Address} {x : Int}
    (h : s.Solvent) (hx : 0 ≤ x) : (s.setBadDebt asset x).Solvent where
  balance := h.balance
  staked := h.staked
  badDebt a := by
    rw [badDebtOf_setBadDebt]
    split
    · exact hx
    · exact h.badDebt a

theorem InsuranceStorage.Solvent.sweep {s : InsuranceStorage} {asset : Address} {x : Int}
    (h : s.Solvent) (hpos : 0 < x) (hle : x ≤ s.stakedBalanceOf asset) :
    ((s.addStaked asset (-x)).addBalance asset x).Solvent := by
  have hnn := h.balance asset
  refine (h.addStaked (by omega)).addBalance ?_
  rw [balanceOf_addStaked]
  omega

/-- A redemption pays no more than the pool has. -/
theorem Insurance.redemptionValue_le {shares nav totalShares payout : Int} (hnav : 0 ≤ nav)
    (h : redemptionValue shares nav totalShares = .ok payout) : payout ≤ nav := by
  unfold redemptionValue at h
  split at h
  · obtain rfl := Except.ok.inj h
    exact hnav
  · obtain ⟨claim, _, hclaim⟩ := except_bind_ok.mp h
    obtain rfl := except_pure_ok.mp hclaim
    exact min_le_right _ _

theorem BooksStep.solvent {s s' : InsuranceStorage} {op : FundOp} (h : BooksStep s op s')
    (hs : s.Solvent) : s'.Solvent := by
  cases h with
  | @deposit env funder asset amount hpos =>
    have hnn := hs.balance asset
    exact hs.addBalance (by omega)
  | payLiquidator hpos hle => exact hs.addBalance (by omega)
  | coverDeficit hle => exact hs.addBalance (by omega)
  | @recordBadDebt env asset amount hpos =>
    have hnn := hs.badDebt asset
    exact hs.setBadDebt (by omega)
  | reduceBadDebt => exact hs.setBadDebt (le_max_left _ _)
  | @stake env staker asset amount minted hpos hm =>
    have hnn := hs.staked asset
    obtain ⟨hb, hst, hd⟩ := hs.addStaked (x := amount) (by omega : 0 ≤ s.stakedBalanceOf asset + amount)
    exact ⟨hb, hst, hd⟩
  | @redeem env staker asset r payout hr he hv hpos =>
    have hle := Insurance.redemptionValue_le (hs.staked asset) hv
    obtain ⟨hb, hst, hd⟩ := hs.addStaked (x := -payout) (by omega : 0 ≤ s.stakedBalanceOf asset + -payout)
    exact ⟨hb, hst, hd⟩
  | @sweep env asset amount swept t hpos hle ht hlive =>
    rw [ht]
    exact hs.sweep hpos hle
  | @wipe env asset amount swept t hpos hle ht hwiped hheld =>
    have hswept : t.Solvent := ht ▸ hs.sweep hpos hle
    exact ⟨hswept.balance, hswept.staked, hswept.badDebt⟩
  | coverNothing | sweepNothing => exact hs
  | requestUnstake | discard | redeemNothing => exact ⟨hs.balance, hs.staked, hs.badDebt⟩

namespace FundOp

/-- The calls of the stakers, and the sweep. -/
def MovesStake : FundOp → Prop
  | staking (.stake ..) | staking (.withdrawUnstaked ..) | staking (.sweepToOperating ..) => True
  | _ => False

/-- A reward to the fund's own address. -/
def PaysItself (fund : Address) : FundOp → Prop
  | staking (.payLiquidator _ liquidator _ _) => liquidator = fund
  | _ => False

end FundOp

theorem BooksStep.staked {s s' : InsuranceStorage} {op : FundOp} (h : BooksStep s op s')
    (hop : ¬ op.MovesStake) (asset : Address) :
    s'.stakedBalanceOf asset = s.stakedBalanceOf asset := by
  cases h with
  | stake | discard | redeemNothing | redeem | sweepNothing | sweep | wipe => exact absurd trivial hop
  | deposit | payLiquidator | coverNothing | coverDeficit | recordBadDebt | reduceBadDebt
  | requestUnstake => rfl

/-- The fund holds exactly what its books say. -/
def FundView.Custody (v : FundView) : Prop :=
  ∀ asset, v.holding asset = v.books.balanceOf asset + v.books.stakedBalanceOf asset

/-- A fund nobody has called yet. -/
def FundView.fresh (address : Address) : FundView where
  address
  books := {}
  holding _ := 0

namespace FundOp

variable {fund : Address} {v v' : FundView} {op : FundOp} {t : List (FundOp × FundView)}

theorem Step.solvent (h : op.Step v v') (hv : v.books.Solvent) : v'.books.Solvent := by
  obtain ⟨w, w', rfl, rfl, h⟩ := h
  exact (booksStep h).2.solvent hv

theorem Step.staked (h : op.Step v v') (hop : ¬ op.MovesStake) (asset : Address) :
    v'.books.stakedBalanceOf asset = v.books.stakedBalanceOf asset := by
  obtain ⟨w, w', rfl, rfl, h⟩ := h
  exact (booksStep h).2.staked hop asset

/-- From custody, exactly the rewards to the fund itself break it. -/
theorem Step.keeps_custody_iff (h : op.Step v v') (hhost : op.env.HostOf v.address) (hv : v.Custody) :
    v'.Custody ↔ ¬ op.PaysItself v.address := by
  obtain ⟨w, w', rfl, rfl, h⟩ := h
  have hmoved : ∀ a, w'.fund.surplus a = op.paidToItself w.deployed.insurance a := by
    intro a
    have hzero : w.fund.surplus a = 0 := sub_eq_zero.mpr (hv a)
    rw [surplus_step h hhost, hzero, zero_add]
  have hcustody : w'.fund.Custody ↔ ∀ a, op.paidToItself w.deployed.insurance a = 0 := by
    simp only [FundView.Custody, ← hmoved, FundView.surplus, sub_eq_zero]
  rw [hcustody]
  have hbooks := (booksStep h).2
  generalize w'.insurance.books = s' at hbooks
  cases hbooks with
  | @payLiquidator env liquidator asset amount hpos hle =>
    constructor
    · intro hnone hself
      have hamount := hnone asset
      simp only [paidToItself, PaysItself] at hamount hself
      rw [if_pos ⟨trivial, hself.symm⟩] at hamount
      omega
    · intro hother a
      simp only [paidToItself]
      exact if_neg fun hself => hother hself.2.symm
  | _ => exact iff_of_true (fun _ => rfl) not_false

theorem Step.address (h : op.Step v v') : v'.address = v.address := by
  obtain ⟨w, w', rfl, rfl, h⟩ := h
  exact congrArg Deployment.insurance (booksStep h).1

/-- **Custody.** Over every run of the fund's calls from a fresh fund, with token
contracts that move what they are asked to, the fund holds its two pools exactly in
every state if and only if no reward of the run is paid to the fund itself. Both pools
and the bad debt are never negative, and only the stakers' calls and the sweep change
the staked pool. -/
theorem custody_iff (hr : IsRun FundOp.Step (.fresh fund) t)
    (hhost : ∀ e ∈ t, e.1.env.HostOf fund) :
    (AllStates FundView.Custody (.fresh fund) t ↔ ∀ e ∈ t, ¬ e.1.PaysItself fund) ∧
    AllStates (fun v => v.books.Solvent) (.fresh fund) t ∧
    ∀ op v', FundOp.Step (final (.fresh fund) t) op v' → ¬ op.MovesStake → ∀ asset,
      v'.books.stakedBalanceOf asset = (final (.fresh fund) t).books.stakedBalanceOf asset := by
  refine ⟨?_, ?_, fun op v' h hop => h.staked hop⟩
  · refine Iff.trans ?_ (allSteps_labels (Q := fun op : FundOp => ¬ op.PaysItself fund)
      (s := FundView.fresh fund))
    refine allStates_iff_allSteps (I := fun v => v.address = fund)
      (fun v op v' hv h => h.1.address.trans hv) (fun v op v' hv hc h => ?_) rfl (fun _ => rfl)
      (hr.and ((allSteps_labels (Q := fun op : FundOp => op.env.HostOf fund)).mpr hhost))
    obtain ⟨hstep, hop⟩ := h
    rw [← hv] at hop ⊢
    exact hstep.keeps_custody_iff hop hc
  · exact invariant_of_step (fun _ _ _ hv h => h.solvent hv)
      ⟨fun _ => le_rfl, fun _ => le_rfl, fun _ => le_rfl⟩ hr

end FundOp

/-! ## A reward the fund pays itself -/

namespace Sample

/-- A token ledger: what the source lacks is not sent. -/
def move (tokens : Tokens) (asset source target : Address) (amount : Int) : Option Tokens :=
  if tokens.held asset source < amount then none
  else
    let debited : Tokens := tokens.set (asset, source) (tokens.held asset source - amount)
    some (debited.set (asset, target) (debited.held asset target + amount))

/-- Token ledgers that add up; every account signs and no contract does. -/
def bank (now : Nat) : Env := { host now with
  transfer := move
  signed := fun
    | .account _ => true
    | .contract _ => false }

theorem held_set {tokens : Tokens} {asset holder a h : Address} {x : Int} :
    Tokens.held (tokens.set (asset, holder) x) a h =
      if a = asset ∧ h = holder then x else tokens.held a h := by
  by_cases hk : a = asset ∧ h = holder
  · obtain ⟨rfl, rfl⟩ := hk
    simp [Tokens.held]
  · rw [if_neg hk, Tokens.held, Store.get_set_ne fun he => hk (Prod.mk.inj he), Tokens.held]

theorem bank_hostOf (now : Nat) : (bank now).HostOf deployment.insurance where
  ideal {tokens tokens' asset source target amount} h a holder := by
    simp only [bank, move] at h
    split at h
    · cases h
    · obtain rfl := Option.some.inj h
      rw [held_set, held_set, held_set]
      by_cases hs : holder = source <;> by_cases ht : holder = target <;> by_cases ha : a = asset <;>
        simp_all
  unsigned := by simp [bank, host, deployment]

/-- A fund whose rewards an account pays out, and a thousand tokens with alice. -/
def rewarded : World :=
  let w := world (100 * precision) 1000
  { w with
    insurance := { w.insurance with liquidation := some keeper }
    tokens := (∅ : Tokens).set (usdc, alice) 1000 }

theorem rewarded_fresh : rewarded.fund = .fresh deployment.insurance := by
  have hnone : rewarded.fund.holding = fun _ => 0 := by
    funext a
    simp [rewarded, World.fund, Tokens.held, alice, world, wired, deployment]
  exact congrArg (FundView.mk deployment.insurance {}) hnone

def deposits : FundOp := .staking (.deposit (bank 1000) alice usdc 100)

/-- The reward goes to the fund's own address. -/
def selfPaid : List FundOp := [
  deposits, .staking (.payLiquidator (bank 1000) deployment.insurance usdc 100)]

/-- Alice deposits, stakes and leaves again; the keeper is rewarded in between. -/
def served : List FundOp := [
  deposits,
  .staking (.stake (bank 1000) alice usdc 50),
  .staking (.requestUnstake (bank 1000) alice usdc 50),
  .staking (.payLiquidator (bank 1000) keeper usdc 30),
  .staking (.withdrawUnstaked (bank 605800) alice usdc)]

def fundRun (ops : List FundOp) : List (FundOp × FundView) :=
  viewed World.fund (execute FundOp.call rewarded ops)

theorem fundRun_isRun {ops : List FundOp} (h : allSucceed FundOp.call rewarded ops = true) :
    IsRun FundOp.Step (.fresh deployment.insurance) (fundRun ops) :=
  rewarded_fresh ▸ isRun_execute h

end Sample

open Sample in
/-- A reward paid to the fund's own address leaves its books and not its tokens. -/
theorem not_custody_selfPaid :
    IsRun FundOp.Step (.fresh deployment.insurance) (fundRun selfPaid) ∧
    (∀ e ∈ fundRun selfPaid, e.1.env.HostOf deployment.insurance) ∧
    ¬ AllStates FundView.Custody (.fresh deployment.insurance) (fundRun selfPaid) := by
  refine ⟨fundRun_isRun (by decide +kernel), ?_, ?_⟩
  · intro e he
    simp only [fundRun, viewed, execute, selfPaid, List.map_cons, List.map_nil, List.mem_cons,
      List.not_mem_nil, or_false] at he
    rcases he with rfl | rfl <;> exact bank_hostOf _
  · intro h
    have hlast := h.at_final usdc
    revert hlast
    decide +kernel

open Sample in
theorem custody_iff_served :
    (AllStates FundView.Custody (.fresh deployment.insurance) (fundRun served) ↔
      ∀ e ∈ fundRun served, ¬ e.1.PaysItself deployment.insurance) ∧
    AllStates (fun v => v.books.Solvent) (.fresh deployment.insurance) (fundRun served) ∧
    ∀ op v', FundOp.Step (final (.fresh deployment.insurance) (fundRun served)) op v' →
      ¬ op.MovesStake → ∀ asset, v'.books.stakedBalanceOf asset =
        (final (.fresh deployment.insurance) (fundRun served)).books.stakedBalanceOf asset := by
  refine FundOp.custody_iff (fundRun_isRun (by decide +kernel)) ?_
  intro e he
  simp only [fundRun, viewed, execute, served, List.map_cons, List.map_nil, List.mem_cons,
    List.not_mem_nil, or_false] at he
  rcases he with rfl | rfl | rfl | rfl | rfl <;> exact bank_hostOf _

end Kryon

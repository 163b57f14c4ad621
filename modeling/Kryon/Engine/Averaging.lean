import Kryon.Accounts
import Kryon.Engine.Worth
import Kryon.Risk.Identity
import Kryon.Vault.Equity

/-! # The cost basis of a position that grows

`increase_position` divides the sum of two truncated notionals by the new size. The entry price
it stores never exceeds the weighted average, and at any mark the grown position makes what the
old one and the added size would make, within a few units and the scale of its own rounding. -/
namespace Kryon
open Transaction Runs Engine Truncation

/-- A position of some size, bought or sold at some price. -/
def Position.Positive (p : Position) : Prop := 0 < p.size ∧ 0 < p.entryPrice

instance : DecidablePred Position.Positive := fun p =>
  inferInstanceAs (Decidable (0 < p.size ∧ 0 < p.entryPrice))

variable {env : Env} {w w' : World} {user asset : Address} {positionId : Nat}
  {size price entry mark : Int} {p : Position}

/-! ## The averaged price -/

theorem signedPositionPnl_positive {pnl : Int} (h : signedPositionPnl p mark = .ok pnl) :
    p.Positive := by
  simp only [signedPositionPnl, except_bind_ok, reject_ok] at h
  obtain ⟨_, hpos, _⟩ := h
  exact ⟨by omega, by omega⟩

/-- The pnl of a position is within one unit of its exact pnl. -/
theorem signedPositionPnl_near {pnl : Int} (h : signedPositionPnl p mark = .ok pnl) :
    |(pnl : ℚ) - tradePnl p.isLong p.size p.entryPrice mark| < 1 := by
  rw [signedPositionPnl_ok h]
  have hnear := abs_tdiv_sub_lt (p.size * p.unitGain mark) precision_pos
  have hexact : tradePnl p.isLong p.size p.entryPrice mark =
      ((p.size * p.unitGain mark : Int) : ℚ) / precision := by
    unfold tradePnl Position.unitGain sideSign
    cases p.isLong <;> push_cast <;> simp
    ring
  rw [hexact]
  exact hnear

/-- The averaged entry price does not exceed the weighted average, nor either price. -/
theorem averagedEntry_le (hp : p.Positive) (hsize : 0 < size) (hprice : 0 < price)
    (h : averagedEntry p size price (p.size + size) = .ok entry) :
    entry * (p.size + size) ≤ p.size * p.entryPrice + size * price ∧
      entry ≤ max p.entryPrice price := by
  simp only [averagedEntry, except_bind_ok, mulPrecision_ok, checkedAdd_ok, divPrecision_ok] at h
  obtain ⟨_, ⟨_, rfl⟩, _, ⟨_, rfl⟩, _, ⟨_, rfl⟩, _, _, rfl⟩ := h
  obtain ⟨hold, hentry⟩ := hp
  have htotal : 0 < p.size + size := by omega
  have hfirst : 0 ≤ p.size * p.entryPrice := mul_nonneg hold.le hentry.le
  have hsecond : 0 ≤ size * price := mul_nonneg hsize.le hprice.le
  rw [Int.tdiv_eq_ediv_of_nonneg hfirst, Int.tdiv_eq_ediv_of_nonneg hsecond]
  have hfloors := add_nonneg (Int.ediv_nonneg hfirst precision_pos.le)
    (Int.ediv_nonneg hsecond precision_pos.le)
  rw [Int.tdiv_eq_ediv_of_nonneg (mul_nonneg hfloors precision_pos.le)]
  have haverage : (p.size * p.entryPrice / precision + size * price / precision) * precision /
      (p.size + size) * (p.size + size) ≤ p.size * p.entryPrice + size * price := by
    calc (p.size * p.entryPrice / precision + size * price / precision) * precision /
          (p.size + size) * (p.size + size)
        ≤ (p.size * p.entryPrice / precision + size * price / precision) * precision :=
          Int.ediv_mul_le _ htotal.ne'
      _ = p.size * p.entryPrice / precision * precision + size * price / precision * precision :=
          add_mul _ _ _
      _ ≤ p.size * p.entryPrice + size * price :=
          add_le_add (Int.ediv_mul_le _ precision_pos.ne') (Int.ediv_mul_le _ precision_pos.ne')
  refine ⟨haverage, le_of_mul_le_mul_right ?_ htotal⟩
  calc _ ≤ p.size * p.entryPrice + size * price := haverage
    _ ≤ p.size * max p.entryPrice price + size * max p.entryPrice price :=
        add_le_add (mul_le_mul_of_nonneg_left (le_max_left _ _) hold.le)
          (mul_le_mul_of_nonneg_left (le_max_right _ _) hsize.le)
    _ = max p.entryPrice price * (p.size + size) := by ring

/-- **Averaging keeps the pnl**, at every mark. -/
theorem averagedEntry_pnl {q : Position} {whole old added : Int} (hsize : q.size = p.size + size)
    (hside : q.isLong = p.isLong) (h : averagedEntry p size price (p.size + size) = .ok q.entryPrice)
    (hwhole : signedPositionPnl q mark = .ok whole) (hold : signedPositionPnl p mark = .ok old)
    (hadded : signedPositionPnl { p with size, entryPrice := price } mark = .ok added) :
    |whole - (old + added)| * precision < 5 * precision + (p.size + size) := by
  obtain ⟨hpos, _⟩ := signedPositionPnl_positive hwhole
  have hcost := averagedEntry_near (by omega) h
  have hwhole := signedPositionPnl_near hwhole
  have hold := signedPositionPnl_near hold
  have hadded := signedPositionPnl_near hadded
  have hexact : tradePnl q.isLong q.size q.entryPrice mark -
      (tradePnl p.isLong p.size p.entryPrice mark + tradePnl p.isLong size price mark) =
      sideSign p.isLong * -(((p.size + size : Int) * q.entryPrice / precision : ℚ) -
        (p.size * p.entryPrice + size * price) / precision) := by
    unfold tradePnl
    rw [hside, hsize]
    push_cast
    ring
  have hdrift : |tradePnl q.isLong q.size q.entryPrice mark -
      (tradePnl p.isLong p.size p.entryPrice mark + tradePnl p.isLong size price mark)| <
      2 + (p.size + size : Int) / (precision : ℚ) := by
    rw [hexact, abs_sideSign_mul, abs_neg]
    exact hcost
  have hbound : |(whole : ℚ) - (old + added)| < 5 + (p.size + size : Int) / (precision : ℚ) := by
    rw [abs_lt] at hwhole hold hadded hdrift ⊢
    constructor <;> linarith
  have hscaled := (mul_lt_mul_iff_left₀ precision_rat_pos).mpr hbound
  rw [add_mul, div_mul_cancel₀ _ precision_rat_pos.ne'] at hscaled
  exact_mod_cast hscaled

/-! ## Positions that health accepts -/

/-- Health fails on a position without a size or an entry price. -/
theorem Vault.accountHealth_positive {health : AccountHealth}
    (h : Vault.accountHealth env w user asset = .ok health) :
    ∀ q ∈ w.vault.loadPositions user, q.Positive := by
  simp only [Vault.accountHealth, except_bind_ok] at h
  obtain ⟨account, hacc, markets, _, hh⟩ := h
  intro q hq
  rw [← Vault.loaded_positions hacc] at hq
  obtain ⟨m, hvalued⟩ := (accountHealth_required hh).1 q hq
  exact signedPositionPnl_positive hvalued.trade

theorem aboveInitialMargin_positive (h : AboveInitialMargin env w user) :
    ∀ q ∈ w.vault.loadPositions user, q.Positive := by
  obtain ⟨_, _, _, hhealth, _⟩ := h
  exact Vault.accountHealth_positive hhealth

/-- Reducing a position keeps its price, and drops it at size zero. -/
theorem replaceOrRemove_positive {positions : List Position} {index : Nat} {q : Position}
    (hall : ∀ p ∈ positions, p.Positive) (hsize : 0 ≤ q.size) (hentry : 0 < q.entryPrice) :
    ∀ p ∈ replaceOrRemove positions index q, p.Positive := by
  intro p hp
  rcases mem_replaceOrRemove hp with hold | ⟨rfl, hleft⟩
  · exact hall p hold
  · exact ⟨by omega, hentry⟩

/-- Whatever the engine trades, the positions it stores stay positive. -/
theorem EngineOp.positive {op : EngineOp} (hs : w.accounts.Every Position.Positive)
    (h : Returns op.call w () w') : w'.accounts.Every Position.Positive := by
  have reduced : ∀ {env user positionId size price requireInitialMargin r},
      Returns (reducePositionInternal env user positionId size price requireInitialMargin) w r w' →
      w'.accounts.Every Position.Positive := by
    intro env user positionId size price _ r h
    obtain ⟨_, _, index, p, _, _, _, hindex, _, hle, _, _, ht, _⟩ := reducePositionInternal_effect h
    have hp : p.Positive := hs.loaded p (List.mem_of_getElem? hindex)
    have hleft : 0 ≤ p.size - size := by omega
    refine hs.traded (replaceOrRemove_positive hs.loaded ?_ ?_) ht
    · exact hleft
    · exact hp.2
  cases op with
  | openPosition env user marketId size isLong executionPrice mode =>
    obtain ⟨_, h⟩ := returns_void.mp h
    obtain ⟨_, _, hsize, hprice, p, _, _, hpsize, _, hentry, _, _, _, ht, _⟩ := openPosition_effect h
    refine hs.traded (fun q hq => ?_) ht
    rcases List.mem_append.mp hq with hold | hnew
    · exact hs.loaded q hold
    · rw [List.mem_singleton.mp hnew]
      exact ⟨by omega, by omega⟩
  | increasePosition env user positionId sizeDelta executionPrice =>
    obtain ⟨_, h⟩ := returns_void.mp h
    obtain ⟨_, _, _, _, _, _, _, _, _, _, ht, _, habove, _⟩ := increasePosition_effect h
    obtain ⟨_, _, hpositions, _⟩ := ht.account
    have hall := aboveInitialMargin_positive habove
    rw [hpositions] at hall
    exact hs.traded hall ht
  | reducePosition env user positionId sizeDelta executionPrice =>
    obtain ⟨_, h⟩ := returns_void.mp h
    exact reduced (reducePosition_internal h)
  | closePosition env user positionId executionPrice =>
    obtain ⟨_, h⟩ := returns_void.mp h
    obtain ⟨_, h⟩ := closePosition_internal h
    exact reduced h
  | liquidateReduce env user positionId sizeDelta executionPrice =>
    obtain ⟨_, h⟩ := returns_void.mp h
    exact reduced (liquidateReduce_internal h)

/-- Every position that the engine stores is positive, where the imported ones are. -/
theorem positive_run {t : List (AccountOp × Accounts)} (hr : IsRun AccountOp.Step {} t)
    (hc : AllSteps (fun _ op => op.Imports Position.Positive) {} t) :
    AllStates (Accounts.Every Position.Positive) {} t := by
  have hstep : ∀ s (op : AccountOp) s', s.Every Position.Positive → op.Imports Position.Positive →
      op.Step s s' → s'.Every Position.Positive :=
    fun s op s' hs hc h => AccountOp.Step.every EngineOp.positive hs hc h
  have hempty : Accounts.Every Position.Positive {} := fun _ _ h => by cases h
  exact invariant hstep hempty hr hc

/-! ## Growing a position -/

/-- `q` is `p` grown by `size` at `price`: it costs no more than the two did, and makes what they
make at every mark. -/
structure GrownFrom (p q : Position) (size price : Int) : Prop where
  pnl : ∀ mark whole old added, signedPositionPnl q mark = .ok whole →
    signedPositionPnl p mark = .ok old →
    signedPositionPnl { p with size, entryPrice := price } mark = .ok added →
    |whole - (old + added)| * precision < 5 * precision + (p.size + size)
  average : p.Positive → q.entryPrice * (p.size + size) ≤ p.size * p.entryPrice + size * price ∧
    q.entryPrice ≤ max p.entryPrice price
  positive : 0 < q.entryPrice
  total : q.size = p.size + size

/-- **Increasing a position preserves its cost basis.** A successful increase leaves a position
whose pnl at any mark is that of the two parts within five units and the rounding of its entry
price, whose entry price is positive and at most the weighted average; and in every state of a run
that imports positive positions, every stored position is positive. -/
theorem increase_preserves_cost_basis :
    (∀ {env : Env} {w w' : World} {user : Address} {positionId : Nat} {size price : Int}
      {r : TradeResult}, Returns (increasePosition env user positionId size price) w r w' →
      ∃ index p q, findPosition (w.engine.loadPositions user) positionId = .ok (index, p) ∧
        findPosition (w'.engine.loadPositions user) positionId = .ok (index, q) ∧
        GrownFrom p q size price) ∧
    ∀ {t : List (AccountOp × Accounts)}, IsRun AccountOp.Step {} t →
      AllSteps (fun _ op => op.Imports Position.Positive) {} t →
      AllStates (Accounts.Every Position.Positive) {} t := by
  refine ⟨?_, fun hr hc => positive_run hr hc⟩
  intro env w w' user positionId size price r h
  obtain ⟨hsize, hprice, index, p, _, entry, hindex, _, _, haverage, ht, _, habove, hfind, _⟩ :=
    increasePosition_effect h
  have hloaded := ht.loadPositions user
  rw [if_pos rfl] at hloaded
  obtain ⟨_, _, hpositions, _⟩ := ht.account
  obtain ⟨hlt, _⟩ := List.getElem?_eq_some_iff.mp hindex
  have hq : Position.Positive { p with
      entryPrice := entry, size := p.size + size
      lastFundingIndex := currentFundingIndex env w.engine p } := by
    refine aboveInitialMargin_positive habove _ ?_
    rw [hpositions]
    exact List.mem_set hlt _
  refine ⟨index, p, _, hfind, ?_, ?_, ?_, hq.2, rfl⟩
  · rw [hloaded]
    exact findPosition_set hfind rfl
  · intro mark whole old added hwhole hold hadded
    refine averagedEntry_pnl ?_ ?_ ?_ hwhole hold hadded
    · rfl
    · rfl
    · exact haverage
  · intro hp
    exact averagedEntry_le hp hsize hprice haverage

namespace Sample

/-- Alice adds to her unit at 101. -/
def increase : Tx TradeResult := increasePosition (host 1000) alice 1 3 (101 * precision)

/-- Alice deposits the margin of ten units and buys one. -/
def buyingOne : List AccountOp :=
  [.vault (.deposit (host 1000) alice usdc (100 * precision)),
    .trade (.openPosition (host 1000) alice 1 precision true (100 * precision) .cross)]

def holding : World := final exchange (execute AccountOp.call exchange buyingOne)

end Sample

open Sample in
/-- Three base units bought at 101 leave the average where it was. -/
theorem increase_preserves_cost_basis_dust :
    (∃ r w' index p q, Returns increase holding r w' ∧
      findPosition (holding.engine.loadPositions alice) 1 = .ok (index, p) ∧
      findPosition (w'.engine.loadPositions alice) 1 = .ok (index, q) ∧
      GrownFrom p q 3 (101 * precision)) ∧
    AllStates (Accounts.Every Position.Positive) {}
      (viewed World.accounts (execute AccountOp.call exchange buyingOne)) := by
  obtain ⟨r, hcall⟩ := returns_commit (x := increase) (s := holding) (by decide +kernel)
  obtain ⟨hgrown, hrun⟩ := increase_preserves_cost_basis
  obtain ⟨index, p, q, hbefore, hafter, hbasis⟩ := hgrown hcall
  refine ⟨⟨r, _, index, p, q, hcall, hbefore, hafter, hbasis⟩, hrun ?_ ?_⟩
  · exact isRun_execute (w := exchange) (by decide +kernel)
  · exact ⟨trivial, trivial, trivial⟩

end Kryon

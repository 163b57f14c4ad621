import Kryon.Engine.Book
import Kryon.Lib.Truncation
import Mathlib.Tactic.Ring

/-! # What the book is worth

The settlement balances of all accounts, and for every stored position of the markets
that are marked its exact trade and funding pnl at the mark. A trade moves it by the
trade's own pnl at the mark and its truncated divisions; an accrual of funding moves
it by one truncated division. -/
namespace Kryon
open Transaction Engine Truncation

/-- One for a long position, minus one for a short one. -/
def sideSign (isLong : Bool) : ℚ := if isLong then 1 else -1

@[simp] theorem sideSign_not (isLong : Bool) : sideSign (!isLong) = -sideSign isLong := by
  cases isLong <;> simp [sideSign]

@[simp] theorem abs_sideSign_mul (isLong : Bool) (x : ℚ) : |sideSign isLong * x| = |x| := by
  cases isLong <;> simp [sideSign]

/-- The pnl at mark `m` of `size` bought or sold at `price`, in base units. -/
def tradePnl (isLong : Bool) (size price : Int) (m : ℚ) : ℚ :=
  sideSign isLong * (size * (m - price) / precision)

/-- The exact trade pnl at mark `m` and the exact funding pnl at `index`, in base units. -/
def Position.worth (p : Position) (m : ℚ) (index : Int) : ℚ :=
  tradePnl p.isLong p.size p.entryPrice m - p.size * (index - p.lastFundingIndex) / precision

/-- The settlement balances of all accounts. -/
noncomputable def VaultStorage.holdings (v : VaultStorage) (asset : Address) : ℚ :=
  v.balance.sum fun key amount => if key.2 = asset then (amount : ℚ) else 0

namespace EngineStorage

variable (s : EngineStorage)

def fundingIndexOf (marketId : Nat) (isLong : Bool) : Int :=
  (s.fundingState.get marketId).elim 0 fun f => if isLong then f.longIndex else f.shortIndex

/-- What a stored position is worth at its market's mark; nothing in an unmarked market. -/
def worthOf (marks : Nat → Option ℚ) (p : Position) : ℚ :=
  (marks p.marketId).elim 0 fun m => p.worth m (s.fundingIndexOf p.marketId p.isLong)

/-- The size a user holds in a market. -/
def sizeIn (user : Address) (marketId : Nat) : Int :=
  ((s.loadPositions user).map fun p => if p.marketId = marketId then p.size else 0).sum

end EngineStorage

/-- Balances and positions together, at the marks given. -/
noncomputable def bookValue (marks : Nat → Option ℚ) (asset : Address) (s : EngineStorage)
    (v : VaultStorage) : ℚ :=
  v.holdings asset + s.positions.sum fun _ positions => (positions.map (s.worthOf marks)).sum

theorem currentFundingIndex_eq (env : Env) (s : EngineStorage) (p : Position) :
    currentFundingIndex env s p = s.fundingIndexOf p.marketId p.isLong := by
  unfold currentFundingIndex EngineStorage.fundingStateOf EngineStorage.fundingIndexOf
  cases s.fundingState.get p.marketId with
  | none => simp
  | some f => rfl

/-! ## Rounding -/

theorem precision_rat_pos : (0 : ℚ) < (precision : ℚ) := Int.cast_pos.mpr precision_pos

/-- Settled funding is within one unit of the exact funding pnl. -/
theorem fundingPnl_near {p : Position} {index pnl : Int} (h : fundingPnl p index = .ok pnl) :
    |(pnl : ℚ) + p.size * (index - p.lastFundingIndex) / precision| < 1 := by
  simp only [fundingPnl, except_bind_ok, checkedSub_ok, mulPrecision_ok] at h
  obtain ⟨_, ⟨_, rfl⟩, _, ⟨_, rfl⟩, _, rfl⟩ := h
  have hnear := abs_tdiv_sub_lt (p.size * (index - p.lastFundingIndex)) precision_pos
  push_cast at hnear ⊢
  rw [← abs_neg]
  convert hnear using 2
  ring

/-- Realised pnl is within one unit of the exact pnl at the execution price. -/
theorem realizedPnl_near {p : Position} {size price r : Int}
    (h : realizedPnl p size price = .ok r) :
    |(r : ℚ) - tradePnl p.isLong size p.entryPrice price| < 1 := by
  unfold realizedPnl at h
  unfold tradePnl
  cases hl : p.isLong with
  | true =>
    simp only [hl, if_true, except_bind_ok, checkedSub_ok, mulPrecision_ok] at h
    obtain ⟨_, ⟨_, rfl⟩, _, rfl⟩ := h
    have hnear := abs_tdiv_sub_lt (size * (price - p.entryPrice)) precision_pos
    push_cast at hnear ⊢
    convert hnear using 2
    simp [sideSign]
  | false =>
    simp only [hl, Bool.false_eq_true, if_false, except_bind_ok, checkedSub_ok,
      mulPrecision_ok] at h
    obtain ⟨_, ⟨_, rfl⟩, _, rfl⟩ := h
    have hnear := abs_tdiv_sub_lt (size * (p.entryPrice - price)) precision_pos
    push_cast at hnear ⊢
    convert hnear using 2
    simp only [sideSign, Bool.false_eq_true, if_false]
    ring

/-- The averaged entry prices the whole size within two units and its own rounding. -/
theorem averagedEntry_near {p : Position} {size price total entry : Int} (htotal : 0 < total)
    (h : averagedEntry p size price total = .ok entry) :
    |(total * entry / precision : ℚ) - (p.size * p.entryPrice + size * price) / precision| <
      2 + total / precision := by
  simp only [averagedEntry, except_bind_ok, mulPrecision_ok, checkedAdd_ok, divPrecision_ok] at h
  obtain ⟨_, ⟨_, rfl⟩, _, ⟨_, rfl⟩, _, ⟨_, rfl⟩, _, _, rfl⟩ := h
  have hold := abs_tdiv_sub_lt (p.size * p.entryPrice) precision_pos
  have hadded := abs_tdiv_sub_lt (size * price) precision_pos
  set a := (p.size * p.entryPrice).tdiv precision
  set b := (size * price).tdiv precision
  have hentry := abs_tdiv_sub_lt ((a + b) * precision) htotal
  set e := ((a + b) * precision).tdiv total
  have hP := precision_rat_pos
  have hT : (0 : ℚ) < total := Int.cast_pos.mpr htotal
  have hscaled : |(total * e / precision : ℚ) - (a + b)| < total / precision := by
    have hfactor : (total * e / precision : ℚ) - (a + b) =
        (total / precision) * (e - ((a + b) * precision : Int) / total) := by
      push_cast
      field_simp
    rw [hfactor, abs_mul, abs_of_pos (div_pos hT hP)]
    exact mul_lt_of_lt_one_right (div_pos hT hP) hentry
  push_cast at hold hadded
  rw [abs_lt] at hold hadded hscaled ⊢
  rw [add_div]
  constructor
  · linarith
  · linarith

/-! ## What moves it -/

section Moves

variable {env : Env} {w w' : World} {user asset : Address} {marketId positionId : Nat}
  {size price pnl m : Int} {isLong : Bool} {marks : Nat → Option ℚ} {mark : ℚ}

theorem holdings_credited {v v' : VaultStorage} {amount : Int}
    (h : v.Credited v' user asset amount) : v'.holdings asset = v.holdings asset + amount := by
  have hentry : ∀ (x : VaultStorage) (k : Address × Address),
      x.balance.entry (fun key amount => if key.2 = asset then (amount : ℚ) else 0) k =
        if k.2 = asset then (x.balanceOf k.1 k.2 : ℚ) else 0 := by
    intro x k
    unfold Store.entry VaultStorage.balanceOf
    cases x.balance.get k <;> simp
  unfold VaultStorage.holdings
  rw [Store.sum_change (s := v.balance) _ (user, asset) ?_, hentry, hentry]
  · simp only [if_true, h.self, Int.cast_add]
    ring
  · intro k hk
    have hk' : ¬ (k.1 = user ∧ k.2 = asset) := fun he => hk (Prod.ext he.1 he.2)
    rw [hentry, hentry, h.balanceOf, if_neg hk']

/-- The book value changes by the trade's credit and by what the position is worth. -/
theorem bookValue_traded {positions : List Position} {before after : Option Position} {change : Int}
    (ht : Traded w w' user positions marketId isLong change pnl)
    (hone : OneChange (w.engine.loadPositions user) positions before after)
    (hs : w.engine.settlementAsset = some asset) :
    bookValue marks asset w'.engine w'.vault = bookValue marks asset w.engine w.vault + pnl -
      before.elim 0 (w.engine.worthOf marks) + after.elim 0 (w.engine.worthOf marks) := by
  obtain ⟨asset', vault, hs', hcredit, hv⟩ := ht.vault
  obtain rfl := Option.some.inj (hs'.symm.trans hs)
  obtain ⟨_, _, he⟩ := ht.engine
  have hworth : w'.engine.worthOf marks = w.engine.worthOf marks := by
    funext p
    rw [he]
    rfl
  have hholdings : w'.vault.holdings asset' = w.vault.holdings asset' + pnl := by
    have hcredited := holdings_credited hcredit
    rw [hv]
    exact hcredited
  have hentry : w.engine.positions.entry
      (fun _ ps => (ps.map (w.engine.worthOf marks)).sum) user =
        ((w.engine.loadPositions user).map (w.engine.worthOf marks)).sum := by
    unfold Store.entry EngineStorage.loadPositions
    cases w.engine.positions.get user <;> rfl
  unfold bookValue
  rw [hworth, hholdings, ht.positions_eq, Store.sum_set, hentry, hone.sum_map]
  ring

theorem worthOf_marked {s : EngineStorage} {p : Position} (hm : marks p.marketId = some mark) :
    s.worthOf marks p = p.worth mark (s.fundingIndexOf p.marketId p.isLong) := by
  rw [EngineStorage.worthOf, hm]
  rfl

/-- Opening is worth what its size is at the mark. -/
theorem openPosition_value {mode : MarginMode} {r : TradeResult}
    (h : Returns (openPosition env user marketId size isLong price mode) w r w')
    (hs : w.engine.settlementAsset = some asset) (hm : marks marketId = some mark) :
    bookValue marks asset w'.engine w'.vault = bookValue marks asset w.engine w.vault +
      tradePnl isLong size price mark := by
  obtain ⟨_, _, _, _, p, rfl, rfl, rfl, _, rfl, hindex, _, _, ht, _⟩ := openPosition_effect h
  rw [currentFundingIndex_eq] at hindex
  rw [bookValue_traded ht (.append p) hs, Option.elim_none, Option.elim_some, worthOf_marked hm,
    Position.worth, hindex]
  simp

/-- Growing is worth what is added at the mark, within three units and one for each
unit of the price of the size it leaves. -/
theorem increasePosition_value (marks : Nat → Option ℚ) (mark : ℚ) {r : TradeResult}
    (h : Returns (increasePosition env user positionId size price) w r w')
    (hs : w.engine.settlementAsset = some asset) :
    ∃ before after : Position, before ∈ w.engine.loadPositions user ∧
      before.positionId = positionId ∧ after ∈ w'.engine.loadPositions user ∧
      after.marketId = before.marketId ∧ (0 < after.size → marks before.marketId = some mark →
        |bookValue marks asset w'.engine w'.vault - bookValue marks asset w.engine w.vault -
          tradePnl before.isLong size price mark| < 3 + after.size / precision) := by
  obtain ⟨hsize, _, index, p, settled, entry, hindex, hid, hfunding, hentry, ht, _, _⟩ :=
    increasePosition_effect h
  set after : Position := { p with
    entryPrice := entry, size := p.size + size
    lastFundingIndex := currentFundingIndex env w.engine p } with hafter
  refine ⟨p, after, List.mem_of_getElem? hindex, hid, ?_, rfl, ?_⟩
  · rw [ht.loadPositions, if_pos rfl]
    exact List.mem_of_getElem? (List.getElem?_set_self (List.getElem?_eq_some_iff.mp hindex).1)
  · intro hpos hm
    have hnear := fundingPnl_near hfunding
    have hnear' := averagedEntry_near hpos hentry
    rw [currentFundingIndex_eq] at hnear
    have hmark : marks after.marketId = some mark := hm
    rw [bookValue_traded ht (.set _ hindex) hs, Option.elim_some, Option.elim_some,
      worthOf_marked hm, worthOf_marked hmark]
    simp only [Position.worth, hafter, currentFundingIndex_eq]
    set P : ℚ := (precision : ℚ)
    set i : ℚ := (w.engine.fundingIndexOf p.marketId p.isLong : ℚ)
    have hsplit : (bookValue marks asset w.engine w.vault + settled -
          (tradePnl p.isLong p.size p.entryPrice mark - p.size * (i - p.lastFundingIndex) / P) +
          (tradePnl p.isLong (p.size + size) entry mark -
            (p.size + size : Int) * (i - i) / P)) - bookValue marks asset w.engine w.vault -
          tradePnl p.isLong size price mark =
        (settled + p.size * (i - p.lastFundingIndex) / P) - sideSign p.isLong *
          (((p.size + size : Int) * entry / P) - (p.size * p.entryPrice + size * price) / P) := by
      unfold tradePnl
      push_cast
      ring
    rw [hsplit]
    calc |(settled + p.size * (i - p.lastFundingIndex) / P) - sideSign p.isLong *
          (((p.size + size : Int) * entry / P) - (p.size * p.entryPrice + size * price) / P)|
        ≤ |settled + p.size * (i - p.lastFundingIndex) / P| + |sideSign p.isLong *
          (((p.size + size : Int) * entry / P) - (p.size * p.entryPrice + size * price) / P)| :=
          abs_sub _ _
      _ < 1 + (2 + (p.size + size : Int) / P) := by
          rw [abs_sideSign_mul]
          exact add_lt_add hnear hnear'
      _ = 3 + (p.size + size : Int) / P := by ring

/-- Reducing is worth what is taken off at the mark, within two units. -/
theorem reducePositionInternal_value (marks : Nat → Option ℚ) (mark : ℚ)
    {requireInitialMargin : Bool} {r : TradeResult}
    (h : Returns (reducePositionInternal env user positionId size price requireInitialMargin) w r w')
    (hs : w.engine.settlementAsset = some asset) :
    ∃ (index : Nat) (before : Position),
      findPosition (w.engine.loadPositions user) positionId = .ok (index, before) ∧
      (marks before.marketId = some mark →
        |bookValue marks asset w'.engine w'.vault - bookValue marks asset w.engine w.vault +
          tradePnl before.isLong size price mark| < 2) := by
  obtain ⟨_, _, index, p, settled, realized, margin, hindex, _, _, hfunding, hrealized, ht, _, _, hfind, _⟩ :=
    reducePositionInternal_effect h
  refine ⟨index, p, hfind, ?_⟩
  intro hm
  have hnear := fundingPnl_near hfunding
  have hnear' := realizedPnl_near hrealized
  rw [currentFundingIndex_eq] at hnear
  -- a position reduced to nothing is removed, and is worth nothing
  have hafter : ∀ positions after, OneChange (w.engine.loadPositions user) positions (some p) after →
      Traded w w' user positions p.marketId p.isLong (-size) (settled + realized) →
      after.elim 0 (w.engine.worthOf marks) = tradePnl p.isLong (p.size - size) p.entryPrice mark →
      |bookValue marks asset w'.engine w'.vault - bookValue marks asset w.engine w.vault +
        tradePnl p.isLong size price mark| < 2 := by
    intro positions after hone ht hworth
    rw [bookValue_traded ht hone hs, hworth, Option.elim_some, worthOf_marked hm]
    unfold Position.worth
    set P : ℚ := (precision : ℚ)
    set i : ℚ := (w.engine.fundingIndexOf p.marketId p.isLong : ℚ)
    have hsplit : (bookValue marks asset w.engine w.vault + (settled + realized : Int) -
          (tradePnl p.isLong p.size p.entryPrice mark - p.size * (i - p.lastFundingIndex) / P) +
          tradePnl p.isLong (p.size - size) p.entryPrice mark) -
          bookValue marks asset w.engine w.vault + tradePnl p.isLong size price mark =
        (settled + p.size * (i - p.lastFundingIndex) / P) +
          (realized - tradePnl p.isLong size p.entryPrice price) := by
      unfold tradePnl
      push_cast
      ring
    rw [hsplit]
    calc |(settled + p.size * (i - p.lastFundingIndex) / P) +
          (realized - tradePnl p.isLong size p.entryPrice price)|
        ≤ |settled + p.size * (i - p.lastFundingIndex) / P| +
          |realized - tradePnl p.isLong size p.entryPrice price| := abs_add_le _ _
      _ < 1 + 1 := add_lt_add hnear hnear'
      _ = 2 := by norm_num
  unfold replaceOrRemove at ht
  split at ht
  · rename_i hz
    refine hafter _ none (.erase hindex) ht ?_
    have hzero : p.size - size = 0 := hz
    rw [Option.elim_none, hzero]
    simp [tradePnl]
  · refine hafter _ _ (.set _ hindex) ht ?_
    simp [EngineStorage.worthOf, hm, Position.worth, currentFundingIndex_eq]

/-- A fee moves between accounts. -/
theorem chargeTradeFee_value {isMaker : Bool} {r : Int}
    (h : Returns (chargeTradeFee env user marketId size price isMaker) w r w')
    (hs : w.engine.settlementAsset = some asset) :
    bookValue marks asset w'.engine w'.vault = bookValue marks asset w.engine w.vault := by
  rcases chargeTradeFee_effect h with rfl | ⟨asset', recipient, paid, vault, hs', _, hpaid, _, hgot, rfl⟩
  · rfl
  · obtain rfl := Option.some.inj (hs'.symm.trans hs)
    have hdebit := holdings_credited hpaid
    have hcredit := holdings_credited hgot
    unfold bookValue
    dsimp only
    rw [hcredit, hdebit]
    push_cast
    ring

/-- The sizes of one side of a market, as a sum over the stored positions. -/
theorem storedSize_cast (s : EngineStorage) (isLong : Bool) : (s.storedSize marketId isLong : ℚ) =
    s.positions.sum fun _ ps => (ps.map fun p => (p.sizeOn marketId isLong : ℚ)).sum := by
  refine (Store.hom_sum (Int.castAddHom ℚ) s.positions _).trans (Store.sum_congr ?_)
  intro _ ps _
  rw [map_list_sum, List.map_map]
  rfl

/-- What adds the same rate to every long position's worth and takes it from every
short one's adds the rate times the imbalance. -/
theorem sum_worth_shift {s : EngineStorage} {f g : Position → ℚ} {rate : ℚ}
    (h : ∀ p, g p = f p + rate * (p.sizeOn marketId true - p.sizeOn marketId false)) :
    (s.positions.sum fun _ ps => (ps.map g).sum) = (s.positions.sum fun _ ps => (ps.map f).sum) +
      rate * (s.storedSize marketId true - s.storedSize marketId false) := by
  have hlist : ∀ ps : List Position, (ps.map g).sum = (ps.map f).sum +
      (rate * (ps.map fun p => (p.sizeOn marketId true : ℚ)).sum +
        -rate * (ps.map fun p => (p.sizeOn marketId false : ℚ)).sum) := by
    intro ps
    induction ps with
    | nil => simp
    | cons p rest ih =>
      simp only [List.map_cons, List.sum_cons, ih, h p]
      ring
  simp only [hlist]
  rw [Store.sum_add, Store.sum_add, storedSize_cast, storedSize_cast]
  simp only [← AddMonoidHom.coe_mulLeft]
  rw [← Store.hom_sum, ← Store.hom_sum]
  simp only [AddMonoidHom.coe_mulLeft]
  ring

/-- An accrual moves the book value by the truncation of the surplus. -/
theorem updateFunding_value {next : FundingState} {insurance : Address}
    (h : Returns (updateFunding env marketId) w next w')
    (hs : w.engine.settlementAsset = some asset) (hi : w.engine.insurance = some insurance)
    (hm : marks marketId = some mark) (hoi : ∀ isLong,
      w.engine.sideOpenInterest marketId isLong = w.engine.storedSize marketId isLong) :
    |bookValue marks asset w'.engine w'.vault - bookValue marks asset w.engine w.vault| < 1 := by
  obtain ⟨hsum, markState, vault, rfl, _, _, hcredit⟩ := updateFunding_effect h
  have hcredited := holdings_credited (hcredit insurance asset hi hs)
  have hholdings : vault.holdings asset = w.vault.holdings asset + fundingSurplus w.engine marketId
      (next.longIndex - (w.engine.fundingStateOf env.timestamp marketId).longIndex) := hcredited
  have hlong : (w.engine.fundingStateOf env.timestamp marketId).longIndex =
      w.engine.fundingIndexOf marketId true := by
    unfold EngineStorage.fundingStateOf EngineStorage.fundingIndexOf
    cases w.engine.fundingState.get marketId <;> rfl
  have hshort : (w.engine.fundingStateOf env.timestamp marketId).shortIndex =
      w.engine.fundingIndexOf marketId false := by
    unfold EngineStorage.fundingStateOf EngineStorage.fundingIndexOf
    cases w.engine.fundingState.get marketId <;> rfl
  rw [hlong, hshort] at hsum
  rw [hlong] at hholdings
  set delta := next.longIndex - w.engine.fundingIndexOf marketId true with hdelta
  -- each side's index moves by the same amount, in opposite directions
  have hworth : ∀ p, ({ w.engine with
      markState, fundingState := w.engine.fundingState.set marketId next }).worthOf marks p =
      w.engine.worthOf marks p + (-(delta : ℚ) / precision) *
        (p.sizeOn marketId true - p.sizeOn marketId false) := by
    intro p
    by_cases hp : p.marketId = marketId
    · have hmp : marks p.marketId = some mark := hp ▸ hm
      have hnew : ({ w.engine with
          markState, fundingState := w.engine.fundingState.set marketId next }).fundingIndexOf
          p.marketId p.isLong = if p.isLong then next.longIndex else next.shortIndex := by
        simp [EngineStorage.fundingIndexOf, hp]
      rw [worthOf_marked hmp, worthOf_marked hmp, hnew, hp]
      unfold Position.worth Position.sizeOn
      cases hl : p.isLong with
      | true =>
        have hindex : (next.longIndex : ℚ) = delta + w.engine.fundingIndexOf marketId true := by
          rw [hdelta]
          push_cast
          ring
        simp only [hp, if_true, true_and, Bool.true_eq_false, if_false, hindex]
        push_cast
        ring
      | false =>
        have hindex : (next.shortIndex : ℚ) = -delta + w.engine.fundingIndexOf marketId false := by
          have hcast : ((next.longIndex + next.shortIndex : Int) : ℚ) =
              (w.engine.fundingIndexOf marketId true + w.engine.fundingIndexOf marketId false : Int) :=
            congrArg _ hsum
          push_cast at hcast
          rw [hdelta]
          push_cast
          linarith
        simp only [hp, Bool.false_eq_true, if_false, true_and, if_true, hindex]
        push_cast
        ring
    · have hsame : ({ w.engine with
          markState, fundingState := w.engine.fundingState.set marketId next }).fundingIndexOf
          p.marketId p.isLong = w.engine.fundingIndexOf p.marketId p.isLong := by
        simp [EngineStorage.fundingIndexOf, hp]
      simp [EngineStorage.worthOf, hsame, Position.sizeOn, hp]
  have hnear := abs_tdiv_sub_lt (delta * (w.engine.storedSize marketId true -
    w.engine.storedSize marketId false)) precision_pos
  unfold bookValue
  dsimp only
  rw [hholdings, sum_worth_shift hworth, fundingSurplus, hoi, hoi]
  push_cast at hnear ⊢
  convert hnear using 2
  ring

end Moves

end Kryon

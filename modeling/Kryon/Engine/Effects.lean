import Kryon.Engine
import Kryon.Lib.OneChange
import Kryon.Vault.Health

/-! # What the engine's operations do

Every trade writes one user's position list, in the engine and in the vault's
mirror, moves the open interest of one market and side, and credits one balance.
`Traded` says so once; each operation adds which position it wrote and what the
credit was. -/
namespace Kryon
open Transaction

namespace Engine

/-- `w'` is `w` after a trade that leaves `user` with `positions`, moves the open
interest of one side of a market by `oiChange` and credits `pnl` in settlement. -/
structure Traded (w w' : World) (user : Address) (positions : List Position) (marketId : Nat)
    (isLong : Bool) (oiChange pnl : Int) : Prop where
  world : ∃ engine vault, w' = { w with engine, vault }
  engine : ∃ markState nextPositionId, w'.engine =
    { ((w.engine.storePositions user positions).storeOpenInterest marketId
        (w.engine.openInterestOf marketId + oiChange)).storeSideOpenInterest marketId isLong
          (w.engine.sideOpenInterest marketId isLong + oiChange) with
      markState, nextPositionId }
  vault : ∃ asset vault, w.engine.settlementAsset = some asset ∧
    w.vault.Credited vault user asset pnl ∧
    w'.vault = { vault with positions := vault.positions.set user positions }
  owner : ∀ p ∈ positions, p.owner = user
  oiInRange : InI128 (w.engine.openInterestOf marketId + oiChange)
  sideInRange : InI128 (w.engine.sideOpenInterest marketId isLong + oiChange)

/-- Account health succeeds and shows the initial margin covered. -/
def AboveInitialMargin (env : Env) (w : World) (user : Address) : Prop :=
  ∃ asset health, w.engine.settlementAsset = some asset ∧
    Vault.accountHealth (env.callFrom w.deployed.engine) w user asset = .ok health ∧
    health.initialMarginRequired ≤ health.equity

variable {env : Env} {w w' : World} {user asset : Address} {marketId positionId : Nat}
  {size price pnl r : Int} {isLong : Bool}

@[simp] theorem store_returns {f : EngineStorage → EngineStorage} {u : Unit} :
    Returns (store f) w u w' ↔ w' = { w with engine := f w.engine } := by
  simp [store]

theorem returns_store_bind {α : Type} {f : EngineStorage → EngineStorage} {g : Unit → Tx α} {a : α} :
    Returns (store f >>= g) w a w' ↔ Returns (g ()) { w with engine := f w.engine } a w' :=
  returns_modify_bind

/-! ## Calls into the vault -/

theorem callVault_returns {α : Type} {call : Env → Tx α} {a : α} :
    Returns (callVault env call) w a w' ↔ w.engine.vault = some w.deployed.vault ∧
      Returns (call (env.callFrom w.deployed.engine)) w a w' := by
  simp only [callVault, vaultAddress, returns_bind, returns_readWith, returns_get, invoke_returns,
    okOr_ok]
  constructor
  · rintro ⟨_, _, ⟨hv, rfl⟩, _, _, ⟨rfl, rfl⟩, rfl, h⟩; exact ⟨hv, h⟩
  · rintro ⟨hv, h⟩; exact ⟨_, _, ⟨hv, rfl⟩, _, _, ⟨rfl, rfl⟩, rfl, h⟩

theorem vaultApplyPnl_effect (h : Returns (vaultApplyPnl env user asset pnl) w r w') :
    ∃ vault, w.vault.Credited vault user asset pnl ∧ w' = { w with vault } := by
  obtain ⟨rfl, rfl⟩ := Vault.applyPnl_effect (callVault_returns.mp h).2
  exact ⟨_, .setBalance _ _ _ _, rfl⟩

theorem vaultSyncPositions_effect {positions : List Position} {u : Unit}
    (h : Returns (vaultSyncPositions env user positions) w u w') :
    (∀ p ∈ positions, p.owner = user) ∧ w' = { w with vault := { w.vault with
      positions := w.vault.positions.set user positions } } :=
  Vault.syncPositions_effect (callVault_returns.mp h).2

theorem vaultSetFundingIndexes_effect {long short : Int} {u : Unit}
    (h : Returns (vaultSetFundingIndexes env marketId long short) w u w') :
    w' = { w with vault := { w.vault with
      fundingLong := w.vault.fundingLong.set marketId long
      fundingShort := w.vault.fundingShort.set marketId short } } :=
  Vault.setFundingIndexes_effect (callVault_returns.mp h).2

theorem vaultHealth_ok {health : AccountHealth} (h : vaultHealth env w user = .ok health) :
    ∃ asset, w.engine.settlementAsset = some asset ∧
      Vault.accountHealth (env.callFrom w.deployed.engine) w user asset = .ok health := by
  simp only [vaultHealth, settlementAsset, vaultAccountHealth, vaultAddress, except_bind_ok, okOr_ok,
    reach_ok] at h
  obtain ⟨asset, hs, _, _, _, _, hh⟩ := h
  exact ⟨asset, hs, hh⟩

theorem requireAccountAboveInitialMargin_ok {u : Unit}
    (h : requireAccountAboveInitialMargin env w user = .ok u) : AboveInitialMargin env w user := by
  simp only [requireAccountAboveInitialMargin, except_bind_ok, reject_ok] at h
  obtain ⟨health, hh, hm⟩ := h
  obtain ⟨asset, hs, hh⟩ := vaultHealth_ok hh
  exact ⟨asset, health, hs, hh, by omega⟩

theorem syncAndRequireInitialMargin_effect {positions : List Position} {u : Unit}
    (h : Returns (syncAndRequireInitialMargin env user positions) w u w') :
    (∀ p ∈ positions, p.owner = user) ∧ w' = { w with vault := { w.vault with
      positions := w.vault.positions.set user positions } } ∧ AboveInitialMargin env w' user := by
  simp only [syncAndRequireInitialMargin, returns_bind, returns_readWith] at h
  obtain ⟨_, _, hsync, hm, rfl⟩ := h
  obtain ⟨ho, hw⟩ := vaultSyncPositions_effect hsync
  exact ⟨ho, hw, requireAccountAboveInitialMargin_ok hm⟩

/-! ## The engine's own bookkeeping -/

/-- A brought-up-to-date mark with `price` standing from `now` on; the first price
starts the window. -/
def tradedMark (state : MarkState) (now : Nat) (price : Int) : MarkState :=
  { (if state.lastPrice = 0 then { state with windowStart := now, cumulative := 0 } else state) with
    lastPrice := price }

/-- The trade set the market's mark, and no other. -/
def MarkRecorded (env : Env) (w w' : World) (marketId : Nat) (price : Int) : Prop :=
  ∃ state, accrueMark (w.engine.markStateOf env.timestamp marketId) env.timestamp = .ok state ∧
    w'.engine.markState = w.engine.markState.set marketId (tradedMark state env.timestamp price)

theorem recordMark_effect {u : Unit} (h : Returns (recordMark env marketId price) w u w') :
    MarkRecorded env w w' marketId price ∧
      ∃ markState, w' = { w with engine := { w.engine with markState } } := by
  simp only [recordMark, returns_bind, returns_readWith, store_returns] at h
  obtain ⟨state, _, ⟨hstate, rfl⟩, rfl⟩ := h
  exact ⟨⟨state, hstate, rfl⟩, _, rfl⟩

theorem recordReduceMark_effect {requireInitialMargin : Bool} {u : Unit}
    (h : Returns (recordReduceMark env marketId price requireInitialMargin) w u w') :
    (if requireInitialMargin then MarkRecorded env w w' marketId price
      else w'.engine.markState = w.engine.markState) ∧
      ∃ markState, w' = { w with engine := { w.engine with markState } } := by
  rcases returns_ite.mp h with ⟨htrade, hmark⟩ | ⟨hliquidation, hnone⟩
  · rw [if_pos htrade]
    exact recordMark_effect hmark
  · obtain ⟨_, rfl⟩ := returns_pure.mp hnone
    rw [if_neg hliquidation]
    exact ⟨rfl, _, rfl⟩

/-- A read closes the window of a mark that has one, and leaves any other alone. -/
theorem consumeMarkTwap_cases (h : Returns (consumeMarkTwap env marketId) w r w') :
    ((w.engine.markStateOf env.timestamp marketId).lastPrice ≤ 0 ∧ r = 0 ∧ w' = w) ∨
    (0 < (w.engine.markStateOf env.timestamp marketId).lastPrice ∧ ∃ state,
      accrueMark (w.engine.markStateOf env.timestamp marketId) env.timestamp = .ok state ∧
      windowAverage state ((env.timestamp - state.windowStart : Nat) : Int) = .ok r ∧
      w' = { w with engine := { w.engine with
        markState := w.engine.markState.set marketId
          { state with cumulative := 0, windowStart := env.timestamp } } }) := by
  simp only [consumeMarkTwap, returns_bind, returns_get] at h
  obtain ⟨_, _, ⟨rfl, rfl⟩, hbody⟩ := h
  rcases returns_ite.mp hbody with ⟨hnone, hzero⟩ | ⟨hpos, htwap⟩
  · obtain ⟨rfl, rfl⟩ := returns_pure.mp hzero
    exact .inl ⟨hnone, rfl, rfl⟩
  · simp only [returns_bind, returns_lift, store_returns, returns_pure] at htwap
    obtain ⟨state, _, ⟨hstate, rfl⟩, _, _, ⟨haverage, rfl⟩, _, _, rfl, rfl, rfl⟩ := htwap
    exact .inr ⟨not_le.mp hpos, state, hstate, haverage, rfl⟩

theorem consumeMarkTwap_effect (h : Returns (consumeMarkTwap env marketId) w r w') :
    ∃ markState, w' = { w with engine := { w.engine with markState } } := by
  rcases consumeMarkTwap_cases h with ⟨_, _, rfl⟩ | ⟨_, _, _, _, rfl⟩
  · exact ⟨_, rfl⟩
  · exact ⟨_, rfl⟩

theorem nextPositionId_effect {n : Nat} (h : Returns nextPositionId w n w') :
    w.engine.nextPositionId = some n ∧
      w' = { w with engine := { w.engine with nextPositionId := some (n + 1) } } := by
  simp only [nextPositionId, returns_readWith_bind, returns_lift_bind, returns_store_bind, okOr_ok,
    returns_pure] at h
  obtain ⟨_, hid, _, _, rfl, rfl⟩ := h
  exact ⟨hid, rfl⟩

theorem findPosition_ok {positions : List Position} {index : Nat} {position : Position}
    (h : findPosition positions positionId = .ok (index, position)) :
    positions[index]? = some position ∧ position.positionId = positionId := by
  simp only [findPosition, findPositionIndex, except_bind_ok, okOr_ok, except_pure_ok,
    Prod.mk.injEq] at h
  obtain ⟨i, hi, p, hp, rfl, rfl⟩ := h
  obtain ⟨hlt, hid, _⟩ := List.findIdx?_eq_some_iff_getElem.mp hi
  rw [List.getElem?_eq_getElem hlt] at hp
  exact ⟨by rw [List.getElem?_eq_getElem hlt, hp], by rw [← Option.some.inj hp]; simpa using hid⟩

/-- The position keeps its place in the list. -/
theorem findPosition_set {positions : List Position} {index : Nat} {p q : Position}
    (h : findPosition positions positionId = .ok (index, p)) (hid : q.positionId = p.positionId) :
    findPosition (positions.set index q) positionId = .ok (index, q) := by
  simp only [findPosition, findPositionIndex, except_bind_ok, okOr_ok, except_pure_ok,
    Prod.mk.injEq] at h ⊢
  obtain ⟨i, hi, p', hp, rfl, rfl⟩ := h
  obtain ⟨hlt, hmatch, hfirst⟩ := List.findIdx?_eq_some_iff_getElem.mp hi
  obtain ⟨_, hget⟩ := List.getElem?_eq_some_iff.mp hp
  refine ⟨i, List.findIdx?_eq_some_iff_getElem.mpr ⟨by simpa using hlt, ?_, fun j hj => ?_⟩, q, ?_, rfl,
    rfl⟩
  · rw [List.getElem_set_self, hid, ← hget]
    exact hmatch
  · rw [List.getElem_set_ne (by omega)]
    exact hfirst j hj
  · rw [List.getElem?_set_self hlt]

/-- A reduced position stays in the list unless nothing is left of it. -/
theorem mem_replaceOrRemove {positions : List Position} {index : Nat} {reduced p : Position}
    (h : p ∈ replaceOrRemove positions index reduced) : p ∈ positions ∨ p = reduced ∧ reduced.size ≠ 0 := by
  unfold replaceOrRemove at h
  split at h
  · exact .inl (List.mem_of_mem_eraseIdx h)
  · rename_i hleft
    rcases List.mem_or_eq_of_mem_set h with hold | rfl
    · exact .inl hold
    · exact .inr ⟨rfl, hleft⟩

theorem loadMarket_marketId {s : EngineStorage} {market : EngineMarketConfig}
    (h : s.loadMarket marketId = .ok market) : market.market.marketId = marketId := by
  have hg : s.market.get marketId = some market := okOr_ok.mp h
  exact s.market.keyed marketId market hg

theorem applyFundingPnl_effect {u : Unit} (h : Returns (applyFundingPnl env user pnl) w u w') :
    ∃ vault, w' = { w with vault } ∧ ∀ asset, w.engine.settlementAsset = some asset →
      w.vault.Credited vault user asset pnl := by
  rcases returns_ite.mp h with ⟨_, hpay⟩ | ⟨hz, hnone⟩
  · simp only [returns_readWith_bind, settlementAsset, okOr_ok] at hpay
    obtain ⟨asset, hs, hpay⟩ := hpay
    obtain ⟨_, _, hv, hret⟩ := returns_bind.mp hpay
    obtain ⟨_, rfl⟩ := returns_pure.mp hret
    obtain ⟨vault, hcredit, hw⟩ := vaultApplyPnl_effect hv
    refine ⟨vault, hw, fun asset' hs' => ?_⟩
    obtain rfl := Option.some.inj (hs.symm.trans hs')
    exact hcredit
  · obtain rfl : pnl = 0 := not_not.mp hz
    exact ⟨_, (returns_pure.mp hnone).2, fun _ _ => .refl _ _ _⟩

theorem settlePositionFunding_effect {position position' : Position}
    (h : Returns (settlePositionFunding env user position) w (pnl, position') w') :
    fundingPnl position (currentFundingIndex env w.engine position) = .ok pnl ∧
      position' = { position with lastFundingIndex := currentFundingIndex env w.engine position } ∧
      ∃ vault, w' = { w with vault } ∧ ∀ asset, w.engine.settlementAsset = some asset →
        w.vault.Credited vault user asset pnl := by
  simp only [settlePositionFunding, returns_get_bind, returns_lift_bind] at h
  obtain ⟨_, hp, hrun⟩ := h
  obtain ⟨_, _, happly, hret⟩ := returns_bind.mp hrun
  simp only [returns_pure, Prod.mk.injEq] at hret
  obtain ⟨⟨rfl, rfl⟩, rfl⟩ := hret
  exact ⟨hp, rfl, applyFundingPnl_effect happly⟩

/-! ## Trades -/

/-- Opening appends a position at the execution price, stamped with the current index; it takes
the id of the counter, and only while the list is below its cap. -/
theorem openPosition_effect {mode : MarginMode} {r : TradeResult}
    (h : Returns (openPosition env user marketId size isLong price mode) w r w') :
    (w.engine.loadPositions user).length < maxPositionsPerUser ∧
      w.engine.nextPositionId = some r.positionId ∧ 0 < size ∧ 0 < price ∧ ∃ position : Position,
      position.marketId = marketId ∧ position.isLong = isLong ∧ position.size = size ∧
      position.mode = .cross ∧ position.entryPrice = price ∧
      position.lastFundingIndex = currentFundingIndex env w.engine position ∧
      w.engine.nextPositionId = some position.positionId ∧
      w'.engine.nextPositionId = some (position.positionId + 1) ∧
      Traded w w' user (w.engine.loadPositions user ++ [position]) marketId isLong size 0 ∧
      AboveInitialMargin env w' user ∧ MarkRecorded env w w' marketId price := by
  simp only [openPosition, returns_readWith_bind, returns_lift_bind, reject_ok, exists_const] at h
  obtain ⟨_, _, hargs, hmode, market, _, _, _, hrun⟩ := h
  have hcross : mode = .cross := by
    cases mode with
    | cross => rfl
    | isolated => exact absurd rfl hmode
  obtain ⟨_, w₁, hmark, hrun⟩ := returns_bind.mp hrun
  simp only [returns_lift_bind, returns_get_bind, checkedAdd_ok, reject_ok, and_assoc,
    exists_and_left, exists_eq_left', exists_const] at hrun
  obtain ⟨hoi, _, _, _, hroom, _, _, margin, _, hrun⟩ := hrun
  obtain ⟨positionId, w₂, hid, hrun⟩ := returns_bind.mp hrun
  simp only [returns_store_bind, returns_readWith_bind, checkedAdd_ok, and_assoc, exists_and_left,
    exists_eq_left'] at hrun
  obtain ⟨hside, hrun⟩ := hrun
  obtain ⟨_, w₃, hsync, hrun⟩ := returns_bind.mp hrun
  simp only [returns_readWith_bind, returns_pure] at hrun
  obtain ⟨_, _, rfl, rfl⟩ := hrun
  obtain ⟨hrecorded, markState, rfl⟩ := recordMark_effect hmark
  obtain ⟨hnext, rfl⟩ := nextPositionId_effect hid
  obtain ⟨howner, rfl, habove⟩ := syncAndRequireInitialMargin_effect hsync
  refine ⟨not_le.mp hroom, hnext, by omega, by omega, _, rfl, rfl, rfl, hcross, rfl, rfl, hnext, rfl,
    ⟨⟨_, _, rfl⟩, ⟨markState, some (positionId + 1), rfl⟩, ?_, howner, hoi, hside⟩, habove, hrecorded⟩
  · obtain ⟨asset, _, hs, _⟩ := habove
    exact ⟨asset, _, hs, .refl _ _ _, rfl⟩

/-- Growing settles the funding first and then averages the entry price. -/
theorem increasePosition_effect {r : TradeResult}
    (h : Returns (increasePosition env user positionId size price) w r w') :
    0 < size ∧ 0 < price ∧ ∃ (index : Nat) (position : Position) (settled entry : Int),
      (w.engine.loadPositions user)[index]? = some position ∧ position.positionId = positionId ∧
      fundingPnl position (currentFundingIndex env w.engine position) = .ok settled ∧
      averagedEntry position size price (position.size + size) = .ok entry ∧
      Traded w w' user ((w.engine.loadPositions user).set index { position with
        entryPrice := entry, size := position.size + size
        lastFundingIndex := currentFundingIndex env w.engine position })
        position.marketId position.isLong size settled ∧
      w'.engine.nextPositionId = w.engine.nextPositionId ∧ AboveInitialMargin env w' user ∧
      findPosition (w.engine.loadPositions user) positionId = .ok (index, position) ∧
      MarkRecorded env w w' position.marketId price := by
  simp only [increasePosition, returns_readWith_bind, returns_lift_bind, returns_get_bind, reject_ok,
    exists_const] at h
  obtain ⟨_, _, hargs, ⟨index, position⟩, hfind, hrun⟩ := h
  obtain ⟨hindex, hid⟩ := findPosition_ok hfind
  simp only at hrun
  obtain ⟨market, _, _, _, hrun⟩ := hrun
  obtain ⟨_, w₁, hmark, hrun⟩ := returns_bind.mp hrun
  obtain ⟨⟨settled, position'⟩, w₂, hfunding, hrun⟩ := returns_bind.mp hrun
  simp only [returns_lift_bind, returns_get_bind, returns_store_bind, returns_readWith_bind,
    checkedAdd_ok, reject_ok, and_assoc, exists_and_left, exists_eq_left', exists_const] at hrun
  obtain ⟨hoi, _, _, _, _, entry, hentry, hside, hrun⟩ := hrun
  obtain ⟨_, w₃, hsync, hrun⟩ := returns_bind.mp hrun
  simp only [returns_readWith_bind, returns_pure] at hrun
  obtain ⟨_, _, _, rfl⟩ := hrun
  obtain ⟨hrecorded, markState, rfl⟩ := recordMark_effect hmark
  obtain ⟨hsettled, rfl, vault, rfl, hcredit⟩ := settlePositionFunding_effect hfunding
  obtain ⟨howner, rfl, habove⟩ := syncAndRequireInitialMargin_effect hsync
  obtain ⟨asset, health, hs, hhealth⟩ := habove
  exact ⟨by omega, by omega, index, position, settled, entry, hindex, hid, hsettled, hentry,
    ⟨⟨_, _, rfl⟩, ⟨markState, _, rfl⟩, ⟨asset, vault, hs, hcredit asset hs, rfl⟩, howner, hoi, hside⟩,
    rfl, ⟨asset, health, hs, hhealth⟩, hfind, hrecorded⟩

theorem syncReduced_effect {positions : List Position} {requireInitialMargin : Bool} {u : Unit}
    (h : Returns (syncReduced env user positions requireInitialMargin) w u w') :
    (∀ p ∈ positions, p.owner = user) ∧ w' = { w with vault := { w.vault with
      positions := w.vault.positions.set user positions } } ∧
      (requireInitialMargin = true → AboveInitialMargin env w' user) := by
  rcases returns_ite.mp h with ⟨_, hchecked⟩ | ⟨hno, hplain⟩
  · obtain ⟨ho, hw, hm⟩ := syncAndRequireInitialMargin_effect hchecked
    exact ⟨ho, hw, fun _ => hm⟩
  · obtain ⟨ho, hw⟩ := vaultSyncPositions_effect hplain
    exact ⟨ho, hw, fun hyes => absurd hyes hno⟩

/-- Reducing settles the funding on the whole position, then realises the pnl of the
part closed; a position reduced to nothing is removed. -/
theorem reducePositionInternal_spec {requireInitialMargin : Bool} {r : TradeResult}
    (h : Returns (reducePositionInternal env user positionId size price requireInitialMargin) w r w') :
    0 < size ∧ 0 < price ∧ ∃ (index : Nat) (position : Position) (settled realized margin : Int),
      (w.engine.loadPositions user)[index]? = some position ∧ position.positionId = positionId ∧
      size ≤ position.size ∧
      fundingPnl position (currentFundingIndex env w.engine position) = .ok settled ∧
      realizedPnl position size price = .ok realized ∧
      Traded w w' user (replaceOrRemove (w.engine.loadPositions user) index { position with
        margin, size := position.size - size
        lastFundingIndex := currentFundingIndex env w.engine position })
        position.marketId position.isLong (-size) (settled + realized) ∧
      w'.engine.nextPositionId = w.engine.nextPositionId ∧
      (requireInitialMargin = true → AboveInitialMargin env w' user) ∧
      findPosition (w.engine.loadPositions user) positionId = .ok (index, position) ∧
      (if requireInitialMargin then MarkRecorded env w w' position.marketId price
        else w'.engine.markState = w.engine.markState) ∧
      r.realizedPnl = realized ∧ r.fundingPnl = settled := by
  simp only [reducePositionInternal, returns_lift_bind, returns_get_bind, reject_ok,
    exists_const] at h
  obtain ⟨hargs, ⟨index, position⟩, hfind, hle, hrun⟩ := h
  obtain ⟨hindex, hid⟩ := findPosition_ok hfind
  simp only [returns_readWith_bind] at hrun
  obtain ⟨market, hmarket, _, _, hrun⟩ := hrun
  rw [loadMarket_marketId hmarket] at hrun
  obtain ⟨_, w₁, hmark, hrun⟩ := returns_bind.mp hrun
  obtain ⟨⟨settled, position'⟩, w₂, hfunding, hrun⟩ := returns_bind.mp hrun
  simp only [returns_lift_bind, returns_store_bind, returns_readWith_bind, checkedSub_ok, and_assoc,
    exists_and_left, exists_eq_left', settlementAsset, okOr_ok] at hrun
  obtain ⟨realized, hrealized, margin, _, _, hoi, hside, asset, hs, hrun⟩ := hrun
  obtain ⟨_, w₃, hpnl, hrun⟩ := returns_bind.mp hrun
  obtain ⟨_, w₄, hsync, hrun⟩ := returns_bind.mp hrun
  simp only [returns_readWith_bind, returns_pure] at hrun
  obtain ⟨_, _, rfl, rfl⟩ := hrun
  obtain ⟨hrecorded, markState, rfl⟩ := recordReduceMark_effect hmark
  obtain ⟨hsettled, rfl, vault, rfl, hcredit⟩ := settlePositionFunding_effect hfunding
  obtain ⟨vault', hcredit', rfl⟩ := vaultApplyPnl_effect hpnl
  obtain ⟨howner, rfl, habove⟩ := syncReduced_effect hsync
  refine ⟨by omega, by omega, index, position, settled, realized, margin, hindex, hid, not_lt.mp hle,
    hsettled, hrealized, ⟨⟨_, _, rfl⟩, ⟨markState, w.engine.nextPositionId, ?_⟩, ⟨asset, vault', hs,
      (hcredit asset hs).trans hcredit', rfl⟩, howner, ?_, ?_⟩, rfl, habove, hfind, hrecorded, rfl, rfl⟩
  · simp only [← sub_eq_add_neg]
    rfl
  · rw [← sub_eq_add_neg]
    exact hoi
  · rw [← sub_eq_add_neg]
    exact hside

theorem reducePositionInternal_effect {requireInitialMargin : Bool} {r : TradeResult}
    (h : Returns (reducePositionInternal env user positionId size price requireInitialMargin) w r w') :
    0 < size ∧ 0 < price ∧ ∃ (index : Nat) (position : Position) (settled realized margin : Int),
      (w.engine.loadPositions user)[index]? = some position ∧ position.positionId = positionId ∧
      size ≤ position.size ∧
      fundingPnl position (currentFundingIndex env w.engine position) = .ok settled ∧
      realizedPnl position size price = .ok realized ∧
      Traded w w' user (replaceOrRemove (w.engine.loadPositions user) index { position with
        margin, size := position.size - size
        lastFundingIndex := currentFundingIndex env w.engine position })
        position.marketId position.isLong (-size) (settled + realized) ∧
      w'.engine.nextPositionId = w.engine.nextPositionId ∧
      (requireInitialMargin = true → AboveInitialMargin env w' user) ∧
      findPosition (w.engine.loadPositions user) positionId = .ok (index, position) ∧
      if requireInitialMargin then MarkRecorded env w w' position.marketId price
      else w'.engine.markState = w.engine.markState := by
  obtain ⟨hsize, hprice, index, position, settled, realized, margin, hindex, hid, hle, hsettled,
    hrealized, ht, hnext, habove, hfind, hmark, _⟩ := reducePositionInternal_spec h
  exact ⟨hsize, hprice, index, position, settled, realized, margin, hindex, hid, hle, hsettled,
    hrealized, ht, hnext, habove, hfind, hmark⟩

theorem reducePosition_internal {r : TradeResult}
    (h : Returns (reducePosition env user positionId size price) w r w') :
    Returns (reducePositionInternal env user positionId size price true) w r w' := by
  simp only [reducePosition, returns_readWith_bind] at h
  obtain ⟨_, _, h⟩ := h
  exact h

theorem liquidateReduce_internal {r : TradeResult}
    (h : Returns (liquidateReduce env user positionId size price) w r w') :
    Returns (reducePositionInternal env user positionId size price false) w r w' := by
  simp only [liquidateReduce, returns_readWith_bind] at h
  obtain ⟨_, _, h⟩ := h
  exact h

theorem closePosition_internal {r : TradeResult}
    (h : Returns (closePosition env user positionId price) w r w') :
    ∃ size, Returns (reducePositionInternal env user positionId size price true) w r w' := by
  simp only [closePosition, returns_get_bind, returns_lift_bind] at h
  obtain ⟨⟨_, position⟩, _, h⟩ := h
  exact ⟨position.size, reducePosition_internal h⟩

/-! ## One position at a time -/

/-- A trade of `user` that replaces the position `before` by `after`, both of one side
of one market, and moves that side's open interest with the size. -/
structure PositionTrade (w w' : World) (user : Address) (before after : Option Position)
    (marketId : Nat) (isLong : Bool) (change pnl : Int) : Prop where
  traded : ∃ positions, Traded w w' user positions marketId isLong change pnl ∧
    OneChange (w.engine.loadPositions user) positions before after
  side : ∀ p, before = some p ∨ after = some p → p.marketId = marketId ∧ p.isLong = isLong
  size : after.elim 0 Position.size = before.elim 0 Position.size + change
  positive : (∀ p, before = some p → 0 < p.size) → ∀ p, after = some p → 0 < p.size
  opened : before = none → ∃ p, after = some p ∧ p.mode = .cross ∧
    w.engine.nextPositionId = some p.positionId ∧
    w'.engine.nextPositionId = some (p.positionId + 1)
  kept : ∀ p, before = some p →
    (∀ q, after = some q → q.positionId = p.positionId ∧ q.mode = p.mode) ∧
    w'.engine.nextPositionId = w.engine.nextPositionId

theorem openPosition_trade {mode : MarginMode} {r : TradeResult}
    (h : Returns (openPosition env user marketId size isLong price mode) w r w') :
    ∃ position, 0 < size ∧ position.size = size ∧
      PositionTrade w w' user none (some position) marketId isLong size 0 := by
  obtain ⟨_, _, hsize, _, position, rfl, rfl, rfl, hmode, _, _, hnext, hnext', ht, _⟩ :=
    openPosition_effect h
  refine ⟨position, hsize, rfl, ⟨_, ht, .append position⟩, ?_, by simp, ?_,
    fun _ => ⟨position, rfl, hmode, hnext, hnext'⟩, nofun⟩
  · rintro p (hp | hp)
    · cases hp
    · obtain rfl := Option.some.inj hp; exact ⟨rfl, rfl⟩
  · rintro _ p hp
    obtain rfl := Option.some.inj hp
    exact hsize

theorem increasePosition_trade {r : TradeResult}
    (h : Returns (increasePosition env user positionId size price) w r w') :
    ∃ before after pnl, 0 < size ∧ before.positionId = positionId ∧
      PositionTrade w w' user (some before) (some after) before.marketId before.isLong size pnl := by
  obtain ⟨hsize, _, index, position, settled, entry, hindex, hid, _, _, ht, hnext, _⟩ :=
    increasePosition_effect h
  refine ⟨position, _, settled, hsize, hid, ⟨_, ht, .set _ hindex⟩, ?_, rfl, ?_, nofun, ?_⟩
  · rintro p (hp | hp) <;> obtain rfl := Option.some.inj hp <;> exact ⟨rfl, rfl⟩
  · rintro hpos p hp
    obtain rfl := Option.some.inj hp
    have := hpos position rfl
    dsimp only
    omega
  · rintro p hp
    obtain rfl := Option.some.inj hp
    exact ⟨fun q hq => by obtain rfl := Option.some.inj hq; exact ⟨rfl, rfl⟩, hnext⟩

theorem reducePositionInternal_trade {requireInitialMargin : Bool} {r : TradeResult}
    (h : Returns (reducePositionInternal env user positionId size price requireInitialMargin) w r w') :
    ∃ before after pnl, 0 < size ∧ size ≤ before.size ∧ before.positionId = positionId ∧
      (size = before.size → after = none) ∧
      PositionTrade w w' user (some before) after before.marketId before.isLong (-size) pnl := by
  obtain ⟨hsize, _, index, position, settled, realized, margin, hindex, hid, hle, _, _, ht, hnext, _⟩ :=
    reducePositionInternal_effect h
  unfold replaceOrRemove at ht
  split at ht
  · rename_i hz
    refine ⟨position, none, _, hsize, hle, hid, fun _ => rfl, ⟨_, ht, .erase hindex⟩, ?_, ?_, ?_,
      nofun, fun _ _ => ⟨nofun, hnext⟩⟩
    · rintro p (hp | hp)
      · obtain rfl := Option.some.inj hp; exact ⟨rfl, rfl⟩
      · cases hp
    · simp only [Option.elim_none, Option.elim_some] at hz ⊢
      omega
    · rintro _ p hp; cases hp
  · rename_i hnz
    refine ⟨position, _, _, hsize, hle, hid, ?_, ⟨_, ht, .set _ hindex⟩, ?_, ?_, ?_, nofun, ?_⟩
    · intro heq
      dsimp only at hnz
      omega
    · rintro p (hp | hp) <;> obtain rfl := Option.some.inj hp <;> exact ⟨rfl, rfl⟩
    · simp only [Option.elim_some]
      omega
    · rintro _ p hp
      obtain rfl := Option.some.inj hp
      dsimp only at hnz ⊢
      omega
    · rintro p hp
      obtain rfl := Option.some.inj hp
      exact ⟨fun q hq => by obtain rfl := Option.some.inj hq; exact ⟨rfl, rfl⟩, hnext⟩

namespace Traded

variable {positions : List Position} {oiChange : Int}

theorem positions_eq (h : Traded w w' user positions marketId isLong oiChange pnl) :
    w'.engine.positions = w.engine.positions.set user positions := by
  obtain ⟨_, _, he⟩ := h.engine
  rw [he]
  rfl

/-- A trade leaves the prices and the assets that are recorded; in the vault it writes the
positions and one balance. -/
theorem account (h : Traded w w' user positions marketId isLong oiChange pnl) :
    SamePrices w w' ∧ w'.vault.userAssets = w.vault.userAssets ∧
      w'.vault.loadPositions user = positions ∧ ∃ asset, w.engine.settlementAsset = some asset ∧
        ∀ u a, w'.vault.balanceOf u a =
          if u = user ∧ a = asset then w.vault.balanceOf u a + pnl else w.vault.balanceOf u a := by
  obtain ⟨asset, vault, hs, ⟨⟨balance, rfl⟩, hbalance⟩, hvault⟩ := h.vault
  obtain ⟨engine', vault', rfl⟩ := h.world
  obtain rfl : vault' = _ := hvault
  refine ⟨⟨rfl, rfl, rfl, rfl, rfl, rfl, rfl⟩, rfl, ?_, asset, hs, hbalance⟩
  simp [VaultStorage.loadPositions]

theorem loadPositions (h : Traded w w' user positions marketId isLong oiChange pnl) (u : Address) :
    w'.engine.loadPositions u = if u = user then positions else w.engine.loadPositions u := by
  simp only [EngineStorage.loadPositions, h.positions_eq, Store.get_set]
  split <;> rfl

theorem openInterestOf (h : Traded w w' user positions marketId isLong oiChange pnl) (m : Nat) :
    w'.engine.openInterestOf m =
      if m = marketId then w.engine.openInterestOf m + oiChange else w.engine.openInterestOf m := by
  obtain ⟨_, _, he⟩ := h.engine
  rw [he]
  by_cases hm : m = marketId
  · subst hm
    simp [EngineStorage.openInterestOf, EngineStorage.storeOpenInterest,
      EngineStorage.storeSideOpenInterest]
  · simp [EngineStorage.openInterestOf, EngineStorage.storeOpenInterest,
      EngineStorage.storeSideOpenInterest, EngineStorage.storePositions, hm]

theorem sideOpenInterest (h : Traded w w' user positions marketId isLong oiChange pnl) (m : Nat)
    (side : Bool) : w'.engine.sideOpenInterest m side =
      if m = marketId ∧ side = isLong then w.engine.sideOpenInterest m side + oiChange
      else w.engine.sideOpenInterest m side := by
  obtain ⟨_, _, he⟩ := h.engine
  rw [he]
  cases side <;> cases isLong <;> by_cases hm : m = marketId <;>
    simp [EngineStorage.sideOpenInterest, EngineStorage.storeOpenInterest,
      EngineStorage.storeSideOpenInterest, EngineStorage.storePositions, hm]

/-- Trades leave the configuration alone. -/
theorem config (h : Traded w w' user positions marketId isLong oiChange pnl) :
    w'.engine.settlementAsset = w.engine.settlementAsset ∧
      w'.engine.insurance = w.engine.insurance ∧
      w'.engine.feeRecipient = w.engine.feeRecipient := by
  obtain ⟨_, _, he⟩ := h.engine
  rw [he]
  exact ⟨rfl, rfl, rfl⟩

end Traded

/-! ## Fees -/

/-- A fee moves between two balances, and the payer's margin is checked in between. -/
theorem chargeTradeFee_effect {isMaker : Bool}
    (h : Returns (chargeTradeFee env user marketId size price isMaker) w r w') :
    w' = w ∨ ∃ asset recipient paid vault, w.engine.settlementAsset = some asset ∧
      w.engine.feeRecipient = some recipient ∧ w.vault.Credited paid user asset (-r) ∧
      AboveInitialMargin env { w with vault := paid } user ∧
      paid.Credited vault recipient asset r ∧ w' = { w with vault } := by
  simp only [chargeTradeFee, returns_lift_bind, returns_get_bind] at h
  obtain ⟨_, _, hbody⟩ := h
  rcases returns_ite.mp hbody with ⟨_, hnone⟩ | ⟨_, hfee⟩
  · exact .inl (returns_pure.mp hnone).2
  · simp only [returns_readWith_bind, returns_lift_bind, checkedSub_ok, and_assoc, exists_and_left,
      exists_eq_left', settlementAsset, feeRecipient, okOr_ok] at hfee
    obtain ⟨_, _, _, _, fee, _, asset, hs, recipient, hr, _, hrun⟩ := hfee
    obtain ⟨_, w₁, hdebit, hrun⟩ := returns_bind.mp hrun
    simp only [returns_readWith_bind] at hrun
    obtain ⟨_, habove, hrun⟩ := hrun
    obtain ⟨_, w₂, hcredit, hret⟩ := returns_bind.mp hrun
    obtain ⟨rfl, rfl⟩ := returns_pure.mp hret
    obtain ⟨paid, hpaid, rfl⟩ := vaultApplyPnl_effect hdebit
    obtain ⟨vault, hvault, rfl⟩ := vaultApplyPnl_effect hcredit
    rw [zero_sub] at hpaid
    exact .inr ⟨asset, recipient, paid, vault, hs, hr, hpaid,
      requireAccountAboveInitialMargin_ok habove, hvault, rfl⟩

/-! ## Funding -/

/-- The surplus the longs owe the shorts or the other way round, at an index change. -/
def fundingSurplus (s : EngineStorage) (marketId : Nat) (delta : Int) : Int :=
  (delta * (s.sideOpenInterest marketId true - s.sideOpenInterest marketId false)).tdiv precision

theorem routeFundingSurplus_effect {delta : Int} {u : Unit}
    (h : Returns (routeFundingSurplus env marketId delta) w u w') :
    ∃ vault, w' = { w with vault } ∧ (∃ balance, vault = { w.vault with balance }) ∧
      (∀ user a, w.engine.insurance ≠ some user → vault.balanceOf user a = w.vault.balanceOf user a) ∧
      ∀ insurance asset, w.engine.insurance = some insurance →
        w.engine.settlementAsset = some asset →
        w.vault.Credited vault insurance asset (fundingSurplus w.engine marketId delta) := by
  have stop : ∀ {v : World}, fundingSurplus w.engine marketId delta = 0 →
      Returns (pure () : Tx Unit) w u v → ∃ vault, v = { w with vault } ∧
        (∃ balance, vault = { w.vault with balance }) ∧ (∀ user a, w.engine.insurance ≠ some user →
          vault.balanceOf user a = w.vault.balanceOf user a) ∧
        ∀ insurance asset, w.engine.insurance = some insurance →
          w.engine.settlementAsset = some asset →
          w.vault.Credited vault insurance asset (fundingSurplus w.engine marketId delta) := by
    intro v hz hp
    exact ⟨_, (returns_pure.mp hp).2, ⟨_, rfl⟩, fun _ _ _ => rfl, fun _ _ _ _ => hz ▸ .refl _ _ _⟩
  rcases returns_ite.mp h with ⟨hz, hstop⟩ | ⟨_, hmoved⟩
  · exact stop (by simp [fundingSurplus, hz]) hstop
  simp only [returns_get_bind, returns_lift_bind, checkedSub_ok, and_assoc, exists_and_left,
    exists_eq_left'] at hmoved
  obtain ⟨_, hbody⟩ := hmoved
  rcases returns_ite.mp hbody with ⟨hz, hstop⟩ | ⟨_, huneven⟩
  · exact stop (by simp [fundingSurplus, hz]) hstop
  simp only [returns_lift_bind] at huneven
  obtain ⟨net, hnet, hbody⟩ := huneven
  obtain ⟨_, _, hvalue⟩ := mulDiv_ok.mp hnet
  have hsurplus : fundingSurplus w.engine marketId delta = net := hvalue
  rcases returns_ite.mp hbody with ⟨hz, hstop⟩ | ⟨_, hroute⟩
  · exact stop (hsurplus.trans hz) hstop
  cases hi : w.engine.insurance with
  | none =>
    rw [hi] at hroute
    exact ⟨_, (returns_pure.mp hroute).2, ⟨_, rfl⟩, fun _ _ _ => rfl, fun _ _ hsome => by cases hsome⟩
  | some insurance =>
    simp only [hi, returns_readWith_bind, settlementAsset, okOr_ok] at hroute
    obtain ⟨asset, hs, hroute⟩ := hroute
    obtain ⟨_, _, hpnl, hret⟩ := returns_bind.mp hroute
    obtain ⟨_, rfl⟩ := returns_pure.mp hret
    obtain ⟨vault, hcredit, rfl⟩ := vaultApplyPnl_effect hpnl
    refine ⟨vault, rfl, hcredit.rest, fun user a hne => ?_, fun insurance' asset' hi' hs' => ?_⟩
    · rw [hcredit.balanceOf, if_neg fun hk => hne (congrArg some hk.1.symm)]
    · obtain rfl := Option.some.inj hi'
      obtain rfl := Option.some.inj (hs.symm.trans hs')
      exact hsurplus ▸ hcredit

/-- An update reads the mark once, charges at the premium it makes of it, writes both indexes in
the engine and in the vault, and routes the surplus. -/
theorem updateFunding_steps {next : FundingState}
    (h : Returns (updateFunding env marketId) w next w') :
    ∃ cfg market mark w₁ premium, w.engine.fundingConfig.get marketId = some cfg ∧
      w.engine.loadMarket marketId = .ok market ∧
      Returns (consumeMarkTwap env marketId) w mark w₁ ∧
      fundingPremium env w₁ market mark = .ok premium ∧
      updateFromPremium cfg (w.engine.fundingStateOf env.timestamp marketId) premium env.timestamp =
        .ok next ∧
      Returns (routeFundingSurplus env marketId
        (next.longIndex - (w.engine.fundingStateOf env.timestamp marketId).longIndex)) { w₁ with
          engine := { w₁.engine with fundingState := w₁.engine.fundingState.set marketId next }
          vault := { w₁.vault with
            fundingLong := w₁.vault.fundingLong.set marketId next.longIndex
            fundingShort := w₁.vault.fundingShort.set marketId next.shortIndex } } () w' := by
  simp only [updateFunding, returns_readWith_bind, returns_get_bind, okOr_ok] at h
  obtain ⟨cfg, hcfg, market, hmarket, hrun⟩ := h
  obtain ⟨mark, w₁, hmark, hrun⟩ := returns_bind.mp hrun
  simp only [returns_readWith_bind, returns_lift_bind, returns_store_bind] at hrun
  obtain ⟨premium, hpremium, next', hnext, hrun⟩ := hrun
  obtain ⟨_, w₂, hindexes, hrun⟩ := returns_bind.mp hrun
  simp only [returns_lift_bind, checkedSub_ok, and_assoc, exists_and_left, exists_eq_left'] at hrun
  obtain ⟨_, hrun⟩ := hrun
  obtain ⟨_, w₃, hroute, hret⟩ := returns_bind.mp hrun
  obtain ⟨rfl, rfl⟩ := returns_pure.mp hret
  obtain rfl := vaultSetFundingIndexes_effect hindexes
  exact ⟨cfg, market, mark, w₁, premium, hcfg, hmarket, hmark, hpremium, hnext, hroute⟩

/-- One accrual: both indexes of the market in the engine and in the vault, and the
surplus to the insurance account. -/
theorem updateFunding_effect {next : FundingState}
    (h : Returns (updateFunding env marketId) w next w') :
    next.longIndex + next.shortIndex = (w.engine.fundingStateOf env.timestamp marketId).longIndex +
        (w.engine.fundingStateOf env.timestamp marketId).shortIndex ∧
      ∃ markState vault, w' = { w with
        engine := { w.engine with
          markState, fundingState := w.engine.fundingState.set marketId next }
        vault := vault } ∧
      (∃ balance, vault = { w.vault with
        fundingLong := w.vault.fundingLong.set marketId next.longIndex
        fundingShort := w.vault.fundingShort.set marketId next.shortIndex, balance }) ∧
      (∀ user a, w.engine.insurance ≠ some user →
        vault.balanceOf user a = w.vault.balanceOf user a) ∧
      ∀ insurance asset, w.engine.insurance = some insurance →
        w.engine.settlementAsset = some asset →
        { w.vault with
          fundingLong := w.vault.fundingLong.set marketId next.longIndex
          fundingShort := w.vault.fundingShort.set marketId next.shortIndex }.Credited vault insurance
          asset (fundingSurplus w.engine marketId (next.longIndex -
            (w.engine.fundingStateOf env.timestamp marketId).longIndex)) := by
  obtain ⟨_, _, _, _, _, _, _, hmark, _, hnext, hroute⟩ := updateFunding_steps h
  obtain ⟨markState, rfl⟩ := consumeMarkTwap_effect hmark
  obtain ⟨vault, rfl, hrest, hothers, hcredit⟩ := routeFundingSurplus_effect hroute
  exact ⟨updateFromPremium_sum hnext, markState, vault, rfl, hrest, hothers, hcredit⟩

end Engine
end Kryon

import Kryon.Engine.Import
import Kryon.Liquidation.Deleveraging

/-! # Position ids

Ids come from the engine's counter and from imports, positions come and go by trades,
liquidations and imports. The counter stays above every stored id, and only an import
makes a user's list longer than the engine's cap. -/
namespace Kryon
open Transaction Runs

/-- The stored positions, their mirror in the vault and the next id. -/
structure Numbering where
  positions : Store Address (List Position) := ∅
  mirror : Store Address (List Position) := ∅
  nextPositionId : Option Nat := none

def World.numbering (w : World) : Numbering where
  positions := w.engine.positions
  mirror := w.vault.positions
  nextPositionId := w.engine.nextPositionId

namespace Numbering

/-- What `initialize` leaves. -/
def initial : Numbering where
  nextPositionId := some 1

variable (s : Numbering)

def loadPositions (user : Address) : List Position := (s.positions.get user).getD []

/-- One user's list replaced, and the counter. -/
def traded (user : Address) (positions : List Position) (nextPositionId : Option Nat) : Numbering where
  positions := s.positions.set user positions
  mirror := s.mirror.set user positions
  nextPositionId

/-- The lists of a batch written, and the counter past their ids. -/
def imported (entries : List MigratedPositions) : Numbering where
  positions := s.positions.setAll (entries.map MigratedPositions.write)
  mirror := s.mirror.setAll (entries.map MigratedPositions.write)
  nextPositionId := some (nextIdAfterAll (s.nextPositionId.getD 1) (batchPositions entries))

end Numbering

/-! ## Calls -/

inductive PositionOp where
  | account (op : AccountOp)
  | liquidate (env : Env) (liquidator user : Address) (positionId : Nat)
      (closeSize executionPrice : Int)
  | adl (env : Env) (keeper counterparty : Address) (positionId : Nat) (closeSize executionPrice : Int)

namespace PositionOp

def call : PositionOp → Tx Unit
  | account op => op.call
  | liquidate env liquidator user positionId closeSize executionPrice =>
    void (Liquidation.liquidate env liquidator user positionId closeSize executionPrice)
  | adl env keeper counterparty positionId closeSize executionPrice =>
    void (Liquidation.adl env keeper counterparty positionId closeSize executionPrice)

/-- One successful call; whatever holds neither positions nor the counter may be in any state. -/
abbrev Step : Numbering → PositionOp → Numbering → Prop := CallStep PositionOp.call World.numbering

/-- The call brings a position list for the user. -/
def ImportsUser (user : Address) : PositionOp → Prop
  | account (.migrateImportPositions _ entries) => ∃ entry ∈ entries, entry.user = user
  | _ => False

end PositionOp

/-! ## What one call does -/

/-- Everything a call can do to the positions and the counter. -/
inductive Numbering.Change (s : Numbering) (op : PositionOp) : Numbering → Prop
  | kept : Change s op s
  | traded {user : Address} {positions : List Position} {before after : Option Position}
      {nextPositionId : Option Nat}
      (one : OneChange (s.loadPositions user) positions before after)
      (opened : before = none → (s.loadPositions user).length < Engine.maxPositionsPerUser ∧
        ∃ p, after = some p ∧ s.nextPositionId = some p.positionId ∧
          nextPositionId = some (p.positionId + 1))
      (held : ∀ p, before = some p → nextPositionId = s.nextPositionId ∧
        ∀ q, after = some q → q.positionId = p.positionId) :
      Change s op (s.traded user positions nextPositionId)
  | imported {env : Env} {entries : List MigratedPositions}
      (imports : op = .account (.migrateImportPositions env entries)) :
      Change s op (s.imported entries)

variable {env : Env} {w w' : World} {user asset : Address} {op : PositionOp}

namespace Engine

theorem PositionTrade.change {before after : Option Position} {marketId : Nat} {isLong : Bool}
    {change pnl : Int} (h : PositionTrade w w' user before after marketId isLong change pnl)
    (hroom : before = none → (w.engine.loadPositions user).length < maxPositionsPerUser) :
    w.numbering.Change op w'.numbering := by
  obtain ⟨positions, ht, hone⟩ := h.traded
  have hengine := ht.positions_eq
  obtain ⟨_, _, _, ⟨⟨_, rfl⟩, _⟩, hvault⟩ := ht.vault
  have hnumbering : w'.numbering = w.numbering.traded user positions w'.engine.nextPositionId := by
    unfold World.numbering
    rw [hengine, hvault]
    rfl
  rw [hnumbering]
  refine .traded hone (fun hb => ⟨hroom hb, ?_⟩) fun p hb => ⟨(h.kept p hb).2, fun q hq => ?_⟩
  · obtain ⟨p, hp, _, hnext, hnext'⟩ := h.opened hb
    exact ⟨p, hp, hnext, hnext'⟩
  · exact ((h.kept p hb).1 q hq).1

end Engine

theorem EngineOp.change {trade : EngineOp} (h : Returns trade.call w () w') :
    w.numbering.Change op w'.numbering := by
  cases trade with
  | openPosition env user marketId size isLong price mode =>
    obtain ⟨_, h⟩ := returns_void.mp h
    obtain ⟨_, _, _, ht⟩ := Engine.openPosition_trade h
    exact ht.change fun _ => (Engine.openPosition_effect h).1
  | increasePosition env user positionId size price =>
    obtain ⟨_, h⟩ := returns_void.mp h
    obtain ⟨_, _, _, _, _, ht⟩ := Engine.increasePosition_trade h
    exact ht.change nofun
  | reducePosition env user positionId size price =>
    obtain ⟨_, h⟩ := returns_void.mp h
    obtain ⟨_, _, _, _, _, _, _, ht⟩ :=
      Engine.reducePositionInternal_trade (Engine.reducePosition_internal h)
    exact ht.change nofun
  | closePosition env user positionId price =>
    obtain ⟨_, h⟩ := returns_void.mp h
    obtain ⟨_, h⟩ := Engine.closePosition_internal h
    obtain ⟨_, _, _, _, _, _, _, ht⟩ := Engine.reducePositionInternal_trade h
    exact ht.change nofun
  | liquidateReduce env user positionId size price =>
    obtain ⟨_, h⟩ := returns_void.mp h
    obtain ⟨_, _, _, _, _, _, _, ht⟩ :=
      Engine.reducePositionInternal_trade (Engine.liquidateReduce_internal h)
    exact ht.change nofun

theorem AccountOp.change {call : AccountOp} (h : Returns call.call w () w') :
    w.numbering.Change (.account call) w'.numbering := by
  cases call with
  | trade op => exact EngineOp.change h
  | chargeTradeFee env user marketId size executionPrice isMaker =>
    obtain ⟨_, h⟩ := returns_void.mp h
    rcases Engine.chargeTradeFee_effect h with rfl | hpaid
    · exact .kept
    · obtain ⟨_, _, _, _, _, _, ⟨⟨_, rfl⟩, _⟩, _, ⟨⟨_, rfl⟩, _⟩, rfl⟩ := hpaid
      exact .kept
  | updateFunding env marketId =>
    obtain ⟨_, h⟩ := returns_void.mp h
    obtain ⟨_, _, _, rfl, ⟨_, rfl⟩, _⟩ := Engine.updateFunding_effect h
    exact .kept
  | migrateImportPositions env entries =>
    obtain ⟨_, h⟩ := returns_void.mp h
    rw [Engine.migrateImportPositions_imported h]
    exact .imported rfl
  | vault op =>
    obtain ⟨hengine, hmirror⟩ := VaultOp.keepsPositions h
    have hsame : w'.numbering = w.numbering := by
      unfold World.numbering
      rw [hengine, hmirror]
    rw [hsame]
    exact .kept

namespace Liquidation

/-- The close of a liquidation or a deleveraging is a trade. -/
theorem engineLiquidateReduce_change {positionId : Nat} {size price : Int} {trade : TradeResult}
    (h : Returns (engineLiquidateReduce env user positionId size price) w trade w') :
    w.numbering.Change op w'.numbering := by
  obtain ⟨_, _, _, _, _, _, _, ht⟩ := Engine.reducePositionInternal_trade
    (Engine.liquidateReduce_internal (callEngine_returns.mp h).2)
  exact ht.change nofun

/-- After the close a liquidation moves money only. -/
theorem liquidate_change {liquidator : Address} {positionId : Nat} {closeSize price : Int}
    {r : LiquidationReceipt}
    (h : Returns (liquidate env liquidator user positionId closeSize price) w r w') :
    w.numbering.Change op w'.numbering := by
  obtain ⟨_, _, w₁, w₂, _, w₃, _, _, hreduce, _, _, hpay, hseize, habsorb, _⟩ := liquidate_steps h
  have hpaid : w₂.numbering = w₁.numbering := by
    obtain ⟨_, _, rfl⟩ := payReward_effect hpay
    rfl
  have hseized : w₃.numbering = w₂.numbering := by
    obtain ⟨_, _, ⟨⟨_, rfl⟩, _⟩, rfl⟩ := Vault.seizeForDeficitInner_effect
      (Vault.seizeForDeficit_inner (callVault_returns.mp hseize).2)
    rfl
  have habsorbed : w'.numbering = w₃.numbering := by
    rcases returns_ite.mp habsorb with ⟨_, habsorb⟩ | ⟨_, hnone⟩
    · obtain ⟨_, _, hcall, hret⟩ := returns_bind.mp habsorb
      obtain ⟨_, rfl⟩ := returns_pure.mp hret
      rcases Vault.absorbBadDebt_effect (callVault_returns.mp hcall).2 with ⟨_, rfl⟩ |
        ⟨_, _, _, _, _, _, ⟨⟨_, rfl⟩, _⟩, rfl, _⟩
      · rfl
      · rfl
    · rw [(returns_pure.mp hnone).2]
  rw [habsorbed, hseized, hpaid]
  exact engineLiquidateReduce_change hreduce

theorem adl_change {keeper : Address} {positionId : Nat} {closeSize price : Int} {r : AdlReceipt}
    (h : Returns (adl env keeper user positionId closeSize price) w r w') :
    w.numbering.Change op w'.numbering := by
  obtain ⟨_, _, _, _, _, v, _, _, _, _, _, _, _, _, _, hreduce, _, hoffset⟩ := adl_steps h
  have hrest : w'.numbering = v.numbering := by
    rcases returns_ite.mp hoffset with ⟨_, hoffset⟩ | ⟨_, hnone⟩
    · obtain ⟨_, rfl⟩ := Insurance.reduceBadDebt_effect (callInsurance_returns.mp hoffset).2
      rfl
    · rw [(returns_pure.mp hnone).2]
  rw [hrest]
  exact engineLiquidateReduce_change hreduce

end Liquidation

theorem PositionOp.Step.change {s s' : Numbering} (h : op.Step s s') : s.Change op s' := by
  obtain ⟨w, w', rfl, rfl, h⟩ := h
  cases op with
  | account op => exact AccountOp.change h
  | liquidate env liquidator user positionId closeSize price =>
    obtain ⟨_, h⟩ := returns_void.mp h
    exact Liquidation.liquidate_change h
  | adl env keeper counterparty positionId closeSize price =>
    obtain ⟨_, h⟩ := returns_void.mp h
    exact Liquidation.adl_change h

/-! ## Over a run -/

namespace Numbering

variable {s s' : Numbering}

/-- The mirror is the engine's, and every stored id lies below the counter. -/
structure Numbered (s : Numbering) : Prop where
  mirrored : s.mirror = s.positions
  below : ∃ n, s.nextPositionId = some n ∧ ∀ user, ∀ p ∈ s.loadPositions user, p.positionId < n

theorem numbered_initial : Numbered initial where
  mirrored := rfl
  below := ⟨1, rfl, fun _ _ hp => nomatch hp⟩

theorem loadPositions_traded (user u : Address) (positions : List Position) (next : Option Nat) :
    (s.traded user positions next).loadPositions u =
      if u = user then positions else s.loadPositions u := by
  simp only [loadPositions, traded, Store.get_set]
  split <;> rfl

/-- A user's list after an import: the last that the batch brings, or the old one. -/
theorem loadPositions_imported (entries : List MigratedPositions) (user : Address) :
    (∃ entry ∈ entries, entry.user = user ∧ (s.imported entries).loadPositions user = entry.positions) ∨
      (s.imported entries).loadPositions user = s.loadPositions user := by
  rcases s.positions.get_setAll_cases (entries.map MigratedPositions.write) user with
    ⟨positions, hmem, hget⟩ | hget
  · obtain ⟨entry, hentry, hwrite⟩ := List.mem_map.mp hmem
    obtain ⟨rfl, rfl⟩ := Prod.mk.inj hwrite
    exact .inl ⟨entry, hentry, rfl, congrArg (Option.getD · []) hget⟩
  · exact .inr (congrArg (Option.getD · []) hget)

theorem Change.numbered {op : PositionOp} (hs : s.Numbered) (h : s.Change op s') : s'.Numbered := by
  obtain ⟨n, hn, hbelow⟩ := hs.below
  cases h with
  | kept => exact hs
  | @traded user positions before after next hone hopened hheld =>
    refine ⟨congrArg (Store.set · user positions) hs.mirrored, ?_⟩
    -- the counter moves only past the id it gives out
    have hnext : ∃ n', next = some n' ∧ n ≤ n' ∧ ∀ p, after = some p → p.positionId < n' := by
      cases hb : before with
      | none =>
        obtain ⟨_, p, hp, hid, hid'⟩ := hopened hb
        obtain rfl := Option.some.inj (hn.symm.trans hid)
        refine ⟨_, hid', Nat.le_succ _, fun q hq => ?_⟩
        obtain rfl := Option.some.inj (hp.symm.trans hq)
        exact Nat.lt_succ_self _
      | some p =>
        obtain ⟨hkept, hid⟩ := hheld p hb
        refine ⟨n, hkept.trans hn, le_rfl, fun q hq => ?_⟩
        rw [hid q hq]
        exact hbelow user p (hone.before_mem hb)
    obtain ⟨n', hn', hle, hafter⟩ := hnext
    refine ⟨n', hn', fun u p hp => ?_⟩
    rw [loadPositions_traded] at hp
    split at hp
    · rcases hone.mem hp with hold | hnew
      · exact (hbelow user p hold).trans_le hle
      · exact hafter p hnew
    · exact (hbelow u p hp).trans_le hle
  | @imported env entries _ =>
    refine ⟨congrArg (Store.setAll · _) hs.mirrored, nextIdAfterAll n (batchPositions entries),
      by rw [Numbering.imported, hn, Option.getD_some], fun u p hp => ?_⟩
    rcases s.loadPositions_imported entries u with ⟨entry, hentry, _, hl⟩ | hl
    · rw [hl] at hp
      exact lt_nextIdAfterAll (List.mem_flatMap.mpr ⟨entry, hentry, hp⟩)
    · rw [hl] at hp
      exact (hbelow u p hp).trans_le (le_nextIdAfterAll n _)

/-- A user no import brought a list for is within the cap. -/
def Capped (past : List PositionOp) (s : Numbering) : Prop :=
  ∀ user, (∀ op ∈ past, ¬ op.ImportsUser user) →
    (s.loadPositions user).length ≤ Engine.maxPositionsPerUser

theorem capped_initial : Capped [] initial := fun _ _ => Nat.zero_le _

theorem Change.capped {past : List PositionOp} {op : PositionOp} (hs : s.Capped past)
    (h : s.Change op s') : s'.Capped (past ++ [op]) := by
  intro u hu
  have hold : (s.loadPositions u).length ≤ Engine.maxPositionsPerUser :=
    hs u fun op hop => hu op (List.mem_append_left _ hop)
  cases h with
  | kept => exact hold
  | @traded user positions before after next hone hopened _ =>
    rw [loadPositions_traded]
    split
    · rename_i huser
      subst huser
      cases hb : before with
      | none =>
        have hlen := hone.length_of_append hb
        have := (hopened hb).1
        omega
      | some p => exact (hone.length_le hb).trans hold
    · exact hold
  | @imported env entries himports =>
    rcases s.loadPositions_imported entries u with ⟨entry, hentry, huser, _⟩ | hl
    · subst himports
      exact absurd ⟨entry, hentry, huser⟩ (hu _ (List.mem_append_right _ (List.mem_singleton_self _)))
    · rw [hl]
      exact hold

end Numbering

/-! ## The buffer of `account_health` -/

/-- The first pass gets to a position with its buffer full, which is an error. -/
def BufferFull (markets : Store Nat MarketSnapshot) (positions : List Position) : Prop :=
  ∃ before p after acc, positions = before ++ p :: after ∧
    positionPass markets .start before = .ok acc ∧ pnlBufLen ≤ acc.pnls.length

variable {markets : Store Nat MarketSnapshot} {positions : List Position}

theorem positionPass_append (acc : PositionPass) (before after : List Position) :
    positionPass markets acc (before ++ after) =
      positionPass markets acc before >>= fun acc => positionPass markets acc after := by
  induction before generalizing acc with
  | nil => rfl
  | cons p rest ih =>
    simp only [List.cons_append, positionPass, bind_assoc, ih]

theorem positionPass_of_bufferFull (h : BufferFull markets positions) :
    positionPass markets .start positions = .error (.code .invalidConfig) := by
  obtain ⟨before, p, after, acc, rfl, hpass, hfull⟩ := h
  rw [positionPass_append, except_bind_of_ok hpass]
  refine except_bind_of_error (except_bind_of_error ?_)
  exact if_pos hfull

/-- A pass fills one place for each position, so a list that fits never fills the buffer. -/
theorem not_bufferFull (h : positions.length ≤ pnlBufLen) : ¬ BufferFull markets positions := by
  rintro ⟨before, p, after, acc, rfl, hpass, hfull⟩
  obtain ⟨_, hpnls, _⟩ := positionPass_spec hpass
  have hlen : acc.pnls.length = before.length := by
    rw [hpnls, PositionPass.start, List.nil_append, List.length_map]
  rw [List.length_append, List.length_cons] at h
  omega

/-! ## Every reachable state -/

/-- Whatever trades, liquidations and imports came before: every stored id is below the
counter, so opening gives out an id that no stored position has, and a user no import
brought a list for has at most as many positions as the engine's cap, too few to fill the
buffer of `account_health`. -/
theorem position_ids_below {t : List (PositionOp × Numbering)} {w : World}
    (hr : IsRun PositionOp.Step .initial t) (hw : w.numbering = final .initial t) :
    (∃ n, w.engine.nextPositionId = some n ∧
      ∀ user, ∀ p ∈ w.engine.loadPositions user, p.positionId < n) ∧
    (∀ (env : Env) (user : Address) (marketId : Nat) (size price : Int) (isLong : Bool)
        (mode : MarginMode) (r : TradeResult) (w' : World),
      Returns (Engine.openPosition env user marketId size isLong price mode) w r w' →
      (∃ p, w'.engine.loadPositions user = w.engine.loadPositions user ++ [p] ∧
        p.positionId = r.positionId) ∧
      ∀ u, ∀ p ∈ w.engine.loadPositions u, p.positionId ≠ r.positionId) ∧
    ∀ user, (∀ op ∈ labels t, ¬ op.ImportsUser user) →
      (w.engine.loadPositions user).length ≤ Engine.maxPositionsPerUser ∧
      ∀ (env : Env) (asset : Address) (account : AccountSnapshot) (markets : Store Nat MarketSnapshot),
        Vault.accountSnapshot env w user asset = .ok account → ¬ BufferFull markets account.positions := by
  have hstep : ∀ s op s', Numbering.Numbered s → PositionOp.Step s op s' → s'.Numbered :=
    fun _ _ _ hs h => h.change.numbered hs
  have hnumbered : w.numbering.Numbered :=
    hw ▸ (invariant_of_step hstep Numbering.numbered_initial hr).at_final
  have hcall : ∀ past s op s', Numbering.Capped past s → PositionOp.Step s op s' →
      s'.Capped (past ++ [op]) := fun _ _ _ _ hs h => h.change.capped hs
  have hcapped : w.numbering.Capped (labels t) :=
    hw ▸ history_invariant hcall Numbering.capped_initial hr
  obtain ⟨n, hn, hbelow⟩ := hnumbered.below
  refine ⟨⟨n, hn, hbelow⟩, fun env user marketId size price isLong mode r w' h => ?_,
    fun user huser => ⟨hcapped user huser, fun env asset account markets haccount => ?_⟩⟩
  · obtain ⟨_, hid, _, _, p, _, _, _, _, _, _, hnext, _, ht, _⟩ := Engine.openPosition_effect h
    refine ⟨⟨p, ?_, Option.some.inj (hnext.symm.trans hid)⟩, fun u q hq => ?_⟩
    · rw [ht.loadPositions, if_pos rfl]
    · obtain rfl := Option.some.inj (hn.symm.trans hid)
      exact (hbelow u q hq).ne
  · have hmirror : w.vault.loadPositions user = w.numbering.loadPositions user :=
      congrArg (fun s : Store Address (List Position) => (s.get user).getD []) hnumbered.mirrored
    rw [Vault.loaded_positions haccount, hmirror]
    exact not_bufferFull ((hcapped user huser).trans (by decide))

namespace Sample

/-- Bob's position with id 8 is imported, and then alice trades. -/
def numberedCalls : List PositionOp := [
  .account (.migrateImportPositions (host 1000) bobBatch),
  .account (.trade (.openPosition (host 1000) alice 1 precision true (100 * precision) .cross))]

def numbered : World := final (trading 1000) (execute PositionOp.call (trading 1000) numberedCalls)

end Sample

open Sample in
theorem position_ids_below_imported :
    numbered.engine.nextPositionId = some 10 ∧
    (∀ p ∈ numbered.engine.loadPositions alice, p.positionId < 10) ∧
    (numbered.engine.loadPositions alice).length ≤ Engine.maxPositionsPerUser := by
  have hr : IsRun PositionOp.Step .initial
      (viewed World.numbering (execute PositionOp.call (trading 1000) numberedCalls)) :=
    isRun_execute (w := trading 1000) (by decide +kernel)
  have hw : numbered.numbering =
      final .initial (viewed World.numbering (execute PositionOp.call (trading 1000) numberedCalls)) :=
    (final_viewed (trading 1000) (execute PositionOp.call (trading 1000) numberedCalls)).symm
  obtain ⟨⟨n, hn, hbelow⟩, _, hcapped⟩ := position_ids_below hr hw
  have hten : numbered.engine.nextPositionId = some 10 := by decide +kernel
  obtain rfl := Option.some.inj (hten.symm.trans hn)
  refine ⟨hten, hbelow alice, (hcapped alice ?_).1⟩
  rw [labels_viewed_execute]
  refine List.forall_mem_cons.mpr ⟨?_, List.forall_mem_singleton.mpr id⟩
  rintro ⟨entry, hentry, huser⟩
  obtain rfl := List.mem_singleton.mp hentry
  exact absurd huser (by decide)

end Kryon

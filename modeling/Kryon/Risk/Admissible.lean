import Kryon.Lib.Lockstep
import Kryon.Risk.Margin

/-! # Health under retuned markets

Health reads the margins of a market and none of its leverage, fee or open-interest limits.
Where the margins are at most the whole of the notional, other margins change what is
required of an account and nothing but an overflow can be in the way of its health; a margin
above the whole leaves every account with a position in the market without a health. -/
namespace Kryon
open Transaction

/-- The two configurations differ in their margins, leverage, fee and open interest alone. -/
def MarketConfig.Retunes (config config' : MarketConfig) : Prop :=
  config' = { config with
    maxLeverageBps := config'.maxLeverageBps
    initialMarginBps := config'.initialMarginBps
    maintenanceMarginBps := config'.maintenanceMarginBps
    liquidationFeeBps := config'.liquidationFeeBps
    maxOpenInterest := config'.maxOpenInterest }

/-- Retuned to margins that can be taken of a notional where the old ones could. -/
structure MarketConfig.KeepsMargins (config config' : MarketConfig) : Prop where
  retunes : config.Retunes config'
  initial : config.initialMarginBps ≤ 10000 → config'.initialMarginBps ≤ 10000
  maintenance : config.maintenanceMarginBps ≤ 10000 → config'.maintenanceMarginBps ≤ 10000

theorem MarketConfig.Retunes.refl (config : MarketConfig) : config.Retunes config := rfl

theorem MarketConfig.KeepsMargins.refl (config : MarketConfig) : config.KeepsMargins config :=
  ⟨.refl config, id, id⟩

/-- Two tables with the same markets at the same prices and funding, their configurations
related by `N`. -/
def MarketsAkin (N : MarketConfig → MarketConfig → Prop) (markets markets' : Store Nat MarketSnapshot) :
    Prop :=
  ∀ marketId, Option.Rel (fun m m' => N m.config m'.config ∧ m' = { m with config := m'.config })
    (markets.get marketId) (markets'.get marketId)

abbrev Overflows (e : Abort) : Prop := e = .code .mathOverflow

variable {markets markets' : Store Nat MarketSnapshot}

theorem tracks_applyBps {n : Int} {bps bps' : Nat} (h : bps ≤ 10000 → bps' ≤ 10000) :
    Tracks Overflows (fun _ _ => True) (applyBps n bps) (applyBps n bps') := by
  intro req hreq
  have hbps : bps ≤ 10000 := (applyBps_ok.mp hreq).1
  exact Tracks.of_failsOnly (E := Overflows) rfl (applyBps_failsOnly n (h hbps))
    (fun _ _ _ _ => trivial) req hreq

theorem tracks_checkedAdd (a b a' b' : Int) :
    Tracks Overflows (fun _ _ => True) (checkedAdd a b) (checkedAdd a' b') :=
  .of_failsOnly rfl (checkedAdd_failsOnly a' b') fun _ _ _ _ => trivial

/-! ## The passes -/

/-- The accumulators that equity is made of. -/
structure SameSums (acc acc' : PositionPass) : Prop where
  pnls : acc'.pnls = acc.pnls
  locked : acc'.lockedIsolatedMargin = acc.lockedIsolatedMargin

theorem tracks_positionStep (h : MarketsAkin MarketConfig.KeepsMargins markets markets')
    {acc acc' : PositionPass} (hacc : SameSums acc acc') (p : Position) :
    Tracks Overflows SameSums (positionStep markets acc p) (positionStep markets' acc' p) := by
  unfold positionStep
  rw [hacc.pnls, hacc.locked]
  refine (Tracks.refl _).bind fun _ _ _ _ _ => (Tracks.of_rel (h p.marketId) _).bind ?_
  rintro m m' _ _ ⟨hmargins, hsame⟩
  rw [hsame, hmargins.retunes]
  refine (Tracks.refl _).bind fun _ _ _ _ _ => (Tracks.refl _).bind fun tradePnl _ _ _ h₁ => ?_
  subst h₁
  refine (Tracks.refl _).bind fun fPnl _ _ _ h₂ => ?_
  subst h₂
  refine (Tracks.refl _).bind fun upnl _ _ _ h₃ => ?_
  subst h₃
  refine (Tracks.refl _).bind fun n _ _ _ h₄ => ?_
  subst h₄
  refine (tracks_applyBps hmargins.initial).bind fun _ _ _ _ _ => ?_
  refine (tracks_checkedAdd _ _ _ _).bind fun _ _ _ _ _ => ?_
  refine (tracks_applyBps hmargins.maintenance).bind fun _ _ _ _ _ => ?_
  refine (tracks_checkedAdd _ _ _ _).bind fun _ _ _ _ _ => ?_
  by_cases hiso : p.mode = .isolated
  · rw [if_pos hiso, if_pos hiso]
    refine (Tracks.refl _).bind fun locked _ _ _ h₅ => ?_
    subst h₅
    refine (tracks_applyBps hmargins.maintenance).bind fun _ _ _ _ _ => ?_
    exact (Tracks.refl _).bind fun _ _ _ _ _ => .of_ok rfl fun _ hok => by
      obtain rfl := except_pure_ok.mp hok
      exact ⟨rfl, rfl⟩
  · rw [if_neg hiso, if_neg hiso]
    exact .of_ok rfl fun _ hok => by
      obtain rfl := except_pure_ok.mp hok
      exact ⟨rfl, rfl⟩

theorem tracks_positionPass (h : MarketsAkin MarketConfig.KeepsMargins markets markets')
    (positions : List Position) {acc acc' : PositionPass} (hacc : SameSums acc acc') :
    Tracks Overflows SameSums (positionPass markets acc positions)
      (positionPass markets' acc' positions) := by
  induction positions generalizing acc acc' with
  | nil => exact .of_ok rfl fun _ hok => Except.ok.inj hok ▸ hacc
  | cons p rest ih => exact (tracks_positionStep h hacc p).bind fun _ _ _ _ hnext => ih hnext

theorem tracks_crossMaintenancePass (h : MarketsAkin MarketConfig.KeepsMargins markets markets')
    (positions : List Position) (total total' : Int) :
    Tracks Overflows (fun _ _ => True) (crossMaintenancePass markets total positions)
      (crossMaintenancePass markets' total' positions) := by
  induction positions generalizing total total' with
  | nil => exact .of_ok rfl fun _ _ => trivial
  | cons p rest ih =>
    unfold crossMaintenancePass
    by_cases hcross : p.mode = .cross
    · rw [if_pos hcross, if_pos hcross]
      refine (Tracks.of_rel (h p.marketId) _).bind ?_
      rintro m m' _ _ ⟨hmargins, hsame⟩
      rw [hsame]
      refine (Tracks.refl _).bind fun n _ _ _ h₁ => ?_
      subst h₁
      refine (tracks_applyBps hmargins.maintenance).bind fun _ _ _ _ _ => ?_
      exact (tracks_checkedAdd _ _ _ _).bind fun _ _ _ _ _ => ih _ _
    · rw [if_neg hcross, if_neg hcross]
      exact ih _ _

/-- **Other margins, the same equity.** -/
theorem tracks_accountHealth (h : MarketsAkin MarketConfig.KeepsMargins markets markets')
    (account : AccountSnapshot) :
    Tracks Overflows (fun health health' => health'.equity = health.equity)
      (accountHealth account markets) (accountHealth account markets') := by
  unfold accountHealth
  refine (Tracks.refl _).bind fun total _ _ _ h₁ => ?_
  subst h₁
  refine (tracks_positionPass h account.positions ⟨rfl, rfl⟩).bind fun pass pass' _ _ hpass => ?_
  rw [hpass.pnls, hpass.locked]
  refine (Tracks.refl _).bind fun cross _ _ _ h₂ => (Tracks.refl _).bind fun split _ _ _ h₃ => ?_
  subst h₂ h₃
  obtain ⟨isolatedEquity, crossUnrealized⟩ := split
  refine (Tracks.refl _).bind fun _ _ _ _ _ => (Tracks.refl _).bind fun crossEquity _ _ _ h₄ => ?_
  subst h₄
  refine (Tracks.refl _).bind fun equity _ _ _ h₅ => ?_
  subst h₅
  refine Tracks.bind (V := fun _ _ => True)
    (.of_failsOnly rfl (checkedSub_failsOnly _ _) fun _ _ _ _ => trivial) fun _ _ _ _ _ => ?_
  refine Tracks.bind (V := fun _ _ => True)
    (.of_failsOnly rfl (marginRatioOf_failsOnly _ _) fun _ _ _ _ => trivial) fun _ _ _ _ _ => ?_
  refine (tracks_crossMaintenancePass h account.positions 0 0).bind fun _ _ _ _ _ => ?_
  exact (Tracks.refl _).bind fun _ _ _ _ _ => .of_ok rfl fun _ hok => by
    obtain rfl := except_pure_ok.mp hok
    rfl

/-! ## A margin above the whole -/

theorem positionStep_congr {p : Position} (h : markets'.get p.marketId = markets.get p.marketId)
    (acc : PositionPass) : positionStep markets' acc p = positionStep markets acc p := by
  unfold positionStep
  rw [h]

/-- The table with one market retuned to an initial margin above the whole of the notional. -/
structure MarginAboveWhole (marketId : Nat) (markets markets' : Store Nat MarketSnapshot) : Prop where
  others : ∀ other, other ≠ marketId → markets'.get other = markets.get other
  retuned : ∀ m, markets.get marketId = some m → ∃ config, m.config.Retunes config ∧
    10000 < config.initialMarginBps ∧ markets'.get marketId = some { m with config }

variable {marketId : Nat} {acc next : PositionPass} {p : Position} {positions : List Position}

theorem positionStep_above (h : MarginAboveWhole marketId markets markets') (hp : p.marketId = marketId)
    (hok : positionStep markets acc p = .ok next) :
    positionStep markets' acc p = .error (.code .invalidConfig) := by
  unfold positionStep at hok ⊢
  obtain ⟨_, hcount, hok⟩ := except_bind_ok.mp hok
  obtain ⟨m, hm, hok⟩ := except_bind_ok.mp hok
  obtain ⟨_, hactive, hok⟩ := except_bind_ok.mp hok
  obtain ⟨tradePnl, htrade, hok⟩ := except_bind_ok.mp hok
  obtain ⟨fPnl, hfunding, hok⟩ := except_bind_ok.mp hok
  obtain ⟨upnl, hupnl, hok⟩ := except_bind_ok.mp hok
  obtain ⟨n, hn, _⟩ := except_bind_ok.mp hok
  obtain ⟨config, hretunes, habove, hm'⟩ := h.retuned m (hp ▸ someOr_ok.mp hm)
  have hkept : config.active = m.config.active := by rw [hretunes]
  have hload : okOr (markets'.get marketId) .invalidConfig = .ok { m with config } := someOr_ok.mpr hm'
  have hactive' : reject (config.active = false) .invalidConfig = .ok () := hkept ▸ hactive
  rw [except_bind_of_ok hcount, hp, except_bind_of_ok hload, except_bind_of_ok hactive',
    except_bind_of_ok htrade, except_bind_of_ok hfunding, except_bind_of_ok hupnl, except_bind_of_ok hn]
  exact except_bind_of_error (applyBps_error n habove)

theorem positionPass_above (h : MarginAboveWhole marketId markets markets')
    (hp : ∃ p ∈ positions, p.marketId = marketId) (hok : positionPass markets acc positions = .ok next) :
    positionPass markets' acc positions = .error (.code .invalidConfig) := by
  induction positions generalizing acc with
  | nil =>
    obtain ⟨_, hmem, _⟩ := hp
    cases hmem
  | cons p rest ih =>
    obtain ⟨mid, hstep, hrest⟩ := except_bind_ok.mp hok
    by_cases hmarket : p.marketId = marketId
    · exact except_bind_of_error (positionStep_above h hmarket hstep)
    · have hheld : ∃ p ∈ rest, p.marketId = marketId := by
        obtain ⟨q, hmem, hq⟩ := hp
        cases hmem with
        | head => exact absurd hq hmarket
        | tail _ hmem => exact ⟨q, hmem, hq⟩
      have hstep' := (positionStep_congr (h.others p.marketId hmarket) acc).trans hstep
      exact (except_bind_of_ok hstep').trans (ih hheld hrest)

/-- **A margin above the whole of the notional leaves no health.** -/
theorem accountHealth_above {account : AccountSnapshot} {health : AccountHealth}
    (h : MarginAboveWhole marketId markets markets')
    (hp : ∃ p ∈ account.positions, p.marketId = marketId)
    (hok : accountHealth account markets = .ok health) :
    accountHealth account markets' = .error (.code .invalidConfig) := by
  obtain ⟨_, htotal, hok⟩ := except_bind_ok.mp hok
  obtain ⟨_, hpass, _⟩ := except_bind_ok.mp hok
  exact (except_bind_of_ok htotal).trans (except_bind_of_error (positionPass_above h hp hpass))

end Kryon

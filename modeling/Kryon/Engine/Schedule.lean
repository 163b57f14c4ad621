import Kryon.Engine.Accrual

/-! # Schedules of funding updates

The updates of one market under a fixed configuration, at whatever times and premiums.
What a schedule charges is compared with the rate held over its whole length. -/
namespace Kryon
open Transaction Runs Truncation

/-- One update of the market's funding, at a time and a premium; everything else that the
contracts hold may be in any state. -/
def FundingUpdate (marketId : Nat) (cfg : FundingConfig) (f : FundingState) (u : Nat × Int)
    (f' : FundingState) : Prop :=
  ∃ (env : Env) (w w' w₁ : World) (market : EngineMarketConfig) (mark : Int),
    env.timestamp = u.1 ∧ w.engine.fundingConfig.get marketId = some cfg ∧
    w.engine.fundingStateOf env.timestamp marketId = f ∧ w.engine.loadMarket marketId = .ok market ∧
    Returns (Engine.consumeMarkTwap env marketId) w mark w₁ ∧
    Engine.fundingPremium env w₁ market mark = .ok u.2 ∧
    Returns (Engine.updateFunding env marketId) w f' w'

/-- The update charges the rate of its premium over the seconds since the last one, or over
the cap if they are more, truncated towards zero. -/
structure Charged (cfg : FundingConfig) (f : FundingState) (u : Nat × Int) (f' : FundingState) :
    Prop where
  later : f.lastUpdate ≤ u.1
  rate : |fundingRate cfg u.2| ≤ cfg.maxRatePerHour
  lastUpdate : f'.lastUpdate = u.1
  long : f'.longIndex - f.longIndex =
    (fundingRate cfg u.2 * ((min (u.1 - f.lastUpdate) maxFundingElapsedSecs : Nat) : Int)).tdiv secsPerHour
  sum : f'.longIndex + f'.shortIndex = f.longIndex + f.shortIndex

variable {marketId : Nat} {cfg : FundingConfig} {f f' : FundingState} {u : Nat × Int}
  {t : List ((Nat × Int) × FundingState)}

theorem FundingUpdate.charged (h : FundingUpdate marketId cfg f u f') (hlater : f.lastUpdate ≤ u.1) :
    Charged cfg f u f' := by
  obtain ⟨now, premium⟩ := u
  obtain ⟨env, w, w', w₁, market, mark, rfl, hcfg, rfl, hmarket, hmark, hpremium, h⟩ := h
  obtain ⟨cfg', market', mark', w₁', premium', hcfg', hmarket', hmark', hpremium', _, hnext⟩ :=
    Engine.updateFunding_accrues h
  obtain rfl := Option.some.inj (hcfg.symm.trans hcfg')
  obtain rfl := Except.ok.inj (hmarket.symm.trans hmarket')
  obtain ⟨rfl, rfl⟩ := hmark.det hmark'
  obtain rfl := Except.ok.inj (hpremium.symm.trans hpremium')
  obtain ⟨hrate, hlast, hlong, hsum⟩ := updateFromPremium_spec hlater hnext
  exact ⟨hlater, hrate, hlast, hlong, hsum⟩

/-- Every successful call is an update at some premium. -/
theorem exists_fundingUpdate {env : Env} {w w' : World}
    (hcfg : w.engine.fundingConfig.get marketId = some cfg)
    (h : Returns (Engine.updateFunding env marketId) w f' w') :
    ∃ premium, FundingUpdate marketId cfg (w.engine.fundingStateOf env.timestamp marketId)
      (env.timestamp, premium) f' := by
  obtain ⟨_, market, mark, w₁, premium, _, hmarket, hmark, hpremium, _⟩ :=
    Engine.updateFunding_accrues h
  exact ⟨premium, env, w, w', w₁, market, mark, rfl, hcfg, rfl, hmarket, hmark, hpremium, h⟩

/-- Updates in the order of their times are charged one after the other. -/
theorem schedule_charged (hr : IsRun (FundingUpdate marketId cfg) f t)
    (horder : List.IsChain (· ≤ ·) (f.lastUpdate :: (labels t).map Prod.fst)) :
    IsRun (Charged cfg) f t := by
  induction t generalizing f with
  | nil => trivial
  | cons e t ih =>
    rw [labels, List.map_cons, List.map_cons, List.isChain_cons_cons] at horder
    have hcharged := hr.1.charged horder.1
    exact ⟨hcharged, ih hr.2 (hcharged.lastUpdate ▸ horder.2)⟩

/-! ## One update -/

/-- No update charges more than its rate over the time since the last one. -/
theorem Charged.abs_mul_le (h : Charged cfg f u f') :
    |f'.longIndex - f.longIndex| * secsPerHour ≤
      |fundingRate cfg u.2| * (f'.lastUpdate - f.lastUpdate) := by
  have hcapped : ((min (u.1 - f.lastUpdate) maxFundingElapsedSecs : Nat) : Int) ≤
      f'.lastUpdate - f.lastUpdate := by
    have hlater := h.later
    rw [h.lastUpdate]
    omega
  rw [h.long]
  calc |(fundingRate cfg u.2 * ((min (u.1 - f.lastUpdate) maxFundingElapsedSecs : Nat) : Int)).tdiv
        secsPerHour| * secsPerHour
      ≤ |fundingRate cfg u.2 * ((min (u.1 - f.lastUpdate) maxFundingElapsedSecs : Nat) : Int)| :=
        abs_tdiv_mul_le _ (by decide)
    _ = |fundingRate cfg u.2| * ((min (u.1 - f.lastUpdate) maxFundingElapsedSecs : Nat) : Int) := by
        rw [abs_mul, abs_of_nonneg (Int.natCast_nonneg _)]
    _ ≤ |fundingRate cfg u.2| * (f'.lastUpdate - f.lastUpdate) :=
        mul_le_mul_of_nonneg_left hcapped (abs_nonneg _)

/-- What an index has beyond a linear accrual at `rate`. -/
def drift (rate : Int) (f : FundingState) : ℚ :=
  (f.longIndex : ℚ) - rate * f.lastUpdate / secsPerHour

/-- Within the cap an update is less than one unit away from the linear accrual. -/
theorem Charged.abs_drift_lt (h : Charged cfg f u f')
    (hgap : u.1 ≤ f.lastUpdate + maxFundingElapsedSecs) :
    |drift (fundingRate cfg u.2) f' - drift (fundingRate cfg u.2) f| < 1 := by
  have helapsed : ((min (u.1 - f.lastUpdate) maxFundingElapsedSecs : Nat) : Int) =
      f'.lastUpdate - f.lastUpdate := by
    have hlater := h.later
    rw [h.lastUpdate]
    omega
  have htruncated := abs_tdiv_sub_lt
    (fundingRate cfg u.2 * ((min (u.1 - f.lastUpdate) maxFundingElapsedSecs : Nat) : Int))
    (b := (secsPerHour : Int)) (by decide)
  rw [← h.long, helapsed] at htruncated
  have hdrift : drift (fundingRate cfg u.2) f' - drift (fundingRate cfg u.2) f =
      ((f'.longIndex - f.longIndex : Int) : ℚ) -
        ((fundingRate cfg u.2 * (f'.lastUpdate - f.lastUpdate) : Int) : ℚ) / ((secsPerHour : Int) : ℚ) := by
    unfold drift
    push_cast
    ring
  rw [hdrift]
  exact htruncated

/-! ## Whole schedules -/

theorem charged_lastUpdate (hr : IsRun (Charged cfg) f t) :
    (final f t).lastUpdate = ((labels t).map Prod.fst).getLastD f.lastUpdate := by
  induction t generalizing f with
  | nil => rfl
  | cons e t ih =>
    have htail := ih hr.2
    rw [hr.1.lastUpdate] at htail
    rw [labels, List.map_cons, List.map_cons, List.getLastD_cons]
    exact htail

theorem charged_gaps (hr : IsRun (Charged cfg) f t)
    (hgaps : List.IsChain (fun a b => b ≤ a + maxFundingElapsedSecs)
      (f.lastUpdate :: (labels t).map Prod.fst)) :
    AllSteps (fun f u => u.1 ≤ f.lastUpdate + maxFundingElapsedSecs) f t := by
  induction t generalizing f with
  | nil => trivial
  | cons e t ih =>
    rw [labels, List.map_cons, List.map_cons, List.isChain_cons_cons] at hgaps
    exact ⟨hgaps.1, ih hr.2 (hr.1.lastUpdate ▸ hgaps.2)⟩

/-- **Funding over a schedule.** For updates in the order of their times, from the state that
the update at `t₀` left: the indexes keep their sum; the long index varies by at most the
maximal rate over the whole time; every update charges for its gap or the cap, whichever is
less; and at a constant premium the total charge is at most the linear accrual, and within
one unit an update of it when no gap is over the cap. -/
theorem funding_schedule (hr : IsRun (FundingUpdate marketId cfg) f t)
    (horder : List.IsChain (· ≤ ·) (f.lastUpdate :: (labels t).map Prod.fst)) :
    (final f t).lastUpdate = ((labels t).map Prod.fst).getLastD f.lastUpdate ∧
    AllStates (fun g => g.longIndex + g.shortIndex = f.longIndex + f.shortIndex) f t ∧
    variation FundingState.longIndex f t * secsPerHour ≤
      cfg.maxRatePerHour * ((final f t).lastUpdate - f.lastUpdate) ∧
    IsRun (fun g u g' => g'.longIndex - g.longIndex = (fundingRate cfg u.2 *
      ((min (u.1 - g.lastUpdate) maxFundingElapsedSecs : Nat) : Int)).tdiv secsPerHour) f t ∧
    ∀ premium, (∀ e ∈ t, e.1.2 = premium) →
      |(final f t).longIndex - f.longIndex| * secsPerHour ≤
        |fundingRate cfg premium| * ((final f t).lastUpdate - f.lastUpdate) ∧
      (List.IsChain (fun a b => b ≤ a + maxFundingElapsedSecs)
        (f.lastUpdate :: (labels t).map Prod.fst) → t ≠ [] →
        |(((final f t).longIndex - f.longIndex : Int) : ℚ) - (fundingRate cfg premium : ℚ) *
          ((final f t).lastUpdate - f.lastUpdate) / secsPerHour| < t.length) := by
  have hcharged := schedule_charged hr horder
  refine ⟨charged_lastUpdate hcharged, ?_, ?_, hcharged.mono fun _ _ _ h => h.long, ?_⟩
  · exact invariant_of_step (fun g u g' hg h => h.sum.trans hg) rfl hcharged
  · refine variation_mul_le (T := fun g => (g.lastUpdate : Int)) (hcharged.mono fun g u g' h => ?_)
    have hwidth : (0 : Int) ≤ (g'.lastUpdate : Int) - g.lastUpdate := by
      have hlater := h.later
      rw [h.lastUpdate]
      omega
    exact h.abs_mul_le.trans (mul_le_mul_of_nonneg_right h.rate hwidth)
  · intro premium hpremium
    have hconstant : AllSteps (fun _ u => u.2 = premium) f t := allSteps_labels.mpr hpremium
    have hrun := hcharged.and hconstant
    constructor
    · have hvaried : variation FundingState.longIndex f t * secsPerHour ≤
          |fundingRate cfg premium| * ((final f t).lastUpdate - f.lastUpdate) := by
        refine variation_mul_le (T := fun g => (g.lastUpdate : Int)) (hrun.mono fun g u g' h => ?_)
        have hbound := h.1.abs_mul_le
        rw [h.2] at hbound
        exact hbound
      exact (mul_le_mul_of_nonneg_right (abs_final_sub_le_variation _ _ _) (by decide)).trans hvaried
    · intro hgaps hne
      have hdrift : IsRun (fun g _ g' => |drift (fundingRate cfg premium) g' -
          drift (fundingRate cfg premium) g| < 1) f t := by
        refine (hrun.and (charged_gaps hcharged hgaps)).mono fun g u g' h => ?_
        have hlt := h.1.1.abs_drift_lt h.2
        rw [h.1.2] at hlt
        exact hlt
      have htotal := abs_final_sub_lt_length (drift (fundingRate cfg premium)) hdrift hne
      have hform : drift (fundingRate cfg premium) (final f t) - drift (fundingRate cfg premium) f =
          (((final f t).longIndex - f.longIndex : Int) : ℚ) - (fundingRate cfg premium : ℚ) *
            ((final f t).lastUpdate - f.lastUpdate) / secsPerHour := by
        unfold drift
        push_cast
        ring
      rw [← hform]
      exact htotal

namespace Sample

/-- The premium of a mark of 101 over an index of 100. -/
def onePercent : Int := 10000000000000000

/-- The state with both oracles publishing 100 at `now`. -/
def hundredAt (w : World) (now : Nat) : World := { w with oracle := prices (100 * precision) now }

def updated (w : World) (now : Nat) : World :=
  (Engine.updateFunding (host now) 1).commit (hundredAt w now)

def accrued (longIndex ratePerHour : Int) (lastUpdate : Nat) : FundingState where
  longIndex
  shortIndex := -longIndex
  ratePerHour
  lastUpdate

/-- After an hour, after 400 seconds more, and after a gap of over two hours. -/
def unevenUpdates : List ((Nat × Int) × FundingState) :=
  [((4600, onePercent), accrued 10000000000000000 onePercent 4600),
    ((5000, onePercent), accrued 11111111111111111 onePercent 5000),
    ((12600, onePercent), accrued 21111111111111111 onePercent 12600)]

/-- What an update does is read off its value and its premium. -/
theorem fundingUpdate_of_values {w : World} {now : Nat} {f f' : FundingState}
    (hcfg : w.engine.fundingConfig.get 1 = some hourly) (hf : w.engine.fundingStateOf now 1 = f)
    (hmarket : w.engine.market.get 1 = some { market, maxExecutionDeviationBps := 100 })
    (hmark : (Engine.consumeMarkTwap (host now) 1).value (hundredAt w now) = some (101 * precision))
    (hpremium : (Engine.fundingPremium (host now)
      ((Engine.consumeMarkTwap (host now) 1).commit (hundredAt w now))
      { market, maxExecutionDeviationBps := 100 } (101 * precision)).toOption = some onePercent)
    (h : (Engine.updateFunding (host now) 1).value (hundredAt w now) = some f') :
    FundingUpdate 1 hourly f (now, onePercent) f' := by
  have hread : Engine.fundingPremium (host now)
      ((Engine.consumeMarkTwap (host now) 1).commit (hundredAt w now))
      { market, maxExecutionDeviationBps := 100 } (101 * precision) = .ok onePercent := by
    cases hx : Engine.fundingPremium (host now) _ { market, maxExecutionDeviationBps := 100 }
        (101 * precision) with
    | ok premium =>
      rw [hx] at hpremium
      rw [← Option.some.inj hpremium]
    | error e =>
      rw [hx] at hpremium
      cases hpremium
  exact ⟨host now, hundredAt w now, _, _, { market, maxExecutionDeviationBps := 100 }, _, rfl, hcfg, hf,
    okOr_ok.mpr hmarket, returns_of_value hmark, hread, returns_of_value h⟩

end Sample

open Sample in
/-- Three updates at one premium: the last gap is charged at the cap only, the first two to the
second. -/
theorem funding_schedule_hour :
    IsRun (FundingUpdate 1 hourly) (accrued 0 0 1000) unevenUpdates ∧
    variation FundingState.longIndex (accrued 0 0 1000) unevenUpdates * secsPerHour ≤
      hourly.maxRatePerHour * ((12600 : Nat) - (1000 : Nat)) ∧
    |((11111111111111111 - 0 : Int) : ℚ) -
      (fundingRate hourly onePercent : ℚ) * ((5000 : Nat) - (1000 : Nat)) / secsPerHour| < (2 : Nat) := by
  have hfirst : FundingUpdate 1 hourly (accrued 0 0 1000) (4600, onePercent)
      (accrued 10000000000000000 onePercent 4600) :=
    fundingUpdate_of_values (w := buy.commit unfunded) (by decide +kernel) (by decide +kernel)
      (by decide +kernel) (by decide +kernel) (by decide +kernel) (by decide +kernel)
  have hsecond : FundingUpdate 1 hourly (accrued 10000000000000000 onePercent 4600) (5000, onePercent)
      (accrued 11111111111111111 onePercent 5000) :=
    fundingUpdate_of_values (w := updated (buy.commit unfunded) 4600) (by decide +kernel)
      (by decide +kernel) (by decide +kernel) (by decide +kernel) (by decide +kernel)
      (by decide +kernel)
  have hthird : FundingUpdate 1 hourly (accrued 11111111111111111 onePercent 5000) (12600, onePercent)
      (accrued 21111111111111111 onePercent 12600) :=
    fundingUpdate_of_values (w := updated (updated (buy.commit unfunded) 4600) 5000)
      (by decide +kernel) (by decide +kernel) (by decide +kernel) (by decide +kernel)
      (by decide +kernel) (by decide +kernel)
  have hrun : IsRun (FundingUpdate 1 hourly) (accrued 0 0 1000) unevenUpdates :=
    ⟨hfirst, hsecond, hthird, trivial⟩
  have hcapped : IsRun (FundingUpdate 1 hourly) (accrued 0 0 1000) (unevenUpdates.take 2) :=
    ⟨hfirst, hsecond, trivial⟩
  have hlinear := (funding_schedule hcapped (by decide)).2.2.2.2 onePercent (by decide)
  exact ⟨hrun, (funding_schedule hrun (by decide)).2.2.1, hlinear.2 (by decide) (by decide)⟩

end Kryon

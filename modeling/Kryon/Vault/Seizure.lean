import Kryon.Lib.Collection
import Kryon.Vault.Effects

/-! # What a seizure takes

`seize_for_deficit_inner` collects the deficit from the user's other assets, at their prices
after haircut. The loop is the collection of a debt from one holding after the other, with
the balances and prices from before the call. -/
namespace Kryon
open Transaction Collection

/-! ## Shares of a balance -/

variable {amount price : Int} {haircutBps : Nat}

@[simp] theorem assetWorth_zero : assetWorth 0 price haircutBps = 0 := by simp [assetWorth]

theorem assetWorth_nonneg (hbps : haircutBps ≤ 10000) (hprice : 0 < price) (hamount : 0 ≤ amount) :
    0 ≤ assetWorth amount price haircutBps :=
  (afterHaircut_bounds hbps (Int.ediv_nonneg (mul_nonneg hamount hprice.le) precision_pos.le)).1

/-- What is left after a haircut, rounded up. -/
theorem afterHaircut_ceil (value : Int) (haircutBps : Nat) :
    value * (10000 - haircutBps) ≤ afterHaircut value haircutBps * 10000 ∧
      afterHaircut value haircutBps * 10000 < value * (10000 - haircutBps) + 10000 := by
  unfold afterHaircut
  rw [mul_sub]
  omega

/-- The share of a balance that an amount owed asks for, rounded down, is worth at most one
more than that: the haircut of the share is rounded down too. -/
theorem assetWorth_share {owed : Int} (hbps : haircutBps ≤ 10000) (hprice : 0 < price)
    (howed : 0 < owed) (hpart : owed < assetWorth amount price haircutBps) :
    assetWorth (amount * owed / assetWorth amount price haircutBps) price haircutBps ≤ owed + 1 := by
  generalize hnet : assetWorth amount price haircutBps = net at hpart ⊢
  unfold assetWorth at hnet ⊢
  generalize hvalue : amount * price / precision = value at hnet
  generalize hshare : amount * owed / net = share
  generalize hgross : share * price / precision = gross
  have hkept : (0 : Int) ≤ 10000 - haircutBps := by omega
  have hlow := (afterHaircut_ceil value haircutBps).1
  have hhigh := (afterHaircut_ceil gross haircutBps).2
  rw [hnet] at hlow
  -- each rounding as a bound on a product
  have hvalued : amount * price < (value + 1) * precision := by
    rw [← hvalue]
    exact Int.lt_ediv_add_one_mul_self _ precision_pos
  have hshared : share * net ≤ amount * owed := by
    rw [← hshare]
    exact Int.ediv_mul_le _ (by omega)
  have hgrossed : gross * precision ≤ share * price := by
    rw [← hgross]
    exact Int.ediv_mul_le _ precision_pos.ne'
  have hasked : gross * net < (value + 1) * owed := by
    refine lt_of_mul_lt_mul_right ?_ precision_pos.le
    calc gross * net * precision = gross * precision * net := by ring
      _ ≤ share * price * net := mul_le_mul_of_nonneg_right hgrossed (by omega)
      _ = share * net * price := by ring
      _ ≤ amount * owed * price := mul_le_mul_of_nonneg_right hshared hprice.le
      _ = amount * price * owed := by ring
      _ < (value + 1) * precision * owed := mul_lt_mul_of_pos_right hvalued howed
      _ = (value + 1) * owed * precision := by ring
  have hkeptShare : gross * (10000 - haircutBps) * net ≤ (owed + 1) * 10000 * net := by
    calc gross * (10000 - haircutBps) * net = gross * net * (10000 - haircutBps) := by ring
      _ ≤ (value + 1) * owed * (10000 - haircutBps) := mul_le_mul_of_nonneg_right hasked.le hkept
      _ = value * (10000 - haircutBps) * owed + owed * (10000 - haircutBps) := by ring
      _ ≤ net * 10000 * owed + net * 10000 := by
        refine add_le_add (mul_le_mul_of_nonneg_right hlow howed.le) ?_
        exact mul_le_mul hpart.le (by omega) hkept (by omega)
      _ = (owed + 1) * 10000 * net := by ring
  have hbound := le_of_mul_le_mul_right hkeptShare (by omega : 0 < net)
  omega

/-- The share falls short of what is owed by less than the value of one unit and two roundings. -/
theorem le_assetWorth_share {owed : Int} (hbps : haircutBps ≤ 10000) (hprice : 0 < price)
    (howed : 0 < owed) (hpart : owed < assetWorth amount price haircutBps) :
    owed ≤ assetWorth (amount * owed / assetWorth amount price haircutBps) price haircutBps +
      (price / precision + 2) := by
  generalize hnet : assetWorth amount price haircutBps = net at hpart ⊢
  unfold assetWorth at hnet ⊢
  generalize hvalue : amount * price / precision = value at hnet
  generalize hshare : amount * owed / net = share
  generalize hgross : share * price / precision = gross
  generalize hunit : price / precision = unit
  have hkept : (0 : Int) ≤ 10000 - haircutBps := by omega
  have hnetPos : 0 < net := howed.trans hpart
  have hhigh := (afterHaircut_ceil value haircutBps).2
  have hlow := (afterHaircut_ceil gross haircutBps).1
  rw [hnet] at hhigh
  generalize afterHaircut gross haircutBps = taken at hlow ⊢
  -- each rounding as a bound on a product
  have hvalued : value * precision ≤ amount * price := by
    rw [← hvalue]
    exact Int.ediv_mul_le _ precision_pos.ne'
  have hshared : amount * owed < (share + 1) * net := by
    rw [← hshare]
    exact Int.lt_ediv_add_one_mul_self _ hnetPos
  have hgrossed : share * price < (gross + 1) * precision := by
    rw [← hgross]
    exact Int.lt_ediv_add_one_mul_self _ precision_pos
  have hpriced : price < (unit + 1) * precision := by
    rw [← hunit]
    exact Int.lt_ediv_add_one_mul_self _ precision_pos
  have hunitNn : 0 ≤ unit := hunit ▸ Int.ediv_nonneg hprice.le precision_pos.le
  have hasked : value * owed ≤ (gross + unit + 2) * net := by
    refine le_of_mul_le_mul_right ?_ precision_pos
    calc value * owed * precision = value * precision * owed := by ring
      _ ≤ amount * price * owed := mul_le_mul_of_nonneg_right hvalued howed.le
      _ = amount * owed * price := by ring
      _ ≤ (share + 1) * net * price := mul_le_mul_of_nonneg_right hshared.le hprice.le
      _ = (share * price + price) * net := by ring
      _ ≤ ((gross + 1) * precision + (unit + 1) * precision) * net :=
        mul_le_mul_of_nonneg_right (add_le_add hgrossed.le hpriced.le) hnetPos.le
      _ = (gross + unit + 2) * net * precision := by ring
  have hkeptShare : (net - 1) * owed * 10000 < (taken + unit + 2) * 10000 * net := by
    calc (net - 1) * owed * 10000 = (net * 10000 - 10000) * owed := by ring
      _ < value * (10000 - haircutBps) * owed := mul_lt_mul_of_pos_right (by omega) howed
      _ = value * owed * (10000 - haircutBps) := by ring
      _ ≤ (gross + unit + 2) * net * (10000 - haircutBps) := mul_le_mul_of_nonneg_right hasked hkept
      _ = (gross * (10000 - haircutBps) + (unit + 2) * (10000 - haircutBps)) * net := by ring
      _ ≤ (taken * 10000 + (unit + 2) * 10000) * net := by
        refine mul_le_mul_of_nonneg_right (add_le_add hlow ?_) hnetPos.le
        exact mul_le_mul_of_nonneg_left (by omega) (by omega)
      _ = (taken + unit + 2) * 10000 * net := by ring
  have hbound : (owed - 1) * net < (taken + unit + 2) * net := by
    have : (owed - 1) * net ≤ (net - 1) * owed := by
      rw [sub_mul, sub_mul, mul_comm net owed]
      omega
    linarith
  have := lt_of_mul_lt_mul_right hbound hnetPos.le
  omega

/-- Two parts are worth what their sum is, within one: each value is rounded down and each haircut
too. -/
theorem abs_assetWorth_add_sub_le (price : Int) {x y : Int} (hbps : haircutBps ≤ 10000) :
    |assetWorth (x + y) price haircutBps -
      (assetWorth x price haircutBps + assetWorth y price haircutBps)| ≤ 1 := by
  have hfirst := Int.mul_ediv_add_emod (x * price) precision
  have hsecond := Int.mul_ediv_add_emod (y * price) precision
  have hsum := Int.mul_ediv_add_emod (x * price + y * price) precision
  have hr := Int.emod_nonneg (x * price) precision_pos.ne'
  have hr' := Int.emod_lt_of_pos (x * price) precision_pos
  have hs := Int.emod_nonneg (y * price) precision_pos.ne'
  have hs' := Int.emod_lt_of_pos (y * price) precision_pos
  have ht := Int.emod_nonneg (x * price + y * price) precision_pos.ne'
  have ht' := Int.emod_lt_of_pos (x * price + y * price) precision_pos
  unfold assetWorth afterHaircut
  rw [add_mul]
  generalize x * price / precision = u at *
  generalize y * price / precision = v at *
  generalize (x * price + y * price) / precision = total at *
  -- the values add up to their sum or to one less
  have hcarry : total = u + v ∨ total = u + v + 1 := by
    have hlow : precision * (total - u - v) < precision * 2 := by linarith
    have hhigh : precision * (-1) < precision * (total - u - v) := by linarith
    have := lt_of_mul_lt_mul_left hlow precision_pos.le
    have := lt_of_mul_lt_mul_left hhigh precision_pos.le
    omega
  rw [abs_le]
  rcases hcarry with rfl | rfl
  · rw [add_mul]
    omega
  · rw [add_mul, add_mul, one_mul]
    omega

namespace Vault

variable {env : Env} {w w' : World} {user asset deficitAsset : Address} {r : Int}
  {config : CollateralConfig} {snapshot : OracleSnapshot}

theorem collateralPrice_pos (h : collateralPrice env w asset = .ok snapshot) : 0 < snapshot.price := by
  simp only [collateralPrice, oracleGetPrice, except_bind_ok] at h
  obtain ⟨_, _, _, _, _, _, h⟩ := h
  exact OracleAdapter.getPrice_pos h

/-! ## The terms of a seizure -/

/-- What an amount of an asset is worth at its price after its haircut; an asset that cannot be
valued is worth nothing. -/
def collateralWorth (env : Env) (w : World) (asset : Address) (amount : Int) : Int :=
  match w.vault.collateral.get asset, collateralPrice env w asset with
  | some config, .ok snapshot =>
    if config.haircutBps ≤ 10000 then assetWorth amount snapshot.price config.haircutBps else 0
  | _, _ => 0

/-- The price of the asset owed. -/
def deficitPrice (env : Env) (w : World) (asset : Address) : Int :=
  match collateralPrice env w asset with
  | .ok snapshot => snapshot.price
  | .error _ => precision

theorem deficitPrice_eq (h : collateralPrice env w asset = .ok snapshot) :
    deficitPrice env w asset = snapshot.price := by
  simp only [deficitPrice, h]

theorem deficitPrice_pos (env : Env) (w : World) (asset : Address) : 0 < deficitPrice env w asset := by
  cases h : collateralPrice env w asset with
  | ok snapshot => simpa only [deficitPrice, h] using collateralPrice_pos h
  | error e => simpa only [deficitPrice, h] using precision_pos

theorem collateralWorth_eq (hc : w.vault.collateral.get asset = some config)
    (hprice : collateralPrice env w asset = .ok snapshot) (hbps : config.haircutBps ≤ 10000)
    (amount : Int) :
    collateralWorth env w asset amount = assetWorth amount snapshot.price config.haircutBps := by
  simp only [collateralWorth, hc, hprice, if_pos hbps]

/-- An asset is worth nothing in any amount, or priced. -/
theorem collateralWorth_cases (env : Env) (w : World) (asset : Address) :
    (∀ amount, collateralWorth env w asset amount = 0) ∨
    ∃ price haircutBps, 0 < price ∧ haircutBps ≤ 10000 ∧
      ∀ amount, collateralWorth env w asset amount = assetWorth amount price haircutBps := by
  cases hc : w.vault.collateral.get asset with
  | none => exact .inl fun amount => by simp only [collateralWorth, hc]
  | some config =>
    cases hprice : collateralPrice env w asset with
    | error e => exact .inl fun amount => by simp only [collateralWorth, hc, hprice]
    | ok snapshot =>
      by_cases hbps : config.haircutBps ≤ 10000
      · exact .inr ⟨_, _, collateralPrice_pos hprice, hbps, collateralWorth_eq hc hprice hbps⟩
      · exact .inl fun amount => by simp only [collateralWorth, hc, hprice, if_neg hbps]

theorem collateralWorth_zero (env : Env) (w : World) (asset : Address) :
    collateralWorth env w asset 0 = 0 := by
  cases collateralWorth_cases env w asset with
  | inl h => exact h 0
  | inr h =>
    obtain ⟨price, haircutBps, _, _, h⟩ := h
    rw [h, assetWorth_zero]

/-- The user's balances, their worth and the price of the asset owed. -/
def seizureTerms (env : Env) (w : World) (user deficitAsset : Address) : Terms Address where
  held := w.vault.balanceOf user
  worth := collateralWorth env w
  unit := precision
  rate := deficitPrice env w deficitAsset
  unit_pos := precision_pos
  rate_pos := deficitPrice_pos env w deficitAsset
  worth_zero := collateralWorth_zero env w
  worth_nonneg a amount hamount := by
    cases collateralWorth_cases env w a with
    | inl h => exact (h amount).ge
    | inr h =>
      obtain ⟨price, haircutBps, hprice, hbps, h⟩ := h
      rw [h]
      exact assetWorth_nonneg hbps hprice hamount
  worth_share a amount owed howed hpart := by
    cases collateralWorth_cases env w a with
    | inl h =>
      rw [h] at hpart
      exact absurd hpart (not_lt.mpr howed.le)
    | inr h =>
      obtain ⟨price, haircutBps, hprice, hbps, h⟩ := h
      rw [h] at hpart ⊢
      rw [h]
      exact assetWorth_share hbps hprice howed hpart

/-! ## The loop -/

variable {oracle : Address} {totals next : SeizeTotals} {assets : List Address}

theorem collateralPrice_of_config (horacle : oracleAddress w = .ok oracle)
    (hc : w.vault.collateral.get asset = some config) :
    collateralPrice env w asset = oracleGetPrice env w oracle config.oracleAsset none := by
  simp only [collateralPrice, VaultStorage.loadCollateral, hc, horacle]
  rfl

theorem seizeAmount_ok {amount net owed seized : Int} (hamount : 0 < amount)
    (howed : 0 < owed) (h : seizeAmount amount net owed = .ok seized) :
    seized = Terms.share amount net owed := by
  unfold seizeAmount at h
  unfold Terms.share
  split at h
  · rename_i hwhole
    rw [if_pos hwhole]
    exact (Except.ok.inj h).symm
  · rename_i hpart
    rw [if_neg hpart]
    obtain ⟨_, _, rfl⟩ := mulDiv_ok.mp h
    exact Int.tdiv_eq_ediv_of_nonneg (mul_nonneg hamount.le howed.le)

/-- The totals and the balance after one take. -/
structure Takes (terms : Terms Address) (w w' : World) (user asset : Address)
    (totals next : SeizeTotals) : Prop where
  credited : next.credited =
    totals.credited + terms.credit (terms.take totals.remainingValue asset).value
  remaining : next.remainingValue =
    totals.remainingValue - (terms.take totals.remainingValue asset).value
  vault : ∃ vault, w.vault.Credited vault user asset (-terms.amountTaken totals.remainingValue asset) ∧
    w' = { w with vault }

theorem Takes.none {terms : Terms Address} (h : terms.amountTaken totals.remainingValue asset = 0) :
    Takes terms w w user asset totals totals := by
  have hvalue := Terms.take_value_of_zero h
  refine ⟨?_, ?_, _, ?_, rfl⟩
  · rw [hvalue, Terms.credit_zero, add_zero]
  · rw [hvalue, sub_zero]
  · rw [h, neg_zero]
    exact .refl _ _ _

/-- The body's last lines, once the part to be taken is worth a credit. -/
theorem takePart_takes {terms : Terms Address} {credit value : Int}
    (hcredit : credit = terms.credit (terms.worth asset (terms.part totals.remainingValue asset)))
    (hvalue : value = terms.worth asset (terms.part totals.remainingValue asset))
    (htaken : terms.amountTaken totals.remainingValue asset = terms.part totals.remainingValue asset)
    (h : Returns (do
      let _ ← decreaseBalance user asset (terms.part totals.remainingValue asset)
      let credited ← checkedAdd totals.credited credit
      let remainingValue ← checkedSub totals.remainingValue value
      return { credited, remainingValue } : Tx SeizeTotals) w next w') :
    Takes terms w w' user asset totals next := by
  simp only [returns_bind, decreaseBalance_returns, returns_lift, checkedAdd_ok, checkedSub_ok,
    returns_pure] at h
  obtain ⟨_, _, ⟨_, rfl, rfl⟩, _, _, ⟨⟨_, rfl⟩, rfl⟩, _, _, ⟨⟨_, rfl⟩, rfl⟩, rfl, rfl⟩ := h
  have htake : (terms.take totals.remainingValue asset).value = value := by
    show terms.worth asset (terms.amountTaken totals.remainingValue asset) = value
    rw [htaken, hvalue]
  refine ⟨?_, ?_, _, ?_, rfl⟩
  · rw [htake, hcredit, hvalue]
  · rw [htake]
  · rw [htaken, sub_eq_add_neg]
    exact .setBalance _ _ _ _

/-- One turn of the loop is one take of the collection. -/
theorem seizeAsset_takes (horacle : oracleAddress w = .ok oracle) (howed : 0 < totals.remainingValue)
    (h : Returns (seizeAsset env user oracle (deficitPrice env w deficitAsset) totals asset) w next w') :
    Takes (seizureTerms env w user deficitAsset) w w' user asset totals next := by
  have stop : ∀ {v : World}, Returns (pure totals : Tx SeizeTotals) w next v →
      (seizureTerms env w user deficitAsset).amountTaken totals.remainingValue asset = 0 →
      Takes (seizureTerms env w user deficitAsset) w v user asset totals next := by
    intro v hp hzero
    obtain ⟨rfl, rfl⟩ := returns_pure.mp hp
    exact .none hzero
  simp only [seizeAsset, returns_get_bind] at h
  cases returns_ite.mp h with
  | inl hnone => exact stop hnone.2 (if_neg fun hn => absurd hn.2.1 (not_lt.mpr hnone.1))
  | inr hheld =>
    obtain ⟨hpos, hheld⟩ := hheld
    have hpos : 0 < w.vault.balanceOf user asset := not_le.mp hpos
    cases hc : w.vault.collateral.get asset with
    | none =>
      simp only [hc] at hheld
      have hworth : collateralWorth env w asset (w.vault.balanceOf user asset) = 0 := by
        simp only [collateralWorth, hc]
      exact stop hheld (if_neg fun hn => absurd hn.2.2.1 (not_lt.mpr hworth.le))
    | some config =>
      simp only [hc, returns_lift_bind] at hheld
      obtain ⟨snapshot, hprice, gross, hgross, net, hnet, hheld⟩ := hheld
      rw [← collateralPrice_of_config horacle hc] at hprice
      have hsnapshot := collateralPrice_pos hprice
      obtain ⟨hbps, _, hnetEq⟩ := (valued_iff hpos.le hsnapshot).mp
        (except_bind_ok.mpr ⟨gross, hgross, hnet⟩)
      have hworth := collateralWorth_eq hc hprice hbps
      rw [← hworth] at hnetEq
      subst hnetEq
      cases returns_ite.mp hheld with
      | inl hnone => exact stop hnone.2 (if_neg fun hn => absurd hn.2.2.1 (not_lt.mpr hnone.1))
      | inr htake =>
        obtain ⟨hnetPos, htake⟩ := htake
        have hnetPos : 0 < collateralWorth env w asset (w.vault.balanceOf user asset) :=
          not_le.mp hnetPos
        simp only [returns_lift_bind] at htake
        obtain ⟨seized, hseized, htake⟩ := htake
        have hpart : seized = (seizureTerms env w user deficitAsset).part totals.remainingValue asset :=
          seizeAmount_ok hpos howed hseized
        have hnn : 0 ≤ seized := hpart ▸ Terms.share_nonneg hpos.le hnetPos.le howed.le
        cases returns_ite.mp htake with
        | inl hnone =>
          exact stop hnone.2 (Terms.amountTaken_of_part_nonpos howed hpos hnetPos (hpart ▸ hnone.1))
        | inr hcredit =>
          obtain ⟨_, hcredit⟩ := hcredit
          simp only [returns_lift_bind] at hcredit
          obtain ⟨grossSeized, hgrossSeized, value, hvalue, credit, hcreditEq, hcredit⟩ := hcredit
          obtain ⟨_, _, hvalueEq⟩ := (valued_iff hnn hsnapshot).mp
            (except_bind_ok.mpr ⟨grossSeized, hgrossSeized, hvalue⟩)
          rw [← hworth, hpart] at hvalueEq
          obtain ⟨_, _, hquotient⟩ := divPrecision_ok.mp hcreditEq
          have hvalueNn : 0 ≤ value :=
            hvalueEq ▸ (seizureTerms env w user deficitAsset).worth_nonneg asset _ (hpart ▸ hnn)
          rw [Int.tdiv_eq_ediv_of_nonneg (mul_nonneg hvalueNn precision_pos.le), hvalueEq] at hquotient
          cases returns_ite.mp hcredit with
          | inl hnone =>
            refine stop hnone.2 (if_neg fun hn => ?_)
            exact absurd (hn.2.2.2.trans_eq hquotient) (not_lt.mpr hnone.1)
          | inr htaken =>
            obtain ⟨hcreditPos, htaken⟩ := htaken
            rw [hpart] at htaken
            refine takePart_takes hquotient.symm hvalueEq (if_pos ⟨howed, hpos, hnetPos, ?_⟩) htaken
            exact (not_le.mp hcreditPos).trans_eq hquotient.symm

theorem Takes.spends {terms : Terms Address} (hheld : terms.held asset = w.vault.balanceOf user asset)
    (h : Takes terms w w' user asset totals next) :
    ∃ vault, w.vault.Spends vault ∧ w' = { w with vault } := by
  obtain ⟨_, _, vault, hcredit, rfl⟩ := h
  refine ⟨vault, ?_, rfl⟩
  obtain ⟨hnn, hmax⟩ := terms.amountTaken_bounds totals.remainingValue asset
  rw [hheld] at hmax
  by_cases hz : w.vault.balanceOf user asset = 0
  · have hzero : terms.amountTaken totals.remainingValue asset = 0 := by
      rw [hz, max_self] at hmax
      omega
    rw [hzero, neg_zero] at hcredit
    exact hcredit.spends_zero
  · exact hcredit.spends hz

/-- The loop only spends. -/
theorem seizeAssets_spends (horacle : oracleAddress w = .ok oracle)
    (h : Returns (seizeAssets env user oracle (deficitPrice env w deficitAsset) totals assets) w next
      w') : totals.credited ≤ next.credited ∧ ∃ vault, w.vault.Spends vault ∧ w' = { w with vault } := by
  induction assets generalizing totals w with
  | nil =>
    obtain ⟨rfl, rfl⟩ := returns_pure.mp h
    exact ⟨le_rfl, _, .refl _, rfl⟩
  | cons a rest ih =>
    cases returns_ite.mp h with
    | inl hstop =>
      obtain ⟨rfl, rfl⟩ := returns_pure.mp hstop.2
      exact ⟨le_rfl, _, .refl _, rfl⟩
    | inr hgo =>
      obtain ⟨howed, hgo⟩ := hgo
      obtain ⟨mid, v, hone, hrest⟩ := returns_bind.mp hgo
      have htakes := seizeAsset_takes horacle (not_le.mp howed) hone
      obtain ⟨vault, hspends, rfl⟩ := htakes.spends rfl
      obtain ⟨balance, rfl⟩ := hspends.rest
      obtain ⟨hle, vault', hspends', rfl⟩ :=
        ih (w := { w with vault := { w.vault with balance } }) horacle hrest
      refine ⟨?_, _, hspends.trans hspends', rfl⟩
      have hvalue := (seizureTerms env w user deficitAsset).take_value_nonneg totals.remainingValue a
      have hcredit := (seizureTerms env w user deficitAsset).credit_nonneg hvalue
      have := htakes.credited
      omega

/-- What the loop leaves: the totals of all takes, and of each asset what was not taken. -/
structure Collected (terms : Terms Address) (w w' : World) (user : Address) (assets : List Address)
    (totals next : SeizeTotals) : Prop where
  credited : next.credited =
    totals.credited + terms.credited (terms.takes totals.remainingValue assets)
  remaining : next.remainingValue =
    totals.remainingValue - Terms.value (terms.takes totals.remainingValue assets)
  taken : ∀ x ∈ terms.takes totals.remainingValue assets,
    w'.vault.balanceOf user x.item = w.vault.balanceOf user x.item - x.amount
  others : ∀ a, a ∉ assets → w'.vault.balanceOf user a = w.vault.balanceOf user a

/-- The loop collects from the balances from before it, each asset being there once. -/
theorem seizeAssets_collects (horacle : oracleAddress w = .ok oracle) (hnodup : assets.Nodup)
    (h : Returns (seizeAssets env user oracle (deficitPrice env w deficitAsset) totals assets) w next
      w') : Collected (seizureTerms env w user deficitAsset) w w' user assets totals next := by
  induction assets generalizing totals w with
  | nil =>
    obtain ⟨rfl, rfl⟩ := returns_pure.mp h
    exact ⟨(add_zero _).symm, (sub_zero _).symm, fun x hx => absurd hx List.not_mem_nil, fun _ _ => rfl⟩
  | cons a rest ih =>
    obtain ⟨hfresh, hrestNodup⟩ := List.nodup_cons.mp hnodup
    cases returns_ite.mp h with
    | inl hstop =>
      obtain ⟨hpaid, hstop⟩ := hstop
      obtain ⟨rfl, rfl⟩ := returns_pure.mp hstop
      obtain ⟨hamounts, hnone, _⟩ := (seizureTerms env w' user deficitAsset).paid (a :: rest) 0 hpaid
      refine ⟨by rw [hnone, add_zero], ?_, fun x hx => ?_, fun _ _ => rfl⟩
      · rw [Terms.paid_value _ _ hpaid, sub_zero]
      · rw [hamounts x hx, sub_zero]
    | inr hgo =>
      obtain ⟨howed, hgo⟩ := hgo
      obtain ⟨mid, v, hone, hrest⟩ := returns_bind.mp hgo
      obtain ⟨hcredited, hremaining, vault, ⟨⟨balance, rfl⟩, hbalance⟩, rfl⟩ :=
        seizeAsset_takes horacle (not_le.mp howed) hone
      obtain ⟨hcredited', hremaining', htaken', hothers'⟩ :=
        ih (w := { w with vault := { w.vault with balance } }) horacle hrestNodup hrest
      have hkept : ∀ b, b ≠ a → VaultStorage.balanceOf { w.vault with balance } user b =
          w.vault.balanceOf user b := by
        intro b hb
        rw [hbalance, if_neg fun hk => hb hk.2]
      have hheld : ∀ b ∈ rest, VaultStorage.balanceOf { w.vault with balance } user b =
          w.vault.balanceOf user b := fun b hb => hkept b fun he => hfresh (he ▸ hb)
      have htakes := Terms.takes_congr (seizureTerms env w user deficitAsset)
        (seizureTerms env { w with vault := { w.vault with balance } } user deficitAsset)
        rfl rfl (fun b hb => ⟨hheld b hb, rfl⟩) mid.remainingValue
      rw [htakes, hremaining] at hcredited' hremaining' htaken'
      refine ⟨?_, ?_, ?_, ?_⟩
      · rw [hcredited', hcredited, add_assoc]
        rfl
      · rw [hremaining', sub_sub]
        rfl
      · intro x hx
        cases List.mem_cons.mp hx with
        | inl hfirst =>
          rw [hfirst]
          show w'.vault.balanceOf user a = _
          rw [hothers' a hfresh, hbalance, if_pos ⟨rfl, rfl⟩]
          rfl
        | inr hlater =>
          rw [htaken' x hlater]
          obtain ⟨_, b, hb, rfl⟩ := Terms.mem_takes hlater
          exact congrArg (· - _) (hheld b hb)
      · intro b hb
        obtain ⟨hne, hb⟩ := not_or.mp (mt List.mem_cons.mpr hb)
        rw [hothers' b hb, hkept b hne]

/-! ## The order -/

theorem insertByHaircut_perm (a : Address) (haircutBps : Nat) (ordered : List (Address × Nat)) :
    (insertByHaircut a haircutBps ordered).Perm ((a, haircutBps) :: ordered) := by
  induction ordered with
  | nil => exact .refl _
  | cons first rest ih =>
    unfold insertByHaircut
    split
    · exact .refl _
    · exact (ih.cons _).trans (.swap _ _ _)

/-- The order has the assets of the list that are active and not the one owed, each as often. -/
theorem seizureOrderFrom_sublist (s : VaultStorage) (deficitAsset : Address) (ordered : List (Address × Nat))
    (assets : List Address) : ∃ kept, kept.Sublist assets ∧ deficitAsset ∉ kept ∧
      ((seizureOrderFrom s deficitAsset ordered assets).map Prod.fst).Perm
        (ordered.map Prod.fst ++ kept) := by
  induction assets generalizing ordered with
  | nil => exact ⟨[], .slnil, List.not_mem_nil, by simp [seizureOrderFrom]⟩
  | cons a rest ih =>
    have skip := ih ordered
    obtain ⟨kept, hsub, hnot, hperm⟩ := skip
    have skip : ∃ kept, kept.Sublist (a :: rest) ∧ deficitAsset ∉ kept ∧
        ((seizureOrderFrom s deficitAsset ordered rest).map Prod.fst).Perm
          (ordered.map Prod.fst ++ kept) := ⟨kept, hsub.cons a, hnot, hperm⟩
    unfold seizureOrderFrom
    split
    · exact skip
    · rename_i hne
      split
      · exact skip
      · rename_i config hc
        split
        · exact skip
        · obtain ⟨kept, hsub, hnot, hperm⟩ := ih (insertByHaircut a config.haircutBps ordered)
          refine ⟨a :: kept, hsub.cons_cons a, ?_, ?_⟩
          · intro hmem
            cases List.mem_cons.mp hmem with
            | inl he => exact hne he.symm
            | inr hk => exact hnot hk
          · refine hperm.trans ?_
            have hinsert := ((insertByHaircut_perm a config.haircutBps ordered).map Prod.fst).append_right
              kept
            exact hinsert.trans List.perm_middle.symm

theorem seizureOrder_length (s : VaultStorage) (user deficitAsset : Address) :
    (seizureOrder s user deficitAsset).length ≤ maxSeizeScan := by
  obtain ⟨kept, hsub, _, hperm⟩ := seizureOrderFrom_sublist s deficitAsset []
    ((s.recordedAssets user).take maxSeizeScan)
  rw [List.map_nil, List.nil_append] at hperm
  exact hperm.length_eq.trans_le (hsub.length_le.trans (List.length_take_le _ _))

theorem seizureOrder_spec (s : VaultStorage) (user deficitAsset : Address) :
    deficitAsset ∉ seizureOrder s user deficitAsset ∧
      ((s.recordedAssets user).Nodup → (seizureOrder s user deficitAsset).Nodup) := by
  obtain ⟨kept, hsub, hnot, hperm⟩ := seizureOrderFrom_sublist s deficitAsset []
    ((s.recordedAssets user).take maxSeizeScan)
  rw [List.map_nil, List.nil_append] at hperm
  refine ⟨fun hmem => hnot (hperm.mem_iff.mp hmem), fun hnodup => hperm.nodup_iff.mpr ?_⟩
  exact (hnodup.sublist (List.take_sublist _ _)).sublist hsub

/-- The order has every asset of the list that is active and not the one owed. -/
theorem mem_seizureOrderFrom {s : VaultStorage} {deficitAsset a : Address}
    {ordered : List (Address × Nat)} {assets : List Address} :
    a ∈ (seizureOrderFrom s deficitAsset ordered assets).map Prod.fst ↔
      a ∈ ordered.map Prod.fst ∨ a ∈ assets ∧ a ≠ deficitAsset ∧
        ∃ config, s.collateral.get a = some config ∧ config.active = true := by
  induction assets generalizing ordered with
  | nil => simp [seizureOrderFrom]
  | cons first rest ih =>
    -- an asset that is passed over has no part in either side
    have skip : ¬ (first ≠ deficitAsset ∧ ∃ config, s.collateral.get first = some config ∧
        config.active = true) →
        (a ∈ (seizureOrderFrom s deficitAsset ordered rest).map Prod.fst ↔
          a ∈ ordered.map Prod.fst ∨ a ∈ first :: rest ∧ a ≠ deficitAsset ∧
            ∃ config, s.collateral.get a = some config ∧ config.active = true) := by
      intro hout
      rw [ih, List.mem_cons]
      refine or_congr_right ⟨fun ⟨hmem, hrest⟩ => ⟨.inr hmem, hrest⟩, fun ⟨hmem, hrest⟩ => ⟨?_, hrest⟩⟩
      rcases hmem with rfl | hmem
      · exact absurd hrest hout
      · exact hmem
    unfold seizureOrderFrom
    split
    · rename_i howed
      exact skip fun hin => hin.1 howed
    · rename_i hne
      split
      · rename_i hnone
        refine skip fun hin => ?_
        obtain ⟨config, hc, _⟩ := hin.2
        rw [hnone] at hc
        cases hc
      · rename_i config hc
        split
        · rename_i hinactive
          refine skip fun hin => ?_
          obtain ⟨config', hc', hactive⟩ := hin.2
          obtain rfl := Option.some.inj (hc.symm.trans hc')
          rw [hinactive] at hactive
          cases hactive
        · rename_i hactive
          have hinsert := ((insertByHaircut_perm first config.haircutBps ordered).map
            Prod.fst).mem_iff (a := a)
          rw [ih, hinsert, List.map_cons, List.mem_cons, List.mem_cons]
          constructor
          · rintro ((rfl | hold) | ⟨hmem, hrest⟩)
            · exact .inr ⟨.inl rfl, hne, config, hc, by simpa using hactive⟩
            · exact .inl hold
            · exact .inr ⟨.inr hmem, hrest⟩
          · rintro (hold | ⟨rfl | hmem, hrest⟩)
            · exact .inl (.inr hold)
            · exact .inl (.inl rfl)
            · exact .inr ⟨hmem, hrest⟩

theorem mem_seizureOrder {s : VaultStorage} {deficitAsset a : Address} :
    a ∈ seizureOrder s user deficitAsset ↔
      a ∈ (s.recordedAssets user).take maxSeizeScan ∧ a ≠ deficitAsset ∧
        ∃ config, s.collateral.get a = some config ∧ config.active = true := by
  unfold seizureOrder
  rw [mem_seizureOrderFrom, List.map_nil]
  simp

/-! ## The call -/

/-- The takes of a seizure, from the state before it. -/
def seizureTakes (env : Env) (w : World) (user deficitAsset : Address) : List (Take Address) :=
  (seizureTerms env w user deficitAsset).takes
    (-w.vault.balanceOf user deficitAsset * deficitPrice env w deficitAsset / precision)
    (seizureOrder w.vault user deficitAsset)

/-- A debt is collected by the loop and what that brings is credited. -/
theorem seizeForDeficitInner_cases (h : Returns (seizeForDeficitInner env user asset) w r w') :
    (0 ≤ w.vault.balanceOf user asset ∧ r = 0 ∧ w' = w) ∨
    (w.vault.balanceOf user asset < 0 ∧ ∃ oracle totals v vault,
      oracleAddress w = .ok oracle ∧
      Returns (seizeAssets env user oracle (deficitPrice env w asset) ⟨0,
        -w.vault.balanceOf user asset * deficitPrice env w asset / precision⟩
        (seizureOrder w.vault user asset)) w totals v ∧
      v.vault.Credited vault user asset totals.credited ∧ r = totals.credited ∧
      w' = { v with
        vault, events := v.events ++ [⟨user, asset, r, max totals.remainingValue 0⟩] }) := by
  simp only [seizeForDeficitInner, returns_get_bind] at h
  cases returns_ite.mp h with
  | inl hnone =>
    obtain ⟨rfl, rfl⟩ := returns_pure.mp hnone.2
    exact .inl ⟨hnone.1, rfl, rfl⟩
  | inr hseize =>
    obtain ⟨hneg, hseize⟩ := hseize
    have hneg : w.vault.balanceOf user asset < 0 := not_le.mp hneg
    simp only [returns_lift_bind] at hseize
    obtain ⟨deficit, hdeficit, snapshot, hprice, _, _, owed, howed, oracle, horacle, hseize⟩ := hseize
    obtain ⟨_, rfl⟩ := checkedSub_ok.mp hdeficit
    obtain ⟨_, rfl⟩ := mulPrecision_ok.mp howed
    have hdebt : 0 ≤ (0 - w.vault.balanceOf user asset) * snapshot.price :=
      mul_nonneg (by omega) (collateralPrice_pos hprice).le
    rw [Int.tdiv_eq_ediv_of_nonneg hdebt, zero_sub, ← deficitPrice_eq hprice] at hseize
    simp only [returns_bind, publish, returns_modify, returns_pure] at hseize
    obtain ⟨totals, v, hloop, _, _, hcredit, _, _, rfl, rfl, rfl⟩ := hseize
    obtain ⟨hnn, _⟩ := seizeAssets_spends horacle hloop
    obtain ⟨vault, hcredited, rfl⟩ := creditPositive_effect hnn hcredit
    exact .inr ⟨hneg, oracle, totals, v, vault, horacle, hloop, hcredited, rfl, rfl⟩

theorem seizeForDeficitInner_effect (h : Returns (seizeForDeficitInner env user asset) w r w') :
    ∃ vault events, w.vault.Spends vault ∧ w' = { w with vault, events } := by
  cases seizeForDeficitInner_cases h with
  | inl hnone =>
    obtain ⟨_, _, rfl⟩ := hnone
    exact ⟨_, _, .refl _, rfl⟩
  | inr hseize =>
    obtain ⟨hneg, oracle, totals, v, vault, horacle, hloop, hcredited, _, rfl⟩ := hseize
    obtain ⟨_, middle, hspends, rfl⟩ := seizeAssets_spends horacle hloop
    refine ⟨vault, _, ⟨?_, fun u a hu => ?_⟩, rfl⟩
    · obtain ⟨_, rfl⟩ := hspends.rest
      obtain ⟨balance, rfl⟩ := hcredited.rest
      exact ⟨balance, rfl⟩
    · rw [hcredited.balanceOf] at hu
      split at hu
      · rename_i hk
        rw [hk.1, hk.2]
        omega
      · exact hspends.nonzero u a hu

/-- What a seizure does to the user's balances. -/
theorem seizeForDeficitInner_takes (hnodup : (w.vault.recordedAssets user).Nodup)
    (hneg : w.vault.balanceOf user asset < 0)
    (h : Returns (seizeForDeficitInner env user asset) w r w') :
    r = (seizureTerms env w user asset).credited (seizureTakes env w user asset) ∧
    w'.vault.balanceOf user asset = w.vault.balanceOf user asset + r ∧
    (∀ x ∈ seizureTakes env w user asset,
      w'.vault.balanceOf user x.item = w.vault.balanceOf user x.item - x.amount) ∧
    ∀ a, a ≠ asset → a ∉ seizureOrder w.vault user asset →
      w'.vault.balanceOf user a = w.vault.balanceOf user a := by
  cases seizeForDeficitInner_cases h with
  | inl hnone => exact absurd hneg (not_lt.mpr hnone.1)
  | inr hseize =>
    obtain ⟨_, oracle, totals, v, vault, horacle, hloop, hcredited, rfl, rfl⟩ := hseize
    obtain ⟨howing, horder⟩ := seizureOrder_spec w.vault user asset
    obtain ⟨hcredit, _, htaken, hothers⟩ := seizeAssets_collects horacle (horder hnodup) hloop
    have hothersKept : ∀ a, a ≠ asset → vault.balanceOf user a = v.vault.balanceOf user a := by
      intro a ha
      rw [hcredited.balanceOf, if_neg fun hk => ha hk.2]
    refine ⟨hcredit.trans (zero_add _), ?_, ?_, ?_⟩
    · show vault.balanceOf user asset = _
      rw [hcredited.self, hothers asset howing]
    · intro x hx
      have hne : x.item ≠ asset := by
        obtain ⟨_, a, ha, rfl⟩ := Terms.mem_takes hx
        exact fun he => howing (he ▸ ha)
      exact (hothersKept _ hne).trans (htaken x hx)
    · intro a ha hmem
      exact (hothersKept a ha).trans (hothers a hmem)

/-- A seizure publishes what it leaves uncovered of the debt. -/
theorem seizeForDeficitInner_published (hnodup : (w.vault.recordedAssets user).Nodup)
    (hneg : w.vault.balanceOf user asset < 0)
    (h : Returns (seizeForDeficitInner env user asset) w r w') :
    w'.events = w.events ++ [⟨user, asset, r, max
      (-w.vault.balanceOf user asset * deficitPrice env w asset / precision -
        Terms.value (seizureTakes env w user asset)) 0⟩] := by
  cases seizeForDeficitInner_cases h with
  | inl hnone => exact absurd hneg (not_lt.mpr hnone.1)
  | inr hseize =>
    obtain ⟨_, oracle, totals, v, vault, horacle, hloop, _, rfl, rfl⟩ := hseize
    obtain ⟨_, hremaining, _, _⟩ :=
      seizeAssets_collects horacle ((seizureOrder_spec w.vault user asset).2 hnodup) hloop
    obtain ⟨_, _, _, rfl⟩ := seizeAssets_spends horacle hloop
    rw [hremaining]
    rfl

theorem seizeForDeficit_inner (h : Returns (seizeForDeficit env user asset) w r w') :
    Returns (seizeForDeficitInner env user asset) w r w' := by
  simp only [seizeForDeficit, returns_readWith_bind] at h
  obtain ⟨_, _, h⟩ := h
  exact h

theorem settleDeficit_inner {caller : Address} (h : Returns (settleDeficit env caller user asset) w r w') :
    Returns (seizeForDeficitInner env user asset) w r w' := by
  simp only [settleDeficit, returns_readWith_bind] at h
  obtain ⟨_, _, _, _, h⟩ := h
  exact h

/-- Both entry points seize alike. -/
theorem seizure_inner (h : Returns (seizeForDeficit env user asset) w r w' ∨
    ∃ caller, Returns (settleDeficit env caller user asset) w r w') :
    Returns (seizeForDeficitInner env user asset) w r w' := by
  cases h with
  | inl hseize => exact seizeForDeficit_inner hseize
  | inr hsettle =>
    obtain ⟨_, hsettle⟩ := hsettle
    exact settleDeficit_inner hsettle

end Vault
end Kryon

import Mathlib.Data.Rat.Cast.Order
import Mathlib.Algebra.Order.Field.Basic
import Mathlib.Tactic.Linarith
import Mathlib.Tactic.Ring
import Mathlib.Tactic.Positivity

/-! # Pools that are priced by their shares

A pool of value `nav` in `shares` shares mints shares for what is paid in and pays for
the shares it burns, both rounded down. The rounding is for the shares that stay: their
price does not fall, and nobody gains by going in and out. -/

namespace SharePrice

variable {nav shares amount minted burnt paid : Int}

/-- The truncated quotient of what is not negative is rounded down. -/
theorem tdiv_mul_le {a d : Int} (ha : 0 ≤ a) : a.tdiv d * d ≤ a := by
  have hdiv := Int.mul_tdiv_add_tmod a d
  have hmod := Int.tmod_nonneg d ha
  rw [mul_comm]
  omega

theorem price_mint (hshares : 0 < shares) (hminted : 0 ≤ minted)
    (h : minted * nav ≤ amount * shares) :
    (nav : ℚ) / shares ≤ ((nav + amount : Int) : ℚ) / ((shares + minted : Int) : ℚ) := by
  have hbefore : (0 : ℚ) < shares := by exact_mod_cast hshares
  have hafter : (0 : ℚ) < ((shares + minted : Int) : ℚ) := by exact_mod_cast (by omega : 0 < shares + minted)
  rw [div_le_div_iff₀ hbefore hafter]
  have hcross : nav * (shares + minted) ≤ (nav + amount) * shares := by
    rw [mul_add, add_mul]
    linarith
  exact_mod_cast hcross

theorem price_burn (hshares : 0 < shares) (hleft : 0 < shares - burnt) (h : paid * shares ≤ burnt * nav) :
    (nav : ℚ) / shares ≤ ((nav - paid : Int) : ℚ) / ((shares - burnt : Int) : ℚ) := by
  have hbefore : (0 : ℚ) < shares := by exact_mod_cast hshares
  have hafter : (0 : ℚ) < ((shares - burnt : Int) : ℚ) := by exact_mod_cast hleft
  rw [div_le_div_iff₀ hbefore hafter]
  have hcross : nav * (shares - burnt) ≤ (nav - paid) * shares := by
    rw [mul_sub, sub_mul]
    linarith
  exact_mod_cast hcross

/-- Burning what was just minted pays no more than was paid in. -/
theorem round_trip (hshares : 0 < shares + minted) (hmint : minted * nav ≤ amount * shares)
    (hpaid : paid * (shares + minted) ≤ minted * (nav + amount)) : paid ≤ amount := by
  refine le_of_mul_le_mul_right ?_ hshares
  calc paid * (shares + minted) ≤ minted * (nav + amount) := hpaid
    _ = minted * nav + minted * amount := mul_add _ _ _
    _ ≤ amount * shares + minted * amount := by linarith
    _ = amount * (shares + minted) := by ring

/-- Burning a part leaves value behind. -/
theorem paid_lt (hnav : 0 < nav) (hshares : 0 < shares) (hpart : burnt < shares)
    (h : paid * shares ≤ burnt * nav) : paid < nav := by
  refine lt_of_mul_lt_mul_right ?_ hshares.le
  calc paid * shares ≤ burnt * nav := h
    _ < shares * nav := mul_lt_mul_of_pos_right hpart hnav
    _ = nav * shares := mul_comm _ _

end SharePrice

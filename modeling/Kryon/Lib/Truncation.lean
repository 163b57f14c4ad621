import Mathlib.Algebra.BigOperators.Group.List.Basic
import Mathlib.Algebra.Order.Field.Basic
import Mathlib.Data.Rat.Cast.Order
import Mathlib.Tactic.FieldSimp
import Mathlib.Tactic.Linarith
import Mathlib.Tactic.Ring

/-! # Truncated division against the exact quotient

An integer division that truncates towards zero is less than one away from the
rational quotient. Truncated quotients of parts add up to the quotient of the whole within
one for each part, and a part that was sized by a truncated quotient does not overshoot. -/

namespace Truncation

theorem tdiv_eq (a : Int) {b : Int} (hb : b ≠ 0) :
    ((a.tdiv b : Int) : ℚ) = a / b - (a.tmod b : Int) / b := by
  have hb' : (b : ℚ) ≠ 0 := Int.cast_ne_zero.mpr hb
  have hdiv : ((b * a.tdiv b + a.tmod b : Int) : ℚ) = a := by rw [Int.mul_tdiv_add_tmod]
  push_cast at hdiv
  field_simp
  linarith

/-- The truncated quotient is within one of the exact one. -/
theorem abs_tdiv_sub_lt (a : Int) {b : Int} (hb : 0 < b) :
    |((a.tdiv b : Int) : ℚ) - a / b| < 1 := by
  have hpos : (0 : ℚ) < b := Int.cast_pos.mpr hb
  have habs : |a.tmod b| < b := by
    rw [abs_lt]
    exact ⟨Int.lt_tmod_of_pos a hb, Int.tmod_lt_of_pos a hb⟩
  have hcast : |((a.tmod b : Int) : ℚ)| < b := by exact_mod_cast habs
  rw [tdiv_eq a hb.ne', sub_sub_cancel_left, abs_neg, abs_div, abs_of_pos hpos, div_lt_one hpos]
  exact hcast

/-- Truncation does not overshoot: what was divided covers the quotient. -/
theorem abs_tdiv_mul_le (a : Int) {b : Int} (hb : 0 < b) : |a.tdiv b| * b ≤ |a| := by
  obtain ⟨n, rfl⟩ := Int.eq_ofNat_of_zero_le hb.le
  rw [Int.abs_eq_natAbs, Int.abs_eq_natAbs, Int.natAbs_tdiv]
  exact_mod_cast Nat.div_mul_le_self a.natAbs n

/-! ## Parts of a whole -/

theorem tmod_nonpos {a : Int} (c : Int) (h : a ≤ 0) : a.tmod c ≤ 0 := by
  have hneg := Int.tmod_nonneg c (neg_nonneg.mpr h)
  rw [Int.neg_tmod] at hneg
  omega

theorem tdiv_nonpos {a c : Int} (h : a ≤ 0) (hc : 0 < c) : a.tdiv c ≤ 0 := by
  have hneg := Int.tdiv_nonneg (neg_nonneg.mpr h) hc.le
  rw [Int.neg_tdiv] at hneg
  omega

/-- Truncating two parts apart changes the quotient by at most one. -/
theorem abs_tdiv_add_sub_le (a b : Int) {c : Int} (hc : 0 < c) :
    |(a + b).tdiv c - (a.tdiv c + b.tdiv c)| ≤ 1 := by
  have hab := Int.mul_tdiv_add_tmod (a + b) c
  have ha := Int.mul_tdiv_add_tmod a c
  have hb := Int.mul_tdiv_add_tmod b c
  have hsplit : c * ((a + b).tdiv c - (a.tdiv c + b.tdiv c)) =
      a.tmod c + b.tmod c - (a + b).tmod c := by linarith
  have hra := Int.tmod_lt_of_pos a hc
  have hra' := Int.lt_tmod_of_pos a hc
  have hrb := Int.tmod_lt_of_pos b hc
  have hrb' := Int.lt_tmod_of_pos b hc
  have hr := Int.tmod_lt_of_pos (a + b) hc
  have hr' := Int.lt_tmod_of_pos (a + b) hc
  -- the remainders have the signs of what was divided
  have hbound : |a.tmod c + b.tmod c - (a + b).tmod c| < 2 * c := by
    rw [abs_lt]
    rcases le_total 0 a with hpa | hna <;> rcases le_total 0 b with hpb | hnb
    · have := Int.tmod_nonneg c hpa
      have := Int.tmod_nonneg c hpb
      have := Int.tmod_nonneg c (add_nonneg hpa hpb)
      constructor <;> linarith
    · have := Int.tmod_nonneg c hpa
      have := tmod_nonpos c hnb
      constructor <;> linarith
    · have := tmod_nonpos c hna
      have := Int.tmod_nonneg c hpb
      constructor <;> linarith
    · have := tmod_nonpos c hna
      have := tmod_nonpos c hnb
      have := tmod_nonpos c (add_nonpos hna hnb)
      constructor <;> linarith
  rw [← hsplit, abs_mul, abs_of_pos hc, mul_comm] at hbound
  have := lt_of_mul_lt_mul_right hbound hc.le
  omega

/-- Truncating the parts of a sum changes its quotient by at most one for each. -/
theorem abs_sum_tdiv_sub_le (l : List Int) {c : Int} (hc : 0 < c) :
    |(l.map (Int.tdiv · c)).sum - l.sum.tdiv c| ≤ l.length := by
  induction l with
  | nil => simp
  | cons a rest ih =>
    have hone := abs_tdiv_add_sub_le a rest.sum hc
    rw [List.map_cons, List.sum_cons, List.sum_cons, List.length_cons]
    rw [abs_le] at ih hone ⊢
    push_cast
    constructor <;> linarith

/-- A part sized so that its share of a truncated quotient fits a limit has a truncated
quotient within the limit: either the whole fits, or the part's rounding is below one. -/
theorem part_ediv_le {whole part gain unit limit : Int} (hunit : 0 < unit) (hgain : 0 ≤ gain)
    (hpart : part ≤ whole) (hpos : 0 < whole * gain / unit) (hlimit : 0 ≤ limit)
    (hsized : part * (whole * gain / unit) ≤ limit * whole) : part * gain / unit ≤ limit := by
  generalize htotal : whole * gain / unit = total at hpos hsized
  have hcovered : whole * gain < (total + 1) * unit := by
    rw [← htotal]
    exact Int.lt_ediv_add_one_mul_self _ hunit
  by_cases hfits : total ≤ limit
  · have hmono := Int.ediv_le_ediv hunit (mul_le_mul_of_nonneg_right hpart hgain)
    omega
  · refine Int.lt_add_one_iff.mp (Int.ediv_lt_of_lt_mul hunit ?_)
    refine lt_of_mul_lt_mul_right ?_ hpos.le
    calc part * gain * total = part * total * gain := by ring
      _ ≤ limit * whole * gain := mul_le_mul_of_nonneg_right hsized hgain
      _ = limit * (whole * gain) := by ring
      _ ≤ limit * ((total + 1) * unit) := mul_le_mul_of_nonneg_left hcovered.le hlimit
      _ = (limit * total + limit) * unit := by ring
      _ < (limit * total + total) * unit := mul_lt_mul_of_pos_right (by omega) hunit
      _ = (limit + 1) * unit * total := by ring

end Truncation

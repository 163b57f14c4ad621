import Mathlib.Algebra.Order.Ring.Int
import Mathlib.Algebra.BigOperators.Group.List.Basic
import Mathlib.Algebra.Order.BigOperators.Group.List
import Mathlib.Tactic.Linarith
import Mathlib.Tactic.Ring

/-! # Collecting a debt

A debt is collected from one holding after the other. A holding worth no more than what is
still owed is taken whole, of a larger one the share that the debt asks for, rounded down.
What was taken is valued again and credited at a rate, rounded down as well. -/
namespace Collection

variable {ι : Type}

/-- What a debtor holds and how an amount of it is valued. A share that was rounded down is
worth at most one more than it was to cover. -/
structure Terms (ι : Type) where
  held : ι → Int
  worth : ι → Int → Int
  unit : Int
  rate : Int
  unit_pos : 0 < unit
  rate_pos : 0 < rate
  worth_zero : ∀ i, worth i 0 = 0
  worth_nonneg : ∀ i amount, 0 ≤ amount → 0 ≤ worth i amount
  worth_share : ∀ i amount owed, 0 < owed → owed < worth i amount →
    worth i (amount * owed / worth i amount) ≤ owed + 1

/-- One holding's part in a collection. -/
structure Take (ι : Type) where
  item : ι
  amount : Int
  value : Int
  deriving DecidableEq, Repr

namespace Terms

def share (amount worth owed : Int) : Int := if worth ≤ owed then amount else amount * owed / worth

variable (t : Terms ι)

def credit (value : Int) : Int := value * t.unit / t.rate

def part (owed : Int) (i : ι) : Int := share (t.held i) (t.worth i (t.held i)) owed

/-- A holding is passed over when nothing is owed, when it is worth nothing and when what
would be taken of it brings no credit. -/
def amountTaken (owed : Int) (i : ι) : Int :=
  if 0 < owed ∧ 0 < t.held i ∧ 0 < t.worth i (t.held i) ∧ 0 < t.credit (t.worth i (t.part owed i)) then
    t.part owed i
  else 0

def take (owed : Int) (i : ι) : Take ι where
  item := i
  amount := t.amountTaken owed i
  value := t.worth i (t.amountTaken owed i)

def takes (owed : Int) : List ι → List (Take ι)
  | [] => []
  | i :: rest => t.take owed i :: takes (owed - (t.take owed i).value) rest

def value (taken : List (Take ι)) : Int := (taken.map Take.value).sum

def credited (taken : List (Take ι)) : Int := (taken.map fun x => t.credit x.value).sum

/-- No take is worth more than what is owed at its turn, or the rate rounds the excess away
and the credit stays within the gap. -/
def Covered (owed gap : Int) : List (Take ι) → Prop
  | [] => True
  | x :: rest => (x.value ≤ max owed 0 ∨ t.credit (owed + 1) ≤ gap) ∧
    Covered (owed - x.value) (gap - t.credit x.value) rest

instance decidableCovered : ∀ (owed gap : Int) (taken : List (Take ι)), Decidable (t.Covered owed gap taken)
  | _, _, [] => inferInstanceAs (Decidable True)
  | owed, gap, x :: rest =>
    have := decidableCovered (owed - x.value) (gap - t.credit x.value) rest
    inferInstanceAs (Decidable ((x.value ≤ max owed 0 ∨ t.credit (owed + 1) ≤ gap) ∧
      t.Covered (owed - x.value) (gap - t.credit x.value) rest))

variable {t} {owed gap : Int} {i : ι} {items : List ι}

/-! ## One take -/

theorem credit_nonneg {value : Int} (h : 0 ≤ value) : 0 ≤ t.credit value :=
  Int.ediv_nonneg (mul_nonneg h t.unit_pos.le) t.rate_pos.le

theorem credit_mul_le (value : Int) : t.credit value * t.rate ≤ value * t.unit :=
  Int.ediv_mul_le _ t.rate_pos.ne'

theorem credit_zero : t.credit 0 = 0 := by simp [credit]

/-- A credit stays within a gap that the value fits into at the rate. -/
theorem credit_le_of_le {value : Int} (h : value * t.unit ≤ gap * t.rate) : t.credit value ≤ gap :=
  Int.ediv_le_of_le_mul t.rate_pos h

theorem share_nonneg {amount worth owed : Int} (hamount : 0 ≤ amount) (hworth : 0 ≤ worth)
    (howed : 0 ≤ owed) : 0 ≤ share amount worth owed := by
  unfold share
  split
  · exact hamount
  · exact Int.ediv_nonneg (mul_nonneg hamount howed) hworth

theorem amountTaken_of_nonpos (h : owed ≤ 0) : t.amountTaken owed i = 0 :=
  if_neg fun hn => absurd hn.1 (not_lt.mpr h)

/-- A holding whose part comes to nothing is passed over. -/
theorem amountTaken_of_part_nonpos (howed : 0 < owed) (hheld : 0 < t.held i)
    (hworth : 0 < t.worth i (t.held i)) (h : t.part owed i ≤ 0) : t.amountTaken owed i = 0 := by
  unfold amountTaken
  split
  · exact le_antisymm h (share_nonneg hheld.le hworth.le howed.le)
  · rfl

theorem take_value_of_zero (h : t.amountTaken owed i = 0) : (t.take owed i).value = 0 := by
  show t.worth i (t.amountTaken owed i) = 0
  rw [h, t.worth_zero]

/-- What is taken of a holding is there to take. -/
theorem amountTaken_bounds (t : Terms ι) (owed : Int) (i : ι) :
    0 ≤ t.amountTaken owed i ∧ t.amountTaken owed i ≤ max (t.held i) 0 := by
  unfold amountTaken
  split
  · rename_i h
    obtain ⟨howed, hheld, hworth, _⟩ := h
    refine ⟨share_nonneg hheld.le hworth.le howed.le, le_max_of_le_left ?_⟩
    unfold part share
    split
    · exact le_rfl
    · rename_i hlarge
      refine Int.ediv_le_of_le_mul hworth ?_
      exact mul_le_mul_of_nonneg_left (not_le.mp hlarge).le hheld.le
  · exact ⟨le_rfl, le_max_right _ _⟩

theorem take_value_nonneg (t : Terms ι) (owed : Int) (i : ι) : 0 ≤ (t.take owed i).value :=
  t.worth_nonneg i _ (t.amountTaken_bounds owed i).1

/-- A take is worth at most one more than what is owed. -/
theorem take_value_le (h : 0 < owed) : (t.take owed i).value ≤ owed + 1 := by
  show t.worth i (t.amountTaken owed i) ≤ owed + 1
  unfold amountTaken
  split
  · unfold part share
    split
    · omega
    · rename_i hlarge
      exact t.worth_share i _ _ h (not_le.mp hlarge)
  · rw [t.worth_zero]
    omega

/-! ## The whole collection -/

theorem takes_congr (t t' : Terms ι) (hunit : t'.unit = t.unit) (hrate : t'.rate = t.rate)
    (h : ∀ i ∈ items, t'.held i = t.held i ∧ t'.worth i = t.worth i) (owed : Int) :
    t'.takes owed items = t.takes owed items := by
  induction items generalizing owed with
  | nil => rfl
  | cons i rest ih =>
    obtain ⟨⟨hheld, hworth⟩, hrest⟩ := List.forall_mem_cons.mp h
    have htake : t'.take owed i = t.take owed i := by
      unfold take amountTaken part credit
      rw [hheld, hworth, hunit, hrate]
    simp only [takes, htake, ih hrest]

theorem takes_items (t : Terms ι) (owed : Int) (items : List ι) : (t.takes owed items).map Take.item = items := by
  induction items generalizing owed with
  | nil => rfl
  | cons i rest ih => simp only [takes, List.map_cons, ih, take]

/-- Every take of a collection is the take of its holding at what was owed then. -/
theorem mem_takes {x : Take ι} (h : x ∈ t.takes owed items) :
    ∃ owed' i, i ∈ items ∧ x = t.take owed' i := by
  induction items generalizing owed with
  | nil => cases h
  | cons i rest ih =>
    cases List.mem_cons.mp h with
    | inl hx => exact ⟨owed, i, List.mem_cons_self, hx⟩
    | inr hx =>
      obtain ⟨owed', j, hj, hx⟩ := ih hx
      exact ⟨owed', j, List.mem_cons_of_mem _ hj, hx⟩

theorem take_mem_takes (h : i ∈ items) : ∃ owed', t.take owed' i ∈ t.takes owed items := by
  rw [← t.takes_items owed items] at h
  obtain ⟨x, hx, rfl⟩ := List.mem_map.mp h
  obtain ⟨owed', j, _, rfl⟩ := mem_takes hx
  exact ⟨owed', hx⟩

/-- Once nothing is owed nothing more is taken. -/
theorem paid (t : Terms ι) (items : List ι) (gap : Int) (h : owed ≤ 0) :
    (∀ x ∈ t.takes owed items, x.amount = 0) ∧ t.credited (t.takes owed items) = 0 ∧
      t.Covered owed gap (t.takes owed items) := by
  induction items generalizing gap with
  | nil => exact ⟨fun x hx => absurd hx List.not_mem_nil, rfl, trivial⟩
  | cons i rest ih =>
    have hzero := amountTaken_of_nonpos (t := t) (i := i) h
    simp only [takes, Covered, credited, List.map_cons, List.sum_cons, take_value_of_zero hzero,
      credit_zero, sub_zero, zero_add, List.forall_mem_cons]
    obtain ⟨hamounts, hcredited, hcovered⟩ := ih gap
    exact ⟨⟨hzero, hamounts⟩, hcredited, .inl (le_max_right _ _), hcovered⟩

theorem value_nonneg (t : Terms ι) (owed : Int) (items : List ι) : 0 ≤ value (t.takes owed items) := by
  refine List.sum_nonneg fun v hv => ?_
  obtain ⟨x, hx, rfl⟩ := List.mem_map.mp hv
  obtain ⟨_, j, _, rfl⟩ := mem_takes hx
  exact t.take_value_nonneg _ j

theorem paid_value (t : Terms ι) (items : List ι) (h : owed ≤ 0) : value (t.takes owed items) = 0 := by
  refine List.sum_eq_zero fun v hv => ?_
  obtain ⟨x, hx, rfl⟩ := List.mem_map.mp hv
  have hamount := (t.paid items 0 h).1 x hx
  obtain ⟨_, j, _, rfl⟩ := mem_takes hx
  exact take_value_of_zero hamount

/-- What is credited is worth no more than what was taken. -/
theorem credited_mul_le (taken : List (Take ι)) : t.credited taken * t.rate ≤ value taken * t.unit := by
  induction taken with
  | nil => simp [credited, value]
  | cons x rest ih =>
    have hone := t.credit_mul_le x.value
    simp only [credited, value, List.map_cons, List.sum_cons, add_mul] at ih ⊢
    omega

/-- Each credit falls short of what was taken by less than one. -/
theorem value_mul_le (taken : List (Take ι)) :
    value taken * t.unit ≤ t.credited taken * t.rate + taken.length * t.rate := by
  induction taken with
  | nil => simp [credited, value]
  | cons x rest ih =>
    have hone := Int.lt_ediv_add_one_mul_self (x.value * t.unit) t.rate_pos
    change x.value * t.unit < (t.credit x.value + 1) * t.rate at hone
    simp only [credited, value, List.map_cons, List.sum_cons, List.length_cons, add_mul, one_mul,
      Nat.cast_add, Nat.cast_one] at ih hone ⊢
    omega

/-- At par a value is credited in full. -/
theorem credited_at_par (h : t.rate = t.unit) (taken : List (Take ι)) : t.credited taken = value taken := by
  refine congrArg List.sum (List.map_congr_left fun x _ => ?_)
  rw [credit, h, Int.mul_ediv_cancel _ t.unit_pos.ne']

/-- A collection takes at most one more than is owed. -/
theorem value_le (howed : 0 < owed) : value (t.takes owed items) ≤ owed + 1 := by
  induction items generalizing owed with
  | nil =>
    show (0 : Int) ≤ owed + 1
    omega
  | cons i rest ih =>
    have hone := take_value_le (t := t) (i := i) howed
    simp only [takes, value, List.map_cons, List.sum_cons] at ih ⊢
    by_cases hleft : 0 < owed - (t.take owed i).value
    · have := ih hleft
      omega
    · have hnone := t.paid_value rest (not_lt.mp hleft)
      unfold value at hnone
      omega

/-- **The credit stays within the debt exactly when every take does.** -/
theorem credited_le_iff (howed : 0 < owed) (hgap : owed * t.unit ≤ gap * t.rate) :
    t.credited (t.takes owed items) ≤ gap ↔ t.Covered owed gap (t.takes owed items) := by
  induction items generalizing owed gap with
  | nil =>
    have hpos : 0 < gap :=
      (mul_pos_iff_of_pos_right t.rate_pos).mp ((mul_pos howed t.unit_pos).trans_le hgap)
    exact iff_of_true hpos.le trivial
  | cons i rest ih =>
    have hnn := t.take_value_nonneg owed i
    have hle := take_value_le (t := t) (i := i) howed
    have hcredit := t.credit_mul_le (t.take owed i).value
    simp only [takes, credited, Covered, List.map_cons, List.sum_cons, max_eq_left howed.le]
    by_cases hwithin : (t.take owed i).value < owed
    · have hleft : (owed - (t.take owed i).value) * t.unit ≤
          (gap - t.credit (t.take owed i).value) * t.rate := by
        rw [sub_mul, sub_mul]
        omega
      have hrest := ih (by omega) hleft
      unfold credited at hrest
      rw [← hrest]
      omega
    · have hpaid : owed - (t.take owed i).value ≤ 0 := by omega
      obtain ⟨_, hnone, hcovered⟩ := t.paid rest (gap - t.credit (t.take owed i).value) hpaid
      unfold credited at hnone
      rw [hnone, add_zero]
      by_cases hwhole : (t.take owed i).value = owed
      · rw [hwhole] at hcovered ⊢
        exact iff_of_true (credit_le_of_le hgap) ⟨.inl le_rfl, hcovered⟩
      · have hexcess : (t.take owed i).value = owed + 1 := by omega
        rw [hexcess] at hcovered ⊢
        exact ⟨fun h => ⟨.inr h, hcovered⟩, fun h => h.1.resolve_left (by omega)⟩

/-! ## What is left -/

/-- A holding's turn comes, and no more is left in the end than after it. -/
theorem takes_left (owed : Int) (h : i ∈ items) : ∃ owed', t.take owed' i ∈ t.takes owed items ∧
    owed - value (t.takes owed items) ≤ owed' - (t.take owed' i).value := by
  induction items generalizing owed with
  | nil => cases h
  | cons j rest ih =>
    have hrest := t.value_nonneg (owed - (t.take owed j).value) rest
    simp only [takes, value, List.map_cons, List.sum_cons] at ih hrest ⊢
    cases List.mem_cons.mp h with
    | inl hfirst =>
      subst hfirst
      exact ⟨owed, List.mem_cons_self, by omega⟩
    | inr hlater =>
      obtain ⟨owed', hmem, hleft⟩ := ih (owed - (t.take owed j).value) hlater
      exact ⟨owed', List.mem_cons_of_mem _ hmem, by omega⟩

/-- While a debt is left, what is left of a holding is worth no more than a share's rounding, the
grain, and what is too little to be credited: a holding is taken whole, or as far as the debt then
asks, or passed over where it would bring no credit. -/
theorem left_le {grain : Int} (hgrain : ∀ owed, 0 < owed → owed < t.worth i (t.held i) →
      owed ≤ t.worth i (t.held i * owed / t.worth i (t.held i)) + grain) (hgrain0 : 0 ≤ grain)
    (hleft : 0 < t.held i - t.amountTaken owed i) :
    min (owed - (t.take owed i).value) (t.worth i (t.held i - t.amountTaken owed i)) ≤
      grain + t.rate / t.unit := by
  have hcut : 0 ≤ t.rate / t.unit := Int.ediv_nonneg t.rate_pos.le t.unit_pos.le
  have huncredited : ∀ v, t.credit v ≤ 0 → v ≤ t.rate / t.unit := by
    intro v hv
    have hsmall := Int.lt_ediv_add_one_mul_self (v * t.unit) t.rate_pos
    change v * t.unit < (t.credit v + 1) * t.rate at hsmall
    have hone : (t.credit v + 1) * t.rate ≤ 1 * t.rate :=
      mul_le_mul_of_nonneg_right (by omega) t.rate_pos.le
    exact (Int.le_ediv_iff_mul_le t.unit_pos).mpr (by omega)
  have hvalue : (t.take owed i).value = t.worth i (t.amountTaken owed i) := rfl
  have htake := t.take_value_nonneg owed i
  rcases le_or_gt owed 0 with hpaid | howed
  · omega
  by_cases htaken : t.amountTaken owed i = 0
  · -- passed over
    rw [hvalue, htaken, t.worth_zero, sub_zero, sub_zero]
    rw [htaken, sub_zero] at hleft
    rcases le_or_gt (t.worth i (t.held i)) 0 with hworthless | hworth
    · omega
    have hcredit : t.credit (t.worth i (t.part owed i)) ≤ 0 := by
      by_contra hpos
      have hpart : t.part owed i = 0 := by
        rw [← htaken, amountTaken, if_pos ⟨howed, hleft, hworth, not_le.mp hpos⟩]
      rw [hpart, t.worth_zero, credit_zero] at hpos
      exact hpos le_rfl
    have hsmall := huncredited _ hcredit
    unfold part share at hsmall
    split at hsmall
    · omega
    · rename_i hlarge
      have := hgrain owed howed (not_le.mp hlarge)
      omega
  · -- taken whole or in part
    have hpart : t.amountTaken owed i = t.part owed i := by
      unfold amountTaken at htaken ⊢
      split at htaken
      · rename_i hc
        rw [if_pos hc]
      · exact absurd rfl htaken
    rw [hvalue, hpart]
    rw [hpart] at hleft
    unfold part share at hleft ⊢
    split at hleft
    · omega
    · rename_i hlarge
      rw [if_neg hlarge]
      have := hgrain owed howed (not_le.mp hlarge)
      omega

end Terms

end Collection

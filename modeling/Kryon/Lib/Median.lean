import Mathlib.Order.Lattice

/-! # The middle of a sorted list

At least half of a sorted list is on either side of its middle element, that element
counted on both sides. So whoever holds less than half of the elements cannot move the
middle past all of the others. -/

namespace Median

variable {α β : Type _} [LinearOrder α] {l : List α} {k : Nat}

theorem le_getElem_of_mem_take (h : l.Pairwise (· ≤ ·)) (hk : k < l.length) {x : α}
    (hx : x ∈ l.take (k + 1)) : x ≤ l[k] := by
  obtain ⟨i, hi, rfl⟩ := List.mem_iff_getElem.mp hx
  rw [List.getElem_take]
  rw [List.length_take] at hi
  rcases Nat.lt_or_eq_of_le (show i ≤ k by omega) with hlt | rfl
  · exact List.pairwise_iff_getElem.mp h i k (by omega) hk hlt
  · exact le_rfl

theorem getElem_le_of_mem_drop (h : l.Pairwise (· ≤ ·)) (hk : k < l.length) {x : α}
    (hx : x ∈ l.drop k) : l[k] ≤ x := by
  obtain ⟨i, hi, rfl⟩ := List.mem_iff_getElem.mp hx
  rw [List.getElem_drop]
  rcases Nat.eq_zero_or_pos i with rfl | hpos
  · exact le_rfl
  · exact List.pairwise_iff_getElem.mp h k (k + i) hk (by rw [List.length_drop] at hi; omega) (by omega)

/-- Up to position `k` nothing is larger than what is there. -/
theorem succ_le_countP_le (h : l.Pairwise (· ≤ ·)) (hk : k < l.length) :
    k + 1 ≤ l.countP (· ≤ l[k]) := by
  have hall : (l.take (k + 1)).countP (· ≤ l[k]) = (l.take (k + 1)).length :=
    List.countP_eq_length.mpr fun x hx => decide_eq_true (le_getElem_of_mem_take h hk hx)
  have hsub : (l.take (k + 1)).countP (· ≤ l[k]) ≤ l.countP (· ≤ l[k]) :=
    (List.take_sublist _ _).countP_le
  rw [List.length_take] at hall
  omega

/-- From position `k` on nothing is smaller than what is there. -/
theorem sub_le_countP_ge (h : l.Pairwise (· ≤ ·)) (hk : k < l.length) :
    l.length - k ≤ l.countP (l[k] ≤ ·) := by
  have hall : (l.drop k).countP (l[k] ≤ ·) = (l.drop k).length :=
    List.countP_eq_length.mpr fun x hx => decide_eq_true (getElem_le_of_mem_drop h hk hx)
  have hsub : (l.drop k).countP (l[k] ≤ ·) ≤ l.countP (l[k] ≤ ·) :=
    (List.drop_sublist _ _).countP_le
  rw [List.length_drop] at hall
  omega

/-- More elements have the first property than the second, so one of them has it alone. -/
theorem exists_of_countP_lt {xs : List β} {p q : β → Bool} (h : xs.countP q < xs.countP p) :
    ∃ x ∈ xs, p x = true ∧ q x = false := by
  by_contra hnone
  have hle : xs.countP p ≤ xs.countP q := by
    refine List.countP_mono_left fun x hx hp => ?_
    by_contra hq
    exact hnone ⟨x, hx, hp, by simpa using hq⟩
  omega

/-- **The middle is between two honest values.** The values of `xs` are sorted, and fewer
than half of `xs` are corrupted: the middle value is neither below all of the honest ones
nor above all of them. -/
theorem middle_between {xs : List β} {f : β → α} (hsorted : l.Pairwise (· ≤ ·))
    (hperm : l.Perm (xs.map f)) {corrupted : β → Bool}
    (hfew : 2 * xs.countP corrupted < xs.length) (hk : l.length / 2 < l.length) :
    (∃ x ∈ xs, corrupted x = false ∧ f x ≤ l[l.length / 2]) ∧
    ∃ x ∈ xs, corrupted x = false ∧ l[l.length / 2] ≤ f x := by
  have hlength : l.length = xs.length := hperm.length_eq.trans (List.length_map f)
  have hfew' : 2 * xs.countP corrupted < l.length := hlength ▸ hfew
  constructor
  · have hbelow := succ_le_countP_le hsorted hk
    rw [hperm.countP_eq, List.countP_map] at hbelow
    have hmore := Nat.lt_of_lt_of_le (show xs.countP corrupted < l.length / 2 + 1 by omega) hbelow
    obtain ⟨x, hx, hle, hc⟩ := exists_of_countP_lt hmore
    exact ⟨x, hx, hc, by simpa using hle⟩
  · have habove := sub_le_countP_ge hsorted hk
    rw [hperm.countP_eq, List.countP_map] at habove
    have hmore := Nat.lt_of_lt_of_le
      (show xs.countP corrupted < l.length - l.length / 2 by omega) habove
    obtain ⟨x, hx, hle, hc⟩ := exists_of_countP_lt hmore
    exact ⟨x, hx, hc, by simpa using hle⟩

end Median

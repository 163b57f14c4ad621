import Mathlib.Algebra.BigOperators.Finprod
import Mathlib.Algebra.BigOperators.Group.Finset.Basic
import Mathlib.Algebra.Order.BigOperators.Group.Finset
import Mathlib.Data.Set.Finite.Basic
import Mathlib.Tactic.Abel

/-! # Finite key-value stores

A store maps finitely many keys to values. Finiteness is a field, so every store
has a sum over its entries (`Store.sum`), and two stores with the same lookups
are equal. A `KeyedStore` holds values that know their own key. -/

structure Store (K V : Type) where
  get : K → Option V
  finite : {k | (get k).isSome}.Finite

namespace Store

variable {K V M : Type}

@[ext] theorem ext {s t : Store K V} (h : ∀ k, s.get k = t.get k) : s = t := by
  obtain ⟨f, _⟩ := s
  obtain ⟨g, _⟩ := t
  obtain rfl : f = g := funext h
  rfl

instance : EmptyCollection (Store K V) := ⟨⟨fun _ => none, by simp⟩⟩

instance : Inhabited (Store K V) := ⟨∅⟩

@[simp] theorem get_empty (k : K) : (∅ : Store K V).get k = none := rfl

/-- The same keys, each value through `f`. -/
def map {W : Type} (f : V → W) (s : Store K V) : Store K W where
  get k := (s.get k).map f
  finite := s.finite.subset fun k hk => by simpa using hk

section Update

variable [DecidableEq K]

def set (s : Store K V) (k : K) (v : V) : Store K V where
  get k' := if k' = k then some v else s.get k'
  finite := by
    refine (s.finite.insert k).subset fun k' hk => ?_
    by_cases h : k' = k
    · exact .inl h
    · exact .inr (by simpa [h] using hk)

def remove (s : Store K V) (k : K) : Store K V where
  get k' := if k' = k then none else s.get k'
  finite := by
    refine s.finite.subset fun k' hk => ?_
    by_cases h : k' = k
    · simp [h] at hk
    · simpa [h] using hk

theorem get_set (s : Store K V) (k k' : K) (v : V) :
    (s.set k v).get k' = if k' = k then some v else s.get k' := rfl

theorem get_remove (s : Store K V) (k k' : K) :
    (s.remove k).get k' = if k' = k then none else s.get k' := rfl

@[simp] theorem get_set_self (s : Store K V) (k : K) (v : V) : (s.set k v).get k = some v := by
  simp [get_set]

@[simp] theorem get_set_ne {s : Store K V} {k k' : K} {v : V} (h : k' ≠ k) :
    (s.set k v).get k' = s.get k' := by
  simp [get_set, h]

@[simp] theorem get_remove_self (s : Store K V) (k : K) : (s.remove k).get k = none := by
  simp [get_remove]

@[simp] theorem get_remove_ne {s : Store K V} {k k' : K} (h : k' ≠ k) :
    (s.remove k).get k' = s.get k' := by
  simp [get_remove, h]

end Update

/-! ## Sums over the entries -/

section Sum

noncomputable def keys (s : Store K V) : Finset K := s.finite.toFinset

theorem mem_keys {s : Store K V} {k : K} : k ∈ s.keys ↔ (s.get k).isSome := by
  simp [keys]

/-- What the entry at `k`, if any, contributes. -/
def entry [Zero M] (s : Store K V) (f : K → V → M) (k : K) : M := (s.get k).elim 0 (f k)

noncomputable def sum [AddCommMonoid M] (s : Store K V) (f : K → V → M) : M :=
  ∑ k ∈ s.keys, s.entry f k

theorem entry_of_notMem [Zero M] {s : Store K V} {f : K → V → M} {k : K} (h : k ∉ s.keys) :
    s.entry f k = 0 := by
  rw [mem_keys, Option.not_isSome_iff_eq_none] at h
  simp [entry, h]

theorem sum_eq_of_subset [AddCommMonoid M] {s : Store K V} {f : K → V → M} {A : Finset K}
    (h : s.keys ⊆ A) : s.sum f = ∑ k ∈ A, s.entry f k :=
  Finset.sum_subset h fun _ _ hk => entry_of_notMem hk

@[simp] theorem sum_empty [AddCommMonoid M] (f : K → V → M) : (∅ : Store K V).sum f = 0 :=
  Finset.sum_eq_zero fun _ _ => rfl

/-- A change at one key changes the sum by that key's contribution. -/
theorem sum_change [AddCommGroup M] {s t : Store K V} (f : K → V → M) (k : K)
    (h : ∀ k', k' ≠ k → t.entry f k' = s.entry f k') :
    t.sum f = s.sum f - s.entry f k + t.entry f k := by
  classical
  have hs : s.keys ⊆ insert k (s.keys ∪ t.keys) :=
    Finset.subset_union_left.trans (Finset.subset_insert _ _)
  have ht : t.keys ⊆ insert k (s.keys ∪ t.keys) :=
    Finset.subset_union_right.trans (Finset.subset_insert _ _)
  have hk := Finset.mem_insert_self k (s.keys ∪ t.keys)
  rw [sum_eq_of_subset hs, sum_eq_of_subset ht, ← Finset.add_sum_erase _ (s.entry f) hk,
    ← Finset.add_sum_erase _ (t.entry f) hk]
  have hrest : ∑ k' ∈ (insert k (s.keys ∪ t.keys)).erase k, t.entry f k' =
      ∑ k' ∈ (insert k (s.keys ∪ t.keys)).erase k, s.entry f k' :=
    Finset.sum_congr rfl fun k' hk' => h k' (Finset.ne_of_mem_erase hk')
  rw [hrest]
  abel

theorem sum_set [DecidableEq K] [AddCommGroup M] (s : Store K V) (f : K → V → M) (k : K) (v : V) :
    (s.set k v).sum f = s.sum f - s.entry f k + f k v := by
  rw [sum_change (s := s) (t := s.set k v) f k fun k' hk => by rw [entry, get_set_ne hk, entry]]
  simp [entry]

theorem sum_remove [DecidableEq K] [AddCommGroup M] (s : Store K V) (f : K → V → M) (k : K) :
    (s.remove k).sum f = s.sum f - s.entry f k := by
  rw [sum_change (s := s) (t := s.remove k) f k fun k' hk => by rw [entry, get_remove_ne hk, entry]]
  simp [entry]

theorem sum_congr [AddCommMonoid M] {s : Store K V} {f g : K → V → M}
    (h : ∀ k v, s.get k = some v → f k v = g k v) : s.sum f = s.sum g := by
  refine Finset.sum_congr rfl fun k _ => ?_
  unfold entry
  cases hk : s.get k with
  | none => rfl
  | some v => exact h k v hk

theorem sum_add [AddCommMonoid M] (s : Store K V) (f g : K → V → M) :
    s.sum (fun k v => f k v + g k v) = s.sum f + s.sum g := by
  unfold sum
  rw [← Finset.sum_add_distrib]
  refine Finset.sum_congr rfl fun k _ => ?_
  unfold entry
  cases s.get k with
  | none => exact (add_zero 0).symm
  | some v => rfl

/-- Homomorphisms of the values commute with the sum. -/
theorem hom_sum {N : Type} [AddCommMonoid M] [AddCommMonoid N] (φ : M →+ N) (s : Store K V)
    (f : K → V → M) : φ (s.sum f) = s.sum fun k v => φ (f k v) := by
  unfold sum
  rw [map_sum]
  refine Finset.sum_congr rfl fun k _ => ?_
  unfold entry
  cases s.get k with
  | none => exact φ.map_zero
  | some v => rfl

variable [AddCommMonoid M] [PartialOrder M] [IsOrderedAddMonoid M]

theorem sum_nonneg {s : Store K V} {f : K → V → M} (h : ∀ k v, s.get k = some v → 0 ≤ f k v) :
    0 ≤ s.sum f := by
  refine Finset.sum_nonneg fun k _ => ?_
  unfold entry
  cases hk : s.get k with
  | none => exact le_rfl
  | some v => exact h k v hk

/-- With non-negative contributions no entry exceeds the sum. -/
theorem entry_le_sum {s : Store K V} {f : K → V → M}
    (h : ∀ k v, s.get k = some v → 0 ≤ f k v) (k : K) : s.entry f k ≤ s.sum f := by
  have hnn : ∀ k', 0 ≤ s.entry f k' := fun k' => by
    unfold entry
    cases hk : s.get k' with
    | none => exact le_rfl
    | some v => exact h k' v hk
  by_cases hk : k ∈ s.keys
  · exact Finset.single_le_sum (fun k' _ => hnn k') hk
  · rw [entry_of_notMem hk]
    exact Finset.sum_nonneg fun k' _ => hnn k'

end Sum

/-- A function that is zero off the entries of one row of the store has finite support. -/
theorem finite_support_of_row {I J : Type} [Zero M] {s : Store (I × J) V} {f : J → M} (i : I)
    (h : ∀ j, s.get (i, j) = none → f j = 0) : (Function.support f).Finite := by
  refine (s.finite.preimage (f := fun j => (i, j)) fun a _ b _ hab => (Prod.mk.inj hab).2).subset ?_
  intro j hj
  by_contra hn
  exact hj (h j (Option.not_isSome_iff_eq_none.mp hn))

end Store

/-- A change at one argument changes the sum over all arguments by that much. -/
theorem finsum_change {K M : Type} [AddCommGroup M] {f g : K → M}
    (hf : (Function.support f).Finite) (k : K) (h : ∀ k', k' ≠ k → g k' = f k') :
    ∑ᶠ k', g k' = ∑ᶠ k', f k' - f k + g k := by
  classical
  have hfs : Function.support f ⊆ (insert k hf.toFinset : Finset K) := fun k' hk' => by
    simp only [Finset.coe_insert, Set.Finite.coe_toFinset]
    exact .inr hk'
  have hgs : Function.support g ⊆ (insert k hf.toFinset : Finset K) := fun k' hk' => by
    by_cases he : k' = k
    · subst he; simp
    · exact hfs (by rwa [Function.mem_support, ← h k' he])
  have hk := Finset.mem_insert_self k hf.toFinset
  rw [finsum_eq_finsetSum_of_support_subset f hfs, finsum_eq_finsetSum_of_support_subset g hgs,
    ← Finset.add_sum_erase _ f hk, ← Finset.add_sum_erase _ g hk]
  have hrest : ∑ k' ∈ (insert k hf.toFinset).erase k, g k' =
      ∑ k' ∈ (insert k hf.toFinset).erase k, f k' :=
    Finset.sum_congr rfl fun k' hk' => h k' (Finset.ne_of_mem_erase hk')
  rw [hrest]
  abel

/-- The sum over a list without repetitions, as a sum over all arguments. -/
theorem finsum_mem_list {K M : Type} [DecidableEq K] [AddCommMonoid M] {l : List K} (hl : l.Nodup)
    (f : K → M) : ∑ᶠ k, (if k ∈ l then f k else 0) = (l.map f).sum := by
  have hs : Function.support (fun k => if k ∈ l then f k else 0) ⊆ (l.toFinset : Set K) := by
    intro k hk
    by_contra hn
    rw [List.coe_toFinset] at hn
    exact hk (if_neg hn)
  rw [finsum_eq_finsetSum_of_support_subset _ hs, ← List.sum_toFinset f hl]
  exact Finset.sum_congr rfl fun k hk => if_pos (List.mem_toFinset.mp hk)

/-! ## Stores of values that know their key -/

structure KeyedStore {K V : Type} (key : V → K) where
  table : Store K V
  keyed : ∀ k v, table.get k = some v → key v = k

namespace KeyedStore

variable {K V : Type} {key : V → K}

def get (s : KeyedStore key) (k : K) : Option V := s.table.get k

@[ext] theorem ext {s t : KeyedStore key} (h : ∀ k, s.get k = t.get k) : s = t := by
  cases s
  cases t
  congr
  exact Store.ext h

theorem key_of_get {s : KeyedStore key} {k : K} {v : V} (h : s.get k = some v) : key v = k :=
  s.keyed k v h

instance : EmptyCollection (KeyedStore key) := ⟨⟨∅, by simp⟩⟩

@[simp] theorem get_empty (k : K) : (∅ : KeyedStore key).get k = none := rfl

variable [DecidableEq K]

/-- Store `v` under its own key. -/
def set (s : KeyedStore key) (v : V) : KeyedStore key where
  table := s.table.set (key v) v
  keyed k w h := by
    by_cases hk : k = key v
    · subst hk
      rw [Store.get_set_self] at h
      rw [Option.some.inj h]
    · rw [Store.get_set_ne hk] at h
      exact s.keyed k w h

theorem get_set (s : KeyedStore key) (v : V) (k : K) :
    (s.set v).get k = if k = key v then some v else s.get k := rfl

end KeyedStore

/-- The same over a list without repetitions, where the argument may be missing. -/
theorem sum_map_change {K M : Type} [DecidableEq K] [AddCommGroup M] {f g : K → M} {l : List K}
    (hl : l.Nodup) (k : K) (h : ∀ k' ∈ l, k' ≠ k → g k' = f k') :
    (l.map g).sum = (l.map f).sum + if k ∈ l then g k - f k else 0 := by
  induction l with
  | nil => simp
  | cons a rest ih =>
    obtain ⟨ha, hrest⟩ := List.nodup_cons.mp hl
    have hih := ih hrest fun k' hk' => h k' (List.mem_cons_of_mem a hk')
    rw [List.map_cons, List.map_cons, List.sum_cons, List.sum_cons, hih]
    by_cases hk : a = k
    · subst hk
      rw [if_neg ha, if_pos List.mem_cons_self]
      abel
    · rw [h a List.mem_cons_self hk, add_assoc]
      simp [Ne.symm hk]

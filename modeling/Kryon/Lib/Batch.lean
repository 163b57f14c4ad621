import Kryon.Lib.Store

/-! # Batches of writes to a store

A batch writes its entries in order. `setAll` overwrites, so a batch written twice is
the batch written once; `addAll` accumulates, so a batch added twice counts twice. The
two agree on a sum only as far as nothing was overwritten (`replaced`). -/
namespace Store

variable {K V M : Type} [DecidableEq K]

/-- Write each value at its key. -/
def setAll (s : Store K V) : List (K × V) → Store K V
  | [] => s
  | e :: rest => (s.set e.1 e.2).setAll rest

/-- Add each value to what its key holds. -/
def addAll [Add V] [Zero V] (s : Store K V) : List (K × V) → Store K V
  | [] => s
  | e :: rest => (s.set e.1 ((s.get e.1).getD 0 + e.2)).addAll rest

/-- What the batch's writes overwrite, each valued by `f` at its turn. -/
def replaced [AddMonoid M] (f : V → M) (s : Store K V) : List (K × V) → M
  | [] => 0
  | e :: rest => s.entry (fun _ => f) e.1 + (s.set e.1 e.2).replaced f rest

@[simp] theorem setAll_nil (s : Store K V) : s.setAll [] = s := rfl

@[simp] theorem setAll_cons (s : Store K V) (e : K × V) (rest : List (K × V)) :
    s.setAll (e :: rest) = (s.set e.1 e.2).setAll rest := rfl

theorem setAll_append (s : Store K V) (l l' : List (K × V)) :
    s.setAll (l ++ l') = (s.setAll l).setAll l' := by
  induction l generalizing s with
  | nil => rfl
  | cons e rest ih => exact ih (s.set e.1 e.2)

/-- The last write to a key is the one that counts. -/
theorem get_setAll (s : Store K V) (l : List (K × V)) (k : K) :
    (s.setAll l).get k = (l.reverse.lookup k).or (s.get k) := by
  induction l generalizing s with
  | nil => rfl
  | cons e rest ih =>
    obtain ⟨k', v⟩ := e
    rw [setAll_cons, ih, List.reverse_cons, List.lookup_append, Option.or_assoc, get_set]
    by_cases h : k = k'
    · subst h
      simp
    · have hb : (k == k') = false := by simpa using h
      simp [List.lookup_cons, hb, h]

/-- After the batch a key holds one of its writes, or what it held before. -/
theorem get_setAll_cases (s : Store K V) (l : List (K × V)) (k : K) :
    (∃ v, (k, v) ∈ l ∧ (s.setAll l).get k = some v) ∨ (s.setAll l).get k = s.get k := by
  rw [get_setAll]
  cases hl : l.reverse.lookup k with
  | none => exact .inr rfl
  | some v =>
    obtain ⟨_, _, hsplit, _⟩ := List.lookup_eq_some_iff.mp hl
    have hmem : (k, v) ∈ l.reverse := by simp [hsplit]
    exact .inl ⟨v, List.mem_reverse.mp hmem, rfl⟩

theorem setAll_setAll (s : Store K V) (l : List (K × V)) : (s.setAll l).setAll l = s.setAll l := by
  ext k : 1
  rw [get_setAll, get_setAll, ← Option.or_assoc, Option.or_self]

/-- The entries' values come in and the overwritten ones go out. -/
theorem sum_setAll [AddCommGroup M] (f : V → M) (s : Store K V) (l : List (K × V)) :
    (s.setAll l).sum (fun _ => f) =
      s.sum (fun _ => f) + (l.map fun e => f e.2).sum - s.replaced f l := by
  induction l generalizing s with
  | nil => simp [replaced]
  | cons e rest ih =>
    rw [setAll_cons, ih, sum_set, replaced, List.map_cons, List.sum_cons]
    abel

section Add

variable [AddCommMonoid V]

@[simp] theorem addAll_nil (s : Store K V) : s.addAll [] = s := rfl

@[simp] theorem addAll_cons (s : Store K V) (e : K × V) (rest : List (K × V)) :
    s.addAll (e :: rest) = (s.set e.1 ((s.get e.1).getD 0 + e.2)).addAll rest := rfl

theorem addAll_append (s : Store K V) (l l' : List (K × V)) :
    s.addAll (l ++ l') = (s.addAll l).addAll l' := by
  induction l generalizing s with
  | nil => rfl
  | cons e rest ih => exact ih _

/-- What the batch adds at one key. -/
def addedAt (k : K) (l : List (K × V)) : V := (l.map fun e => if e.1 = k then e.2 else 0).sum

theorem getD_addAll (s : Store K V) (l : List (K × V)) (k : K) :
    ((s.addAll l).get k).getD 0 = (s.get k).getD 0 + addedAt k l := by
  induction l generalizing s with
  | nil => exact (add_zero _).symm
  | cons e rest ih =>
    rw [addAll_cons, ih, addedAt, addedAt, List.map_cons, List.sum_cons, get_set]
    by_cases h : k = e.1
    · subst h
      rw [if_pos rfl, if_pos rfl, Option.getD_some, add_assoc]
    · rw [if_neg h, if_neg (Ne.symm h), zero_add]

theorem isSome_addAll (s : Store K V) (l : List (K × V)) (k : K) :
    ((s.addAll l).get k).isSome ↔ (s.get k).isSome ∨ k ∈ l.map Prod.fst := by
  induction l generalizing s with
  | nil => simp
  | cons e rest ih =>
    rw [addAll_cons, ih, get_set, List.map_cons, List.mem_cons]
    by_cases h : k = e.1
    · simp [h]
    · simp [h]

/-- A key the batch does not name keeps its entry. -/
theorem get_addAll_of_notMem (s : Store K V) {l : List (K × V)} {k : K}
    (h : k ∉ l.map Prod.fst) : (s.addAll l).get k = s.get k := by
  induction l generalizing s with
  | nil => rfl
  | cons e rest ih =>
    rw [List.map_cons, List.mem_cons, not_or] at h
    rw [addAll_cons, ih _ h.2, get_set_ne h.1]

end Add

/-- Adding a batch again changes nothing exactly when it adds nothing anywhere. -/
theorem addAll_addAll_iff [AddCommGroup V] (s : Store K V) (l : List (K × V)) :
    (s.addAll l).addAll l = s.addAll l ↔ ∀ k, addedAt k l = 0 := by
  constructor
  · intro h k
    have hk := getD_addAll (s.addAll l) l k
    rw [h] at hk
    exact left_eq_add.mp hk
  · intro h
    ext k : 1
    by_cases hk : k ∈ l.map Prod.fst
    · have hval := getD_addAll (s.addAll l) l k
      rw [h k, add_zero] at hval
      obtain ⟨a, ha⟩ := Option.isSome_iff_exists.mp ((isSome_addAll s l k).mpr (.inr hk))
      obtain ⟨b, hb⟩ := Option.isSome_iff_exists.mp ((isSome_addAll (s.addAll l) l k).mpr (.inr hk))
      rw [ha, hb] at hval ⊢
      rw [show b = a from hval]
    · rw [get_addAll_of_notMem _ hk]

end Store

import Mathlib.Algebra.BigOperators.Group.List.Basic
import Mathlib.Data.List.InsertIdx
import Mathlib.Data.List.Nodup
import Mathlib.Data.List.Perm.Basic
import Mathlib.Tactic.Abel

/-! # Lists that differ in one entry

`OneChange l l' before after` says that `l'` is `l` with one entry added, replaced
or removed; `before` is the entry it had and `after` the one it has. Sums over the
list, membership and predicates on all entries follow the two entries alone. -/

inductive OneChange {α : Type} (l : List α) : List α → Option α → Option α → Prop
  | append (a : α) : OneChange l (l ++ [a]) none (some a)
  | set {i : Nat} {a : α} (b : α) (h : l[i]? = some a) : OneChange l (l.set i b) (some a) (some b)
  | erase {i : Nat} {a : α} (h : l[i]? = some a) : OneChange l (l.eraseIdx i) (some a) none

namespace OneChange

variable {α M : Type} {l l' : List α} {before after : Option α}

theorem mem (h : OneChange l l' before after) {a : α} (ha : a ∈ l') : a ∈ l ∨ after = some a := by
  cases h with
  | append b =>
    rcases List.mem_append.mp ha with hl | hb
    · exact .inl hl
    · exact .inr (by rw [List.mem_singleton.mp hb])
  | set b _ =>
    rcases List.mem_or_eq_of_mem_set ha with hl | rfl
    · exact .inl hl
    · exact .inr rfl
  | erase _ => exact .inl (List.mem_of_mem_eraseIdx ha)

theorem before_mem (h : OneChange l l' before after) {a : α} (hb : before = some a) : a ∈ l := by
  cases h with
  | append => cases hb
  | set _ hi | erase hi =>
    obtain rfl := Option.some.inj hb
    exact List.mem_of_getElem? hi

theorem length_of_append (h : OneChange l l' before after) (hb : before = none) :
    l'.length = l.length + 1 := by
  cases h with
  | append => simp
  | set | erase => cases hb

theorem length_le (h : OneChange l l' before after) {a : α} (hb : before = some a) :
    l'.length ≤ l.length := by
  cases h with
  | append => cases hb
  | set => simp
  | erase => exact List.length_eraseIdx_le l _

/-- The sum changes by the new entry's part less the old one's. -/
theorem sum_map [AddCommGroup M] (h : OneChange l l' before after) (f : α → M) :
    (l'.map f).sum = (l.map f).sum - before.elim 0 f + after.elim 0 f := by
  cases h with
  | append b => simp
  | @set i a b hi =>
    obtain ⟨hlt, rfl⟩ := List.getElem?_eq_some_iff.mp hi
    rw [List.map_set, List.sum_set', dif_pos (by simpa using hlt), List.getElem_map]
    simp only [Option.elim_some]
    abel
  | @erase i a hi =>
    obtain ⟨hlt, rfl⟩ := List.getElem?_eq_some_iff.mp hi
    have hsum := List.CommMonoid.add_sum_eraseIdx (l := l.map f) (i := i) (by simpa using hlt)
    rw [List.getElem_map, List.eraseIdx_map] at hsum
    rw [← hsum]
    simp

/-- A key that tells entries apart still does when the new entry has the old one's
key or a new one. -/
theorem nodup_map {β : Type} (h : OneChange l l' before after) {f : α → β} (hn : (l.map f).Nodup)
    (hf : ∀ b, after = some b → (∃ a, before = some a ∧ f b = f a) ∨ f b ∉ l.map f) :
    (l'.map f).Nodup := by
  cases h with
  | append b =>
    rcases hf b rfl with hold | hnew
    · obtain ⟨a, ha, _⟩ := hold
      cases ha
    · rw [List.map_append, List.map_singleton, ← List.concat_eq_append]
      exact hn.concat hnew
  | @set i a b hi =>
    rw [List.map_set]
    rcases hf b rfl with hold | hnew
    · obtain ⟨a', ha', hfb⟩ := hold
      obtain rfl := Option.some.inj ha'
      obtain ⟨hlt, rfl⟩ := List.getElem?_eq_some_iff.mp hi
      have hself : (l.map f).set i (f b) = l.map f := by
        rw [hfb, ← List.getElem_map f (h := by simpa using hlt), List.set_getElem_self]
      rwa [hself]
    · exact hn.set hnew
  | @erase i a hi =>
    rw [← List.eraseIdx_map]
    exact hn.eraseIdx i

/-- The key of a removed entry is gone. -/
theorem notMem_of_erase {β : Type} {a : α} (h : OneChange l l' (some a) none) {f : α → β}
    (hn : (l.map f).Nodup) : f a ∉ l'.map f := by
  cases h with
  | @erase i a hi =>
    obtain ⟨hlt, rfl⟩ := List.getElem?_eq_some_iff.mp hi
    have hperm := (List.getElem_cons_eraseIdx_perm hlt).map f
    rw [List.map_cons] at hperm
    exact (List.nodup_cons.mp (hperm.nodup_iff.mpr hn)).1

theorem filter_set_of_not {P : α → Bool} : ∀ {l : List α} {i : Nat} {a b : α}, l[i]? = some a →
    P a = false → P b = false → (l.set i b).filter P = l.filter P
  | x :: l, 0, a, b, h, ha, hb => by
    obtain rfl := Option.some.inj h
    rw [List.set_cons_zero, List.filter_cons_of_neg (by simp [hb]), List.filter_cons_of_neg (by simp [ha])]
  | x :: l, i + 1, a, b, h, ha, hb => by
    rw [List.set_cons_succ, List.filter_cons, List.filter_cons, filter_set_of_not (l := l) h ha hb]

theorem filter_eraseIdx_of_not {P : α → Bool} : ∀ {l : List α} {i : Nat} {a : α}, l[i]? = some a →
    P a = false → (l.eraseIdx i).filter P = l.filter P
  | x :: l, 0, a, h, ha => by
    obtain rfl := Option.some.inj h
    rw [List.eraseIdx_cons_zero, List.filter_cons_of_neg (by simp [ha])]
  | x :: l, i + 1, a, h, ha => by
    rw [List.eraseIdx_cons_succ, List.filter_cons, List.filter_cons, filter_eraseIdx_of_not (l := l) h ha]

/-- A change outside a part of the list leaves that part as it is. -/
theorem filter_eq {P : α → Bool} (h : OneChange l l' before after)
    (hout : ∀ a, before = some a ∨ after = some a → P a = false) : l'.filter P = l.filter P := by
  cases h with
  | append a => simp [hout a (.inr rfl)]
  | set b ha => exact filter_set_of_not ha (hout _ (.inl rfl)) (hout _ (.inr rfl))
  | erase ha => exact filter_eraseIdx_of_not ha (hout _ (.inl rfl))

end OneChange

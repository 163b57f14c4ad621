import Mathlib.Data.List.Basic
import Mathlib.Data.List.Nodup

/-! # Tables

A table is the list of its rows. The SQL statements that a program runs on one are a
`filter` (SELECT … WHERE, and DELETE with the condition negated), `update`
(UPDATE … WHERE), `upsert` (INSERT … ON CONFLICT DO UPDATE) and `insertNew` (INSERT …
ON CONFLICT DO NOTHING). -/
namespace Table

variable {ρ : Type}

/-- `UPDATE … SET f WHERE p`. -/
def update (t : List ρ) (p : ρ → Bool) (f : ρ → ρ) : List ρ := t.map fun r => if p r then f r else r

/-- `DELETE … WHERE p`. -/
def delete (t : List ρ) (p : ρ → Bool) : List ρ := t.filter fun r => !p r

/-- `INSERT … ON CONFLICT DO UPDATE SET f`; `same` tells the rows that conflict. -/
def upsert (t : List ρ) (same : ρ → Bool) (new : ρ) (f : ρ → ρ) : List ρ :=
  if t.any same then update t same f else t ++ [new]

/-- `INSERT … ON CONFLICT DO NOTHING`. -/
def insertNew (t : List ρ) (same : ρ → Bool) (new : ρ) : List ρ :=
  if t.any same then t else t ++ [new]

variable {t : List ρ} {p q same : ρ → Bool} {f : ρ → ρ} {r new : ρ}

theorem mem_update : r ∈ update t p f ↔
    (r ∈ t ∧ p r = false) ∨ ∃ r' ∈ t, p r' = true ∧ f r' = r := by
  unfold update
  rw [List.mem_map]
  constructor
  · intro h
    obtain ⟨r', hr', rfl⟩ := h
    by_cases hp : p r' = true
    · exact .inr ⟨r', hr', hp, (if_pos hp).symm⟩
    · rw [if_neg hp]
      exact .inl ⟨hr', by simpa using hp⟩
  · intro h
    cases h with
    | inl h => exact ⟨r, h.1, if_neg (by simp [h.2])⟩
    | inr h =>
      obtain ⟨r', hr', hp, rfl⟩ := h
      exact ⟨r', hr', if_pos hp⟩

/-- Two statements with one condition do the same if they do so to the rows that meet it. -/
theorem update_inj {g : ρ → ρ} : update t p f = update t p g ↔ ∀ r ∈ t, p r = true → f r = g r := by
  unfold update
  rw [List.map_inj_left]
  refine forall₂_congr fun r _ => ?_
  cases p r <;> simp

theorem update_eq_self : update t p f = t ↔ ∀ r ∈ t, p r = true → f r = r := by
  have hid : update t p id = t := by simp [update]
  exact (Eq.congr_right hid.symm).trans update_inj

theorem mem_delete : r ∈ delete t p ↔ r ∈ t ∧ p r = false := by
  simp [delete]

/-- A row of the updated table comes from a row of the old one. -/
theorem exists_of_mem_update (h : r ∈ update t p f) : ∃ r' ∈ t, r = r' ∨ p r' = true ∧ r = f r' := by
  cases mem_update.mp h with
  | inl h => exact ⟨r, h.1, .inl rfl⟩
  | inr h =>
    obtain ⟨r', hr', hp, rfl⟩ := h
    exact ⟨r', hr', .inr ⟨hp, rfl⟩⟩

/-- A row of the old table has its image in the updated one. -/
theorem mem_update_of_mem (h : r ∈ t) : (if p r then f r else r) ∈ update t p f :=
  List.mem_map_of_mem h

/-- What the statement does not write is what it was, row by row. -/
theorem map_update {β : Type} {g : ρ → β} (h : ∀ r, g (f r) = g r) : (update t p f).map g = t.map g := by
  unfold update
  rw [List.map_map]
  refine List.map_congr_left fun r _ => ?_
  rw [Function.comp_apply]
  split
  · exact h r
  · rfl

/-- Rows that the statement does not reach are the same after it. -/
theorem filter_update (hp : ∀ r, p r = true → q r = false) (hf : ∀ r, p r = true → q (f r) = false) :
    (update t p f).filter q = t.filter q := by
  induction t with
  | nil => rfl
  | cons a t ih =>
    show ((if p a then f a else a) :: update t p f).filter q = (a :: t).filter q
    by_cases ha : p a = true
    · rw [if_pos ha, List.filter_cons_of_neg (by simp [hf a ha]),
        List.filter_cons_of_neg (by simp [hp a ha]), ih]
    · rw [if_neg ha, List.filter_cons, List.filter_cons, ih]

/-- A statement after which no more rows meet `q`. -/
theorem length_filter_update_le (hf : ∀ r, p r = true → q (f r) = true → q r = true) :
    ((update t p f).filter q).length ≤ (t.filter q).length := by
  induction t with
  | nil => exact Nat.le_refl _
  | cons a t ih =>
    show (((if p a then f a else a) :: update t p f).filter q).length ≤ _
    have hhead : q (if p a then f a else a) = true → q a = true := by
      split
      · rename_i ha
        exact hf a ha
      · exact id
    generalize (if p a then f a else a) = b at hhead ⊢
    rw [List.filter_cons, List.filter_cons]
    split
    · rename_i hq
      rw [if_pos (hhead hq), List.length_cons, List.length_cons]
      exact Nat.succ_le_succ ih
    · split
      · exact Nat.le_succ_of_le ih
      · exact ih

theorem filter_delete (hp : ∀ r, p r = true → q r = false) : (delete t p).filter q = t.filter q := by
  unfold delete
  rw [List.filter_filter]
  refine List.filter_congr fun r _ => ?_
  cases hpr : p r with
  | false => simp
  | true => simp [hp r hpr]

/-- A fact that the statement cannot make true of a row. -/
theorem forall_mem_update {P : ρ → Prop} (h : ∀ r ∈ t, P r) (hf : ∀ r ∈ t, p r = true → P r → P (f r)) :
    ∀ r ∈ update t p f, P r := by
  intro r hr
  obtain ⟨r', hr', hcase⟩ := exists_of_mem_update hr
  cases hcase with
  | inl hsame =>
    rw [hsame]
    exact h r' hr'
  | inr hchanged =>
    rw [hchanged.2]
    exact hf r' hr' hchanged.1 (h r' hr')

theorem forall_mem_upsert {P : ρ → Prop} (h : ∀ r ∈ t, P r)
    (hf : ∀ r ∈ t, same r = true → P r → P (f r)) (hnew : t.any same = false → P new) :
    ∀ r ∈ upsert t same new f, P r := by
  unfold upsert
  split
  · exact forall_mem_update h hf
  · rename_i hany
    intro r hr
    cases List.mem_append.mp hr with
    | inl hold => exact h r hold
    | inr hlast =>
      rw [List.mem_singleton.mp hlast]
      exact hnew (by simpa using hany)

/-- What is read off the rows is inserted alike, if it tells which rows conflict. -/
theorem map_insertNew {β : Type} {g : ρ → β} {same' : β → Bool} (h : ∀ r, same' (g r) = same r) :
    (insertNew t same new).map g = insertNew (t.map g) same' (g new) := by
  unfold insertNew
  have hany : (t.map g).any same' = t.any same := by
    rw [List.any_map]
    exact congrArg (List.any t) (funext h)
  rw [hany]
  split
  · rfl
  · rw [List.map_append, List.map_singleton]

theorem mem_insertNew : r ∈ insertNew t same new ↔ r ∈ t ∨ t.any same = false ∧ r = new := by
  unfold insertNew
  cases t.any same with
  | true => simp
  | false => simp

theorem forall_mem_insertNew {P : ρ → Prop} (h : ∀ r ∈ t, P r) (hnew : t.any same = false → P new) :
    ∀ r ∈ insertNew t same new, P r := by
  intro r hr
  cases mem_insertNew.mp hr with
  | inl hold => exact h r hold
  | inr hlast =>
    rw [hlast.2]
    exact hnew hlast.1

/-- A row that conflicts was there, or is the new one. -/
theorem exists_mem_insertNew (h : same new = true) : ∃ r ∈ insertNew t same new, same r = true := by
  cases hany : t.any same with
  | true =>
    obtain ⟨r, hr, hsame⟩ := List.any_eq_true.mp hany
    exact ⟨r, mem_insertNew.mpr (.inl hr), hsame⟩
  | false => exact ⟨new, mem_insertNew.mpr (.inr ⟨hany, rfl⟩), h⟩

/-- The second time the row is there. -/
theorem insertNew_insertNew (h : same new = true) :
    insertNew (insertNew t same new) same new = insertNew t same new := by
  refine if_pos (List.any_eq_true.mpr ?_)
  exact exists_mem_insertNew h

/-- Where rows conflict over a key, it stays a key. -/
theorem nodup_insertNew {β : Type} [DecidableEq β] {key : ρ → β} (hsame : ∀ r, same r = (key r == key new))
    (h : (t.map key).Nodup) : ((insertNew t same new).map key).Nodup := by
  unfold insertNew
  split
  · exact h
  · rename_i hnew
    rw [List.map_append, List.map_singleton, ← List.concat_eq_append]
    refine h.concat fun hmem => hnew ?_
    obtain ⟨r, hr, hkey⟩ := List.mem_map.mp hmem
    exact List.any_eq_true.mpr ⟨r, hr, (hsame r).trans (beq_iff_eq.mpr hkey)⟩

end Table

import Kryon.Venue.Chores

/-! # Orders, fills and jobs in agreement

A fill under a pending hash stands for a settlement that is under way, so it has a job that
is alive or has succeeded. A settlement that failed leaves nothing behind: its fill is gone
and the orders do not count it. -/
namespace Kryon.Venue

open Program

/-! ## What a fill is about -/

/-- Both parties by owner and nonce, and the size. -/
structure Terms where
  maker : String
  makerNonce : Int
  taker : String
  takerNonce : Int
  fillSize : Int
  deriving DecidableEq, Repr

def FillRow.terms (f : FillRow) : Terms := ⟨f.maker, f.makerNonce, f.taker, f.takerNonce, f.fillSize⟩

def MatchResult.terms (m : MatchResult) : Terms :=
  ⟨m.maker.owner, m.maker.nonce, m.taker.owner, m.taker.nonce, m.fillSize⟩

def JobPayload.terms (payload : JobPayload) : Option Terms := do
  return ⟨← payload.makerAddress, ← payload.makerNonce, ← payload.takerAddress, ← payload.takerNonce,
    ← payload.fillSize⟩

/-- What a job settles, when its payload has all of it and the job's own hash. -/
def JobRow.terms (j : JobRow) : Option Terms :=
  j.unsignedXdr.bind fun payload => if payload.pendingTxHash = some j.payloadHash then payload.terms else none

/-- The fill is still under the pending hash. -/
def FillRow.pendingAs (network hash : String) (f : FillRow) : Bool :=
  f.network == network && f.txHash == .pending hash

/-- The part of a size that counts for the order of this owner and nonce. -/
def part (party : String) (partyNonce fillSize : Int) (owner : String) (nonce : Int) : Int :=
  if owner = party ∧ nonce = partyNonce then fillSize else 0

def Terms.share (t : Terms) (owner : String) (nonce : Int) : Int :=
  part t.maker t.makerNonce t.fillSize owner nonce + part t.taker t.takerNonce t.fillSize owner nonce

/-- What the table of fills counts for an order. -/
def booked (fills : List FillRow) (owner : String) (nonce : Int) : Int :=
  (fills.map fun f => f.terms.share owner nonce).sum

/-- Jobs and fills agree, and `filledSize` counts nothing but fills of the table. -/
structure Agreement (db : Db) : Prop where
  backed : ∀ f ∈ db.fills, ∀ hash, f.txHash = .pending hash →
    ∃ j ∈ db.jobs, Db.jobOf f.network hash j = true ∧
      (j.status = .QUEUED ∨ j.status = .SUBMITTED ∨ j.status = .CONFIRMED)
  rolledBack : ∀ j ∈ db.jobs, j.status = .FAILED →
    ∀ f ∈ db.fills, f.pendingAs j.network j.payloadHash = false
  counted : ∀ o ∈ db.orders, o.filledSize ≤ booked db.fills o.owner o.nonce

/-! ## Where the agreement can be lost -/

/-- Everything under the match's hash is about the match itself. -/
def OneMatch (db : Db) (network : String) (m : MatchResult) : Prop :=
  (∀ f ∈ db.fills, f.pendingAs network m.pseudoTxHash = true → f.terms = m.terms) ∧
    ∀ j ∈ db.jobs, Db.jobOf network m.pseudoTxHash j = true → ∀ t ∈ j.terms, t = m.terms

instance (db : Db) (network : String) (m : MatchResult) : Decidable (OneMatch db network m) :=
  inferInstanceAs (Decidable (_ ∧ _))

/-- No job is marked failed without a rollback or queued again after it failed, a hash stands
for one match, both orders of a fill take its size, and neither a fill nor its rollback stops
halfway, as a fill does also when its insert takes effect and throws. -/
def orderly (op : Op) (r : Reply) (w : World) : Bool :=
  match op with
  | .markFailed .. => !tookEffect r
  | .queueJob network m _ => !tookEffect r ||
    w.db.jobs.all fun j => !(Db.jobOf network m.pseudoTxHash j && j.status == .FAILED)
  | .insertFill network m => decide (OneMatch w.db network m) &&
    (wentThrough r || !tookEffect r || w.db.fills.any (Db.sameFill · (Db.fillRow network m)))
  | .addFilled id fillSize => wentThrough r && w.db.orders.any fun o => o.id == id && Db.fits fillSize o
  | .recordTrade .. | .deleteFill .. | .returnVolume .. | .returnFilled .. | .returnFilledOf .. =>
    wentThrough r
  | _ => true

def Orderly (op : Op) (r : Reply) (w : World) : Prop := orderly op r w = true

instance (op : Op) (r : Reply) (w : World) : Decidable (Orderly op r w) :=
  inferInstanceAs (Decidable (_ = true))

/-! ## The books -/

/-- The id that the order route gives. -/
def orderId (owner : String) (nonce : Int) : String := owner ++ ":" ++ nonce.repr

/-- Orders keep their owner and nonce, jobs their hash and what they settle. -/
structure Lasting (db db' : Db) : Prop where
  orders : ∀ o ∈ db.orders, ∃ o' ∈ db'.orders, o'.id = o.id ∧ o'.owner = o.owner ∧ o'.nonce = o.nonce
  jobs : ∀ j ∈ db.jobs, ∃ j' ∈ db'.jobs, j'.id = j.id ∧ j'.network = j.network ∧
    j'.payloadHash = j.payloadHash ∧ ∀ t, j.terms = some t → j'.terms = some t

/-- A row of the table of jobs: a live one is complete, and the fill under its hash is its own. -/
structure JobRow.Sound (fills : List FillRow) (j : JobRow) : Prop where
  complete : j.status = .QUEUED ∨ j.status = .SUBMITTED → ∃ t, j.terms = some t
  positive : ∀ t, j.terms = some t → 0 < t.fillSize
  own : ∀ t, j.terms = some t → ∀ f ∈ fills, f.pendingAs j.network j.payloadHash = true → f.terms = t

/-- The invariant from a database `db₀` on. The fill under `hole` has no job as yet, and
`debt` is booked for an order without being counted by it. -/
structure Books (db₀ : Db) (hole : Option (String × String)) (debt : String → Int → Int) (db : Db) :
    Prop where
  keys : JobKeys db
  jobs : ∀ j ∈ db.jobs, j.Sound db.fills
  ids : (db.orders.map (·.id)).Nodup
  names : ∀ o ∈ db.orders, o.id = orderId o.owner o.nonce
  counted : ∀ o ∈ db.orders, o.filledSize + debt o.owner o.nonce ≤ booked db.fills o.owner o.nonce
  single : ∀ network hash, (db.fills.filter (·.pendingAs network hash)).length ≤ 1
  sizes : ∀ f ∈ db.fills, 0 < f.fillSize
  backed : ∀ f ∈ db.fills, ∀ hash, f.txHash = .pending hash → hole = some (f.network, hash) ∨
    ∃ j ∈ db.jobs, Db.jobOf f.network hash j = true ∧ j.status ≠ .FAILED
  kept : Lasting db₀ db

def noDebt (_ : String) (_ : Int) : Int := 0

variable {cfg : Config} {db₀ db db' : Db} {hole : Option (String × String)} {debt : String → Int → Int}
  {w : World} {t : Terms}

theorem Lasting.refl (db : Db) : Lasting db db :=
  ⟨fun o ho => ⟨o, ho, rfl, rfl, rfl⟩, fun j hj => ⟨j, hj, rfl, rfl, rfl, fun _ h => h⟩⟩

theorem Lasting.trans (h : Lasting db₀ db) (h' : Lasting db db') : Lasting db₀ db' := by
  constructor
  · intro o ho
    obtain ⟨o₁, ho₁, hid, howner, hnonce⟩ := h.orders o ho
    obtain ⟨o₂, ho₂, hid', howner', hnonce'⟩ := h'.orders o₁ ho₁
    exact ⟨o₂, ho₂, hid'.trans hid, howner'.trans howner, hnonce'.trans hnonce⟩
  · intro j hj
    obtain ⟨j₁, hj₁, hid, hnetwork, hhash, hterms⟩ := h.jobs j hj
    obtain ⟨j₂, hj₂, hid', hnetwork', hhash', hterms'⟩ := h'.jobs j₁ hj₁
    exact ⟨j₂, hj₂, hid'.trans hid, hnetwork'.trans hnetwork, hhash'.trans hhash,
      fun t ht => hterms' t (hterms t ht)⟩

/-- What the books say when nothing is under way. -/
theorem Books.agreement (h : Books db₀ none noDebt db) : Agreement db := by
  have hbacked : ∀ f ∈ db.fills, ∀ hash, f.txHash = .pending hash →
      ∃ j ∈ db.jobs, Db.jobOf f.network hash j = true ∧ j.status ≠ .FAILED := by
    intro f hf hash hhash
    cases h.backed f hf hash hhash with
    | inl hhole => cases hhole
    | inr hjob => exact hjob
  refine ⟨fun f hf hash hhash => ?_, fun j hj hfailed f hf => ?_, fun o ho => ?_⟩
  · obtain ⟨j, hj, hof, hstatus⟩ := hbacked f hf hash hhash
    refine ⟨j, hj, hof, ?_⟩
    cases hs : j.status with
    | QUEUED => exact .inl rfl
    | SUBMITTED => exact .inr (.inl rfl)
    | CONFIRMED => exact .inr (.inr rfl)
    | FAILED => exact absurd hs hstatus
  · -- The job that backs such a fill would be this one, by its key.
    by_contra hpending
    simp only [FillRow.pendingAs, Bool.not_eq_false, Bool.and_eq_true, beq_iff_eq] at hpending
    obtain ⟨j', hj', hof, hstatus⟩ := hbacked f hf j.payloadHash hpending.2
    simp only [Db.jobOf, Bool.and_eq_true, beq_iff_eq] at hof
    have hrow : j' = j := List.inj_on_of_nodup_map h.keys.hashes hj' hj
      (by rw [hof.1, hof.2, hpending.1])
    exact hstatus (hrow ▸ hfailed)
  · have hcounted := h.counted o ho
    simpa [noDebt] using hcounted

/-- A fill that has its job may be without one. -/
theorem Books.weaken (h : Books db₀ none debt db) : Books db₀ hole debt db where
  __ := h
  backed f hf hash hhash := by
    cases h.backed f hf hash hhash with
    | inl hhole => cases hhole
    | inr hjob => exact .inr hjob

/-! ## One table at a time -/

theorem Books.of_tables (h : Books db₀ hole debt db) (horders : db'.orders = db.orders)
    (hfills : db'.fills = db.fills) (hjobs : db'.jobs = db.jobs ∧ db'.nextJobId = db.nextJobId) :
    Books db₀ hole debt db' := by
  have hkept : Lasting db db' := by
    constructor
    · rw [horders]
      exact (Lasting.refl db).orders
    · rw [hjobs.1]
      exact (Lasting.refl db).jobs
  refine ⟨h.keys.of_jobs hjobs, ?_, ?_, ?_, ?_, ?_, ?_, ?_, h.kept.trans hkept⟩
  · rw [hjobs.1, hfills]
    exact h.jobs
  · rw [horders]
    exact h.ids
  · rw [horders]
    exact h.names
  · rw [horders, hfills]
    exact h.counted
  · rw [hfills]
    exact h.single
  · rw [hfills]
    exact h.sizes
  · rw [hfills, hjobs.1]
    exact h.backed

/-- A statement that writes `filledSize` or `cancelled` of some orders. -/
theorem Books.updateOrders {debt' : String → Int → Int} {p : OrderRow → Bool} {f : OrderRow → OrderRow}
    (h : Books db₀ hole debt db)
    (hrow : ∀ o, (f o).id = o.id ∧ (f o).owner = o.owner ∧ (f o).nonce = o.nonce)
    (hcounted : ∀ o ∈ db.orders, o.filledSize + debt o.owner o.nonce ≤ booked db.fills o.owner o.nonce →
      (if p o then f o else o).filledSize + debt' o.owner o.nonce ≤ booked db.fills o.owner o.nonce) :
    Books db₀ hole debt' (db.updateOrders p f) := by
  have hsame : ∀ o, (if p o then f o else o).id = o.id ∧ (if p o then f o else o).owner = o.owner ∧
      (if p o then f o else o).nonce = o.nonce := by
    intro o
    split
    · exact hrow o
    · exact ⟨rfl, rfl, rfl⟩
  have hkept : Lasting db (db.updateOrders p f) :=
    ⟨fun o ho => ⟨_, Table.mem_update_of_mem ho, hsame o⟩, (Lasting.refl db).jobs⟩
  refine ⟨h.keys.of_jobs ⟨rfl, rfl⟩, h.jobs, ?_, ?_, ?_, h.single, h.sizes, h.backed, h.kept.trans hkept⟩
  · rw [show (db.updateOrders p f).orders.map (·.id) = db.orders.map (·.id) from
      Table.map_update fun o => (hrow o).1]
    exact h.ids
  · intro o' ho'
    obtain ⟨o, ho, rfl⟩ := List.mem_map.mp ho'
    rw [(hsame o).1, (hsame o).2.1, (hsame o).2.2]
    exact h.names o ho
  · intro o' ho'
    obtain ⟨o, ho, rfl⟩ := List.mem_map.mp ho'
    rw [(hsame o).2.1, (hsame o).2.2]
    exact hcounted o ho (h.counted o ho)

/-- A statement that writes the table of jobs. -/
theorem Books.of_jobs {hole' : Option (String × String)} (h : Books db₀ hole debt db)
    (horders : db'.orders = db.orders) (hfills : db'.fills = db.fills) (hkeys : JobKeys db')
    (hkept : ∀ j ∈ db.jobs, ∃ j' ∈ db'.jobs, j'.id = j.id ∧ j'.network = j.network ∧
      j'.payloadHash = j.payloadHash ∧ ∀ t, j.terms = some t → j'.terms = some t)
    (hsound : ∀ j ∈ db'.jobs, j.Sound db.fills)
    (hbacked : ∀ f ∈ db.fills, ∀ hash, f.txHash = .pending hash → hole' = some (f.network, hash) ∨
      ∃ j ∈ db'.jobs, Db.jobOf f.network hash j = true ∧ j.status ≠ .FAILED) :
    Books db₀ hole' debt db' := by
  have hkept' : Lasting db db' := by
    refine ⟨?_, hkept⟩
    rw [horders]
    exact (Lasting.refl db).orders
  refine ⟨hkeys, ?_, ?_, ?_, ?_, ?_, ?_, ?_, h.kept.trans hkept'⟩
  · rw [hfills]
    exact hsound
  · rw [horders]
    exact h.ids
  · rw [horders]
    exact h.names
  · rw [horders, hfills]
    exact h.counted
  · rw [hfills]
    exact h.single
  · rw [hfills]
    exact h.sizes
  · rw [hfills]
    exact hbacked

/-! ## Sums over the fills -/

theorem part_nonneg {party owner : String} {partyNonce fillSize nonce : Int} (h : 0 ≤ fillSize) :
    0 ≤ part party partyNonce fillSize owner nonce := by
  unfold part
  split
  · exact h
  · exact le_refl 0

theorem Terms.share_nonneg (h : 0 ≤ t.fillSize) (owner : String) (nonce : Int) : 0 ≤ t.share owner nonce :=
  add_nonneg (part_nonneg h) (part_nonneg h)

theorem booked_nonneg {fills : List FillRow} (h : ∀ f ∈ fills, 0 < f.fillSize) (owner : String)
    (nonce : Int) : 0 ≤ booked fills owner nonce := by
  refine List.sum_nonneg fun x hx => ?_
  obtain ⟨f, hf, rfl⟩ := List.mem_map.mp hx
  exact Terms.share_nonneg (h f hf).le owner nonce

theorem booked_append (fills : List FillRow) (f : FillRow) (owner : String) (nonce : Int) :
    booked (fills ++ [f]) owner nonce = booked fills owner nonce + f.terms.share owner nonce := by
  simp [booked]

/-- Deleted rows that are one fill with these terms at most take no more than its share. -/
theorem booked_delete {fills : List FillRow} {p : FillRow → Bool} (hone : (fills.filter p).length ≤ 1)
    (hterms : ∀ f ∈ fills, p f = true → f.terms = t) (ht : 0 ≤ t.fillSize) (owner : String) (nonce : Int) :
    booked fills owner nonce - t.share owner nonce ≤ booked (Table.delete fills p) owner nonce := by
  have hshare := Terms.share_nonneg ht owner nonce
  induction fills with
  | nil => simpa [booked, Table.delete] using hshare
  | cons f fills ih =>
    by_cases hp : p f = true
    · -- This is the one row; none is left to delete.
      have hnone : fills.filter p = [] := by
        rw [List.filter_cons_of_pos hp, List.length_cons] at hone
        exact List.length_eq_zero_iff.mp (by omega)
      have hrest : Table.delete fills p = fills := by
        refine List.filter_eq_self.mpr fun g hg => ?_
        simpa using List.filter_eq_nil_iff.mp hnone g hg
      have hdelete : Table.delete (f :: fills) p = fills := by
        unfold Table.delete
        rw [List.filter_cons_of_neg (by simp [hp])]
        exact hrest
      rw [hdelete]
      have hf := hterms f List.mem_cons_self hp
      simp [booked, hf]
    · have hdelete : Table.delete (f :: fills) p = f :: Table.delete fills p :=
        List.filter_cons_of_pos (by simp [hp])
      rw [List.filter_cons_of_neg hp] at hone
      have hrest := ih hone fun g hg => hterms g (List.mem_cons_of_mem f hg)
      rw [hdelete]
      simp only [booked, List.map_cons, List.sum_cons] at hrest ⊢
      omega

/-! ## The table of fills -/

theorem Books.insertFill {network : String} {m : MatchResult} (h : Books db₀ none noDebt db)
    (hone : OneMatch db network m) (hsize : 0 < m.fillSize)
    (hnew : db.fills.any (Db.sameFill · (Db.fillRow network m)) = false) :
    Books db₀ (some (network, m.pseudoTxHash)) m.terms.share
      { db with fills := db.fills ++ [Db.fillRow network m] } := by
  -- Another fill under the hash would be the same fill, and the key would refuse the row.
  have hfree : ∀ f ∈ db.fills, f.pendingAs network m.pseudoTxHash = false := by
    intro f hf
    by_contra hpending
    rw [Bool.not_eq_false] at hpending
    have hterms := hone.1 f hf hpending
    simp only [FillRow.pendingAs, Bool.and_eq_true, beq_iff_eq] at hpending
    simp only [FillRow.terms, MatchResult.terms, Terms.mk.injEq] at hterms
    refine List.any_eq_false.mp hnew f hf ?_
    simp [Db.sameFill, Db.fillRow, hpending, hterms]
  have hrow : ∀ n k, (Db.fillRow network m).pendingAs n k = true → n = network ∧ k = m.pseudoTxHash := by
    intro n k hnk
    simp only [FillRow.pendingAs, Db.fillRow, Bool.and_eq_true, beq_iff_eq] at hnk
    exact ⟨hnk.1.symm, (TxHash.pending.inj hnk.2).symm⟩
  refine ⟨h.keys.of_jobs ⟨rfl, rfl⟩, fun j hj => ?_, h.ids, h.names, fun o ho => ?_, fun n k => ?_, ?_, ?_,
    h.kept.trans ⟨(Lasting.refl db).orders, (Lasting.refl db).jobs⟩⟩
  · refine ⟨(h.jobs j hj).complete, (h.jobs j hj).positive, fun t ht f hf hpending => ?_⟩
    cases List.mem_append.mp hf with
    | inl hold => exact (h.jobs j hj).own t ht f hold hpending
    | inr hlast =>
      obtain rfl := List.mem_singleton.mp hlast
      obtain ⟨hnetwork, hhash⟩ := hrow _ _ hpending
      exact (hone.2 j hj (by simp [Db.jobOf, hnetwork, hhash]) t ht).symm
  · have hcounted := h.counted o ho
    simp only [noDebt] at hcounted
    rw [show booked (db.fills ++ [Db.fillRow network m]) o.owner o.nonce =
      booked db.fills o.owner o.nonce + m.terms.share o.owner o.nonce from booked_append _ _ _ _]
    omega
  · rw [List.filter_append]
    by_cases hnk : (Db.fillRow network m).pendingAs n k = true
    · obtain ⟨rfl, rfl⟩ := hrow n k hnk
      rw [List.filter_eq_nil_iff.mpr fun f hf => by simp [hfree f hf], List.nil_append]
      exact List.length_filter_le _ _
    · rw [List.filter_cons_of_neg hnk, List.filter_nil, List.append_nil]
      exact h.single n k
  · intro f hf
    cases List.mem_append.mp hf with
    | inl hold => exact h.sizes f hold
    | inr hlast =>
      rw [List.mem_singleton.mp hlast]
      exact hsize
  · intro f hf k hk
    cases List.mem_append.mp hf with
    | inl hold =>
      cases h.backed f hold k hk with
      | inl hhole => cases hhole
      | inr hjob => exact .inr hjob
    | inr hlast =>
      obtain rfl := List.mem_singleton.mp hlast
      obtain rfl := TxHash.pending.inj hk
      exact .inl rfl

theorem not_pending_deleteFill {network hash : String} :
    ∀ f ∈ (db.deleteFill network hash).fills, f.pendingAs network hash = false :=
  fun _ hf => (Table.mem_delete.mp hf).2

theorem Books.deleteFill {network hash : String} (h : Books db₀ hole noDebt db)
    (hhole : ∀ n k, hole = some (n, k) → n = network ∧ k = hash)
    (hterms : ∀ f ∈ db.fills, f.pendingAs network hash = true → f.terms = t) (ht : 0 < t.fillSize) :
    Books db₀ none (fun owner nonce => - t.share owner nonce) (db.deleteFill network hash) := by
  have hold : ∀ f ∈ (db.deleteFill network hash).fills, f ∈ db.fills := fun f hf => (Table.mem_delete.mp hf).1
  refine ⟨h.keys.of_jobs ⟨rfl, rfl⟩, fun j hj => ?_, h.ids, h.names, fun o ho => ?_, fun n k => ?_,
    fun f hf => h.sizes f (hold f hf), fun f hf k hk => ?_,
    h.kept.trans ⟨(Lasting.refl db).orders, (Lasting.refl db).jobs⟩⟩
  · exact ⟨(h.jobs j hj).complete, (h.jobs j hj).positive,
      fun t ht f hf => (h.jobs j hj).own t ht f (hold f hf)⟩
  · have hcounted := h.counted o ho
    have hdelete := booked_delete (h.single network hash) hterms ht.le o.owner o.nonce
    simp only [noDebt] at hcounted
    have hsum : booked db.fills o.owner o.nonce - t.share o.owner o.nonce ≤
        booked (db.deleteFill network hash).fills o.owner o.nonce := hdelete
    omega
  · exact (List.Sublist.length_le (List.filter_sublist.filter _)).trans (h.single n k)
  · cases h.backed f (hold f hf) k hk with
    | inr hjob => exact .inr hjob
    | inl hin =>
      obtain ⟨hnetwork, rfl⟩ := hhole _ _ hin
      have hgone := not_pending_deleteFill f hf
      simp [FillRow.pendingAs, hnetwork, hk] at hgone

theorem Books.settleFillRow {p : FillRow → Bool} {hash ledger : Nat} (h : Books db₀ hole debt db) :
    Books db₀ hole debt { db with
      fills := Table.update db.fills p fun f => { f with txHash := .onChain hash, ledger := ledger } } := by
  have hpending : ∀ f ∈ Table.update db.fills p fun f => { f with txHash := .onChain hash, ledger := ledger },
      ∀ k, f.txHash = .pending k → f ∈ db.fills := by
    intro f hf k hk
    cases Table.mem_update.mp hf with
    | inl hsame => exact hsame.1
    | inr hchanged =>
      obtain ⟨_, _, _, rfl⟩ := hchanged
      cases hk
  refine ⟨h.keys.of_jobs ⟨rfl, rfl⟩, fun j hj => ?_, h.ids, h.names, fun o ho => ?_, fun n k => ?_, ?_,
    fun f hf k hk => h.backed f (hpending f hf k hk) k hk,
    h.kept.trans ⟨(Lasting.refl db).orders, (Lasting.refl db).jobs⟩⟩
  · refine ⟨(h.jobs j hj).complete, (h.jobs j hj).positive, fun t ht f hf hown => ?_⟩
    have hhash := hown
    simp only [FillRow.pendingAs, Bool.and_eq_true, beq_iff_eq] at hhash
    exact (h.jobs j hj).own t ht f (hpending f hf _ hhash.2) hown
  · have hsum : booked (Table.update db.fills p fun f => { f with txHash := .onChain hash, ledger := ledger })
        o.owner o.nonce = booked db.fills o.owner o.nonce :=
      congrArg List.sum (Table.map_update fun f => rfl)
    show o.filledSize + debt o.owner o.nonce ≤ booked (Table.update db.fills p _) o.owner o.nonce
    rw [hsum]
    exact h.counted o ho
  · refine (Table.length_filter_update_le fun f _ hf => ?_).trans (h.single n k)
    simp [FillRow.pendingAs] at hf
  · exact Table.forall_mem_update h.sizes fun _ _ _ hsize => hsize

/-! ## The table of orders -/

section Orders

variable {fillSize : Int}

theorem part_le {party owner : String} {partyNonce nonce : Int} (h : 0 ≤ fillSize) :
    part party partyNonce fillSize owner nonce ≤ fillSize := by
  unfold part
  split
  · exact le_refl _
  · exact h

theorem Books.addFilled {id : String} (party : String) (partyNonce : Int) (debt' : String → Int → Int)
    (h : Books db₀ hole debt db)
    (hrow : ∀ o ∈ db.orders, o.id = id → o.owner = party ∧ o.nonce = partyNonce) (hsize : 0 ≤ fillSize)
    (hdebt : ∀ owner nonce, debt' owner nonce + part party partyNonce fillSize owner nonce ≤
      debt owner nonce) : Books db₀ hole debt' (db.addFilled id fillSize).2 := by
  refine h.updateOrders (fun _ => ⟨rfl, rfl, rfl⟩) fun o ho hcounted => ?_
  have hle := hdebt o.owner o.nonce
  split
  · rename_i hp
    simp only [Bool.and_eq_true, beq_iff_eq] at hp
    have hpart : part party partyNonce fillSize o.owner o.nonce = fillSize := if_pos (hrow o ho hp.1)
    show o.filledSize + fillSize + _ ≤ _
    omega
  · have hpart : 0 ≤ part party partyNonce fillSize o.owner o.nonce := part_nonneg hsize
    omega

theorem Books.giveBack {p : OrderRow → Bool} (party : String) (partyNonce : Int)
    (debt' : String → Int → Int) (h : Books db₀ hole debt db)
    (hreach : ∀ o ∈ db.orders, o.owner = party → o.nonce = partyNonce → p o = true) (hsize : 0 ≤ fillSize)
    (hdebt : ∀ owner nonce, debt' owner nonce ≤
      debt owner nonce + part party partyNonce fillSize owner nonce)
    (hnonpos : ∀ owner nonce, debt' owner nonce ≤ 0) :
    Books db₀ hole debt' (db.updateOrders p (Db.giveBack fillSize)) := by
  refine h.updateOrders (fun _ => ⟨rfl, rfl, rfl⟩) fun o ho hcounted => ?_
  have hle := hdebt o.owner o.nonce
  have hneg := hnonpos o.owner o.nonce
  have hbooked := booked_nonneg h.sizes o.owner o.nonce
  split
  · have hpart : part party partyNonce fillSize o.owner o.nonce ≤ fillSize := part_le hsize
    show max 0 (o.filledSize - fillSize) + _ ≤ _
    omega
  · rename_i hp
    have hpart : part party partyNonce fillSize o.owner o.nonce = 0 :=
      if_neg fun hparty => hp (hreach o ho hparty.1 hparty.2)
    omega

end Orders

theorem Books.insertOrder {order : RestingOrder} {now : Nat} (h : Books db₀ hole noDebt db)
    (hid : order.id = orderId order.owner order.nonce) :
    Books db₀ hole noDebt (db.insertOrder order now) := by
  rw [Db.insertOrder_eq]
  refine ⟨h.keys.of_jobs ⟨rfl, rfl⟩, h.jobs, Table.nodup_insertNew (fun _ => rfl) h.ids,
    Table.forall_mem_insertNew h.names fun _ => hid,
    Table.forall_mem_insertNew h.counted fun _ => booked_nonneg h.sizes _ _, h.single, h.sizes, h.backed,
    h.kept.trans ⟨fun o ho => ⟨o, ?_, rfl, rfl, rfl⟩, (Lasting.refl db).jobs⟩⟩
  exact Table.mem_insertNew.mpr (.inl ho)

/-! ## The table of jobs -/

theorem JobRow.Sound.of_terms {fills : List FillRow} {j j' : JobRow} (h : j.Sound fills)
    (hnetwork : j'.network = j.network) (hhash : j'.payloadHash = j.payloadHash)
    (hterms : j'.terms = j.terms)
    (hlive : j'.status = .QUEUED ∨ j'.status = .SUBMITTED → j.status = .QUEUED ∨ j.status = .SUBMITTED) :
    j'.Sound fills := by
  constructor
  · rw [hterms]
    exact fun hs => h.complete (hlive hs)
  · rw [hterms]
    exact h.positive
  · rw [hterms, hnetwork, hhash]
    exact h.own

/-- A job that has come to an end is not worked on. -/
theorem TxStatus.not_live {status : TxStatus} (h : status = .FAILED ∨ status = .CONFIRMED) :
    ¬ (status = .QUEUED ∨ status = .SUBMITTED) := by
  cases h with
  | inl hfailed =>
    rw [hfailed]
    decide
  | inr hconfirmed =>
    rw [hconfirmed]
    decide

/-- A statement on the jobs that keeps what they settle and revives none. A job may come to
an end when no fill is under its hash, or when that fill has no job in the books. -/
theorem Books.updateJobs {p : JobRow → Bool} {f : JobRow → JobRow} (h : Books db₀ hole debt db)
    (hkeys : JobKeys (db.updateJobs p f))
    (hrow : ∀ j, (f j).id = j.id ∧ (f j).network = j.network ∧ (f j).payloadHash = j.payloadHash ∧
      (f j).terms = j.terms)
    (hlive : ∀ j, p j = true → (f j).status = .QUEUED ∨ (f j).status = .SUBMITTED →
      j.status = .QUEUED ∨ j.status = .SUBMITTED)
    (hfailed : ∀ j ∈ db.jobs, p j = true → (f j).status = .FAILED → j.status = .FAILED ∨
      hole = some (j.network, j.payloadHash) ∨
        ∀ g ∈ db.fills, g.pendingAs j.network j.payloadHash = false) :
    Books db₀ hole debt (db.updateJobs p f) := by
  have hsame : ∀ j, (if p j then f j else j).id = j.id ∧ (if p j then f j else j).network = j.network ∧
      (if p j then f j else j).payloadHash = j.payloadHash ∧ (if p j then f j else j).terms = j.terms := by
    intro j
    split
    · exact hrow j
    · exact ⟨rfl, rfl, rfl, rfl⟩
  refine h.of_jobs rfl rfl hkeys (fun j hj => ⟨_, Table.mem_update_of_mem hj, ?_⟩)
    (Table.forall_mem_update h.jobs fun j _ hp hsound => ?_) fun g hg k hk => ?_
  · obtain ⟨hid, hnetwork, hhash, hterms⟩ := hsame j
    exact ⟨hid, hnetwork, hhash, fun t ht => hterms.trans ht⟩
  · exact hsound.of_terms (hrow j).2.1 (hrow j).2.2.1 (hrow j).2.2.2 (hlive j hp)
  · cases h.backed g hg k hk with
    | inl hin => exact .inl hin
    | inr hjob =>
      obtain ⟨j, hj, hof, hstatus⟩ := hjob
      have hkey := hof
      simp only [Db.jobOf, Bool.and_eq_true, beq_iff_eq] at hkey
      by_cases hnow : (if p j then f j else j).status = .FAILED
      · by_cases hp : p j = true
        · rw [if_pos hp] at hnow
          rcases hfailed j hj hp hnow with hbefore | hin | hfree
          · exact absurd hbefore hstatus
          · rw [hkey.1, hkey.2] at hin
            exact .inl hin
          · have hother := hfree g hg
            simp [FillRow.pendingAs, hkey, hk] at hother
        · rw [if_neg hp] at hnow
          exact absurd hnow hstatus
      · refine .inr ⟨_, Table.mem_update_of_mem hj, ?_, hnow⟩
        rw [Db.jobOf, (hsame j).2.1, (hsame j).2.2.1]
        exact hof

/-- A statement that inserts the job of the hole or writes the one there is. The hole is
closed when that job has not failed afterwards. -/
theorem Books.upsertJob {new : JobRow} {f : JobRow → JobRow} {hole' : Option (String × String)}
    (h : Books db₀ (some (new.network, new.payloadHash)) debt db) (hkeys : JobKeys (db.upsertJob new f))
    (hrow : ∀ j ∈ db.jobs, Db.jobOf new.network new.payloadHash j = true → (f j).id = j.id ∧
      (f j).network = j.network ∧ (f j).payloadHash = j.payloadHash ∧
        ∀ t, j.terms = some t → (f j).terms = some t)
    (hsound : ∀ j ∈ db.jobs, Db.jobOf new.network new.payloadHash j = true → j.Sound db.fills →
      (f j).Sound db.fills)
    (hnew : JobRow.Sound db.fills { new with id := db.nextJobId })
    (hclosed : hole' = some (new.network, new.payloadHash) ∨ (new.status ≠ .FAILED ∧
      ∀ j ∈ db.jobs, Db.jobOf new.network new.payloadHash j = true → (f j).status ≠ .FAILED)) :
    Books db₀ hole' debt (db.upsertJob new f) := by
  -- The job of the hole is on the table afterwards.
  have hpresent : new.status ≠ .FAILED ∧ (∀ j ∈ db.jobs,
      Db.jobOf new.network new.payloadHash j = true → (f j).status ≠ .FAILED) →
        ∃ j ∈ (db.upsertJob new f).jobs, Db.jobOf new.network new.payloadHash j = true ∧
          j.status ≠ .FAILED := by
    intro hstatus
    unfold Db.upsertJob Table.upsert
    split
    · rename_i hany
      obtain ⟨j, hj, hof⟩ := List.any_eq_true.mp hany
      refine ⟨f j, Table.mem_update.mpr (.inr ⟨j, hj, hof, rfl⟩), ?_, hstatus.2 j hj hof⟩
      rw [Db.jobOf, (hrow j hj hof).2.1, (hrow j hj hof).2.2.1]
      exact hof
    · exact ⟨_, List.mem_append_right _ List.mem_cons_self, by simp [Db.jobOf], hstatus.1⟩
  -- The jobs of other hashes are as they were.
  have hothers : ∀ j ∈ db.jobs, Db.jobOf new.network new.payloadHash j = false →
      j ∈ (db.upsertJob new f).jobs := by
    intro j hj hof
    unfold Db.upsertJob Table.upsert
    split
    · exact Table.mem_update.mpr (.inl ⟨hj, hof⟩)
    · exact List.mem_append_left _ hj
  refine h.of_jobs rfl rfl hkeys (fun j hj => ?_) ?_ fun g hg k hk => ?_
  · by_cases hof : Db.jobOf new.network new.payloadHash j = true
    · refine ⟨f j, ?_, hrow j hj hof⟩
      unfold Db.upsertJob Table.upsert
      rw [if_pos (List.any_eq_true.mpr ⟨j, hj, hof⟩)]
      exact Table.mem_update.mpr (.inr ⟨j, hj, hof, rfl⟩)
    · exact ⟨j, hothers j hj (Bool.eq_false_iff.mpr hof), rfl, rfl, rfl, fun _ ht => ht⟩
  · exact Table.forall_mem_upsert h.jobs hsound fun _ => hnew
  · -- A fill under the hole's hash is backed once the hole is closed.
    have hhole : g.network = new.network → k = new.payloadHash → hole' = some (g.network, k) ∨
        ∃ j ∈ (db.upsertJob new f).jobs, Db.jobOf g.network k j = true ∧ j.status ≠ .FAILED := by
      intro hnetwork hhash
      rw [hnetwork, hhash]
      exact hclosed.imp_right hpresent
    cases h.backed g hg k hk with
    | inl hin =>
      obtain ⟨hnetwork, hhash⟩ := Prod.mk.inj (Option.some.inj hin)
      exact hhole hnetwork.symm hhash.symm
    | inr hjob =>
      obtain ⟨j, hj, hof, hstatus⟩ := hjob
      cases hsame : Db.jobOf new.network new.payloadHash j with
      | false => exact .inr ⟨j, hothers j hj hsame, hof, hstatus⟩
      | true =>
        simp only [Db.jobOf, Bool.and_eq_true, beq_iff_eq] at hof hsame
        exact hhole (hof.1.symm.trans hsame.1) (hof.2.symm.trans hsame.2)

end Kryon.Venue

import Kryon.Venue.Jobs

/-! # Who may broadcast a job

A claim that returned the row gives its party the right to broadcast the job, until the
party stores the transaction's hash or marks the job failed. The sign route claims
queued jobs only; the reconciler also claims a submitted one without a hash, which is
what a claimed job looks like. -/
namespace Kryon.Venue

open Program Pool

/-- The claim UPDATE of the job, in the sign route or in the reconciler. -/
def Op.claims (id : Nat) : Op → Bool
  | .claimQueued i => i == id
  | .claimForResubmit i => i == id
  | _ => false

/-- The statement returned the row. -/
def returnsRow (op : Op) (r : Reply) (w : World) : Bool :=
  match op, r with
  | _, .fails _ | _, .lost _ => false
  | .claimQueued id, _ => w.db.jobs.any (Db.claimable id)
  | .claimForResubmit id, _ => w.db.jobs.any (Db.reclaimable id)
  | _, _ => false

/-- The statement that ends the right: the hash is stored or the job marked failed. -/
def Op.releases (id : Nat) : Op → Bool
  | .storeSubmittedHash i _ => i == id
  | .markFailed i _ => i == id
  | _ => false

/-- The party with this record, the newest event first, holds the right to broadcast. -/
def holds (id : Nat) : List VenueEvent → Bool
  | [] => false
  | e :: older =>
    if e.op.claims id && returnsRow e.op e.reply e.before then true
    else if e.op.releases id && tookEffect e.reply then false
    else holds id older

/-- At most one party at a time holds the right to broadcast a job. -/
def Exclusive (pool : VenuePool) : Prop :=
  ∀ (i j : Nat) (p q : Party Op Op.Ans String Reply World) (id : Nat),
    pool.parties[i]? = some p → pool.parties[j]? = some q →
      holds id p.past = true → holds id q.past = true → i = j

/-- The job is somebody's already: submitted, and its hash not stored. -/
def takenWithoutHash (id : Nat) (j : JobRow) : Bool :=
  j.id == id && j.status == .SUBMITTED && j.submittedHash == none

/-- The reconciler's claim meets a job that is submitted without a hash. -/
def takesOver (w : World) : Op → Bool
  | .claimForResubmit id => w.db.jobs.any (takenWithoutHash id)
  | _ => false

def NoTakeover (op : Op) (_ : Reply) (s : World × List VenueEvent) : Prop := takesOver s.1 op = false

instance (op : Op) (r : Reply) (s : World × List VenueEvent) : Decidable (NoTakeover op r s) :=
  inferInstanceAs (Decidable (_ = false))

/-! ## Claims -/

/-- A job that somebody holds exists and is not queued. -/
def Held (w : World) (party : Party Op Op.Ans String Reply World) : Prop := ∀ id,
  holds id party.past = true →
    id < w.db.nextJobId ∧ ∀ j ∈ w.db.jobs, j.id = id → j.status ≠ .QUEUED

theorem Held.mono {w w' : World} {party : Party Op Op.Ans String Reply World} (hw : NeverRequeued w w')
    (h : Held w party) : Held w' party := by
  intro id hid
  obtain ⟨hlt, hrows⟩ := h id hid
  refine ⟨hlt.trans_le hw.next, fun j' hj' hj'id hqueued => ?_⟩
  cases hw.rows j' hj' with
  | inl hnew => omega
  | inr hold =>
    obtain ⟨j, hj, hjid, hstatus⟩ := hold
    exact hrows j hj (hjid ▸ hj'id) (hstatus hqueued)

/-- A claim meets a row that is queued or submitted without a hash. -/
theorem exists_of_claim {op : Op} {r : Reply} {w : World} {id : Nat} (hop : op.claims id = true)
    (hrow : returnsRow op r w = true) : ∃ j ∈ w.db.jobs, j.id = id ∧
      (j.status = .QUEUED ∨ op = .claimForResubmit id ∧ takenWithoutHash id j = true) := by
  cases op with
  | claimQueued i =>
    obtain rfl : i = id := by simpa [Op.claims] using hop
    cases r with
    | fails | lost => cases hrow
    | _ =>
      obtain ⟨j, hj, hp⟩ := List.any_eq_true.mp hrow
      simp only [Db.claimable, Bool.and_eq_true, beq_iff_eq] at hp
      exact ⟨j, hj, hp.1, .inl hp.2⟩
  | claimForResubmit i =>
    obtain rfl : i = id := by simpa [Op.claims] using hop
    cases r with
    | fails | lost => cases hrow
    | _ =>
      obtain ⟨j, hj, hp⟩ := List.any_eq_true.mp hrow
      simp only [Db.reclaimable, Bool.and_eq_true, Bool.or_eq_true, beq_iff_eq] at hp
      refine ⟨j, hj, hp.1.1, ?_⟩
      cases hp.2 with
      | inl hqueued => exact .inl hqueued
      | inr hnohash =>
        cases hp.1.2 with
        | inl hqueued => exact .inl hqueued
        | inr hsubmitted => exact .inr ⟨rfl, by simp [takenWithoutHash, hp.1.1, hsubmitted, hnohash]⟩
  | _ => cases hop

/-- After a claim that returned the row, the job is not queued. -/
theorem notQueued_of_claim {op : Op} {r : Reply} {w : World} {id : Nat} (hop : op.claims id = true)
    (hrow : returnsRow op r w = true) :
    ∀ j ∈ (exec op r w).2.db.jobs, j.id = id → j.status ≠ .QUEUED := by
  intro j' hj' hid hqueued
  have hupdated : ∃ p, j' ∈ Table.update w.db.jobs p
      (fun j => { j with status := .SUBMITTED, updatedAt := w.now }) ∧
        (j'.status = .QUEUED → p j' = true) := by
    cases op with
    | claimQueued i =>
      obtain rfl : i = id := by simpa [Op.claims] using hop
      refine ⟨Db.claimable i, ?_, fun hq => by simp [Db.claimable, hid, hq]⟩
      cases r with
      | fails | lost => cases hrow
      | _ => exact hj'
    | claimForResubmit i =>
      obtain rfl : i = id := by simpa [Op.claims] using hop
      refine ⟨Db.reclaimable i, ?_, fun hq => by simp [Db.reclaimable, hid, hq]⟩
      cases r with
      | fails | lost => cases hrow
      | _ => exact hj'
    | _ => cases hop
  obtain ⟨p, hmem, hp⟩ := hupdated
  cases Table.mem_update.mp hmem with
  | inl hsame =>
    rw [hp hqueued] at hsame
    cases hsame.2
  | inr hchanged =>
    obtain ⟨j, _, _, rfl⟩ := hchanged
    cases hqueued

/-- Only a claim makes a party a holder. -/
theorem holds_cons {id : Nat} {e : VenueEvent} {past : List VenueEvent}
    (h : holds id (e :: past) = true) :
    (e.op.claims id = true ∧ returnsRow e.op e.reply e.before = true) ∨ holds id past = true := by
  unfold holds at h
  split at h
  · rename_i hclaim
    exact .inl (Bool.and_eq_true_iff.mp hclaim)
  · split at h
    · cases h
    · exact .inr h

theorem Held.act {op : Op} {next : Except String op.Ans → Async Unit} {past : List VenueEvent}
    {r : Reply} {w : World} (hfresh : FreshIds w.db) (h : Held w ⟨.call op next, past⟩) :
    Held (exec op r w).2 ⟨next (exec op r w).1, ⟨op, r, w⟩ :: past⟩ := by
  have hmove := exec_neverRequeued op r w
  intro id hid
  cases holds_cons hid with
  | inl hclaim =>
    obtain ⟨j, hj, hjid, _⟩ := exists_of_claim hclaim.1 hclaim.2
    exact ⟨(hjid ▸ hfresh j hj).trans_le hmove.next, notQueued_of_claim hclaim.1 hclaim.2⟩
  | inr hold => exact h.mono hmove id hold

/-- A claim of a job that somebody holds is a takeover. -/
theorem not_claim_of_held {op : Op} {r : Reply} {w : World} {id : Nat} {past : List VenueEvent}
    {q : Party Op Op.Ans String Reply World} (hC : NoTakeover op r (w, past)) (hq : Held w q)
    (hid : holds id q.past = true) :
    ¬ (op.claims id = true ∧ returnsRow op r w = true) := by
  intro hclaim
  obtain ⟨j, hj, hjid, hcase⟩ := exists_of_claim hclaim.1 hclaim.2
  cases hcase with
  | inl hqueued => exact (hq id hid).2 j hj hjid hqueued
  | inr htaken =>
    obtain ⟨rfl, hrow⟩ := htaken
    exact List.any_eq_false.mp hC j hj hrow

/-! ## Runs -/

/-- What every run keeps while no claim takes a job over. -/
structure BroadcastInv (pool : VenuePool) : Prop where
  fresh : FreshIds pool.shared.db
  held : Every Held pool
  exclusive : Exclusive pool

/-- A holder after a move held before it or has just claimed. -/
theorem holder_step {cfg : Config} {pool pool' : VenuePool} {m : VenueMove} {i id : Nat}
    {p : Party Op Op.Ans String Reply World} (hs : VenueStep cfg pool m pool')
    (hp : pool'.parties[i]? = some p) (hid : holds id p.past = true) :
    (∃ q, pool.parties[i]? = some q ∧ holds id q.past = true) ∨
      ∃ op next past r, m = .act i r ∧ pool.parties[i]? = some ⟨.call op next, past⟩ ∧
        op.claims id = true ∧ returnsRow op r pool.shared = true := by
  rcases past_step hs hp with hnew | hsame | hacted
  · rw [hnew] at hid
    cases hid
  · obtain ⟨q, hq, hpast⟩ := hsame
    exact .inl ⟨q, hq, hpast ▸ hid⟩
  · obtain ⟨op, next, past, r, hm, hparty, hpast⟩ := hacted
    rw [hpast] at hid
    cases holds_cons hid with
    | inl hclaim => exact .inr ⟨op, next, past, r, hm, hparty, hclaim⟩
    | inr hold => exact .inl ⟨_, hparty, hold⟩

theorem exclusive_step {cfg : Config} {pool pool' : VenuePool} {m : VenueMove}
    (hheld : Every Held pool) (h : Exclusive pool) (hm : Meets NoTakeover pool m)
    (hs : VenueStep cfg pool m pool') : Exclusive pool' := by
  -- A claim that returns the row is the only way to become a holder, and no job is
  -- claimed while another party holds it.
  have hclash : ∀ {i j : Nat} {id : Nat} {op : Op} {next : Except String op.Ans → Async Unit}
      {past : List VenueEvent} {r : Reply} {q : Party Op Op.Ans String Reply World},
      m = .act i r → pool.parties[i]? = some ⟨.call op next, past⟩ → op.claims id = true →
        returnsRow op r pool.shared = true → pool.parties[j]? = some q →
          holds id q.past = true → False := by
    intro i j id op next past r q hact hparty hop hrow hq hid
    subst hact
    exact not_claim_of_held (hm.of_party hparty) (hheld q (List.mem_of_getElem? hq)) hid ⟨hop, hrow⟩
  intro i j p q id hp hq hip hiq
  rcases holder_step hs hp hip with hold | hclaim
  · obtain ⟨p₀, hp₀, hip₀⟩ := hold
    rcases holder_step hs hq hiq with hold' | hclaim'
    · obtain ⟨q₀, hq₀, hiq₀⟩ := hold'
      exact h i j p₀ q₀ id hp₀ hq₀ hip₀ hiq₀
    · obtain ⟨op, next, past, r, hact, hparty, hop, hrow⟩ := hclaim'
      exact (hclash hact hparty hop hrow hp₀ hip₀).elim
  · obtain ⟨op, next, past, r, hact, hparty, hop, hrow⟩ := hclaim
    rcases holder_step hs hq hiq with hold' | hclaim'
    · obtain ⟨q₀, hq₀, hiq₀⟩ := hold'
      exact (hclash hact hparty hop hrow hq₀ hiq₀).elim
    · obtain ⟨_, _, _, _, hact', _⟩ := hclaim'
      rw [hact] at hact'
      cases hact'
      rfl

theorem broadcastInv_step {cfg : Config} {pool pool' : VenuePool} {m : VenueMove}
    (h : BroadcastInv pool) (hm : Meets NoTakeover pool m) (hs : VenueStep cfg pool m pool') :
    BroadcastInv pool' := by
  refine ⟨?_, ?_, exclusive_step h.held h.exclusive hm hs⟩
  · exact (shared_step NeverRequeued.refl exec_neverRequeued happen_neverRequeued hs).fresh h.fresh
  · refine every_step (I := fun w => FreshIds w.db) (G := NeverRequeued) (C := NoTakeover)
      (fun op r w _ _ => exec_neverRequeued op r w) happen_neverRequeued ?_ ?_ ?_ ?_ hs hm h.fresh h.held
    · intro op next past r w hfresh _ hheld
      exact hheld.act hfresh
    · intro w w' party hw hheld
      exact hheld.mono hw
    · intro k w id hid
      cases hid
    · intro w party hheld
      exact hheld

/-- While no reconciler's claim meets a job that is submitted without a hash, at most one
party at a time holds the right to broadcast a job, through any interleaving of the
venue's programs, their crashes and what happens around them. -/
theorem exclusive_broadcast (cfg : Config) (w : World) (run : List (VenueMove × VenuePool))
    (hfresh : FreshIds w.db) (hr : Runs.IsRun (VenueStep cfg) (idlePool w) run)
    (hc : Runs.AllSteps (Meets NoTakeover) (idlePool w) run) :
    Runs.AllStates Exclusive (idlePool w) run := by
  have hinit : BroadcastInv (idlePool w) := by
    refine ⟨hfresh, ?_, ?_⟩
    · intro party hparty
      cases hparty
    · intro i j p q id hp
      cases hp
  exact (Runs.invariant (I := BroadcastInv) (fun _ _ _ h hm hs => broadcastInv_step h hm hs)
    hinit hr hc).mono fun _ h => h.exclusive

/-! ## Sample runs -/

/-- Two parties hold the job at once. -/
theorem not_exclusive_of_holders {pool : VenuePool} {id : Nat}
    (h : (pool.parties.map fun p => holds id p.past) = [true, true]) : ¬ Exclusive pool := by
  obtain ⟨p, rest, hparties, hp, hrest⟩ := List.map_eq_cons_iff.mp h
  obtain ⟨q, _, rfl, hq, _⟩ := List.map_eq_cons_iff.mp hrest
  intro hexclusive
  have hsame := hexclusive 0 1 p q id (by rw [hparties]; rfl) (by rw [hparties]; rfl) hp hq
  cases hsame

namespace Sample

/-- A queued job that both parties have signed. -/
def signedJob : JobRow where
  id := 1
  network := "testnet"
  payloadHash := "dbfill1"
  unsignedXdr := some
    { makerAddress := some "GMAKER", takerAddress := some "GTAKER", assembledTxXdr := some "AAAA"
      makerSignedEntry := some "M", takerSignedEntry := some "T", fillPrice := some 2
      fillSize := some 10, pendingTxHash := some "dbfill1", makerNonce := some 1, takerNonce := some 2 }
  status := .QUEUED
  submittedHash := none
  lastError := none
  attempts := 0
  createdAt := 0
  updatedAt := 0

def signedWorld : World := ⟨⟨[], [], [], [signedJob], 2⟩, [], 60000⟩

/-- The taker posts again while a reconciler works through the jobs it has read. -/
def takeover : List VenueMove :=
  [.start .reconcilerTick, .start (.sign ⟨1, false, "GTAKER", "T", true⟩),
    -- the reconciler reads its two lists
    .act 0 .ok, .act 0 .ok,
    -- the route reads, merges and claims
    .act 1 .ok, .act 1 .ok, .act 1 .ok,
    -- the reconciler claims
    .act 0 .ok]

/-- The same with the reconciler first: the route finds the job taken. -/
def inTurn : List VenueMove :=
  [.start .reconcilerTick, .start (.sign ⟨1, false, "GTAKER", "T", true⟩),
    .act 0 .ok, .act 0 .ok, .act 1 .ok, .act 1 .ok, .act 0 .ok, .act 1 .ok]

end Sample

/-- The reconciler's claim returns a row that the sign route has claimed and not yet
submitted. -/
theorem claimed_twice : FreshIds Sample.signedWorld.db ∧
    ∃ run, Runs.IsRun (VenueStep Sample.venue) (idlePool Sample.signedWorld) run ∧
      ¬ Exclusive (Runs.final (idlePool Sample.signedWorld) run) := by
  obtain ⟨run, hrun, hholders⟩ := exists_run_of_play Sample.venue Sample.signedWorld Sample.takeover
    (fun run => (Runs.final (idlePool Sample.signedWorld) run).parties.map fun p => holds 1 p.past)
    (show _ = some [true, true] by decide +kernel)
  exact ⟨by decide, run, hrun, not_exclusive_of_holders hholders⟩

theorem exclusive_broadcast_in_turn : ∃ run : List (VenueMove × VenuePool),
    Runs.AllStates Exclusive (idlePool Sample.signedWorld) run ∧
      (Runs.final (idlePool Sample.signedWorld) run).parties.map (fun p => holds 1 p.past) =
        [true, false] := by
  obtain ⟨run, hrun, hboth⟩ := exists_run_of_play Sample.venue Sample.signedWorld Sample.inTurn
    (fun run => (decide (Runs.AllSteps (Meets NoTakeover) (idlePool Sample.signedWorld) run),
      (Runs.final (idlePool Sample.signedWorld) run).parties.map fun p => holds 1 p.past))
    (show _ = some (true, [true, false]) by decide +kernel)
  obtain ⟨hmeets, hholders⟩ := Prod.mk.inj hboth
  exact ⟨run, exclusive_broadcast Sample.venue Sample.signedWorld run (by decide) hrun
    (of_decide_eq_true hmeets), hholders⟩

end Kryon.Venue

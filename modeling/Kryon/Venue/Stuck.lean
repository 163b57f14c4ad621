import Kryon.Venue.Broadcast

/-! # Jobs that no tick moves

`reconcileSubmitted` passes over a job without a hash, and the claim of `resubmitJob`
refuses a submitted job that has one. Between them, a submitted job whose transaction the
network does not know stays as it is. -/
namespace Kryon.Venue

open Program Pool

/-- Submitted, due for a check, signed by both parties, and its transaction is not on the
network: reported as not found, or never sent as far as the job tells. -/
structure StuckJob (w : World) (j : JobRow) : Prop where
  row : j ∈ w.db.jobs
  submitted : j.status = .SUBMITTED
  due : j.updatedAt + 30000 < w.now
  signed : Db.bothSigned j.unsignedXdr = true
  notOnNetwork : ∀ hash, j.submittedHash = some hash → w.outcome hash = some .pending

/-- The fills still under the job's hash. -/
def carries (j : JobRow) (f : FillRow) : Bool :=
  f.network == j.network && f.txHash == .pending j.payloadHash

def claimed (id : Nat) (e : VenueEvent) : Bool := e.op.claims id && returnsRow e.op e.reply e.before

/-- The record, newest event first, has a transaction sent after a claim of the job. -/
def Rebroadcast (id : Nat) (past : List VenueEvent) : Prop := ∃ newer e older,
  past = newer ++ e :: older ∧ (∃ body maxTime, e.op = .sendTransaction body maxTime) ∧
    ∃ c ∈ older, claimed id c = true

/-- The job is broadcast again, or at its end with its fill rolled back. -/
def Recovered (j : JobRow) (w' : World) (past : List VenueEvent) : Prop :=
  Rebroadcast j.id past ∨ ∃ j' ∈ w'.db.jobs, j'.id = j.id ∧
    (j'.status = .CONFIRMED ∨ j'.status = .FAILED) ∧ w'.db.fills.filter (carries j) = []

/-- One tick of the reconciler, alone, with all that it did. -/
def TickEnds (cfg : Config) (w : World) (r : Except String Unit) (w' : World)
    (past : List VenueEvent) : Prop :=
  Ends (recorded exec) (fun _ _ _ => True) (reconcilerTick cfg) (w, []) r (w', past)

/-! ## What leaves the job alone -/

/-- The job, its fills and its transaction are as they were, and it was not claimed. -/
structure Untouched (j : JobRow) (fills : List FillRow) (s : World × List VenueEvent) : Prop where
  keys : JobKeys s.1.db
  row : j ∈ s.1.db.jobs
  fills : s.1.db.fills.filter (carries j) = fills
  notOnNetwork : ∀ hash, j.submittedHash = some hash → s.1.outcome hash = some .pending
  unclaimed : ∀ e ∈ s.2, claimed j.id e = false

/-- The operation writes neither the job's row nor a fill of its hash. -/
def LeavesJob (j : JobRow) (op : Op) : Prop := op.claims j.id = false ∧ ∀ r w, j ∈ w.db.jobs →
  j ∈ (exec op r w).2.db.jobs ∧
    (exec op r w).2.db.fills.filter (carries j) = w.db.fills.filter (carries j)

variable {cfg : Config} {w : World} {j j' : JobRow} {fills : List FillRow}

theorem Untouched.step {s : World × List VenueEvent} (h : Untouched j fills s) {op : Op} {r : Reply}
    (hrow : j ∈ (exec op r s.1).2.db.jobs)
    (hfills : (exec op r s.1).2.db.fills.filter (carries j) = s.1.db.fills.filter (carries j))
    (hclaim : claimed j.id ⟨op, r, s.1⟩ = false) : Untouched j fills (recorded exec op r s).2 := by
  refine ⟨exec_jobKeys op r s.1 h.keys, hrow, hfills.trans h.fills, ?_, ?_⟩
  · intro hash hhash
    exact exec_outcome (h.notOnNetwork hash hhash)
  · intro e he
    cases List.mem_cons.mp he with
    | inl hnew =>
      rw [hnew]
      exact hclaim
    | inr hold => exact h.unclaimed e hold

theorem LeavesJob.untouched {op : Op} (hop : LeavesJob j op) {s : World × List VenueEvent}
    (h : Untouched j fills s) (r : Reply) : Untouched j fills (recorded exec op r s).2 := by
  obtain ⟨hrow, hfills⟩ := hop.2 r s.1 h.row
  exact h.step hrow hfills (by simp [claimed, hop.1])

/-- A program of such operations keeps the job as it is. -/
theorem untouched_of_issues {α : Type} {p : Async α} {s : World × List VenueEvent}
    (hp : Issues (fun _ _ => True) (LeavesJob j) p) (h : Untouched j fills s) :
    Wp (recorded exec) Eq (fun _ _ _ => True) (fun _ _ => True) p (fun _ s => Untouched j fills s) s :=
  hp.wp (fun _ _ hst hs => hst ▸ hs) (fun _ _ _ _ => trivial)
    (fun _ r _ hs hop _ => ⟨trivial, hop.untouched hs r⟩) h

/-! ## Another job's turn -/

/-- What `LeavesJob` asks of a world before and after. -/
def SameJob (j : JobRow) (w w' : World) : Prop :=
  j ∈ w'.db.jobs ∧ w'.db.fills.filter (carries j) = w.db.fills.filter (carries j)

theorem sameJob_of_db {w' : World} (hj : j ∈ w.db.jobs) (h : w'.db = w.db) : SameJob j w w' := by
  unfold SameJob
  rw [h]
  exact ⟨hj, rfl⟩

theorem sameJob_update {p : JobRow → Bool} {f : JobRow → JobRow} (hj : j ∈ w.db.jobs)
    (hp : p j = false) : SameJob j w { w with db := w.db.updateJobs p f } :=
  ⟨Table.mem_update.mpr (.inl ⟨hj, hp⟩), rfl⟩

/-- The other job has another id, and its payload, if any, another hash. -/
structure Elsewhere (j j' : JobRow) : Prop where
  id : j'.id ≠ j.id
  hash : ∀ payload hash, j'.unsignedXdr = some payload → payload.pendingTxHash = some hash →
    j'.network = j.network → hash ≠ j.payloadHash

/-- The payload of the other job, empty when there is none. -/
theorem Elsewhere.getD (h : Elsewhere j j') {hash : String}
    (hhash : (j'.unsignedXdr.getD {}).pendingTxHash = some hash) (hnetwork : j'.network = j.network) :
    hash ≠ j.payloadHash := by
  cases hpayload : j'.unsignedXdr with
  | none =>
    rw [hpayload] at hhash
    cases hhash
  | some payload =>
    rw [hpayload] at hhash
    exact h.hash payload hash hpayload hhash hnetwork

section Elsewhere

/-- The operation does not write the database. -/
theorem leavesJob_of_db {op : Op} (hclaim : op.claims j.id = false)
    (h : ∀ r w, (exec op r w).2.db = w.db) : LeavesJob j op :=
  ⟨hclaim, fun r w hj => sameJob_of_db hj (h r w)⟩

/-- A statement on the row of another id. -/
theorem leavesJob_of_update {op : Op} {p : JobRow → Bool} {f : World → JobRow → JobRow}
    (hclaim : op.claims j.id = false) (hp : p j = false)
    (h : ∀ (P : World → Prop) r w, P w → P { w with db := w.db.updateJobs p (f w) } → P (exec op r w).2) :
    LeavesJob j op :=
  ⟨hclaim, fun r w hj => h (SameJob j w) r w ⟨hj, rfl⟩ (sameJob_update hj hp)⟩

theorem leavesJob_getTransaction {hash : Nat} : LeavesJob j (.getTransaction hash) :=
  leavesJob_of_db rfl fun r w => congrArg World.db (rpc_world r w _)

variable (h : Elsewhere j j')
include h

theorem leavesJob_deleteFill {hash : String} (hhash : (j'.unsignedXdr.getD {}).pendingTxHash = some hash) :
    LeavesJob j (.deleteFill j'.network hash) := by
  refine ⟨rfl, fun r w hj => sql_world (P := SameJob j w) ⟨hj, rfl⟩ ⟨hj, Table.filter_delete ?_⟩⟩
  intro f hf
  simp only [Bool.and_eq_true, beq_iff_eq] at hf
  by_cases hnetwork : j'.network = j.network
  · simp [carries, hf.2, h.getD hhash hnetwork]
  · simp [carries, hf.1, hnetwork]

theorem leavesJob_settleFillRow {hash maker taker : String} {nonces : Option (Option Int × Option Int)}
    {txHash ledger : Nat} (hhash : (j'.unsignedXdr.getD {}).pendingTxHash = some hash) :
    LeavesJob j (.settleFillRow j'.network hash maker taker nonces txHash ledger) := by
  refine ⟨rfl, fun r w hj => sql_world (P := SameJob j w) ⟨hj, rfl⟩
    ⟨hj, Table.filter_update ?_ fun f _ => by simp [carries]⟩⟩
  intro f hf
  simp only [Db.settlesRow, Bool.and_eq_true, beq_iff_eq] at hf
  by_cases hnetwork : j'.network = j.network
  · simp [carries, hf.1.1.1.2, h.getD hhash hnetwork]
  · simp [carries, hf.1.1.1.1, hnetwork]

theorem beq_id_eq_false : (j.id == j'.id) = false := by simpa using Ne.symm h.id

/-- What the reconciler does with another job. -/
theorem leavesJob_of_ofJob {op : Op} (hop : op.ofJob j') : LeavesJob j op := by
  have hid := beq_id_eq_false h
  cases op with
  | deleteFill n hash =>
    obtain ⟨rfl, hhash⟩ := hop
    exact leavesJob_deleteFill h hhash
  | settleFillRow n hash =>
    obtain ⟨rfl, hhash⟩ := hop
    exact leavesJob_settleFillRow h hhash
  | returnFilledOf => exact ⟨rfl, fun r w hj => sql_world (P := SameJob j w) ⟨hj, rfl⟩ ⟨hj, rfl⟩⟩
  | markFailed i | storeSubmittedHash i | confirm i =>
    obtain rfl := hop
    exact leavesJob_of_update rfl hid fun P _ _ hw hf => sql_world (P := P) hw hf
  | confirmSubmitted i =>
    obtain rfl := hop
    exact leavesJob_of_update rfl (p := fun row => row.id == j'.id && row.status == .SUBMITTED)
      (by simp [hid]) fun P _ _ hw hf => sql_world (P := P) hw hf
  | failFrom i status =>
    obtain rfl := hop
    exact leavesJob_of_update rfl (p := fun row => row.id == j'.id && row.status == status)
      (by simp [hid]) fun P _ _ hw hf => sql_world (P := P) hw hf
  | claimForResubmit i =>
    obtain rfl := hop
    exact leavesJob_of_update (by simpa [Op.claims] using h.id) (p := Db.reclaimable j'.id)
      (by simp [Db.reclaimable, hid]) fun P _ _ hw hf => sql_world (P := P) hw hf
  | getTransaction => exact leavesJob_getTransaction
  | getAccount => exact leavesJob_of_db rfl fun r w => congrArg World.db (rpc_world r w ())
  | sendTransaction => exact leavesJob_of_db rfl fun r w => send_db r w _ _
  | sleep ms => exact leavesJob_of_db rfl fun r w => slept_db w ms r
  | dateNow => exact leavesJob_of_db rfl fun _ _ => rfl
  | _ => cases hop

end Elsewhere

/-! ## The job's own turn -/

/-- The claim of a resubmission refuses a submitted job that has a hash. -/
theorem untouched_claimForResubmit {s : World × List VenueEvent} (h : Untouched j fills s)
    (hsubmitted : j.status = .SUBMITTED) {hash : Nat} (hhash : j.submittedHash = some hash) (r : Reply) :
    Untouched j fills (recorded exec (.claimForResubmit j.id) r s).2 ∧
      (recorded exec (.claimForResubmit j.id) r s).1 ≠ .ok true := by
  have hrefused : ∀ row ∈ s.1.db.jobs, Db.reclaimable j.id row = false := by
    intro row hrow
    by_cases hid : row.id = j.id
    · obtain rfl := h.keys.eq_of_id hrow h.row hid
      simp [Db.reclaimable, hsubmitted, hhash]
    · simp [Db.reclaimable, hid]
  have hany : s.1.db.jobs.any (Db.reclaimable j.id) = false := List.any_eq_false.mpr fun row hrow => by
    simp [hrefused row hrow]
  refine ⟨h.step ?_ ?_ ?_, ?_⟩
  · exact sql_world (P := fun w => j ∈ w.db.jobs) h.row
      (Table.mem_update.mpr (.inl ⟨h.row, hrefused j h.row⟩))
  · exact sql_world (P := fun w => w.db.fills.filter (carries j) = s.1.db.fills.filter (carries j)) rfl rfl
  · cases r <;> simp [claimed, returnsRow, hany]
  · cases r <;> simp [recorded, exec, sql, Db.claim, hany]

/-- Run alone, whatever the replies. -/
abbrev Alone {α : Type} (p : Async α) (Q : Except String α → World × List VenueEvent → Prop)
    (s : World × List VenueEvent) : Prop :=
  Wp (recorded exec) Eq (fun _ _ _ => True) (fun _ _ => True) p Q s

theorem resubmitJob_own {s : World × List VenueEvent} (h : Untouched j fills s)
    (hsubmitted : j.status = .SUBMITTED) {hash : Nat} (hhash : j.submittedHash = some hash) :
    Alone (resubmitJob cfg j) (fun _ s => Untouched j fills s) s := by
  unfold resubmitJob
  split
  · exact h
  · dsimp only
    split
    · exact h
    refine Wp.perform fun t ht => ⟨trivial, fun r _ => ?_⟩
    subst ht
    obtain ⟨hsame, hrefused⟩ := untouched_claimForResubmit h hsubmitted hhash r
    cases hanswer : (recorded exec (.claimForResubmit j.id) r s).1 with
    | error message => exact hsame
    | ok claimed =>
      cases claimed with
      | true => exact (hrefused hanswer).elim
      | false => exact hsame

/-- The poll reports the transaction as not found, or throws. -/
theorem pollSubmitted_own {s : World × List VenueEvent} (h : Untouched j fills s) {hash : Nat}
    (hhash : j.submittedHash = some hash) :
    Alone (pollSubmitted hash) (fun poll s => Untouched j fills s ∧
      (poll = .ok none ∨ poll = .ok (some .NOT_FOUND))) s := by
  refine Wp.tryCatch (Wp.perform fun t ht => ⟨trivial, fun r _ => ?_⟩)
  subst ht
  have hsame : Untouched j fills (recorded exec (.getTransaction hash) r s).2 :=
    leavesJob_getTransaction.untouched h r
  obtain ⟨tx, htx, hpending⟩ := Option.map_eq_some_iff.mp (h.notOnNetwork hash hhash)
  have hreport : s.1.report hash r = .NOT_FOUND := by
    unfold World.report
    rw [htx]
    cases r <;> simp [hpending]
  cases hanswer : (recorded exec (.getTransaction hash) r s).1 with
  | error message => exact ⟨hsame, .inl rfl⟩
  | ok poll =>
    have hpoll : poll = .NOT_FOUND := by
      cases r with
      | fails | lost => cases hanswer
      | _ => exact (Except.ok.inj hanswer).symm.trans hreport
    rw [hpoll]
    exact ⟨hsame, .inr rfl⟩

theorem reconcileSubmitted_own {s : World × List VenueEvent} (h : Untouched j fills s)
    (hsubmitted : j.status = .SUBMITTED) :
    Alone (reconcileSubmitted cfg j) (fun _ s => Untouched j fills s) s := by
  unfold reconcileSubmitted
  split
  · exact h
  · rename_i hash hhash
    refine Wp.bind ((pollSubmitted_own h hhash).mono fun poll t ht => ?_)
    cases ht.2 with
    | inl hnone =>
      rw [hnone]
      exact ht.1
    | inr hnotFound =>
      rw [hnotFound]
      exact resubmitJob_own ht.1 hsubmitted hhash

/-! ## The whole tick -/

/-- A row read while the job is as it was is the job's own or elsewhere. -/
theorem Untouched.elsewhere {s : World × List VenueEvent} (h : Untouched j fills s)
    (hj' : j' ∈ s.1.db.jobs) (hne : j' ≠ j) : Elsewhere j j' := by
  have hid : j'.id ≠ j.id := fun hid => hne (h.keys.eq_of_id hj' h.row hid)
  exact ⟨hid, fun payload hash hpayload hhash hnetwork =>
    h.keys.other_hash h.row hj' hid hpayload hhash hnetwork⟩

/-- A loop over rows that were read while the job was as it still is. -/
theorem untouched_forEach {turn : JobRow → Async Unit} {rows : List JobRow}
    {s : World × List VenueEvent} (h : Untouched j fills s)
    (hread : ∀ row ∈ rows, row = j ∨ Elsewhere j row)
    (hown : j ∈ rows → ∀ s, Untouched j fills s → Alone (turn j) (fun _ s => Untouched j fills s) s)
    (hleaves : ∀ row, Elsewhere j row → Issues (fun _ _ => True) (LeavesJob j) (turn row)) :
    Alone (forEach rows turn) (fun _ s => Untouched j fills s) s := by
  refine Wp.forEach (I := Untouched j fills) (fun _ hs => hs) (fun row hrow s hs => ?_) h
  have hturn : Alone (turn row) (fun _ s => Untouched j fills s) s := by
    cases hread row hrow with
    | inl hsame =>
      subst hsame
      exact hown hrow s hs
    | inr helse => exact untouched_of_issues (hleaves row helse) hs
  refine hturn.mono fun r t ht => ?_
  cases r with
  | ok _ => exact ht
  | error message => exact ht

/-- A statement that reads rows, and what follows with them. -/
theorem untouched_read {α : Type} {op : Op} {f : op.Ans → Async α} {s : World × List VenueEvent}
    (h : Untouched j fills s) (hop : LeavesJob j op)
    (hf : ∀ r rows, (exec op r s.1).1 = .ok rows → ∀ t, Untouched j fills t →
      Alone (f rows) (fun _ s => Untouched j fills s) t) :
    Alone (await op >>= f) (fun _ s => Untouched j fills s) s := by
  refine Wp.perform fun t ht => ⟨trivial, fun r _ => ?_⟩
  subst ht
  have hsame := hop.untouched h r
  cases hanswer : (recorded exec op r s).1 with
  | error message => exact hsame
  | ok rows => exact hf r rows hanswer _ hsame

theorem reconcilerTick_untouched {s : World × List VenueEvent} (h : Untouched j fills s)
    (hsubmitted : j.status = .SUBMITTED) :
    Alone (reconcilerTick cfg) (fun _ s => Untouched j fills s) s := by
  have hleaves : ∀ {op : Op}, op.claims j.id = false → (∀ r w, (exec op r w).2 = w) → LeavesJob j op :=
    fun hclaim hw => leavesJob_of_db hclaim fun r w => congrArg World.db (hw r w)
  unfold reconcilerTick
  refine untouched_read h (hleaves rfl fun r w => sqlRows_world r w _) fun r submitted hread t ht => ?_
  have hrows : ∀ row ∈ submitted, row = j ∨ Elsewhere j row := by
    intro row hrow
    rw [sqlRows_ok hread] at hrow
    by_cases hne : row = j
    · exact .inl hne
    · exact .inr (h.elsewhere (List.mem_of_mem_filter (List.mem_of_mem_take hrow)) hne)
  refine Wp.bind ((untouched_forEach ht hrows (fun _ s hs => reconcileSubmitted_own hs hsubmitted)
    fun row helse => reconcileSubmitted_issues.mono fun _ => leavesJob_of_ofJob helse).mono fun r t ht => ?_)
  cases r with
  | error message => exact ht
  | ok _ =>
    -- A queued row is not the job, which is submitted.
    have hqueued : ∀ {s : World × List VenueEvent} {row : JobRow}, Untouched j fills s →
        row ∈ s.1.db.jobs → row.status = .QUEUED → Elsewhere j row := by
      intro s row hs hrow hstatus
      refine hs.elsewhere hrow fun hsame => ?_
      rw [hsame, hsubmitted] at hstatus
      cases hstatus
    refine untouched_read ht (hleaves rfl fun r w => sqlRows_world r w _) fun r ready hread u hu => ?_
    have hready : ∀ row ∈ ready, Elsewhere j row := by
      intro row hrow
      rw [sqlRows_ok hread] at hrow
      obtain ⟨hmem, hp⟩ := List.mem_filter.mp (List.mem_of_mem_take hrow)
      simp only [Bool.and_eq_true, beq_iff_eq] at hp
      exact hqueued ht hmem hp.1.1
    refine Wp.bind ((untouched_forEach hu (fun row hrow => .inr (hready row hrow))
      (fun hmem => absurd rfl (hready j hmem).id) fun row helse =>
        resubmitJob_issues.mono fun _ hop => leavesJob_of_ofJob helse hop.ofJob).mono fun r u hu => ?_)
    cases r with
    | error message => exact hu
    | ok _ =>
      refine untouched_read hu (hleaves rfl fun r w => sqlRows_world r w _) fun r stale hread v hv => ?_
      have hstale : ∀ row ∈ stale, Elsewhere j row := by
        intro row hrow
        rw [sqlRows_ok hread] at hrow
        obtain ⟨hmem, hp⟩ := List.mem_filter.mp hrow
        simp only [Bool.and_eq_true, beq_iff_eq] at hp
        exact hqueued hu hmem hp.1
      exact untouched_forEach hv (fun row hrow => .inr (hstale row hrow))
        (fun hmem => absurd rfl (hstale j hmem).id) fun row helse =>
          expireJob_issues.mono fun _ => leavesJob_of_ofJob helse

/-- A job that is still submitted and was not claimed has not been recovered. -/
theorem not_recovered {w' : World} {past : List VenueEvent} (hkeys : JobKeys w'.db)
    (hrow : j ∈ w'.db.jobs) (hsubmitted : j.status = .SUBMITTED)
    (hunclaimed : ∀ e ∈ past, claimed j.id e = false) : ¬ Recovered j w' past := by
  intro hrecovered
  cases hrecovered with
  | inl hsent =>
    obtain ⟨newer, e, older, hpast, _, c, hc, hclaim⟩ := hsent
    have hmem : c ∈ past := hpast ▸ List.mem_append_right _ (List.mem_cons_of_mem _ hc)
    rw [hunclaimed c hmem] at hclaim
    cases hclaim
  | inr hended =>
    obtain ⟨j', hj', hid, hstatus, _⟩ := hended
    obtain rfl := hkeys.eq_of_id hj' hrow hid
    rw [hsubmitted] at hstatus
    cases hstatus with
    | inl hconfirmed => cases hconfirmed
    | inr hfailed => cases hfailed

/-- A stuck job is neither recovered nor changed by any tick, and ticks there are. -/
theorem stuck_job_stays (cfg : Config) (w : World) (j : JobRow) (hw : Reachable cfg w)
    (hj : StuckJob w j) :
    (∀ r w' past, TickEnds cfg w r w' past → ¬ Recovered j w' past ∧ j ∈ w'.db.jobs ∧
      w'.db.fills.filter (carries j) = w.db.fills.filter (carries j)) ∧
    ∃ r w' past, TickEnds cfg w r w' past := by
  constructor
  · intro r w' past hends
    have hstart : Untouched j (w.db.fills.filter (carries j)) (w, []) :=
      ⟨hw.jobKeys, hj.row, rfl, hj.notOnNetwork, fun e he => by cases he⟩
    have hend := (reconcilerTick_untouched hstart hj.submitted).ends (fun _ => rfl) hends
    exact ⟨not_recovered hend.keys hend.row hj.submitted hend.unclaimed, hend.row, hend.fills⟩
  · have hreplies : Nonempty Reply := ⟨.ok⟩
    obtain ⟨r, s', h⟩ := exists_ends (recorded exec) (reconcilerTick cfg) (w, [])
    exact ⟨r, s'.1, s'.2, h⟩

/-! ## Two stuck jobs -/

namespace Sample

/-- The route broadcasts and stores the hash, and the network drops the transaction. -/
def dropped : World :=
  endOf venue listed (claimedByRoute ++ goes 4 4 ++ [.world (.later 100000)])

/-- The route stops between its claim and its broadcast. -/
def abandoned : World :=
  endOf venue listed (claimedByRoute ++ [.stop 4, .world (.later 31000)])

/-- The job of the sample trade. -/
def tradeJob (submittedHash : Option Nat) : JobRow where
  id := 1
  network := "testnet"
  payloadHash := "dbfill00000000000000000000000000000000000000000000000000168cc684"
  unsignedXdr := some
    { makerAddress := some "GMAKER", takerAddress := some "GTAKER", assembledTxXdr := some "AAAA"
      makerSignedEntry := some "M", takerSignedEntry := some "T"
      fillPrice := some 2000000000000000000, fillSize := some 100000000
      pendingTxHash := some "dbfill00000000000000000000000000000000000000000000000000168cc684"
      makerNonce := some 1, takerNonce := some 1 }
  status := .SUBMITTED
  submittedHash := submittedHash
  lastError := none
  attempts := 0
  createdAt := 1000
  updatedAt := 1000

end Sample

theorem stuckJob_dropped : StuckJob Sample.dropped (Sample.tradeJob (some 0)) where
  row := by decide +kernel
  submitted := rfl
  due := by decide +kernel
  signed := rfl
  notOnNetwork hash h := by
    obtain rfl := Option.some.inj h
    decide +kernel

theorem stuckJob_abandoned : StuckJob Sample.abandoned (Sample.tradeJob none) where
  row := by decide +kernel
  submitted := rfl
  due := by decide +kernel
  signed := rfl
  notOnNetwork hash h := by cases h

/-- The network has dropped the job's transaction, and a tick that nothing disturbs finds
the job, polls, is refused the claim and leaves everything as it was. -/
theorem dropped_job_stays : Reachable Sample.venue Sample.dropped ∧
    StuckJob Sample.dropped (Sample.tradeJob (some 0)) ∧
    ∃ past, TickEnds Sample.venue Sample.dropped (.ok ()) Sample.dropped past ∧
      ¬ Recovered (Sample.tradeJob (some 0)) Sample.dropped past := by
  have hreachable : Reachable Sample.venue Sample.dropped := reachable_endOf (by decide +kernel)
  have htick : (runWith (recorded exec) (reconcilerTick Sample.venue) (List.replicate 5 .ok)
      (Sample.dropped, [])).map (fun out => (out.1.toBool, out.2.1, out.2.2.all fun e => !claimed 1 e)) =
        some (true, Sample.dropped, true) := by decide +kernel
  obtain ⟨⟨r, w', past⟩, hrun, hout⟩ := Option.map_eq_some_iff.mp htick
  obtain ⟨hr, hsame⟩ := Prod.mk.inj hout
  obtain ⟨hworld, hunclaimed⟩ := Prod.mk.inj hsame
  dsimp only at hr hworld hunclaimed
  subst hworld
  cases r with
  | error message => cases hr
  | ok _ =>
    refine ⟨hreachable, stuckJob_dropped, past, ends_of_runWith _ hrun, ?_⟩
    refine not_recovered hreachable.jobKeys stuckJob_dropped.row rfl fun e he => ?_
    have hfalse : (!claimed 1 e) = true := List.all_eq_true.mp hunclaimed e he
    exact (Bool.not_eq_true' _).mp hfalse

theorem stuck_job_stays_abandoned : ∃ r w' past,
    TickEnds Sample.venue Sample.abandoned r w' past ∧
      ¬ Recovered (Sample.tradeJob none) w' past ∧ Sample.tradeJob none ∈ w'.db.jobs := by
  have hreachable : Reachable Sample.venue Sample.abandoned := reachable_endOf (by decide +kernel)
  obtain ⟨hstays, r, w', past, hends⟩ :=
    stuck_job_stays Sample.venue Sample.abandoned (Sample.tradeJob none) hreachable stuckJob_abandoned
  obtain ⟨hnot, hrow, _⟩ := hstays r w' past hends
  exact ⟨r, w', past, hends, hnot, hrow⟩

end Kryon.Venue

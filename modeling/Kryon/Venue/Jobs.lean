import Kryon.Venue.Operations

/-! # The table of jobs

What every statement of the venue keeps: a job is known by its id and by its network and
hash, its payload names the hash it is filed under, and it does not go back to the queue. -/
namespace Kryon.Venue

open Program Pool

/-! ## A job does not go back to the queue -/

/-- `nextJobId` has not been given out. -/
def FreshIds (db : Db) : Prop := ∀ j ∈ db.jobs, j.id < db.nextJobId

instance (db : Db) : Decidable (FreshIds db) :=
  inferInstanceAs (Decidable (∀ j ∈ db.jobs, j.id < db.nextJobId))

/-- Rows keep their ids, none goes back to QUEUED, and new ones take new ids. -/
structure NeverRequeued (w w' : World) : Prop where
  next : w.db.nextJobId ≤ w'.db.nextJobId
  fresh : FreshIds w.db → FreshIds w'.db
  rows : ∀ j' ∈ w'.db.jobs, j'.id = w.db.nextJobId ∨
    ∃ j ∈ w.db.jobs, j'.id = j.id ∧ (j'.status = .QUEUED → j.status = .QUEUED)

namespace NeverRequeued

variable {w w' : World}

theorem of_jobs (h : w'.db.jobs = w.db.jobs ∧ w'.db.nextJobId = w.db.nextJobId) : NeverRequeued w w' := by
  obtain ⟨hjobs, hnext⟩ := h
  refine ⟨hnext.ge, fun hfresh => ?_, fun j' hj' => ?_⟩
  · unfold FreshIds
    rw [hjobs, hnext]
    exact hfresh
  · rw [hjobs] at hj'
    exact .inr ⟨j', hj', rfl, id⟩

theorem refl (w : World) : NeverRequeued w w := of_jobs ⟨rfl, rfl⟩

theorem update {p : JobRow → Bool} {f : JobRow → JobRow} (hid : ∀ j, (f j).id = j.id)
    (hstatus : ∀ j, p j = true → (f j).status = .QUEUED → j.status = .QUEUED) :
    NeverRequeued w { w with db := w.db.updateJobs p f } := by
  refine ⟨le_refl _, fun hfresh => ?_, fun j' hj' => ?_⟩
  · refine Table.forall_mem_update hfresh fun j _ _ hj => ?_
    rw [hid]
    exact hj
  · obtain ⟨j, hj, hcase⟩ := Table.exists_of_mem_update hj'
    refine .inr ⟨j, hj, ?_⟩
    cases hcase with
    | inl hsame =>
      rw [hsame]
      exact ⟨rfl, id⟩
    | inr hchanged =>
      rw [hchanged.2]
      exact ⟨hid j, hstatus j hchanged.1⟩

theorem upsert {new : JobRow} {f : JobRow → JobRow} (hid : ∀ j, (f j).id = j.id)
    (hstatus : ∀ j, (f j).status = .QUEUED → j.status = .QUEUED) :
    NeverRequeued w { w with db := w.db.upsertJob new f } := by
  have hupdate := update (w := w) (p := Db.jobOf new.network new.payloadHash) hid fun j _ => hstatus j
  refine ⟨Nat.le_succ _, fun hfresh => ?_, fun j' hj' => ?_⟩
  · refine Table.forall_mem_upsert (fun j hj => (hfresh j hj).trans (Nat.lt_succ_self _)) ?_ ?_
    · intro j _ _ hj
      rw [hid]
      exact hj
    · intro _
      exact Nat.lt_succ_self _
  · have hcases : j' ∈ Table.upsert w.db.jobs _ { new with id := w.db.nextJobId } f := hj'
    unfold Table.upsert at hcases
    split at hcases
    · exact hupdate.rows j' hcases
    · cases List.mem_append.mp hcases with
      | inl hold => exact .inr ⟨j', hold, rfl, id⟩
      | inr hnew =>
        rw [List.mem_singleton.mp hnew]
        exact .inl rfl

end NeverRequeued

/-- No statement of the venue puts a job back in the queue. -/
theorem exec_neverRequeued (op : Op) (r : Reply) (w : World) : NeverRequeued w (exec op r w).2 := by
  cases op with
  | recordFailure | recordConfirmed =>
    exact sql_world (.refl w) (.upsert (fun _ => rfl) fun _ h => by cases h)
  | queueJob => exact sql_world (.refl w) (.upsert (fun _ => rfl) fun _ h => h)
  | mergeSignedEntry | storeSubmittedHash =>
    exact sql_world (.refl w) (.update (fun _ => rfl) fun _ _ h => h)
  | claimQueued | claimForResubmit | markFailed | confirm | confirmSubmitted | failFrom =>
    exact sql_world (.refl w) (.update (fun _ => rfl) fun _ _ h => by cases h)
  | _ => exact .of_jobs (jobs_of_not_writes rfl r w)

theorem happen_neverRequeued (e : Happening) (w w' : World) (h : happen e w = some w') :
    NeverRequeued w w' := by
  rcases happen_cases h with hlater | htaken | hprice
  · obtain ⟨ms, rfl⟩ := hlater
    exact .of_jobs ⟨rfl, rfl⟩
  · obtain ⟨_, _, _, _, _, _, _, rfl⟩ := htaken
    exact .of_jobs ⟨rfl, rfl⟩
  · obtain ⟨_, rfl⟩ := hprice
    exact .of_jobs ⟨rfl, rfl⟩

/-! ## Keys -/

/-- The payload of a job carries the job's own hash, when it carries one. -/
def NamesItself (j : JobRow) : Prop := ∀ payload h,
  j.unsignedXdr = some payload → payload.pendingTxHash = some h → h = j.payloadHash

structure JobKeys (db : Db) : Prop where
  fresh : FreshIds db
  ids : (db.jobs.map (·.id)).Nodup
  hashes : (db.jobs.map fun j => (j.network, j.payloadHash)).Nodup
  names : ∀ j ∈ db.jobs, NamesItself j

namespace JobKeys

variable {db : Db} {w : World}

theorem eq_of_id (h : JobKeys db) {j j' : JobRow} (hj : j ∈ db.jobs) (hj' : j' ∈ db.jobs)
    (hid : j.id = j'.id) : j = j' :=
  List.inj_on_of_nodup_map h.ids hj hj' hid

/-- Another job is filed under another hash, and so is its payload. -/
theorem other_hash (h : JobKeys db) {j j' : JobRow} (hj : j ∈ db.jobs) (hj' : j' ∈ db.jobs)
    (hid : j'.id ≠ j.id) {payload : JobPayload} {hash : String} (hpayload : j'.unsignedXdr = some payload)
    (hhash : payload.pendingTxHash = some hash) (hnetwork : j'.network = j.network) :
    hash ≠ j.payloadHash := by
  intro hsame
  have hnames := h.names j' hj' payload hash hpayload hhash
  have hrow : j' = j := List.inj_on_of_nodup_map h.hashes hj' hj (by rw [hnetwork, ← hnames, hsame])
  exact hid (congrArg JobRow.id hrow)

theorem of_jobs {db' : Db} (h : JobKeys db) (hsame : db'.jobs = db.jobs ∧ db'.nextJobId = db.nextJobId) :
    JobKeys db' := by
  obtain ⟨hjobs, hnext⟩ := hsame
  refine ⟨?_, ?_, ?_, ?_⟩
  · unfold FreshIds
    rw [hjobs, hnext]
    exact h.fresh
  · rw [hjobs]
    exact h.ids
  · rw [hjobs]
    exact h.hashes
  · rw [hjobs]
    exact h.names

theorem update (h : JobKeys db) {p : JobRow → Bool} {f : JobRow → JobRow}
    (hkeys : ∀ j, (f j).id = j.id ∧ (f j).network = j.network ∧ (f j).payloadHash = j.payloadHash)
    (hnames : ∀ j ∈ db.jobs, p j = true → NamesItself j → NamesItself (f j)) :
    JobKeys (db.updateJobs p f) := by
  refine ⟨?_, ?_, ?_, Table.forall_mem_update h.names hnames⟩
  · refine Table.forall_mem_update h.fresh fun j _ _ hj => ?_
    rw [(hkeys j).1]
    exact hj
  · rw [show (db.updateJobs p f).jobs.map (·.id) = db.jobs.map (·.id) from
      Table.map_update fun j => (hkeys j).1]
    exact h.ids
  · rw [show (db.updateJobs p f).jobs.map (fun j => (j.network, j.payloadHash)) =
      db.jobs.map (fun j => (j.network, j.payloadHash)) from
        Table.map_update fun j => by rw [(hkeys j).2.1, (hkeys j).2.2]]
    exact h.hashes

theorem upsert (h : JobKeys db) {new : JobRow} {f : JobRow → JobRow}
    (hkeys : ∀ j, (f j).id = j.id ∧ (f j).network = j.network ∧ (f j).payloadHash = j.payloadHash)
    (hnew : NamesItself new)
    (hnames : ∀ j ∈ db.jobs, Db.jobOf new.network new.payloadHash j = true → NamesItself j →
      NamesItself (f j)) : JobKeys (db.upsertJob new f) := by
  unfold Db.upsertJob Table.upsert
  split
  · exact ⟨fun j hj => (((h.update hkeys hnames).fresh j hj).trans (Nat.lt_succ_self _)),
      (h.update hkeys hnames).ids, (h.update hkeys hnames).hashes, (h.update hkeys hnames).names⟩
  · rename_i hany
    refine ⟨?_, ?_, ?_, ?_⟩
    · intro j hj
      cases List.mem_append.mp hj with
      | inl hold => exact (h.fresh j hold).trans (Nat.lt_succ_self _)
      | inr hlast =>
        rw [List.mem_singleton.mp hlast]
        exact Nat.lt_succ_self _
    · rw [List.map_append, List.map_singleton, ← List.concat_eq_append]
      refine h.ids.concat fun hmem => ?_
      obtain ⟨j, hj, hid⟩ := List.mem_map.mp hmem
      exact (h.fresh j hj).ne hid
    · rw [List.map_append, List.map_singleton, ← List.concat_eq_append]
      refine h.hashes.concat fun hmem => hany ?_
      obtain ⟨j, hj, hkey⟩ := List.mem_map.mp hmem
      obtain ⟨hnetwork, hhash⟩ := Prod.mk.inj hkey
      exact List.any_eq_true.mpr ⟨j, hj, by simp [Db.jobOf, hnetwork, hhash]⟩
    · intro j hj
      cases List.mem_append.mp hj with
      | inl hold => exact h.names j hold
      | inr hlast =>
        rw [List.mem_singleton.mp hlast]
        exact hnew

end JobKeys

/-- Every statement of the venue keeps the keys of the jobs. -/
theorem exec_jobKeys (op : Op) (r : Reply) (w : World) (h : JobKeys w.db) :
    JobKeys (exec op r w).2.db := by
  cases op with
  | recordFailure network fillHash reason =>
    refine sql_world (P := fun w => JobKeys w.db) h (h.upsert (fun _ => ⟨rfl, rfl, rfl⟩) ?_ ?_)
    · intro payload hash hpayload
      cases hpayload
    · intro _ _ _ hj
      exact hj
  | recordConfirmed network fillHash hash =>
    refine sql_world (P := fun w => JobKeys w.db) h (h.upsert (fun _ => ⟨rfl, rfl, rfl⟩) ?_ ?_)
    · intro payload hash hpayload hhash
      obtain rfl := Option.some.inj hpayload
      cases hhash
    · intro _ _ _ hj
      exact hj
  | queueJob network m assembledTxXdr =>
    refine sql_world (P := fun w => JobKeys w.db) h (h.upsert (fun _ => ⟨rfl, rfl, rfl⟩) ?_ ?_)
    · intro payload hash hpayload hhash
      obtain rfl := Option.some.inj hpayload
      exact (Option.some.inj hhash).symm
    · intro j _ hkey _ payload hash hpayload hhash
      obtain rfl := Option.some.inj hpayload
      simp only [Db.jobOf, Bool.and_eq_true, beq_iff_eq] at hkey
      rw [← Option.some.inj hhash]
      exact hkey.2.symm
  | mergeSignedEntry id side entry =>
    refine sql_world (P := fun w => JobKeys w.db) h (h.update (fun _ => ⟨rfl, rfl, rfl⟩) ?_)
    intro j _ _ hj payload hash hpayload hhash
    obtain ⟨payload', hpayload', rfl⟩ := Option.map_eq_some_iff.mp hpayload
    refine hj payload' hash hpayload' ?_
    cases side with
    | maker => exact hhash
    | taker => exact hhash
  | claimQueued | claimForResubmit | storeSubmittedHash | markFailed | confirm | confirmSubmitted
  | failFrom =>
    exact sql_world (P := fun w => JobKeys w.db) h
      (h.update (fun _ => ⟨rfl, rfl, rfl⟩) fun _ _ _ hj => hj)
  | _ => exact h.of_jobs (jobs_of_not_writes rfl r w)

theorem happen_jobKeys (e : Happening) (w w' : World) (h : happen e w = some w') (hw : JobKeys w.db) :
    JobKeys w'.db := by
  rcases happen_cases h with hlater | htaken | hprice
  · obtain ⟨ms, rfl⟩ := hlater
    exact hw
  · obtain ⟨_, _, _, _, _, _, _, rfl⟩ := htaken
    exact hw
  · obtain ⟨_, rfl⟩ := hprice
    exact hw.of_jobs ⟨rfl, rfl⟩

/-! ## Reachable states -/

/-- A venue with its markets and without any order, fill or job. -/
def newWorld (markets : List MarketRow) (now : Nat) : World := ⟨⟨[], [], markets, [], 1⟩, [], now⟩

/-- Some interleaving of the venue's programs leads to this state. -/
def Reachable (cfg : Config) (w : World) : Prop := ∃ markets now run,
  Runs.IsRun (VenueStep cfg) (idlePool (newWorld markets now)) run ∧
    (Runs.final (idlePool (newWorld markets now)) run).shared = w

theorem Reachable.jobKeys {cfg : Config} {w : World} (h : Reachable cfg w) : JobKeys w.db := by
  obtain ⟨markets, now, run, hr, rfl⟩ := h
  have hinit : JobKeys (idlePool (newWorld markets now)).shared.db := by
    refine ⟨?_, List.nodup_nil, List.nodup_nil, ?_⟩
    · intro j hj
      cases hj
    · intro j hj
      cases hj
  refine (Runs.invariant_of_step (I := fun pool : VenuePool => JobKeys pool.shared.db) ?_ hinit hr).at_final
  intro pool m pool' hpool hs
  exact shared_step (G := fun w w' => JobKeys w.db → JobKeys w'.db) (fun _ h => h)
    (fun op r w => exec_jobKeys op r w) (fun e w w' => happen_jobKeys e w w') hs hpool

/-- The state after the moves, or at the start when one of them is not possible. -/
def endOf (cfg : Config) (w : World) (ms : List VenueMove) : World :=
  match playVenue cfg w ms with
  | some run => (Runs.final (idlePool w) run).shared
  | none => w

theorem reachable_endOf {cfg : Config} {markets : List MarketRow} {now : Nat} {ms : List VenueMove}
    (h : (playVenue cfg (newWorld markets now) ms).isSome = true) :
    Reachable cfg (endOf cfg (newWorld markets now) ms) := by
  obtain ⟨run, hrun⟩ := Option.isSome_iff_exists.mp h
  refine ⟨markets, now, run, isRun_play hrun, ?_⟩
  simp only [endOf, hrun]

namespace Sample

/-- A deployment whose checks let everything through. -/
def venue : Config where
  network := "testnet"
  passphrase := "Test SDF Network ; September 2015"
  markets := [1]
  maxDeviationBps := 1000
  staleQueuedMinutes := 15
  routeOperatorSecret := some "S"
  reconcilerOperatorSecret := some "S"
  pubkeyHexFromAddress := id
  verifySignedMessage _ _ _ := true
  isValidEd25519PublicKey _ := true
  authEntryBelongsTo _ _ := true

def bid : RestingOrder where
  id := ""
  owner := "GMAKER"
  marketId := 1
  isLong := true
  size := 100000000
  limitPrice := 2000000000000000000
  reduceOnly := false
  nonce := 1
  expiryTs := 2000000000
  filledSize := 0
  createdAt := 0
  signature := none

def ask : RestingOrder := { bid with owner := "GTAKER", isLong := false }

/-- One market with an oracle price. -/
def listed : World := newWorld [⟨1, 0, 0, 2000000000000000000⟩] 1000

/-- `n` operations of a party, each answered normally. -/
def goes (i n : Nat) : List VenueMove := List.replicate n (.act i .ok)

/-- Two orders are placed, and a tick matches them and queues the settlement. -/
def queued : List VenueMove :=
  [.start (.placeOrder bid), .act 0 .ok, .start (.placeOrder ask), .act 1 .ok, .start .matcherTick] ++
    -- four reads, the four statements of the fill, the account
    goes 2 9 ++ [.act 2 (.simulated "AAAA" 2)] ++ goes 2 2

/-- The maker signs, then the taker; the taker's request claims the job. -/
def claimedByRoute : List VenueMove :=
  queued ++ [.start (.sign ⟨1, false, "GMAKER", "M", true⟩)] ++ goes 3 2 ++
    [.start (.sign ⟨1, false, "GTAKER", "T", true⟩)] ++ goes 4 3

end Sample

end Kryon.Venue

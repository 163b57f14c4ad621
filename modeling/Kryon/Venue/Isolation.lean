import Kryon.Venue.Operations

/-! # One match and the rows of another

What the matcher does for a match reaches the fill and the job of its own
`pseudoTxHash`: two matches leave each other's rows alone exactly when their hashes
differ. -/
namespace Kryon.Venue

open Program

/-- What makes two matches of a network different ones. -/
def MatchResult.identity (m : MatchResult) : (String × Int) × (String × Int) × Int :=
  ((m.maker.owner, m.maker.nonce), (m.taker.owner, m.taker.nonce), m.fillSize)

/-- A fill row under the unique key that the match's fill has. -/
def isFillOf (network : String) (m : MatchResult) (f : FillRow) : Bool :=
  Db.sameFill f (Db.fillRow network m)

def isJobOf (network : String) (m : MatchResult) (j : JobRow) : Bool :=
  Db.jobOf network m.pseudoTxHash j

/-- Whatever the reply, the operation neither deletes nor changes the match's rows. -/
def Spares (network : String) (m : MatchResult) (op : Op) : Prop := ∀ r w,
  (∀ f ∈ w.db.fills, isFillOf network m f = true → f ∈ (exec op r w).2.db.fills) ∧
    ∀ j ∈ w.db.jobs, isJobOf network m j = true → j ∈ (exec op r w).2.db.jobs

/-- What the matcher does for one match with its fill and its job. -/
inductive MatchTask
  | persistFill
  | executeSettlement
  | recordSettlementFailure (reason : String)
  | rollbackFill

def MatchTask.program (network : String) (m : MatchResult) : MatchTask → Async Unit
  | .persistFill => do let _ ← Venue.persistFill network m
  | .executeSettlement => do let _ ← Venue.executeSettlement network m
  | .recordSettlementFailure reason => Venue.recordSettlementFailure network m.pseudoTxHash reason
  | .rollbackFill => Venue.rollbackFill network m

/-- Every statement that the matcher runs for `m`, in whatever state it comes to run and
whatever the answers before it, spares the rows of `other`. -/
def Isolated (network : String) (m other : MatchResult) : Prop :=
  ∀ task : MatchTask, Issues (fun _ _ => True) (Spares network other) (task.program network m)

variable {network : String} {m other : MatchResult}

/-! ## Statements that spare a match -/

/-- The rows that matter are still there. -/
def Kept (network : String) (m : MatchResult) (w w' : World) : Prop :=
  (∀ f ∈ w.db.fills, isFillOf network m f = true → f ∈ w'.db.fills) ∧
    ∀ j ∈ w.db.jobs, isJobOf network m j = true → j ∈ w'.db.jobs

theorem kept_refl (w : World) : Kept network m w w := ⟨fun _ hf _ => hf, fun _ hj _ => hj⟩

theorem kept_of_tables {w w' : World} (hfills : w'.db.fills = w.db.fills)
    (hjobs : w'.db.jobs = w.db.jobs) : Kept network m w w' := by
  unfold Kept
  rw [hfills, hjobs]
  exact kept_refl w

/-- A job that an upsert does not match stays. -/
theorem mem_upsertJob {db : Db} {new : JobRow} {f : JobRow → JobRow} {j : JobRow} (hj : j ∈ db.jobs)
    (hkey : Db.jobOf new.network new.payloadHash j = false) : j ∈ (db.upsertJob new f).jobs := by
  show j ∈ Table.upsert db.jobs _ _ f
  unfold Table.upsert
  split
  · exact Table.mem_update.mpr (.inl ⟨hj, hkey⟩)
  · exact List.mem_append_left _ hj

theorem jobOf_of_ne (h : m.pseudoTxHash ≠ other.pseudoTxHash) {j : JobRow}
    (hj : isJobOf network other j = true) : Db.jobOf network m.pseudoTxHash j = false := by
  simp only [isJobOf, Db.jobOf, Bool.and_eq_true, beq_iff_eq] at hj
  simp [Db.jobOf, hj.2, Ne.symm h]

theorem spares_insertFill : Spares network other (.insertFill network m) := by
  intro r w
  refine sql_world (P := Kept network other w) (kept_refl w) ?_
  unfold Db.insertFill
  split
  · exact kept_refl w
  · exact ⟨fun f hf _ => List.mem_append_left _ hf, fun _ hj _ => hj⟩

theorem spares_deleteFill (h : m.pseudoTxHash ≠ other.pseudoTxHash) :
    Spares network other (.deleteFill network m.pseudoTxHash) := by
  intro r w
  refine sql_world (P := Kept network other w) (kept_refl w)
    ⟨fun f hf hkey => Table.mem_delete.mpr ⟨hf, ?_⟩, fun _ hj _ => hj⟩
  simp only [isFillOf, Db.sameFill, Db.fillRow, Bool.and_eq_true, beq_iff_eq] at hkey
  simp [hkey.1.1.1.1.2, Ne.symm h]

/-- The upserts of the three outcomes all go to the job of the match's own hash. -/
theorem spares_upsert (h : m.pseudoTxHash ≠ other.pseudoTxHash) {r : Reply} {w : World} {new : JobRow}
    {f : JobRow → JobRow} (hnetwork : new.network = network) (hhash : new.payloadHash = m.pseudoTxHash) :
    Kept network other w (sqlUnit r w fun db => db.upsertJob new f).2 := by
  refine sql_world (P := Kept network other w) (kept_refl w) ⟨fun _ hf _ => hf, fun j hj hkey => ?_⟩
  refine mem_upsertJob hj ?_
  rw [hnetwork, hhash]
  exact jobOf_of_ne h hkey

/-! ## The programs of a match -/

/-- An operation that leaves the database alone. -/
theorem spares_of_db {op : Op} (h : ∀ r w, (exec op r w).2.db = w.db) : Spares network other op :=
  fun r w => kept_of_tables (congrArg Db.fills (h r w)) (congrArg Db.jobs (h r w))

/-- What the matcher does for a match of another hash. -/
theorem spares_of_ofMatch (h : m.pseudoTxHash ≠ other.pseudoTxHash) {op : Op}
    (hop : op.ofMatch network m) : Spares network other op := by
  cases op with
  | insertFill n m' =>
    obtain ⟨rfl, rfl⟩ := hop
    exact spares_insertFill
  | deleteFill n hash =>
    obtain ⟨rfl, rfl⟩ := hop
    exact spares_deleteFill h
  | recordFailure n hash reason =>
    obtain ⟨rfl, rfl⟩ := hop
    exact fun _ _ => spares_upsert h rfl rfl
  | recordConfirmed n hash txHash =>
    obtain ⟨rfl, rfl⟩ := hop
    exact fun _ _ => spares_upsert h rfl rfl
  | queueJob n m' assembledTxXdr =>
    obtain ⟨rfl, rfl⟩ := hop
    exact fun _ _ => spares_upsert h rfl rfl
  | cancelPoisonOrder | addFilled | recordTrade | returnVolume | returnFilled =>
    exact fun r w => sql_world (kept_refl w) (kept_of_tables rfl rfl)
  | getAccount | getLatestLedger | getTransaction => exact spares_of_db fun r w => congrArg World.db (rpc_world r w _)
  | simulateTransaction body => exact spares_of_db fun r w => congrArg World.db (simulate_world r w)
  | sendTransaction body maxTime => exact spares_of_db fun r w => send_db r w _ _
  | sleep ms => exact spares_of_db fun r w => slept_db w ms r
  | dateNow => exact spares_of_db fun _ _ => rfl
  | _ => cases hop

theorem isolated_of_ne (h : m.pseudoTxHash ≠ other.pseudoTxHash) : Isolated network m other := by
  intro task
  have hall : ∀ {p : Async Unit}, Issues (fun _ _ => True) (Op.ofMatch network m) p →
      Issues (fun _ _ => True) (Spares network other) p := fun hp => hp.mono fun _ => spares_of_ofMatch h
  cases task with
  | persistFill => exact hall (persistFill_issues.bind fun _ => trivial)
  | executeSettlement => exact hall (executeSettlement_issues.bind fun _ => trivial)
  | recordSettlementFailure reason => exact hall recordSettlementFailure_issues
  | rollbackFill => exact hall rollbackFill_issues

/-! ## Equal hashes -/

/-- The other match's fill, freshly persisted. -/
def justPersisted (network : String) (m : MatchResult) : World :=
  ⟨⟨[], [Db.fillRow network m], [], [], 0⟩, [], 0⟩

theorem isFillOf_fillRow : isFillOf network m (Db.fillRow network m) = true := by
  simp [isFillOf, Db.sameFill]

theorem not_spares_deleteFill (h : m.pseudoTxHash = other.pseudoTxHash) :
    ¬ Spares network other (.deleteFill network m.pseudoTxHash) := by
  intro hspares
  have hkept := (hspares .ok (justPersisted network other)).1 (Db.fillRow network other)
    (List.mem_singleton_self _) isFillOf_fillRow
  have hgone := (Table.mem_delete.mp hkept).2
  simp [Db.fillRow, h] at hgone

/-- Handling one match leaves the fill and the job of the other alone exactly when their
pending hashes differ. -/
theorem isolated_iff (network : String) (m other : MatchResult) :
    Isolated network m other ↔ m.pseudoTxHash ≠ other.pseudoTxHash := by
  constructor
  · intro hisolated hsame
    exact not_spares_deleteFill hsame (hisolated .rollbackFill).1
  · exact isolated_of_ne

/-! ## Two matches with one hash -/

namespace Sample

def crowdedMaker : RestingOrder where
  id := "GCDYYJAP24L7HHMM5SPXUXHZG2DT77GAOV5655YDVUWF7HWRREBUJRCW:1"
  owner := "GCDYYJAP24L7HHMM5SPXUXHZG2DT77GAOV5655YDVUWF7HWRREBUJRCW"
  marketId := 1
  isLong := true
  size := 20000000000
  limitPrice := 2000000000000000000
  reduceOnly := false
  nonce := 1
  expiryTs := 2000000000
  filledSize := 0
  createdAt := 1000
  signature := none

def crowdedTaker (nonce size : Int) : RestingOrder where
  id := "GA7JTSJM5KAU6T5UA6Y52PP4P43NGTT6EJ6S5CHEYRGKZMSAK6ATL4DC:" ++ nonce.repr
  owner := "GA7JTSJM5KAU6T5UA6Y52PP4P43NGTT6EJ6S5CHEYRGKZMSAK6ATL4DC"
  marketId := 1
  isLong := false
  size := size
  limitPrice := 2000000000000000000
  reduceOnly := false
  nonce := nonce
  expiryTs := 2000000000
  filledSize := 0
  createdAt := 2000
  signature := none

/-- The maker's order against two orders of one taker. -/
def crowded (nonce size : Int) : MatchResult :=
  ⟨crowdedMaker, crowdedTaker nonce size, size, 2000000000000000000⟩

end Sample

/-- Two matches of one pair of traders share a hash, and rolling one back deletes the
other's fill. -/
theorem rollback_deletes_other_fill :
    (Sample.crowded 80 620000000).identity ≠ (Sample.crowded 57 17000000000).identity ∧
      ¬ Isolated "testnet" (Sample.crowded 80 620000000) (Sample.crowded 57 17000000000) ∧
      ∃ w', Ends exec (fun _ _ _ => True) (rollbackFill "testnet" (Sample.crowded 80 620000000))
          (justPersisted "testnet" (Sample.crowded 57 17000000000)) (.ok ()) w' ∧
        w'.db.fills = [] := by
  have hsame : (Sample.crowded 80 620000000).pseudoTxHash =
      (Sample.crowded 57 17000000000).pseudoTxHash := by decide +kernel
  refine ⟨by decide, fun h => not_spares_deleteFill hsame (h .rollbackFill).1, ?_⟩
  refine ⟨⟨⟨[], [], [], [], 0⟩, [], 0⟩, ends_of_runWith [.ok, .ok, .ok, .ok] ?_, rfl⟩
  decide +kernel

end Kryon.Venue

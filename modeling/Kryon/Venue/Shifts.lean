import Kryon.Venue.Agreement

/-! # Jobs and fills agree after every chore

The books of one chore are the books of the next: an order that was read keeps its owner
and nonce, and a job its hash and what it settles, whatever other chores come in between. -/
namespace Kryon.Venue

open Program

variable {cfg : Config} {db₀ db : Db} {w w' : World}

/-- What a chore that is still to do takes for granted. -/
def Due (chore : Chore) (w : World) : Prop :=
  match chore with
  | .fill _ m => Matched w.db m
  | .submitted job | .stale job => Recorded w.db job
  | _ => True

theorem Due.later {due : Chore} (h : Due due w) (hkept : Lasting w.db w'.db) : Due due w' := by
  cases due with
  | fill oracle m => exact ⟨h.maker.later hkept, h.taker.later hkept, h.size⟩
  | submitted job | stale job => exact Recorded.later h hkept
  | _ => trivial

/-- The books as they are now. -/
def InOrder (db : Db) : Prop := Books db none noDebt db

theorem Books.inOrder (h : Books db₀ none noDebt db) : InOrder db := { h with kept := Lasting.refl db }

/-- After a chore: the books are in order, and what follows is due. -/
def ChoreDone (db₀ : Db) (r : Except String (List Chore)) (w : World) : Prop :=
  Books db₀ none noDebt w.db ∧ ∀ next, r = .ok next → ∀ due ∈ next, Due due w

/-- A chore that fails is followed by nothing. -/
theorem ChoreDone.error {message : String} (h : Books db₀ none noDebt w.db) :
    ChoreDone db₀ (.error message) w := by
  refine ⟨h, fun next hok => ?_⟩
  cases hok

theorem ChoreDone.ok {next : List Chore} (h : Books db₀ none noDebt w.db) (hnext : ∀ due ∈ next, Due due w) :
    ChoreDone db₀ (.ok next) w := by
  refine ⟨h, fun next' hok => ?_⟩
  obtain rfl := Except.ok.inj hok
  exact hnext

/-! ## One chore -/

theorem last_wp {p : Async Unit} (h : WorkWp p (fun _ w' => Books db₀ none noDebt w'.db) w) :
    WorkWp (last p) (ChoreDone db₀) w := by
  refine Wp.bind (h.mono fun r u hu => ?_)
  cases r with
  | error message => exact .error hu
  | ok _ =>
    refine ChoreDone.ok hu fun due hdue => ?_
    cases hdue

/-- A read, and the rest of the program. -/
theorem workWp_rows {α : Type} (op : Op) (f : Db → op.Ans) {next : op.Ans → Async α}
    {Q : Except String α → World → Prop} (hexec : ∀ r, exec op r w = sqlRows r w f)
    (hfails : ∀ message, Q (.error message) w) (hnext : WorkWp (next (f w.db)) Q w) :
    WorkWp (await op >>= next) Q w :=
  workWp_sql op (fun db => (f db, db)) hexec (fun message _ => hfails message)
    (fun message _ => hfails message) fun _ _ _ => hnext

/-- A live job of the table is one that its reader may settle or roll back. -/
theorem Books.recorded (h : Books db₀ none noDebt db) {job : JobRow} (hjob : job ∈ db.jobs)
    (hlive : job.status = .QUEUED ∨ job.status = .SUBMITTED) : Recorded db job := by
  obtain ⟨t, ht⟩ := (h.jobs job hjob).complete hlive
  exact ⟨job, hjob, rfl, rfl, rfl, t, ht, ht⟩

theorem readSubmitted_wp (h : Books db₀ none noDebt w.db) :
    WorkWp (Chore.readSubmitted.run cfg) (ChoreDone db₀) w := by
  refine workWp_rows .submittedJobs (·.submittedJobs w.now) (fun _ => rfl) (fun _ => .error h) ?_
  refine ChoreDone.ok h fun due hdue => ?_
  cases List.mem_append.mp hdue with
  | inl hrow =>
    obtain ⟨job, hjob, rfl⟩ := List.mem_map.mp hrow
    obtain ⟨hmem, hp⟩ := List.mem_filter.mp (List.mem_of_mem_take hjob)
    simp only [Bool.and_eq_true, beq_iff_eq] at hp
    exact h.recorded hmem (.inr hp.1)
  | inr hlast =>
    rw [List.mem_singleton.mp hlast]
    trivial

theorem readStale_wp (h : Books db₀ none noDebt w.db) :
    WorkWp (Chore.readStale.run cfg) (ChoreDone db₀) w := by
  refine workWp_rows (.staleQueuedJobs cfg.staleQueuedMinutes)
    (·.staleQueuedJobs cfg.staleQueuedMinutes w.now) (fun _ => rfl) (fun _ => .error h) ?_
  refine ChoreDone.ok h fun due hdue => ?_
  obtain ⟨job, hjob, rfl⟩ := List.mem_map.mp hdue
  obtain ⟨hmem, hp⟩ := List.mem_filter.mp hjob
  simp only [Bool.and_eq_true, beq_iff_eq] at hp
  exact h.recorded hmem (.inl hp.1)

theorem readReady_wp (h : Books db₀ none noDebt w.db) :
    WorkWp (Chore.readReady.run cfg) (ChoreDone db₀) w := by
  refine workWp_rows .readyQueuedJobs (·.readyQueuedJobs w.now) (fun _ => rfl) (fun _ => .error h) ?_
  refine ChoreDone.ok h fun due hdue => ?_
  cases List.mem_append.mp hdue with
  | inl hrow =>
    obtain ⟨job, _, rfl⟩ := List.mem_map.mp hrow
    trivial
  | inr hlast =>
    rw [List.mem_singleton.mp hlast]
    trivial

theorem openMarkets_wp (h : Books db₀ none noDebt w.db) :
    WorkWp (Chore.openMarkets.run cfg) (ChoreDone db₀) w := by
  refine workWp_rows (.marketsWithOpenOrders cfg.markets) (·.marketsWithOpenOrders cfg.markets w.nowSec)
    (fun _ => rfl) (fun _ => .error h) ?_
  refine ChoreDone.ok h fun due hdue => ?_
  obtain ⟨marketId, _, rfl⟩ := List.mem_map.mp hdue
  trivial

/-- Only orders of the table are matched. -/
theorem matched_of_mem {limitOrders marketOrders : List RestingOrder} {oracle : Option Int}
    (hlimit : ∀ o ∈ limitOrders, Listed db o) (hmarket : ∀ o ∈ marketOrders, Listed db o) :
    ∀ m ∈ matchAll (inBand cfg oracle limitOrders) marketOrders, Matched db m := by
  have hband : ∀ o ∈ inBand cfg oracle limitOrders, Listed db o :=
    fun o ho => hlimit o ((inBand_sublist cfg oracle limitOrders).subset ho)
  intro m hm
  obtain ⟨hmaker, htaker, hsize⟩ := matchAll_within hband hmarket m hm
  exact ⟨hmaker, htaker, hsize⟩

theorem market_wp {marketId : Nat} (h : Books db₀ none noDebt w.db) :
    WorkWp ((Chore.market marketId).run cfg) (ChoreDone db₀) w := by
  have hlisted : ∀ {o : RestingOrder} {row : OrderRow}, row ∈ w.db.orders → row.toRestingOrder = o →
      Listed w.db o := by
    intro o row hrow hsame
    subst hsame
    exact ⟨row, hrow, rfl, rfl, rfl⟩
  refine workWp_rows (.loadRestingOrders marketId) (·.loadRestingOrders marketId w.nowSec) (fun _ => rfl)
    (fun _ => .error h) ?_
  refine workWp_rows (.loadMarketOrders marketId) (·.loadMarketOrders marketId w.nowSec) (fun _ => rfl)
    (fun _ => .error h) ?_
  split
  · refine ChoreDone.ok h fun due hdue => ?_
    cases hdue
  refine workWp_rows (.loadOraclePrice marketId) (·.loadOraclePrice marketId) (fun _ => rfl)
    (fun _ => .error h) ?_
  refine ChoreDone.ok h fun due hdue => ?_
  obtain ⟨m, hm, rfl⟩ := List.mem_map.mp hdue
  refine matched_of_mem (fun o ho => ?_) (fun o ho => ?_) m hm
  · obtain ⟨row, hrow, _, hsame⟩ := Db.mem_loadRestingOrders ho
    exact hlisted hrow hsame
  · obtain ⟨row, hrow, _, hsame⟩ := Db.mem_loadMarketOrders ho
    exact hlisted hrow hsame

theorem plain_of_ofSign {op : Op} {id : Nat} (h : op.ofSign id) : op.plain := by
  cases op with
  | mergeSignedEntry | claimQueued | storeSubmittedHash | markFailed => trivial
  | selectJob | getAccount | dateNow | sendTransaction => rfl
  | _ => cases h

theorem plain_of_ofOrders {op : Op} (h : op.ofOrders) : op.plain := by
  cases op with
  | cancelOrder | cancelAll => trivial
  | insertOrder order => exact h
  | sleep | dateNow => rfl
  | _ => cases h

theorem chore_wp {chore : Chore} (hdue : Due chore w) (h : InOrder w.db) :
    WorkWp (chore.run cfg) (ChoreDone w.db) w := by
  cases chore with
  | openMarkets => exact openMarkets_wp h
  | market marketId => exact market_wp h
  | fill oracle m => exact last_wp (processMatch_wp hdue h)
  | readSubmitted => exact readSubmitted_wp h
  | submitted job => exact last_wp (reconcileSubmitted_wp hdue h)
  | readReady => exact readReady_wp h
  | ready job => exact last_wp (workWp_of_plain (resubmitJob_issues.mono fun _ => plain_of_ofResubmit) h)
  | readStale => exact readStale_wp h
  | stale job => exact last_wp (expireJob_wp hdue h)
  | sign req =>
    exact last_wp (workWp_of_plain (issues_answered (sign_issues.mono fun _ => plain_of_ofSign)) h)
  | cancelOrder owner nonce =>
    exact last_wp (workWp_of_plain (issues_answered (cancelOrder_issues.mono fun _ => plain_of_ofOrders)) h)
  | cancelAll owner marketId =>
    exact last_wp
      (workWp_of_plain (issues_answered (cancelAllOrders_issues.mono fun _ => plain_of_ofOrders)) h)
  | placeOrder order =>
    exact last_wp (workWp_of_plain (issues_answered (placeOrder_issues.mono fun _ => plain_of_ofOrders)) h)

/-! ## A whole shift -/

/-- The invariant of a shift: the books are in order and every chore to do is due. -/
def Shift.Tidy (s : Shift) : Prop :=
  InOrder s.world.db ∧ ∀ duty ∈ s.duties, ∀ due ∈ duty, Due due s.world

theorem due_start (task : Task) (w : World) : Due task.chore w := by
  cases task <;> trivial

theorem happen_inOrder {e : Happening} (he : happen e w = some w') (h : InOrder w.db) :
    InOrder w'.db ∧ Lasting w.db w'.db := by
  have hbooks : Books w.db none noDebt w'.db := by
    rcases happen_cases he with hlater | htakes | hprice
    · obtain ⟨ms, rfl⟩ := hlater
      exact h
    · obtain ⟨_, _, _, _, _, _, _, rfl⟩ := htakes
      exact h
    · obtain ⟨markets, rfl⟩ := hprice
      exact h.of_tables rfl rfl ⟨rfl, rfl⟩
  exact ⟨hbooks.inOrder, hbooks.kept⟩

theorem Shift.Tidy.step {s s' : Shift} {m : ShiftMove} (h : s.Tidy) (hm : Meets cfg Orderly s m)
    (hs : Step cfg s m s') : s'.Tidy := by
  refine invariant_step (I := fun w => InOrder w.db) due_start (fun chore w hw hdue r w' hends => ?_)
    (fun e w w' he hw => ?_) h hm hs
  · have hdone : ChoreDone w.db r w' := (chore_wp hdue hw).ends (fun _ => rfl) hends
    exact ⟨hdone.1.inOrder, fun due hbefore => hbefore.later hdone.1.kept, hdone.2⟩
  · obtain ⟨hbooks, hkept⟩ := happen_inOrder he hw
    exact ⟨hbooks, fun due hbefore => hbefore.later hkept⟩

theorem tidy_idle (markets : List MarketRow) (now : Nat) : (Shift.idle (newWorld markets now)).Tidy := by
  refine ⟨⟨⟨?_, ?_, ?_, ?_⟩, ?_, ?_, ?_, ?_, ?_, ?_, ?_, Lasting.refl _⟩, ?_⟩
  all_goals simp [newWorld, Shift.idle, FreshIds]

/-- **Jobs and fills agree.** As long as every operation is orderly, a fill under its pending
hash has a job that is alive or has succeeded, a failed job has no fill, and `filledSize`
counts the fills of the table only, whatever the order in which chores run. -/
theorem agreement_of_orderly {markets : List MarketRow} {now : Nat} {run : List (ShiftMove × Shift)}
    (hr : Runs.IsRun (Shift.Step cfg) (Shift.idle (newWorld markets now)) run)
    (hc : Runs.AllSteps (Shift.Meets cfg Orderly) (Shift.idle (newWorld markets now)) run) :
    Runs.AllStates (fun s => Agreement s.world.db) (Shift.idle (newWorld markets now)) run :=
  (Runs.invariant (I := Shift.Tidy) (fun _ _ _ h hm hs => h.step hm hs) (tidy_idle markets now) hr hc).mono
    fun _ h => h.1.agreement

/-! ## Where the sign route leaves a fill behind -/

/-- Some job has failed with a fill under its hash. -/
def failedWithFill (db : Db) : Bool :=
  db.jobs.any fun j => j.status == .FAILED && db.fills.any (·.pendingAs j.network j.payloadHash)

theorem not_agreement_of_failedWithFill (h : failedWithFill db = true) : ¬ Agreement db := by
  intro hagree
  obtain ⟨j, hj, hfailed⟩ := List.any_eq_true.mp h
  simp only [Bool.and_eq_true, beq_iff_eq, List.any_eq_true] at hfailed
  obtain ⟨hstatus, f, hf, hpending⟩ := hfailed
  rw [hagree.rolledBack j hj hstatus f hf] at hpending
  cases hpending

namespace Sample

/-- `n` operations, each answered normally. -/
def allGo (n : Nat) : List Reply := List.replicate n .ok

/-- Two orders are placed, a tick queues their settlement, and both parties sign. -/
def bothSign (last : List Reply) : List ShiftMove :=
  [.start (.placeOrder bid), .work 0 (allGo 1), .start (.placeOrder ask), .work 1 (allGo 1),
    .start .matcherTick, .work 2 (allGo 1), .work 2 (allGo 3),
    .work 2 (allGo 5 ++ [.simulated "AAAA" 2] ++ allGo 2),
    .start (.sign ⟨1, false, "GMAKER", "M", true⟩), .work 3 (allGo 2),
    .start (.sign ⟨1, false, "GTAKER", "T", true⟩), .work 4 (allGo 3 ++ last)]

/-- The RPC server turns the transaction down with status `ERROR`. -/
def notTaken : List ShiftMove := bothSign (allGo 2 ++ [.rejects "AAAAAAAAAGT////7AAAAAA==", .ok])

/-- The transaction fails on chain, and the reconciler finds out. -/
def foundFailed : List ShiftMove :=
  bothSign (allGo 4) ++ [.world (.ledgerTakes 0 7 false), .world (.later 31000), .start .reconcilerTick,
    .work 5 (allGo 1), .work 5 (allGo 5)]

end Sample

/-- The submission is turned down, and the job fails with its fill in place. -/
theorem not_agreement_after_rejection : ∃ run,
    Runs.IsRun (Shift.Step Sample.venue) (Shift.idle Sample.listed) run ∧
      ¬ Agreement (Runs.final (Shift.idle Sample.listed) run).world.db := by
  obtain ⟨run, hrun, hfailed⟩ := Runs.exists_isRun_of_play (Shift.step Sample.venue) (Shift.idle Sample.listed)
    Sample.notTaken
    (fun run => failedWithFill (Runs.final (Shift.idle Sample.listed) run).world.db)
    (show _ = some true by decide +kernel)
  exact ⟨run, hrun, not_agreement_of_failedWithFill hfailed⟩

theorem agreement_of_orderly_foundFailed : ∃ run : List (ShiftMove × Shift),
    Runs.AllStates (fun s => Agreement s.world.db) (Shift.idle Sample.listed) run ∧
      (Runs.final (Shift.idle Sample.listed) run).world.db.fills = [] := by
  obtain ⟨run, hrun, hboth⟩ := Runs.exists_isRun_of_play (Shift.step Sample.venue) (Shift.idle Sample.listed)
    Sample.foundFailed
    (fun run => (decide (Runs.AllSteps (Shift.Meets Sample.venue Orderly) (Shift.idle Sample.listed) run),
      (Runs.final (Shift.idle Sample.listed) run).world.db.fills))
    (show _ = some (true, []) by decide +kernel)
  obtain ⟨hmeets, hfills⟩ := Prod.mk.inj hboth
  exact ⟨run, agreement_of_orderly hrun (of_decide_eq_true hmeets), hfills⟩

end Kryon.Venue

import Kryon.Venue.Reconciler

/-! # What each program does

The operations that a program of the venue can issue, whatever the answers. A fact of all of
them is a fact of the program. -/
namespace Kryon.Venue

open Program

variable {A : (op : Op) → Except String op.Ans → Prop} {cfg : Config}

/-! ## A match -/

/-- Questions to the RPC server and the clock. -/
def Op.asks : Op → Prop
  | .getAccount | .getLatestLedger | .simulateTransaction _ | .getTransaction _ | .sleep _ | .dateNow => True
  | _ => False

/-- The operations of a match's submission. -/
def Op.ofSubmission (m : MatchResult) : Op → Prop
  | .sendTransaction body _ => ∃ makerSig takerSig, body = .settleFillSigned m makerSig takerSig
  | op => op.asks

/-- The operations of a match of the matcher's tick. -/
def Op.ofMatch (network : String) (m : MatchResult) : Op → Prop
  | .cancelPoisonOrder id => id = m.maker.id ∨ id = m.taker.id
  | .insertFill n m' => n = network ∧ m' = m
  | .addFilled id fillSize | .returnFilled id fillSize =>
    (id = m.maker.id ∨ id = m.taker.id) ∧ fillSize = m.fillSize
  | .recordTrade marketId _ fillValue | .returnVolume marketId fillValue =>
    marketId = m.maker.marketId ∧ fillValue = m.fillValue
  | .deleteFill n hash | .recordFailure n hash _ | .recordConfirmed n hash _ =>
    n = network ∧ hash = m.pseudoTxHash
  | .queueJob n m' _ => n = network ∧ m' = m
  | op => op.ofSubmission m

section Match

variable {network : String} {m : MatchResult}

theorem Op.asks.ofSubmission {op : Op} (h : op.asks) : op.ofSubmission m := by
  cases op with
  | sendTransaction => cases h
  | _ => exact h

theorem Op.ofSubmission.ofMatch {op : Op} (h : op.ofSubmission m) : op.ofMatch network m := by
  cases op with
  | cancelPoisonOrder | insertFill | addFilled | returnFilled | recordTrade | returnVolume | deleteFill
  | recordFailure | recordConfirmed | queueJob => cases h
  | _ => exact h

theorem persistFill_issues : Issues A (Op.ofMatch network m) (persistFill network m) := by
  refine Issues.tryCatch ?_ fun _ => trivial
  refine Issues.perform ⟨rfl, rfl⟩ fun inserted _ => ?_
  split
  · trivial
  refine Issues.perform ⟨.inl rfl, rfl⟩ fun makerUpdated _ => ?_
  split
  · trivial
  refine Issues.perform ⟨.inr rfl, rfl⟩ fun takerUpdated _ => ?_
  split
  · trivial
  exact Issues.perform ⟨rfl, rfl⟩ fun _ _ => trivial

theorem rollbackFill_issues : Issues A (Op.ofMatch network m) (rollbackFill network m) := by
  refine Issues.tryCatch ?_ fun _ => trivial
  refine Issues.perform ⟨rfl, rfl⟩ fun _ _ => Issues.perform ⟨rfl, rfl⟩ fun _ _ => ?_
  exact Issues.perform ⟨.inl rfl, rfl⟩ fun _ _ => issues_perform.mpr ⟨.inr rfl, rfl⟩

theorem recordSettlementFailure_issues {reason : String} :
    Issues A (Op.ofMatch network m) (recordSettlementFailure network m.pseudoTxHash reason) :=
  Issues.tryCatch (issues_perform.mpr ⟨rfl, rfl⟩) fun _ => trivial

theorem pollConfirmation_issues {hash left : Nat} : Issues A Op.asks (pollConfirmation hash left) := by
  induction left with
  | zero => trivial
  | succ left ih =>
    refine Issues.perform trivial fun _ _ => Issues.perform trivial fun poll _ => ?_
    cases poll with
    | SUCCESS _ => trivial
    | FAILED => trivial
    | NOT_FOUND => exact ih

theorem submitSettleFillSigned_issues {makerSig takerSig : String} :
    Issues A (Op.ofSubmission m) (submitSettleFillSigned m makerSig takerSig) := by
  refine Issues.tryCatch ?_ fun _ => trivial
  refine Issues.perform trivial fun _ _ => Issues.perform trivial fun now _ => ?_
  refine Issues.perform trivial fun sim _ => ?_
  cases sim with
  | error detail => trivial
  | ok _ =>
    refine Issues.perform ⟨makerSig, takerSig, rfl⟩ fun sent _ => ?_
    cases sent with
    | error detail => trivial
    | ok hash => exact pollConfirmation_issues.mono fun _ => Op.asks.ofSubmission

theorem simulateSettleFill_issues : Issues A Op.asks (simulateSettleFill m) := by
  refine Issues.tryCatch ?_ fun _ => trivial
  refine Issues.perform trivial fun _ _ => Issues.perform trivial fun sim _ => ?_
  cases sim with
  | error detail => trivial
  | ok simulated =>
    refine Issues.perform trivial fun _ _ => ?_
    split
    · trivial
    · trivial

theorem executeSettlement_issues : Issues A (Op.ofMatch network m) (executeSettlement network m) := by
  unfold executeSettlement
  split
  · refine (submitSettleFillSigned_issues.mono fun _ => Op.ofSubmission.ofMatch).bind fun settled => ?_
    cases settled with
    | ok hash => exact Issues.perform ⟨rfl, rfl⟩ fun _ _ => trivial
    | error reason => exact recordSettlementFailure_issues.bind fun _ => trivial
  · refine (simulateSettleFill_issues.mono fun _ h => h.ofSubmission.ofMatch).bind fun pending => ?_
    cases pending with
    | none => exact recordSettlementFailure_issues.bind fun _ => trivial
    | some assembledTxXdr => exact Issues.perform ⟨rfl, rfl⟩ fun _ _ => trivial

theorem settleOrRollback_issues : Issues A (Op.ofMatch network m) (settleOrRollback network m) := by
  refine Issues.tryCatch ?_ fun message => recordSettlementFailure_issues.bind fun _ => rollbackFill_issues
  refine executeSettlement_issues.bind fun settled => ?_
  split
  · exact rollbackFill_issues
  · trivial

theorem quarantine_issues {S : Op → Prop} {orders : List RestingOrder}
    (h : ∀ o ∈ orders, S (.cancelPoisonOrder o.id)) : Issues A S (quarantine cfg orders) := by
  induction orders with
  | nil => trivial
  | cons o rest ih =>
    have hrest := ih fun o' ho' => h o' (List.mem_cons_of_mem o ho')
    unfold quarantine
    split
    · exact hrest
    · exact Issues.perform (h o List.mem_cons_self) fun _ _ => hrest.bind fun _ => trivial

theorem processMatch_issues {oracle : Option Int} :
    Issues A (Op.ofMatch cfg.network m) (processMatch cfg oracle m) := by
  unfold processMatch
  split
  · trivial
  split
  · trivial
  refine Issues.bind (quarantine_issues fun o ho => ?_) fun poisoned => ?_
  · cases List.mem_cons.mp ho with
    | inl hmaker => exact .inl (congrArg RestingOrder.id hmaker)
    | inr htaker => exact .inr (congrArg RestingOrder.id (List.mem_singleton.mp htaker))
  split
  · trivial
  refine persistFill_issues.bind fun persisted => ?_
  split
  · exact settleOrRollback_issues
  · trivial

end Match

/-! ## A job -/

/-- A broadcast of whatever payload. -/
def Op.ofBroadcast : Op → Prop
  | .getAccount | .dateNow => True
  | .sendTransaction body _ => ∃ payload, rebuiltBody payload = some body
  | _ => False

theorem broadcast_issues {payload : JobPayload} : Issues A Op.ofBroadcast (broadcast payload) := by
  refine Issues.perform trivial fun _ _ => Issues.perform trivial fun now _ => ?_
  split
  · trivial
  · rename_i body hbody
    refine Issues.perform ⟨payload, hbody⟩ fun sent _ => ?_
    cases sent with
    | error detail => trivial
    | ok hash => trivial

/-- The operations of a resubmission. -/
def Op.ofResubmit (job : JobRow) : Op → Prop
  | .claimForResubmit id | .storeSubmittedHash id _ | .confirm id | .markFailed id _ => id = job.id
  | .settleFillRow n hash _ _ _ _ _ =>
    n = job.network ∧ (job.unsignedXdr.getD {}).pendingTxHash = some hash
  | .getTransaction _ | .sleep _ => True
  | op => op.ofBroadcast

/-- The operations of the reconciler on a job it has read. -/
def Op.ofJob (job : JobRow) : Op → Prop
  | .confirmSubmitted id | .failFrom id _ _ => id = job.id
  | .deleteFill n hash => n = job.network ∧ (job.unsignedXdr.getD {}).pendingTxHash = some hash
  | .returnFilledOf .. => True
  | op => op.ofResubmit job

section Job

variable {job : JobRow}

theorem Op.ofBroadcast.ofResubmit {op : Op} (h : op.ofBroadcast) : op.ofResubmit job := by
  cases op with
  | getAccount | dateNow | sendTransaction => exact h
  | _ => cases h

theorem Op.ofResubmit.ofJob {op : Op} (h : op.ofResubmit job) : op.ofJob job := by
  cases op with
  | confirmSubmitted | failFrom | deleteFill | returnFilledOf => cases h
  | _ => exact h

theorem settleFillRow_issues {compareNonces : Bool} {hash ledger : Nat} :
    Issues A (Op.ofResubmit job)
      (settleFillRow job.network (job.unsignedXdr.getD {}) compareNonces hash ledger) := by
  unfold settleFillRow
  split
  · rename_i hpending _ _
    exact issues_perform.mpr ⟨rfl, hpending⟩
  · trivial

theorem pollResubmitted_issues {hash left : Nat} :
    Issues A (Op.ofResubmit job) (pollResubmitted job (job.unsignedXdr.getD {}) hash left) := by
  induction left with
  | zero => trivial
  | succ left ih =>
    refine Issues.perform trivial fun _ _ => Issues.perform trivial fun poll _ => ?_
    cases poll with
    | SUCCESS ledger => exact Issues.perform rfl fun _ _ => settleFillRow_issues
    | FAILED => exact issues_perform.mpr rfl
    | NOT_FOUND => exact ih

theorem resubmitJob_issues : Issues A (Op.ofResubmit job) (resubmitJob cfg job) := by
  unfold resubmitJob
  split
  · trivial
  · dsimp only
    split
    · trivial
    refine Issues.perform rfl fun claimed _ => ?_
    split
    · trivial
    refine Issues.tryCatch ?_ fun message => Issues.tryCatch (issues_perform.mpr rfl) fun _ => trivial
    refine (broadcast_issues.mono fun op => Op.ofBroadcast.ofResubmit).bind fun hash => ?_
    exact Issues.perform rfl fun _ _ => pollResubmitted_issues

theorem rollbackJob_issues : Issues A (Op.ofJob job) (rollbackJob job) := by
  have hreturn : ∀ owner nonce fillSize, Issues A (Op.ofJob job) (returnFilledOf owner nonce fillSize) := by
    intro owner nonce fillSize
    cases nonce with
    | none => trivial
    | some nonce => exact issues_perform.mpr trivial
  unfold rollbackJob rollbackPayload
  split
  · rename_i hpending _ _ _
    exact Issues.perform ⟨rfl, hpending⟩ fun _ _ => (hreturn _ _ _).bind fun _ => hreturn _ _ _
  · trivial

theorem pollSubmitted_issues {hash : Nat} : Issues A (Op.ofJob job) (pollSubmitted hash) :=
  Issues.tryCatch (Issues.perform trivial fun _ _ => trivial) fun _ => trivial

theorem reconcileSubmitted_issues : Issues A (Op.ofJob job) (reconcileSubmitted cfg job) := by
  unfold reconcileSubmitted
  split
  · trivial
  · refine pollSubmitted_issues.bind fun poll => ?_
    split
    · trivial
    · exact Issues.perform rfl fun _ _ => settleFillRow_issues.mono fun op => Op.ofResubmit.ofJob
    · exact rollbackJob_issues.bind fun _ => issues_perform.mpr rfl
    · exact resubmitJob_issues.mono fun op => Op.ofResubmit.ofJob

theorem expireJob_issues : Issues A (Op.ofJob job) (expireJob job) := by
  unfold expireJob
  split
  · trivial
  · exact rollbackJob_issues.bind fun _ => issues_perform.mpr rfl

end Job

/-- The operations of the reconciler's tick. -/
def Op.ofReconciler : Op → Prop
  | .submittedJobs | .readyQueuedJobs | .staleQueuedJobs _ => True
  | op => ∃ job, op.ofJob job

theorem reconcilerTick_issues : Issues A Op.ofReconciler (reconcilerTick cfg) := by
  have hjob : ∀ {op : Op} {job : JobRow}, op.ofJob job → op.ofReconciler := by
    intro op job h
    cases op with
    | submittedJobs | readyQueuedJobs | staleQueuedJobs => trivial
    | _ => exact ⟨job, h⟩
  refine Issues.perform trivial fun submitted _ => ?_
  refine (Issues.forEach fun job _ => reconcileSubmitted_issues.mono fun op => hjob).bind fun _ => ?_
  refine Issues.perform trivial fun readyQueued _ => ?_
  refine (Issues.forEach fun job _ =>
    resubmitJob_issues.mono fun op h => hjob (Op.ofResubmit.ofJob h)).bind fun _ => ?_
  refine Issues.perform trivial fun stale _ => Issues.forEach fun job _ => ?_
  exact expireJob_issues.mono fun op => hjob

/-! ## A request -/

/-- The operations of the sign route. -/
def Op.ofSign (id : Nat) : Op → Prop
  | .selectJob i | .mergeSignedEntry i _ _ | .claimQueued i | .storeSubmittedHash i _ | .markFailed i _ =>
    i = id
  | op => op.ofBroadcast

theorem Op.ofBroadcast.ofSign {op : Op} {id : Nat} (h : op.ofBroadcast) : op.ofSign id := by
  cases op with
  | getAccount | dateNow | sendTransaction => exact h
  | _ => cases h

theorem submitClaimed_issues {id : Nat} {payload : JobPayload} :
    Issues A (Op.ofSign id) (submitClaimed cfg id payload) := by
  refine Issues.tryCatch ?_ fun message =>
    Issues.bind (Issues.tryCatch (issues_perform.mpr rfl) fun _ => trivial) fun _ => trivial
  split
  · trivial
  · refine (broadcast_issues.mono fun op => Op.ofBroadcast.ofSign).bind fun hash => ?_
    exact Issues.perform rfl fun _ _ => trivial

theorem sign_issues {req : SignRequest} : Issues A (Op.ofSign req.id) (sign cfg req) := by
  unfold sign
  split
  · trivial
  refine Issues.perform rfl fun job _ => ?_
  split
  · trivial
  split
  · trivial
  dsimp only
  split
  · trivial
  split
  · trivial
  refine Issues.perform rfl fun merged _ => ?_
  split
  · trivial
  unfold claimAndSubmit
  split
  · trivial
  refine Issues.perform rfl fun claimed _ => ?_
  split
  · trivial
  · exact submitClaimed_issues

theorem issues_withRetry {α : Type} {S : Op → Prop} {p : Async α} (h : Issues A S p)
    (hsleep : ∀ ms, S (.sleep ms)) : Issues A S (withRetry p) := by
  have hfrom : ∀ left i, Issues A S (retryFrom p i left) := by
    intro left
    induction left with
    | zero => exact fun _ => h
    | succ left ih =>
      intro i
      refine Issues.tryCatch h fun message => ?_
      split
      · trivial
      · exact Issues.perform (hsleep _) fun _ _ => ih (i + 1)
  exact hfrom 2 0

/-- The operations of the order routes. -/
def Op.ofOrders : Op → Prop
  | .cancelOrder .. | .cancelAll .. | .sleep _ | .dateNow => True
  | .insertOrder order => order.id = order.owner ++ ":" ++ order.nonce.repr
  | _ => False

theorem cancelOrder_issues {owner : String} {nonce : Int} :
    Issues A Op.ofOrders (cancelOrder owner nonce) := by
  have hcancel : Issues A Op.ofOrders (withRetry (await (.cancelOrder owner nonce))) :=
    issues_withRetry (issues_perform.mpr trivial) fun _ => trivial
  exact Issues.tryCatch (hcancel.bind fun _ => trivial) fun _ => trivial

theorem cancelAllOrders_issues {owner : String} {marketId : Option Nat} :
    Issues A Op.ofOrders (cancelAllOrders owner marketId) := by
  have hcancel : ∀ now, Issues A Op.ofOrders (withRetry (await (.cancelAll owner marketId now))) :=
    fun now => issues_withRetry (issues_perform.mpr trivial) fun _ => trivial
  exact Issues.perform trivial fun now _ =>
    Issues.tryCatch ((hcancel (now / 1000)).bind fun _ => trivial) fun _ => trivial

theorem placeOrder_issues {order : RestingOrder} : Issues A Op.ofOrders (placeOrder order) := by
  have hplace : Issues A Op.ofOrders
      (withRetry (await (.insertOrder { order with id := order.owner ++ ":" ++ order.nonce.repr }))) :=
    issues_withRetry (issues_perform.mpr rfl) fun _ => trivial
  exact Issues.tryCatch (hplace.bind fun _ => trivial) fun _ => trivial

theorem issues_answered {S : Op → Prop} {p : Async Response} (h : Issues A S p) :
    Issues A S (answered p) :=
  h.bind fun _ => trivial

end Kryon.Venue

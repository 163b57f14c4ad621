import Kryon.Governance
import Kryon.Deployed

/-! # The timelock over whole runs

The stored proposals against the calls made so far: each was queued by exactly one of
them, as it stands but for its status, and one that is still queued has been neither
executed nor cancelled. -/
namespace Kryon
open Transaction Runs

variable {Val : Type} {s s' : Governance Val} {op : GovernanceOp Val} {id : BitVec 256}
  {past : List (GovernanceOp Val)}

namespace GovernanceOp

/-- The proposal a call is about. -/
def about : GovernanceOp Val → Option (BitVec 256)
  | queue _ id .. | execute _ id | cancel _ id => some id
  | _ => none

def Queues (id : BitVec 256) : GovernanceOp Val → Prop
  | queue _ i .. => i = id
  | _ => False

def Executes (id : BitVec 256) : GovernanceOp Val → Prop
  | execute _ i => i = id
  | _ => False

def Cancels (id : BitVec 256) : GovernanceOp Val → Prop
  | cancel _ i => i = id
  | _ => False

theorem Queues.about (h : op.Queues id) : op.about = some id := by
  cases op with
  | queue => exact congrArg some h
  | _ => exact absurd h not_false

theorem Executes.about (h : op.Executes id) : op.about = some id := by
  cases op with
  | execute => exact congrArg some h
  | _ => exact absurd h not_false

theorem Cancels.about (h : op.Cancels id) : op.about = some id := by
  cases op with
  | cancel => exact congrArg some h
  | _ => exact absurd h not_false

theorem not_ends_of_about (h : op.about ≠ some id) : ¬ op.Executes id ∧ ¬ op.Cancels id :=
  ⟨fun he => h he.about, fun he => h he.about⟩

end GovernanceOp

/-- What the calls so far say about the state. -/
structure Recorded (past : List (GovernanceOp Val)) (s : Governance Val) : Prop where
  delay : ∀ {d}, s.minDelay = some d → Governance.minSafeDelaySecs ≤ d ∧ s.admin ≠ none
  queued : ∀ {id p}, s.proposal.get id = some p → ∃ before env after d,
    past = before ++ .queue env id p.target p.action p.args p.wasmHash p.eta :: after ∧
    (∀ op ∈ before ++ after, ¬ op.Queues id) ∧
    s.minDelay = some d ∧ env.timestamp + d ≤ p.eta
  absent : ∀ {id}, s.proposal.get id = none → ∀ op ∈ past, op.about ≠ some id
  pending : ∀ {id p}, s.proposal.get id = some p → p.status = .queued →
    ∀ op ∈ past, ¬ op.Executes id ∧ ¬ op.Cancels id

theorem recorded_fresh : Recorded [] ({} : Governance Val) where
  delay h := by cases h
  queued h := by cases h
  absent _ _ h := by cases h
  pending h := by cases h

/-- A later call that queues nothing under the id leaves the queuing call the only one. -/
theorem queued_append {p : GovernanceProposal Val} {d : Option Nat}
    (hop : ¬ op.Queues id)
    (h : ∃ before env after e,
      past = before ++ .queue env id p.target p.action p.args p.wasmHash p.eta :: after ∧
      (∀ op ∈ before ++ after, ¬ op.Queues id) ∧ d = some e ∧ env.timestamp + e ≤ p.eta) :
    ∃ before env after e,
      past ++ [op] = before ++ .queue env id p.target p.action p.args p.wasmHash p.eta :: after ∧
      (∀ op ∈ before ++ after, ¬ op.Queues id) ∧ d = some e ∧ env.timestamp + e ≤ p.eta := by
  obtain ⟨before, env, after, e, rfl, hother, hd, heta⟩ := h
  refine ⟨before, env, after ++ [op], e, by simp, ?_, hd, heta⟩
  intro o ho
  rw [← List.append_assoc, List.mem_append, List.mem_singleton] at ho
  rcases ho with ho | rfl
  · exact hother o ho
  · exact hop

/-- A call about no proposal. -/
theorem Recorded.quiet (h : Recorded past s) (hop : op.about = none)
    (hp : s'.proposal = s.proposal) (hdelay : s'.minDelay = s.minDelay)
    (hadmin : s.admin ≠ none → s'.admin ≠ none) : Recorded (past ++ [op]) s' where
  delay hd := by
    rw [hdelay] at hd
    exact ⟨(h.delay hd).1, hadmin (h.delay hd).2⟩
  queued {id p} hget := by
    rw [hp] at hget
    rw [hdelay]
    exact queued_append (fun hq => by rw [hq.about] at hop; cases hop) (h.queued hget)
  absent {id} hget o ho := by
    rw [hp] at hget
    rcases List.mem_append.mp ho with ho | ho
    · exact h.absent hget o ho
    · rw [List.mem_singleton.mp ho, hop]
      exact fun he => by cases he
  pending {id p} hget hq o ho := by
    rw [hp] at hget
    rcases List.mem_append.mp ho with ho | ho
    · exact h.pending hget hq o ho
    · rw [List.mem_singleton.mp ho]
      exact GovernanceOp.not_ends_of_about fun he => by rw [hop] at he; cases he

/-- A call that ends a queued proposal. -/
theorem Recorded.settle {p : GovernanceProposal Val} {status : ProposalStatus}
    (h : Recorded past s) (hget : s.proposal.get id = some p) (hop : op.about = some id)
    (hnew : ∀ i, ¬ op.Queues i) (hstatus : status ≠ .queued)
    (hp : s'.proposal = s.proposal.set id { p with status }) (hdelay : s'.minDelay = s.minDelay)
    (hadmin : s'.admin = s.admin) : Recorded (past ++ [op]) s' where
  delay hd := by
    rw [hdelay] at hd
    rw [hadmin]
    exact h.delay hd
  queued {i q} hq := by
    rw [hp] at hq
    rw [hdelay]
    refine queued_append (hnew i) ?_
    by_cases hi : i = id
    · subst hi
      rw [Store.get_set_self] at hq
      obtain rfl := Option.some.inj hq
      have hold := h.queued hget
      exact hold
    · rw [Store.get_set_ne hi] at hq
      exact h.queued hq
  absent {i} hi o ho := by
    rw [hp] at hi
    have hne : i ≠ id := by
      intro he
      rw [he, Store.get_set_self] at hi
      cases hi
    rw [Store.get_set_ne hne] at hi
    rcases List.mem_append.mp ho with ho | ho
    · exact h.absent hi o ho
    · rw [List.mem_singleton.mp ho, hop]
      exact fun he => hne (Option.some.inj he).symm
  pending {i q} hq hqueued o ho := by
    rw [hp] at hq
    have hne : i ≠ id := by
      intro he
      rw [he, Store.get_set_self] at hq
      obtain rfl := Option.some.inj hq
      exact hstatus hqueued
    rw [Store.get_set_ne hne] at hq
    rcases List.mem_append.mp ho with ho | ho
    · exact h.pending hq hqueued o ho
    · rw [List.mem_singleton.mp ho]
      exact GovernanceOp.not_ends_of_about fun he => hne (Option.some.inj (he.symm.trans hop))

/-- A proposal queued under a new id. -/
theorem Recorded.enqueue {p : GovernanceProposal Val} {env : Env} {d : Nat}
    (h : Recorded past s) (hget : s.proposal.get id = none) (hdelay : s.minDelay = some d)
    (heta : env.timestamp + d ≤ p.eta) :
    Recorded (past ++ [.queue env id p.target p.action p.args p.wasmHash p.eta])
      { s with proposal := s.proposal.set id p } where
  delay := h.delay
  queued {i q} hq := by
    by_cases hi : i = id
    · subst hi
      obtain rfl := Option.some.inj ((Store.get_set_self _ _ _).symm.trans hq)
      refine ⟨past, env, [], d, rfl, ?_, hdelay, heta⟩
      intro o ho hqueues
      rw [List.append_nil] at ho
      exact h.absent hget o ho hqueues.about
    · refine queued_append (fun he => hi he.symm) (h.queued ((Store.get_set_ne hi).symm.trans hq))
  absent {i} hi o ho := by
    have hne : i ≠ id := by
      intro he
      rw [he] at hi
      cases (Store.get_set_self _ _ _).symm.trans hi
    rcases List.mem_append.mp ho with ho | ho
    · exact h.absent ((Store.get_set_ne hne).symm.trans hi) o ho
    · rw [List.mem_singleton.mp ho]
      exact fun he => hne (Option.some.inj he).symm
  pending {i q} hq hqueued o ho := by
    rcases List.mem_append.mp ho with hold | hlast
    · by_cases hi : i = id
      · rw [hi]
        exact GovernanceOp.not_ends_of_about (h.absent hget o hold)
      · exact h.pending ((Store.get_set_ne hi).symm.trans hq) hqueued o hold
    · rw [List.mem_singleton.mp hlast]
      exact ⟨not_false, not_false⟩

theorem TimelockStep.recorded (h : TimelockStep s op s') (hs : Recorded past s) :
    Recorded (past ++ [op]) s' := by
  cases h with
  | nominateAdmin => exact hs.quiet rfl rfl rfl fun ha => ha
  | acceptAdmin => exact hs.quiet rfl rfl rfl fun _ ha => by cases ha
  | emergencyPause => exact hs.quiet rfl rfl rfl fun ha => ha
  | setGuardian => exact hs.quiet rfl rfl rfl fun ha => ha
  | @initialise env admin guardian minDelaySecs hfresh hsafe =>
    have hnone : s.minDelay = none := by
      cases hd : s.minDelay with
      | none => rfl
      | some d => exact absurd hfresh (hs.delay hd).2
    have hempty : ∀ {id p}, s.proposal.get id ≠ some p := by
      intro id p hp
      obtain ⟨_, _, _, d, _, _, hd, _⟩ := hs.queued hp
      rw [hnone] at hd
      cases hd
    refine ⟨fun hd => ⟨?_, fun ha => by cases ha⟩, fun hp => absurd hp hempty, ?_,
      fun hp => absurd hp hempty⟩
    · obtain rfl := Option.some.inj hd
      exact hsafe
    · intro id hget o ho
      rcases List.mem_append.mp ho with ho | ho
      · exact hs.absent hget o ho
      · rw [List.mem_singleton.mp ho]
        exact fun he => by cases he
  | queue hnew hdelay heta => exact hs.enqueue (p := ⟨_, _, _, _, _, _, .queued⟩) hnew hdelay heta
  | execute hp hq _ _ =>
    exact hs.settle hp rfl (fun _ => not_false) (by decide) rfl rfl rfl
  | cancel hp hq => exact hs.settle hp rfl (fun _ => not_false) (by decide) rfl rfl rfl

/-- A stored proposal keeps everything but its status. -/
theorem TimelockStep.kept {p : GovernanceProposal Val} (h : TimelockStep s op s')
    (hget : s.proposal.get id = some p) :
    ∃ status, s'.proposal.get id = some { p with status } := by
  cases h with
  | nominateAdmin | acceptAdmin | emergencyPause | setGuardian | initialise => exact ⟨_, hget⟩
  | @queue env i target action args wasmHash eta minDelay hnew hdelay heta =>
    have hne : id ≠ i := by
      intro he
      rw [he, hnew] at hget
      cases hget
    exact ⟨_, (Store.get_set_ne hne).trans hget⟩
  | @execute env i q hq hqueued hlive heta =>
    by_cases hi : id = i
    · subst hi
      obtain rfl := Option.some.inj (hq.symm.trans hget)
      exact ⟨_, Store.get_set_self _ _ _⟩
    · exact ⟨_, (Store.get_set_ne hi).trans hget⟩
  | @cancel env i q hq hqueued =>
    by_cases hi : id = i
    · subst hi
      obtain rfl := Option.some.inj (hq.symm.trans hget)
      exact ⟨_, Store.get_set_self _ _ _⟩
    · exact ⟨_, (Store.get_set_ne hi).trans hget⟩

/-- The delay is set once. -/
theorem TimelockStep.minDelay {d : Nat} (h : TimelockStep s op s') (hs : Recorded past s)
    (hd : s.minDelay = some d) : s'.minDelay = some d := by
  cases h with
  | initialise hfresh hsafe => exact absurd hfresh (hs.delay hd).2
  | _ => exact hd

theorem run_recorded {t : List (GovernanceOp Val × Governance Val)}
    (hr : IsRun GovernanceOp.Step {} t) : Recorded (labels t) (final {} t) :=
  history_invariant (fun _ _ _ _ hs h => (GovernanceOp.Step.timelock h).recorded hs) recorded_fresh hr

/-- **The timelock.** In every run from an unused contract: what an execution calls is
what one earlier call queued, the only one under that id, at least the delay and so at
least 48 hours before; nothing has executed or cancelled the id, and the contract is not
paused. No other call calls out. An id that was queued is never queued again and keeps
all but its status, and the delay never changes. -/
theorem governance_timelock {t : List (GovernanceOp Val × Governance Val)}
    (hr : IsRun GovernanceOp.Step {} t) :
    (∀ {env id s'}, GovernanceOp.Step (final {} t) (.execute env id) s' →
      ∃ target action args wasmHash eta before env₀ after delay,
        labels t = before ++ .queue env₀ id target action args wasmHash eta :: after ∧
        (∀ op ∈ before ++ after, ¬ op.Queues id) ∧
        (∀ op ∈ labels t, ¬ op.Executes id ∧ ¬ op.Cancels id) ∧
        (final {} t).isPaused = false ∧
        (final {} t).minDelay = some delay ∧ Governance.minSafeDelaySecs ≤ delay ∧
        env₀.timestamp + delay ≤ env.timestamp ∧
        s'.invoked = (final {} t).invoked ++ [⟨target, action, args⟩]) ∧
    (∀ {op s'}, GovernanceOp.Step (final {} t) op s' → (∀ id, ¬ op.Executes id) →
      s'.invoked = (final {} t).invoked) ∧
    (∀ {op s' id}, GovernanceOp.Step (final {} t) op s' → op.Queues id →
      ∀ o ∈ labels t, ¬ o.Queues id) ∧
    (∀ {op s' id p}, GovernanceOp.Step (final {} t) op s' →
      (final {} t).proposal.get id = some p →
      ∃ status, s'.proposal.get id = some { p with status }) ∧
    ∀ {op s' delay}, GovernanceOp.Step (final {} t) op s' →
      (final {} t).minDelay = some delay → s'.minDelay = some delay := by
  have hrec := run_recorded hr
  refine ⟨?_, ?_, ?_, fun h hget => (GovernanceOp.Step.timelock h).kept hget,
    fun h hd => (GovernanceOp.Step.timelock h).minDelay hrec hd⟩
  · intro env id s' h
    cases GovernanceOp.Step.timelock h with
    | @execute _ _ p hp hq hlive heta =>
      obtain ⟨before, env₀, after, d, hlabels, hother, hd, hmatured⟩ := hrec.queued hp
      exact ⟨_, _, _, _, _, before, env₀, after, d, hlabels, hother, hrec.pending hp hq, hlive, hd,
        (hrec.delay hd).1, hmatured.trans heta, rfl⟩
  · intro op s' h hop
    cases GovernanceOp.Step.timelock h with
    | execute => exact absurd rfl (hop _)
    | _ => rfl
  · intro op s' id h hop o ho hqueues
    cases GovernanceOp.Step.timelock h with
    | queue hnew => exact hrec.absent hnew o ho (hqueues.about.trans (congrArg some hop.symm))
    | _ => exact absurd hop not_false

/-! ## A proposal from its queueing to its execution -/

namespace Sample

def governanceHost (now : Nat) : GovernanceHost Nat := { host now with returns := fun _ => true }

/-- A vetoed and then lifted proposal. -/
def governed : List (GovernanceOp Nat) := [
  .initialise (host 100) admin keeper 172800,
  .queue (host 100) 3 deployment.vault "poke" [42] 4 172900,
  .emergencyPause (host 200) true,
  .emergencyPause (host 300) false,
  .execute (governanceHost 172900) 3]

def governedRun : List (GovernanceOp Nat × Governance Nat) :=
  viewed (fun s => s) (execute GovernanceOp.call {} governed)

theorem governed_isRun : IsRun GovernanceOp.Step {} governedRun := isRun_execute (by decide +kernel)

end Sample

open Sample in
theorem governance_timelock_governed :
    (∀ {env id s'}, GovernanceOp.Step (final {} governedRun) (.execute env id) s' →
      ∃ target action args wasmHash eta before env₀ after delay,
        labels governedRun = before ++ .queue env₀ id target action args wasmHash eta :: after ∧
        (∀ op ∈ before ++ after, ¬ op.Queues id) ∧
        (∀ op ∈ labels governedRun, ¬ op.Executes id ∧ ¬ op.Cancels id) ∧
        (final {} governedRun).isPaused = false ∧
        (final {} governedRun).minDelay = some delay ∧ Governance.minSafeDelaySecs ≤ delay ∧
        env₀.timestamp + delay ≤ env.timestamp ∧
        s'.invoked = (final {} governedRun).invoked ++ [⟨target, action, args⟩]) ∧
    (∀ {op s'}, GovernanceOp.Step (final {} governedRun) op s' → (∀ id, ¬ op.Executes id) →
      s'.invoked = (final {} governedRun).invoked) ∧
    (∀ {op s' id}, GovernanceOp.Step (final {} governedRun) op s' → op.Queues id →
      ∀ o ∈ labels governedRun, ¬ o.Queues id) ∧
    (∀ {op s' id p}, GovernanceOp.Step (final {} governedRun) op s' →
      (final {} governedRun).proposal.get id = some p →
      ∃ status, s'.proposal.get id = some { p with status }) ∧
    ∀ {op s' delay}, GovernanceOp.Step (final {} governedRun) op s' →
      (final {} governedRun).minDelay = some delay → s'.minDelay = some delay :=
  governance_timelock governed_isRun

end Kryon

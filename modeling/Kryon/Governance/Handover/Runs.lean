import Kryon.Governance.Handover.Custody

/-! # The handover at every moment

The script submits an acceptance only of a nomination, and everybody else leaves the handover
alone, so no contract is lost on the way, however often the script is cut off. -/
namespace Kryon
open Transaction Runs Program

namespace Handover

variable {cfg : Handover} {Val : Type}

/-! ## Whoever acts -/

section Chains

variable {routes : Routes Val} {chain chain' chain'' : Chain Val}

variable (cfg) in
/-- An acceptance is on its way only to a contract whose admin has nominated the timelock. -/
structure Sound (chain : Chain Val) : Prop where
  handing : cfg.Handing chain.ledger
  inFlight : ∀ tx ∈ chain.inFlight, tx.Due cfg chain.ledger

variable (cfg) in
/-- Nothing that the handover has reached is lost. -/
structure Onward (chain chain' : Chain Val) : Prop where
  sound : cfg.Sound chain'
  nominated : ∀ c, cfg.Nominated (cfg.custody chain.ledger c) → cfg.Nominated (cfg.custody chain'.ledger c)
  queued : ∀ c, cfg.Queued c (cfg.custody chain.ledger c) →
    cfg.Queued c (cfg.custody chain'.ledger c) ∨ cfg.Handed c (cfg.custody chain'.ledger c)
  handed : ∀ c, cfg.Handed c (cfg.custody chain.ledger c) → cfg.Handed c (cfg.custody chain'.ledger c)
  traced : ∀ c, cfg.Traced (cfg.custody chain.ledger c) → cfg.Traced (cfg.custody chain'.ledger c)

variable (cfg) in
def Evolves (chain chain' : Chain Val) : Prop := cfg.Sound chain → cfg.Onward chain chain'

theorem Onward.due {tx : Submission} (h : cfg.Onward chain chain') (htx : tx.Due cfg chain.ledger) :
    tx.Due cfg chain'.ledger :=
  htx.mono h.nominated

theorem Evolves.refl (chain : Chain Val) : cfg.Evolves chain chain :=
  fun hs => ⟨hs, fun _ => id, fun _ => .inl, fun _ => id, fun _ => id⟩

theorem Evolves.trans (h : cfg.Evolves chain chain') (h' : cfg.Evolves chain' chain'') :
    cfg.Evolves chain chain'' := by
  intro hs
  have h := h hs
  have h' := h' h.sound
  refine ⟨h'.sound, fun c hn => h'.nominated c (h.nominated c hn), fun c hq => ?_,
    fun c hh => h'.handed c (h.handed c hh), fun c ht => h'.traced c (h.traced c ht)⟩
  rcases h.queued c hq with hq | hh
  · exact h'.queued c hq
  · exact .inr (h'.handed c hh)

/-- A turn of the system, and transactions on their way that were so before or are due. -/
theorem Turn.onward {t : Ledger Val} {l : List Submission} (h : cfg.Turn chain.ledger t)
    (hne : cfg.admin ≠ cfg.governance) (hs : cfg.Sound chain)
    (hflight : ∀ tx ∈ l, tx ∈ chain.inFlight ∨ tx.Due cfg chain.ledger) :
    cfg.Onward chain ⟨t, l⟩ := by
  have hnominated : ∀ c, cfg.Nominated (cfg.custody chain.ledger c) → cfg.Nominated (cfg.custody t c) :=
    fun c => (h.moves c).nominated (hs.handing.stage c)
  refine ⟨⟨h.handing hne hs.handing, fun tx htx => ?_⟩, hnominated, fun c => (h.moves c).queued,
    fun c => (h.moves c).handed hne, fun c => (h.moves c).traced⟩
  have hdue : tx.Due cfg chain.ledger := by
    rcases hflight tx htx with hold | hnew
    · exact hs.inFlight tx hold
    · exact hnew
  exact hdue.mono hnominated

theorem turn_of_commit {x : LedgerTx Val Unit} {s : Ledger Val}
    (h : ∀ t, Returns x s () t → cfg.Turn s t) : cfg.Turn s (commit x s) := by
  rcases commit_cases x s with ⟨_, hx⟩ | ⟨_, hx⟩
  · exact h _ hx
  · rw [hx]
    exact .refl

theorem happen_evolves (hcfg : cfg.Proper routes) {e : Happening Val}
    (h : cfg.happen routes e chain = some chain') : cfg.Evolves chain chain' := by
  intro hs
  cases e with
  | other op =>
    simp only [happen] at h
    split at h
    · rename_i hop
      obtain rfl := Option.some.inj h
      exact (turn_of_commit fun t ht => (other_aside hcfg hs.handing hop ht).1.turn).onward hcfg.distinct hs
        fun tx htx => .inl htx
    · cases h
  | lands i env =>
    obtain ⟨tx, htx, rfl⟩ := Option.map_eq_some_iff.mp h
    have hdue := hs.inFlight tx (List.mem_of_getElem? htx)
    exact (turn_of_commit fun t ht => submission_turn hcfg hs.handing hdue ht).onward hcfg.distinct hs
      fun tx htx => .inl (List.mem_of_mem_eraseIdx htx)
  | expires i =>
    obtain rfl := Option.some.inj h
    exact Turn.refl.onward hcfg.distinct hs fun tx htx => .inl (List.mem_of_mem_eraseIdx htx)

/-- The script submits an acceptance only after a nomination. -/
def Careful (cfg : Handover) (op : Request) (s : Chain Val × List (Event Request (Reply Val) (Chain Val))) :
    Prop :=
  match op with
  | .submit tx => tx.Due cfg s.1.ledger
  | _ => True

theorem exec_evolves (hcfg : cfg.Proper routes) {op : Request} {r : Reply Val}
    {past : List (Event Request (Reply Val) (Chain Val))} (hop : Careful cfg op (chain, past)) :
    cfg.Evolves chain (cfg.exec routes op r chain).2 := by
  intro hs
  cases op with
  | submit tx =>
    have htaken : cfg.Onward chain { chain with inFlight := chain.inFlight ++ [tx] } :=
      Turn.refl.onward hcfg.distinct hs fun tx' htx => by
        rcases List.mem_append.mp htx with hold | hnew
        · exact .inl hold
        · rw [List.mem_singleton.mp hnew]
          exact .inr hop
    simp only [exec]
    split
    · exact (turn_of_commit fun t ht => submission_turn hcfg hs.handing hop ht).onward hcfg.distinct hs
        fun tx htx => .inl htx
    · exact Evolves.refl chain hs
    · exact htaken
    · exact htaken
  | readGuardian | readAdmin | readMinDelay | readProposal | dateNow | simulate =>
    exact Evolves.refl chain hs

end Chains

/-! ## The script is careful -/

section Careful

variable {routes : Routes Val} {execute : Bool} {tx : Submission}
  {s : Chain Val × List (Event Request (Reply Val) (Chain Val))}

variable (cfg routes) in
/-- From here on the script is careful whatever the others do, and ends as said. -/
abbrev CarefulWp {α : Type} (p : Script Val α)
    (Q : Except String α → Chain Val × List (Event Request (Reply Val) (Chain Val)) → Prop) :
    Chain Val × List (Event Request (Reply Val) (Chain Val)) → Prop :=
  Wp (Pool.recorded (cfg.exec routes)) (Pool.Others cfg.Evolves) (fun _ _ _ => True) (Careful cfg) p Q

def Request.Reads : Request → Prop
  | .submit _ => False
  | _ => True

theorem Request.Reads.careful {op : Request} (hop : op.Reads) : Careful cfg op s := by
  cases op with
  | submit tx => cases hop
  | readGuardian | readAdmin | readMinDelay | readProposal | dateNow | simulate => trivial

theorem exec_reads {op : Request} (hop : op.Reads) (r : Reply Val) (chain : Chain Val) :
    (cfg.exec routes op r chain).2 = chain := by
  cases op with
  | submit tx => cases hop
  | readGuardian | readAdmin | readMinDelay | readProposal | dateNow | simulate => rfl

/-- What only reads takes nothing from the handover. -/
theorem careful_of_reads {α : Type} {p : Script Val α} (h : Issues (fun _ _ => True) Request.Reads p)
    (hs : cfg.Sound s.1) : CarefulWp cfg routes p (fun _ t => cfg.Sound t.1) s := by
  refine h.wp (I := fun t : Chain Val × List _ => cfg.Sound t.1) (fun a b hab ha => (hab.1 ha).sound)
    (fun op t _ hop => hop.careful) ?_ hs
  intro op r t ht hop _
  refine ⟨trivial, ?_⟩
  show cfg.Sound (cfg.exec routes op r t.1).2
  rw [exec_reads hop]
  exact ht

/-- A submission that is reported as a success was one. -/
theorem submit_success {r : Reply Val} {chain : Chain Val} {hash : String}
    (h : (cfg.exec routes (.submit tx) r chain).1 = .ok (.success hash)) :
    ∃ env, Returns (tx.call cfg routes env) chain.ledger () (cfg.exec routes (.submit tx) r chain).2.ledger := by
  simp only [exec] at h ⊢
  split
  · rename_i env henv
    refine ⟨env, ?_⟩
    simp only [henv] at h
    split at h
    · rename_i hsucceeds
      obtain ⟨_, hreturns⟩ := returns_commit hsucceeds
      exact hreturns
    · cases h
  all_goals
    rename_i hserver
    simp only [hserver] at h
    cases h

theorem send_careful (hcfg : cfg.Proper routes) (hs : cfg.Sound s.1)
    (hdue : execute = true → tx.Due cfg s.1.ledger) :
    CarefulWp cfg routes (send execute tx) (fun r t => cfg.Onward s.1 t.1 ∧
      (r = .ok () → execute = true → ∀ c, tx = .nominateAdmin c → cfg.Nominated (cfg.custody t.1.ledger c))) s := by
  refine Wp.perform fun t ht => ⟨trivial, fun r _ => ?_⟩
  have ht := ht.1 hs
  show thenWp _ _ _ _ _ _ (cfg.exec routes (.simulate tx) r t.1).1 (t.1, _)
  rcases (cfg.exec routes (.simulate tx) r t.1).1 with message | error
  · exact ⟨ht, fun h => by cases h⟩
  cases error with
  | some error => exact ⟨ht, fun h => by cases h⟩
  | none =>
    cases execute with
    | false => exact ⟨ht, fun _ h => by cases h⟩
    | true =>
      show CarefulWp cfg routes (ask (.submit tx) >>= _) _ _
      refine Wp.perform fun u hu => ?_
      have hu := hu.1 ht.sound
      have hdue : tx.Due cfg u.1.ledger := hu.due (ht.due (hdue rfl))
      refine ⟨hdue, fun r _ => ?_⟩
      have hcareful : Careful cfg (.submit tx) (u.1, u.2) := hdue
      have hsubmit : cfg.Evolves u.1 (cfg.exec routes (.submit tx) r u.1).2 := exec_evolves hcfg hcareful
      have hsent := (Evolves.trans (fun _ => ht) fun _ => hu).trans hsubmit hs
      have hnominated : ∀ hash, (cfg.exec routes (.submit tx) r u.1).1 = .ok (.success hash) →
          ∀ c, tx = .nominateAdmin c →
            cfg.Nominated (cfg.custody (cfg.exec routes (.submit tx) r u.1).2.ledger c) := by
        rintro hash hsuccess c rfl
        obtain ⟨env, hreturns⟩ := submit_success hsuccess
        rw [nominate_custody hreturns]
        exact .inl rfl
      show thenWp _ _ _ _ _ _ (cfg.exec routes (.submit tx) r u.1).1
        ((cfg.exec routes (.submit tx) r u.1).2, _)
      rcases hr : (cfg.exec routes (.submit tx) r u.1).1 with message | sent
      · exact ⟨hsent, fun h => by cases h⟩
      cases sent with
      | success hash => exact ⟨hsent, fun _ _ => hnominated hash hr⟩
      | rejected | failed | unconfirmed => exact ⟨hsent, fun h => by cases h⟩

/-- Past a read others have moved on, but not back. -/
theorem read_careful {op : Request} {α : Type} {f : op.Ans Val → Script Val α}
    {Q : Except String α → Chain Val × List (Event Request (Reply Val) (Chain Val)) → Prop}
    (hop : op.Reads) (hs : cfg.Sound s.1) (hQ : ∀ message t, cfg.Sound t.1 → Q (.error message) t)
    (hf : ∀ a t, cfg.Sound t.1 → CarefulWp cfg routes (f a) Q t) :
    CarefulWp cfg routes (ask op >>= f) Q s := by
  refine Wp.perform fun t ht => ⟨hop.careful, fun r _ => ?_⟩
  have ht : cfg.Sound (cfg.exec routes op r t.1).2 := by
    rw [exec_reads hop]
    exact (ht.1 hs).sound
  show thenWp _ _ _ _ _ _ (cfg.exec routes op r t.1).1 ((cfg.exec routes op r t.1).2, _)
  rcases (cfg.exec routes op r t.1).1 with message | a
  · exact hQ message _ ht
  · exact hf a _ ht

theorem nominateTarget_careful (hcfg : cfg.Proper routes) (hs : cfg.Sound s.1) (eta : Nat) (t : Target) :
    CarefulWp cfg routes (cfg.nominateTarget execute eta t) (fun _ u => cfg.Sound u.1) s := by
  refine read_careful trivial hs (fun _ _ => id) fun current u hu => ?_
  split
  · exact hu
  refine read_careful trivial hu (fun _ _ => id) fun existing v hv => ?_
  split
  · exact hv
  -- the nomination stands when the acceptance goes out
  have hdue : Submission.Due cfg v.1.ledger (.nominateAdmin t) := trivial
  refine Wp.bind ((send_careful hcfg hv fun _ => hdue).mono fun r w hw => ?_)
  obtain ⟨honward, hnominated⟩ := hw
  cases r with
  | error message => exact honward.sound
  | ok _ =>
    have hdue : execute = true → Submission.Due cfg w.1.ledger (.queue t eta) :=
      fun he => hnominated rfl he t rfl
    exact (send_careful hcfg honward.sound hdue).mono fun _ _ h => h.1.sound

theorem executeTarget_careful (hcfg : cfg.Proper routes) (hs : cfg.Sound s.1) (now : Nat) (t : Target) :
    CarefulWp cfg routes (cfg.executeTarget execute now t) (fun _ u => cfg.Sound u.1) s := by
  refine read_careful trivial hs (fun _ _ => id) fun current u hu => ?_
  split
  · exact hu
  refine read_careful trivial hu (fun _ _ => id) fun proposal v hv => ?_
  cases proposal with
  | none => exact hv
  | some proposal =>
    show CarefulWp cfg routes (if now < proposal.eta then pure () else send execute (.execute t)) _ v
    split
    · exact hv
    · have hdue : Submission.Due cfg v.1.ledger (.execute t) := trivial
      exact (send_careful hcfg hv fun _ => hdue).mono fun _ _ h => h.1.sound

theorem targets_careful {body : Target → Script Val Unit} (hs : cfg.Sound s.1)
    (hbody : ∀ t u, cfg.Sound u.1 → CarefulWp cfg routes (body t) (fun _ v => cfg.Sound v.1) u) :
    CarefulWp cfg routes (forEach targets body) (fun _ u => cfg.Sound u.1) s := by
  refine Wp.forEach (I := fun u : Chain Val × List _ => cfg.Sound u.1) (fun _ => id) (fun t _ u hu => ?_) hs
  refine (hbody t u hu).mono fun r v hv => ?_
  cases r with
  | ok _ => exact hv
  | error message => exact hv

theorem missingGuardians_reads (l : List Target) :
    Issues (fun _ _ => True) Request.Reads (missingGuardians l : Script Val (List String)) := by
  induction l with
  | nil => trivial
  | cons t rest ih =>
    unfold missingGuardians
    split
    · exact ih
    · exact Issues.perform trivial fun _ _ => ih.bind fun _ => trivial

theorem assertGuardiansSet_reads :
    Issues (fun _ _ => True) Request.Reads (assertGuardiansSet : Script Val Unit) := by
  refine (missingGuardians_reads targets).bind fun missing => ?_
  split
  · trivial
  · trivial

/-- Whatever it meets, the script submits an acceptance only of a nomination. -/
theorem main_careful (hcfg : cfg.Proper routes) (hs : cfg.Sound s.1) (phase : Phase) :
    CarefulWp cfg routes (cfg.main phase execute) (fun _ u => cfg.Sound u.1) s := by
  refine Wp.bind ((careful_of_reads assertGuardiansSet_reads hs).mono fun r t ht => ?_)
  cases r with
  | error message => exact ht
  | ok _ =>
    cases phase with
    | nominate =>
      refine read_careful trivial ht (fun _ _ => id) fun stored u hu => ?_
      refine read_careful trivial hu (fun _ _ => id) fun now v hv => ?_
      exact targets_careful hv fun t w hw => nominateTarget_careful hcfg hw _ t
    | execute =>
      refine read_careful trivial ht (fun _ _ => id) fun now u hu => ?_
      exact targets_careful hu fun t v hv => executeTarget_careful hcfg hv now t

end Careful

/-! ## Any number of runs of the script -/

section Runs

variable {routes : Routes Val}

abbrev HandoverPool (Val : Type) : Type := Pool Request (Request.Ans Val) String (Reply Val) (Chain Val)

abbrev HandoverMove (Val : Type) : Type := Move (Reply Val) (Phase × Bool) (Happening Val)

variable (cfg routes) in
/-- A run of the script starts, makes its next request or is cut off, or something happens
beside it. -/
abbrev Step : HandoverPool Val → HandoverMove Val → HandoverPool Val → Prop :=
  Pool.Step (cfg.exec routes) (fun k => cfg.main k.1 k.2) (cfg.happen routes)

/-- Nothing of earlier runs is on its way, and the timelock and the guardians are in place. -/
structure InPlace (chain : Chain Val) : Prop where
  alone : chain.inFlight = []
  guarded : ∀ p : Pausable, chain.ledger.system.guardian.get p.contract ≠ none
  delay : chain.ledger.system.governance.minDelay ≠ none
  live : chain.ledger.system.governance.isPaused = false

/-- Before any run of the script. -/
def unstarted (s : Ledger Val) : HandoverPool Val := ⟨⟨s, []⟩, []⟩

theorem bargain (hcfg : cfg.Proper routes) : Pool.RelyGuarantee (cfg.exec routes)
    (fun k : Phase × Bool => cfg.main k.1 k.2) (cfg.happen routes) cfg.Sound cfg.Evolves
    (fun _ _ _ => True) (Careful cfg) where
  refl := Evolves.refl
  trans _ _ _ := Evolves.trans
  keep _ _ h hs := (h hs).sound
  acts _ _ _ _ _ _ hop := exec_evolves hcfg hop
  happens _ _ _ _ he := happen_evolves hcfg he
  starts k _ hs := (main_careful hcfg hs k.1).mono fun _ _ _ => trivial

theorem sound_run (hcfg : cfg.Proper routes) {s : Ledger Val} (hs : cfg.Handing s)
    {run : List (HandoverMove Val × HandoverPool Val)} (hr : IsRun (cfg.Step routes) (unstarted s) run) :
    AllStates (fun pool => cfg.Sound pool.shared) (unstarted s) run ∧
    IsRun (fun pool _ pool' => cfg.Evolves pool.shared pool'.shared) (unstarted s) run := by
  have hsound : cfg.Sound (unstarted s).shared := by
    refine ⟨hs, fun tx htx => ?_⟩
    cases htx
  have hsafe : Pool.Every (Pool.SafeParty (cfg.exec routes) cfg.Evolves (fun _ _ _ => True) (Careful cfg))
      (unstarted s) := by
    intro party hparty
    cases hparty
  have hmeets : AllSteps (Pool.Meets fun _ _ _ => True) (unstarted s) run :=
    allSteps_of_forall (Pool.meets_of_forall fun _ _ _ => trivial) _ _
  exact ⟨((bargain hcfg).allStates hr hmeets hsound hsafe).mono fun _ hpool => hpool.1,
    (bargain hcfg).isRun hr hmeets hsound hsafe⟩

/-- At every moment of every run, whichever runs of the script were cut off and whatever others
do or the network does with what was sent, a contract is in one of three places: with the
deployer and nothing queued, with the deployer and nominated and its acceptance queued, or
with the timelock, and there it stays. -/
theorem handover_safe (hcfg : cfg.Proper routes) {s : Ledger Val} (hs : cfg.Handing s)
    {run : List (HandoverMove Val × HandoverPool Val)} (hr : IsRun (cfg.Step routes) (unstarted s) run) :
    AllStates (fun pool => ∀ c, cfg.Stage c (cfg.custody pool.shared.ledger c)) (unstarted s) run ∧
    IsRun (fun pool _ pool' => ∀ c, cfg.Handed c (cfg.custody pool.shared.ledger c) →
      cfg.Handed c (cfg.custody pool'.shared.ledger c)) (unstarted s) run := by
  obtain ⟨hstates, hmoves⟩ := sound_run hcfg hs hr
  exact ⟨hstates.mono fun _ hpool => hpool.handing.stage,
    hstates.isRun hmoves fun _ _ _ hpool hmove => (hmove hpool).handed⟩

end Runs

end Handover

/-! ## A first run that is cut off -/

namespace Sample

open Handover

def digests : List (String × BitVec 256) := [
  ("kryon:handover:testnet:vault", 0xbafe55d23bf28eb8f40ffefa7a249594ef7735ee1ecb1e89dc0551eb24a0207f),
  ("kryon:handover:testnet:engine", 0x29b8158ebfbc460875449295a1c05c1818d6228d7c4e533fd483490b29769f9a),
  ("kryon:handover:testnet:orderGateway", 0x40f62aa14f4a6c1841105ee0d2ada89837f23ec849da6910802d6912ddf755af),
  ("kryon:handover:testnet:oracleAdapter", 0xa7533d0284c0c347bf40a91174a12b69dbb8563d637be2376d9b7537c2423e8d),
  ("kryon:handover:testnet:liquidation", 0x4865784140f850b9eee31cb25793d94981632890847e00c0fd1570fe65bb63d1),
  ("kryon:handover:testnet:insurance", 0x72e8afbc7867cbf6ed0912358f8fac6d8ed47671205b9ca9cc2ca84bc3337231),
  ("kryon:handover:testnet:risk", 0x9411acfa06a482dad717bd27ced42960f3e33495637789e34bf66b03b9f66944)]

def plan : Handover where
  contracts := deployment
  risk := .contract 8
  governance := timelock
  admin := admin
  network := "testnet"
  sha256 text := (digests.lookup text).getD 0

/-- `accept_admin` of each contract. -/
def accepting : Routes Nat where
  peers env call :=
    if call.action = "accept_admin" then
      ([.oracle, .vault, .engine, .insurance, .liquidation, .gateway].find?
        fun c => deployment.address c = call.target).map fun c => .role (.acceptAdmin env c)
    else none
  risk env call :=
    if call.target = plan.risk ∧ call.action = "accept_admin" then some (.acceptAdmin env) else none

/-- As deployed, with a guardian for both contracts that have one. -/
def deployed : Ledger Nat where
  system := {
    world := { wired deployment admin usdc 50 with oracle := { admin := some admin } }
    guardian := ((∅ : Store Contract Address).set .vault keeper).set .gateway keeper
    governance := { admin := some admin, guardian := some keeper, minDelay := some 172800, paused := some false } }
  risk := { admin := some admin }

def onTime (now : Nat) : Reply Nat := { server := .ledger (governanceHost now), clock := now }

/-- The vault's acceptance is not confirmed in time and lands after the script has given up; a
second run is stopped at the engine. -/
def cutOff : List (HandoverMove Nat) :=
  .start (.nominate, true) :: List.replicate 9 (.act 0 (onTime 1000)) ++
    [.act 0 { server := .unconfirmed }, .world (.lands 0 (governanceHost 1030)), .start (.nominate, true)] ++
    List.replicate 9 (.act 1 (onTime 2000)) ++ [.stop 1]

theorem plan_proper : plan.Proper accepting where
  ids c k h := by
    revert h
    rcases c with c | _ <;> rcases k with k | _ <;> try cases c
    all_goals try cases k
    all_goals decide +kernel
  apart := by
    rintro a (rfl | rfl) <;> decide
  distinct := by decide
  reached env c := by cases c <;> rfl
  beside env c := by
    cases c with
    | core c => cases c <;> rfl
    | risk => rfl

theorem deployed_handing : plan.Handing deployed where
  stage c := by
    refine .inl ⟨?_, .inl ?_, rfl⟩
    · cases c with
      | core c => cases c <;> rfl
      | risk => rfl
    · cases c with
      | core c => cases c <;> rfl
      | risk => rfl
  admin := rfl
  pending := rfl
  deployed := rfl

def queuedOf (pool : HandoverPool Nat) : List Bool :=
  targets.map fun c => (plan.custody pool.shared.ledger c).proposal.isSome

theorem cutOff_run : ∃ run, IsRun (plan.Step accepting) (unstarted deployed) run ∧
    InPlace (final (unstarted deployed) run).shared ∧
    queuedOf (final (unstarted deployed) run) = [true, false, false, false, false, false, false] := by
  let inPlace (chain : Chain Nat) : Bool := chain.inFlight = [] ∧
    chain.ledger.system.guardian.get .vault ≠ none ∧ chain.ledger.system.guardian.get .gateway ≠ none ∧
    chain.ledger.system.governance.minDelay ≠ none ∧ chain.ledger.system.governance.isPaused = false
  obtain ⟨run, hrun, hend⟩ := exists_isRun_of_play
    (Pool.step (plan.exec accepting) (fun k : Phase × Bool => plan.main k.1 k.2) (plan.happen accepting))
    (unstarted deployed) cutOff
    (fun run => (inPlace (final (unstarted deployed) run).shared, queuedOf (final (unstarted deployed) run)))
    (show _ = some (true, [true, false, false, false, false, false, false]) by decide +kernel)
  obtain ⟨hplace, hqueued⟩ := Prod.mk.inj hend
  obtain ⟨halone, hvault, hgateway, hdelay, hlive⟩ := of_decide_eq_true hplace
  refine ⟨run, hrun, ⟨halone, fun p => ?_, hdelay, hlive⟩, hqueued⟩
  cases p with
  | vault => exact hvault
  | gateway => exact hgateway

end Sample

namespace Handover

open Sample in
theorem handover_safe_cutOff : ∃ run : List (HandoverMove Nat × HandoverPool Nat),
    queuedOf (final (unstarted deployed) run) = [true, false, false, false, false, false, false] ∧
    AllStates (fun pool => ∀ c, plan.Stage c (plan.custody pool.shared.ledger c)) (unstarted deployed) run ∧
    IsRun (fun pool _ pool' => ∀ c, plan.Handed c (plan.custody pool.shared.ledger c) →
      plan.Handed c (plan.custody pool'.shared.ledger c)) (unstarted deployed) run := by
  obtain ⟨run, hrun, _, hqueued⟩ := cutOff_run
  exact ⟨run, hqueued, handover_safe plan_proper deployed_handing hrun⟩

end Handover

end Kryon

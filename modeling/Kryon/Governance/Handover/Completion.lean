import Kryon.Governance.Handover.Runs

/-! # The handover from wherever it was left

On a working network two runs of the script, one of each phase, finish what earlier runs began. -/
namespace Kryon
open Transaction Runs Program

namespace Handover

variable {cfg : Handover} {Val : Type}

/-! ## A working network -/

section Completion

variable {routes : Routes Val} {phase : Phase} {chain chain' : Chain Val} {env : GovernanceHost Val}
  {tx : Submission}

variable (cfg) in
structure Ready (chain : Chain Val) : Prop extends InPlace chain where
  sound : cfg.Sound chain

variable (cfg routes) in
/-- Others act between the script's steps, and nobody vetoes. -/
def Meanwhile : Chain Val → Chain Val → Prop :=
  Relation.ReflTransGen fun chain chain' =>
    ∃ op, ¬ Vetoes op ∧ cfg.happen routes (.other op) chain = some chain'

/-- A queue lands within the margin that its eta leaves, an execution no earlier than its. -/
def Submission.InTime (cfg : Handover) (env : GovernanceHost Val) (s : Ledger Val) : Submission → Prop
  | .nominateAdmin _ => True
  | .queue _ eta => eta ≤ u64Max ∧ ∀ d, s.system.governance.minDelay = some d → env.timestamp + d ≤ eta
  | .execute c => (∀ p, s.system.governance.proposal.get (cfg.proposalId c) = some p → p.eta ≤ env.timestamp) ∧
      ∀ call, env.returns call = true

variable (cfg) in
/-- The server answers, what it takes lands in time, and the second phase starts late enough. -/
def Prompt (phase : Phase) (op : Request) (r : Reply Val) (chain : Chain Val) : Prop :=
  ∃ env, r.server = .ledger env ∧
    match op with
    | .simulate tx | .submit tx => tx.InTime cfg env chain.ledger
    | .dateNow => phase = .execute → ∀ c p,
        chain.ledger.system.governance.proposal.get (cfg.proposalId c) = some p → p.eta ≤ r.clock
    | _ => True

variable (cfg) in
def Still (chain chain' : Chain Val) : Prop :=
  ∀ c, cfg.custody chain'.ledger c = cfg.custody chain.ledger c

theorem Still.onward (h : cfg.Still chain chain') (hs : cfg.Sound chain') : cfg.Onward chain chain' := by
  refine ⟨hs, fun c hn => ?_, fun c hq => .inl ?_, fun c hh => ?_, fun c ht => ?_⟩ <;> rw [h c]
  · exact hn
  · exact hq
  · exact hh
  · exact ht

theorem Onward.trans (h : cfg.Onward chain chain') {chain'' : Chain Val} (h' : cfg.Onward chain' chain'')
    (hs : cfg.Sound chain) : cfg.Onward chain chain'' :=
  Evolves.trans (fun _ => h) (fun _ => h') hs

theorem meanwhile_ready (hcfg : cfg.Proper routes) (h : cfg.Meanwhile routes chain chain')
    (hs : cfg.Ready chain) : cfg.Ready chain' ∧ cfg.Still chain chain' := by
  induction h with
  | refl => exact ⟨hs, fun _ => rfl⟩
  | @tail b c _ hstep ih =>
    obtain ⟨hb, hstill⟩ := ih
    obtain ⟨op, hveto, hop⟩ := hstep
    have hsound := (happen_evolves hcfg hop hb.sound).sound
    simp only [happen] at hop
    split at hop
    · rename_i huninvolved
      obtain rfl := Option.some.inj hop
      rcases commit_cases (op.call cfg.governance routes) b.ledger with ⟨_, hx⟩ | ⟨_, hx⟩
      · obtain ⟨haside, hlive⟩ := other_aside hcfg hb.sound.handing huninvolved hx
        refine ⟨⟨⟨hb.alone, ?_, ?_, hlive hveto hb.live⟩, hsound⟩, fun c => (haside.custody c).trans (hstill c)⟩
        · rw [haside.guardian]
          exact hb.guarded
        · rw [haside.governance]
          exact hb.delay
      · rw [hx] at hsound ⊢
        exact ⟨hb, hstill⟩
    · cases hop

theorem submission_frame (hcfg : cfg.Proper routes) {s t : Ledger Val} (hs : cfg.Handing s)
    (h : Returns (tx.call cfg routes env) s () t) : t.system.guardian = s.system.guardian ∧
      t.system.governance.minDelay = s.system.governance.minDelay ∧
      t.system.governance.isPaused = s.system.governance.isPaused := by
  cases tx with
  | nominateAdmin c =>
    obtain ⟨_, rfl⟩ := nominate_returns.mp h
    simp
  | queue c eta =>
    obtain ⟨_, rfl⟩ := queue_effect h
    exact ⟨rfl, rfl, rfl⟩
  | execute c =>
    obtain ⟨p, next, _, _, _, rfl⟩ := execute_effect hcfg (hs.stage c) h
    simp [Governance.isPaused]

theorem timelock_requireAdmin {s : Ledger Val} (hs : cfg.Handing s) :
    Governance.requireAdmin (sentBy env cfg.admin).toEnv s.system.governance = .ok cfg.admin := by
  simp [Governance.requireAdmin, hs.admin, okOr, requireAuth_sentBy]

theorem queue_returns {s : Ledger Val} {c : Target} {eta : Nat} (hs : cfg.Handing s)
    (hdelay : s.system.governance.minDelay ≠ none)
    (hnew : s.system.governance.proposal.get (cfg.proposalId c) = none)
    (htime : Submission.InTime cfg env s (.queue c eta)) :
    ∃ t, Returns (Submission.call cfg routes env (.queue c eta)) s () t := by
  obtain ⟨d, hd⟩ := Option.ne_none_iff_exists'.mp hdelay
  obtain ⟨hmax, hlate⟩ := htime
  have hlate : (sentBy env cfg.admin).timestamp + d ≤ eta := hlate d hd
  have hqueue : ∃ p g, Returns (Governance.queue (sentBy env cfg.admin).toEnv (cfg.proposalId c)
      (cfg.address c) "accept_admin" [] 0 eta) s.system.governance p g := by
    simp only [Governance.queue, returns_readWith_bind, returns_get_bind, returns_lift_bind,
      returns_modify_bind, returns_pure, reject_ok, okOr_ok]
    refine ⟨_, _, cfg.admin, timelock_requireAdmin hs, (), ?_, d, hd, (), ?_, (), ?_, rfl, rfl⟩
    · rw [hnew]
      exact Bool.false_ne_true
    · omega
    · omega
  obtain ⟨p, g, hqueue⟩ := hqueue
  exact ⟨_, onSystem_returns.mpr ⟨_, onGovernance_returns.mpr ⟨g, returns_void.mpr ⟨p, hqueue⟩, rfl⟩, rfl⟩⟩

/-- A queued acceptance that has matured is executed and accepted. -/
theorem execute_returns (hcfg : cfg.Proper routes) {s : Ledger Val} {c : Target} (hs : cfg.Handing s)
    (hlive : s.system.governance.isPaused = false) (hq : cfg.Queued c (cfg.custody s c))
    (htime : Submission.InTime cfg env s (.execute c)) :
    ∃ t, Returns (Submission.call cfg routes env (.execute c)) s () t := by
  obtain ⟨eta, hp⟩ := hq.proposal
  obtain ⟨hmature, hanswers⟩ := htime
  have hmature : eta ≤ (sentBy env cfg.admin).timestamp := hmature _ hp
  have hexec : ∃ g, Returns (Governance.execute (sentBy env cfg.admin) (cfg.proposalId c))
      s.system.governance { cfg.acceptance c eta with status := .executed } g := by
    simp only [Governance.execute, returns_readWith_bind, returns_get_bind, returns_lift_bind,
      returns_modify_bind, reject_ok, okOr_ok]
    refine ⟨_, cfg.admin, timelock_requireAdmin hs, (), ?_, cfg.acceptance c eta, hp, (), ?_, (), ?_,
      returns_bind.mpr ⟨(), _, returns_lift_bind.mpr ⟨(), failIf_ok.mpr ?_, returns_modify.mpr rfl⟩,
        returns_pure.mpr ⟨rfl, rfl⟩⟩⟩
    · rw [hlive]
      exact Bool.false_ne_true
    · exact not_not.mpr rfl
    · exact Nat.not_lt.mpr hmature
    · rw [show (sentBy env cfg.admin).returns = env.returns from rfl, hanswers]
      exact Bool.noConfusion
  obtain ⟨g, hexec⟩ := hexec
  have hpending : Ledger.pendingAdminOf { s with system := { s.system with governance := g } } c =
      some cfg.governance := by
    rw [← hq.pending]
    cases c with
    | core c => cases c <;> rfl
    | risk => rfl
  have haccept := (accept_returns hcfg (sentBy env cfg.admin).toEnv).mpr
    ⟨cfg.governance, hpending, .inl rfl, rfl⟩
  exact ⟨_, returns_bind.mpr ⟨_, _, onSystem_returns.mpr ⟨_, onGovernance_returns.mpr ⟨g, hexec, rfl⟩, rfl⟩,
    haccept⟩⟩

variable (cfg routes) in
/-- From here on the script makes its way, others acting meanwhile, and ends as said. -/
abbrev ReadyWp (phase : Phase) {α : Type} (p : Script Val α) (Q : Except String α → Chain Val → Prop) :
    Chain Val → Prop :=
  Wp (cfg.exec routes) (cfg.Meanwhile routes) (cfg.Prompt phase) (fun _ _ => True) p Q

theorem read_ready (hcfg : cfg.Proper routes) {op : Request} {α : Type} {f : op.Ans Val → Script Val α}
    {Q : Except String α → Chain Val → Prop} (answer : Chain Val → op.Ans Val)
    (hanswer : ∀ (r : Reply Val) t env, r.server = .ledger env → cfg.exec routes op r t = (.ok (answer t), t))
    (hs : cfg.Ready chain)
    (hf : ∀ t, cfg.Ready t → cfg.Still chain t → cfg.ReadyWp routes phase (f (answer t)) Q t) :
    cfg.ReadyWp routes phase (ask op >>= f) Q chain := by
  refine Wp.perform fun t ht => ⟨trivial, fun r hr => ?_⟩
  obtain ⟨env, hserver, _⟩ := hr
  obtain ⟨ht, hstill⟩ := meanwhile_ready hcfg ht hs
  rw [hanswer r t env hserver]
  exact hf t ht hstill

/-- What is simulated and submitted in time, and succeeds at every such moment, goes through. -/
theorem send_ready (hcfg : cfg.Proper routes) (hs : cfg.Ready chain) (hdue : tx.Due cfg chain.ledger)
    (hcan : ∀ t env, cfg.Ready t → cfg.Still chain t → tx.InTime cfg env t.ledger →
      ∃ u, Returns (tx.call cfg routes env) t.ledger () u) :
    cfg.ReadyWp routes phase (send true tx) (fun r u => r = .ok () ∧ cfg.Ready u ∧ cfg.Onward chain u ∧
      ∃ t env, cfg.Still chain t ∧ Returns (tx.call cfg routes env) t.ledger () u.ledger) chain := by
  refine Wp.perform fun t ht => ⟨trivial, fun r hr => ?_⟩
  obtain ⟨env, hserver, htime⟩ := hr
  obtain ⟨ht, hstill⟩ := meanwhile_ready hcfg ht hs
  obtain ⟨_, hreturns⟩ := hcan t env ht hstill htime
  simp only [exec, hserver, succeeds_of_returns hreturns, if_true]
  show cfg.ReadyWp routes phase (ask (.submit tx) >>= _) _ _
  refine Wp.perform fun u hu => ⟨trivial, fun r hr => ?_⟩
  obtain ⟨env, hserver, htime⟩ := hr
  obtain ⟨hu, hstill'⟩ := meanwhile_ready hcfg hu ht
  have hstill : cfg.Still chain u := fun c => (hstill' c).trans (hstill c)
  obtain ⟨v, hreturns⟩ := hcan u env hu hstill htime
  have hreach : cfg.Onward chain u := hstill.onward hu.sound
  have honward := (submission_turn hcfg hu.sound.handing (hreach.due hdue) hreturns).onward (l := u.inFlight)
    hcfg.distinct hu.sound fun tx htx => .inl htx
  obtain ⟨hguardian, hdelay, hpaused⟩ := submission_frame hcfg hu.sound.handing hreturns
  simp only [exec, hserver, succeeds_of_returns hreturns, if_true, commit_of_returns hreturns]
  refine ⟨rfl, ⟨⟨hu.alone, ?_, ?_, ?_⟩, honward.sound⟩, hreach.trans honward hs.sound, u, env, hstill,
    hreturns⟩
  · rw [hguardian]
    exact hu.guarded
  · rw [hdelay]
    exact hu.delay
  · rw [hpaused]
    exact hu.live

/-! ## Contract by contract -/

variable (cfg) in
/-- Nominated with an acceptance queued, or with the timelock. -/
def Settled (c : Target) (chain : Chain Val) : Prop :=
  cfg.Queued c (cfg.custody chain.ledger c) ∨ cfg.Handed c (cfg.custody chain.ledger c)

theorem Onward.settled (h : cfg.Onward chain chain') {c : Target} (hc : cfg.Settled c chain) :
    cfg.Settled c chain' := by
  rcases hc with hq | hh
  · exact h.queued c hq
  · exact .inr (h.handed c hh)

/-- The admin tells a contract that was handed over from one that was not. -/
theorem Stage.handed_of_admin {c : Target} {k : Custody Val} (hne : cfg.admin ≠ cfg.governance)
    (hs : cfg.Stage c k) (hadmin : k.admin = some cfg.governance) : cfg.Handed c k := by
  rcases hs with hk | hq | hh
  · exact absurd (Option.some.inj (hk.admin.symm.trans hadmin)) hne
  · exact absurd (Option.some.inj (hq.admin.symm.trans hadmin)) hne
  · exact hh

theorem Queued.not_handed {c : Target} {k : Custody Val} (hne : cfg.admin ≠ cfg.governance)
    (hq : cfg.Queued c k) (hh : cfg.Handed c k) : False :=
  hne (Option.some.inj (hq.admin.symm.trans hh.admin))

/-- The one contract that is handed over without showing it. -/
theorem Handed.risk_of_view {c : Target} {l : Ledger Val} (hh : cfg.Handed c (cfg.custody l c))
    (hview : l.viewAdmin c ≠ some cfg.governance) : c = .risk := by
  cases c with
  | core c => exact absurd hh.admin hview
  | risk => rfl

/-- What shows neither its new admin nor a proposal has not been handed over. -/
theorem Stage.kept {c : Target} {l : Ledger Val} (hs : cfg.Stage c (cfg.custody l c))
    (hview : l.viewAdmin c ≠ some cfg.governance) (hnew : (cfg.custody l c).proposal = none)
    (htraced : cfg.Traced (cfg.custody l .risk)) : cfg.Kept (cfg.custody l c) := by
  rcases hs with hk | hq | hh
  · exact hk
  · obtain ⟨eta, hsome⟩ := hq.proposal
    rw [hnew] at hsome
    cases hsome
  · obtain rfl := hh.risk_of_view hview
    exact absurd hnew (htraced hh.admin)

/-- From a contract that is the deployer's the nomination and the acceptance go through. -/
theorem handOver_ready (hcfg : cfg.Proper routes) (hs : cfg.Ready chain) (eta : Nat) {c : Target}
    (hkept : cfg.Kept (cfg.custody chain.ledger c)) :
    cfg.ReadyWp routes .nominate (do
        send true (.nominateAdmin c)
        send true (.queue c eta))
      (fun r u => r = .ok () ∧ cfg.Ready u ∧ cfg.Onward chain u ∧ cfg.Settled c u) chain := by
  have hdue : Submission.Due cfg chain.ledger (.nominateAdmin c) := trivial
  refine Wp.bind ((send_ready hcfg hs hdue fun v env hv hstill _ => ⟨_, nominate_returns.mpr ⟨?_, rfl⟩⟩).mono
    fun r v hsent => ?_)
  · have hadmin : (cfg.custody v.ledger c).admin = some cfg.admin := by
      rw [hstill c]
      exact hkept.admin
    exact hadmin
  obtain ⟨rfl, hv, honward, w, env, hstill, hreturns⟩ := hsent
  have hcustody : cfg.custody v.ledger c =
      { cfg.custody chain.ledger c with pending := some cfg.governance } := by
    rw [nominate_custody hreturns, hstill c]
  have hdue : Submission.Due cfg v.ledger (.queue c eta) := by
    show cfg.Nominated (cfg.custody v.ledger c)
    rw [hcustody]
    exact .inl rfl
  have hfree : ∀ {w : Chain Val}, cfg.Still v w →
      w.ledger.system.governance.proposal.get (cfg.proposalId c) = none := by
    intro w hstill
    have hnone : (cfg.custody w.ledger c).proposal = none := by
      rw [hstill c, hcustody]
      exact hkept.proposal
    exact hnone
  refine (send_ready hcfg hv hdue fun w env hw hstill htime =>
    queue_returns hw.sound.handing hw.delay (hfree hstill) htime).mono fun r x hsent => ?_
  obtain ⟨rfl, hx, honward', w, env, hstill, hreturns⟩ := hsent
  refine ⟨rfl, hx, honward.trans honward' hs.sound, .inl ?_⟩
  rw [queue_custody hreturns, hstill c, hcustody]
  exact ⟨hkept.admin, rfl, eta, rfl⟩

theorem nominateTarget_ready (hcfg : cfg.Proper routes) (hs : cfg.Ready chain)
    (htraced : cfg.Traced (cfg.custody chain.ledger .risk)) (eta : Nat) (c : Target) :
    cfg.ReadyWp routes .nominate (cfg.nominateTarget true eta c)
      (fun r u => r = .ok () ∧ cfg.Ready u ∧ cfg.Onward chain u ∧ cfg.Settled c u) chain := by
  refine read_ready hcfg (fun t => t.ledger.viewAdmin c) (fun r t env h => by simp [exec, Reply.read, h])
    hs fun t ht hstill => ?_
  have hstage := ht.sound.handing.stage c
  split
  · rename_i hadmin
    exact ⟨rfl, ht, hstill.onward ht.sound,
      .inr (hstage.handed_of_admin hcfg.distinct (Ledger.adminOf_of_viewAdmin hadmin))⟩
  rename_i hadmin
  refine read_ready hcfg (fun u => u.ledger.system.governance.proposal.get (cfg.proposalId c))
    (fun r u env h => by simp [exec, Reply.read, h]) ht fun u hu hstill' => ?_
  have honward : cfg.Onward chain u := (hstill.onward ht.sound).trans (hstill'.onward hu.sound) hs.sound
  have hread : (cfg.custody u.ledger c).proposal =
      u.ledger.system.governance.proposal.get (cfg.proposalId c) := rfl
  split
  · rename_i hqueued
    refine ⟨rfl, hu, honward, (hu.sound.handing.stage c).resolve_left fun hk => ?_⟩
    rw [← hread, hk.proposal] at hqueued
    cases hqueued
  rename_i hnew
  have hnew : (cfg.custody t.ledger c).proposal = none := by
    rw [← hstill' c, hread]
    exact Option.not_isSome_iff_eq_none.mp hnew
  have hkept := hstage.kept hadmin hnew (hstill .risk ▸ htraced)
  rw [← hstill' c] at hkept
  refine (handOver_ready hcfg hu eta hkept).mono fun r v hv => ?_
  obtain ⟨hr, hv, honward', hsettled⟩ := hv
  exact ⟨hr, hv, honward.trans honward' hs.sound, hsettled⟩

variable (cfg) in
/-- Every acceptance that is queued has matured by the script's clock. -/
def Matured (now : Nat) (chain : Chain Val) : Prop :=
  ∀ c p, (cfg.custody chain.ledger c).proposal = some p → p.eta ≤ now

theorem Matured.still {now : Nat} (h : cfg.Matured now chain) (hstill : cfg.Still chain chain') :
    cfg.Matured now chain' := by
  intro c p hp
  rw [hstill c] at hp
  exact h c p hp

theorem executeTarget_ready (hcfg : cfg.Proper routes) (hs : cfg.Ready chain) {now : Nat}
    (hmature : cfg.Matured now chain) {c : Target} (hsettled : cfg.Settled c chain)
    (hrisk : c = .risk → cfg.Queued c (cfg.custody chain.ledger c)) :
    cfg.ReadyWp routes .execute (cfg.executeTarget true now c)
      (fun r u => r = .ok () ∧ cfg.Ready u ∧ cfg.Matured now u ∧ cfg.Handed c (cfg.custody u.ledger c) ∧
        ∀ k, k ≠ c → cfg.custody u.ledger k = cfg.custody chain.ledger k) chain := by
  refine read_ready hcfg (fun t => t.ledger.viewAdmin c) (fun r t env h => by simp [exec, Reply.read, h])
    hs fun t ht hstill => ?_
  split
  · rename_i hadmin
    exact ⟨rfl, ht, hmature.still hstill, (ht.sound.handing.stage c).handed_of_admin hcfg.distinct
      (Ledger.adminOf_of_viewAdmin hadmin), fun k _ => hstill k⟩
  rename_i hadmin
  refine read_ready hcfg (fun u => u.ledger.system.governance.proposal.get (cfg.proposalId c))
    (fun r u env h => by simp [exec, Reply.read, h]) ht fun u hu hstill' => ?_
  have hqueued : cfg.Queued c (cfg.custody t.ledger c) := by
    rw [hstill c]
    rcases hsettled with hq | hh
    · exact hq
    · have hback : cfg.Handed c (cfg.custody t.ledger c) := (hstill c).symm ▸ hh
      exact hrisk (hback.risk_of_view hadmin)
  have hstill : cfg.Still chain u := fun k => (hstill' k).trans (hstill k)
  rw [← hstill' c] at hqueued
  obtain ⟨eta, hp⟩ := hqueued.proposal
  have hp : u.ledger.system.governance.proposal.get (cfg.proposalId c) = some (cfg.acceptance c eta) := hp
  simp only [hp]
  have hmature := hmature.still hstill
  split
  · rename_i hearly
    exact absurd (hmature c _ hp) (Nat.not_le.mpr hearly)
  have hdue : Submission.Due cfg u.ledger (.execute c) := trivial
  refine (send_ready hcfg hu hdue fun v env hv hstill htime => execute_returns hcfg hv.sound.handing
    hv.live (by rw [hstill c]; exact hqueued) htime).mono fun r v hsent => ?_
  obtain ⟨rfl, hv, _, w, env, hstill', hreturns⟩ := hsent
  have hstage : cfg.Stage c (cfg.custody w.ledger c) := by
    rw [hstill' c]
    exact .inr (.inl hqueued)
  have hframe : ∀ k, k ≠ c → cfg.custody v.ledger k = cfg.custody w.ledger k :=
    fun k hk => execute_frame hcfg hstage hreturns hk
  have hkept := hmature.still hstill'
  obtain ⟨q, next, hq, _, hnext, hcustody⟩ := execute_custody hcfg hstage hreturns
  obtain rfl : next = cfg.governance := hstage.held.2 next hnext
  refine ⟨rfl, hv, fun k p hk => ?_, (hv.sound.handing.stage c).handed_of_admin hcfg.distinct ?_,
    fun k hk => by rw [hframe k hk, hstill' k, hstill k]⟩
  · by_cases hkc : k = c
    · rw [hkc, hcustody] at hk
      obtain rfl := Option.some.inj hk
      exact hkept c q hq
    · rw [hframe k hkc] at hk
      exact hkept k p hk
  · rw [hcustody]

/-- Of the contracts whose admin can be seen none stops the script. -/
theorem cores_ready (hcfg : cfg.Proper routes) (hs : cfg.Ready chain) {now : Nat}
    (hmature : cfg.Matured now chain) (hall : ∀ c, cfg.Settled c chain) {cores : List Target}
    (hcores : ∀ c ∈ cores, c ≠ .risk) :
    cfg.ReadyWp routes .execute (forEach cores (cfg.executeTarget true now))
      (fun r u => r = .ok () ∧ cfg.Ready u ∧ cfg.Matured now u ∧
        cfg.custody u.ledger .risk = cfg.custody chain.ledger .risk ∧
        ∀ c ∈ cores, cfg.Handed c (cfg.custody u.ledger c)) chain := by
  refine Wp.forEach_done
    (I := fun v => cfg.Ready v ∧ cfg.Matured now v ∧ (∀ c, cfg.Settled c v) ∧
      cfg.custody v.ledger .risk = cfg.custody chain.ledger .risk)
    (D := fun c v => cfg.Handed c (cfg.custody v.ledger c)) (fun c hc v hv => ?_)
    (fun v hv hhanded => ⟨rfl, hv.1, hv.2.1, hv.2.2.2, hhanded⟩) ⟨hs, hmature, hall, rfl⟩
  obtain ⟨hv, hmature, hall, hrisk⟩ := hv
  have hc : c ≠ .risk := hcores c hc
  refine (executeTarget_ready hcfg hv hmature (hall c) fun he => absurd he hc).mono fun r w hw => ?_
  obtain ⟨rfl, hw, hmature, hhanded, hframe⟩ := hw
  refine ⟨⟨hw, hmature, fun k => ?_, (hframe .risk hc.symm).trans hrisk⟩, hhanded, fun k hk => ?_⟩
  · by_cases hkc : k = c
    · rw [hkc]
      exact .inr hhanded
    · unfold Settled
      rw [hframe k hkc]
      exact hall k
  · by_cases hkc : k = c
    · rw [hkc]
      exact hhanded
    · rw [hframe k hkc]
      exact hk

/-- What the script cannot see to be done it does once more. -/
theorem executeRisk_again (hcfg : cfg.Proper routes) (hs : cfg.Ready chain) {now : Nat}
    (hmature : cfg.Matured now chain) (hh : cfg.Handed .risk (cfg.custody chain.ledger .risk))
    (htraced : cfg.Traced (cfg.custody chain.ledger .risk)) :
    cfg.ReadyWp routes .execute (cfg.executeTarget true now .risk)
      (fun r u => r ≠ .ok () ∧ cfg.Ready u ∧ cfg.Still chain u) chain := by
  refine read_ready hcfg (fun t => t.ledger.viewAdmin .risk)
    (fun r t env h => by simp [exec, Reply.read, h]) hs fun t ht hstill => ?_
  split
  · rename_i hadmin
    cases hadmin
  refine read_ready hcfg (fun u => u.ledger.system.governance.proposal.get (cfg.proposalId .risk))
    (fun r u env h => by simp [exec, Reply.read, h]) ht fun u hu hstill' => ?_
  have hstill : cfg.Still chain u := fun k => (hstill' k).trans (hstill k)
  obtain ⟨p, hp⟩ := Option.ne_none_iff_exists'.mp (htraced hh.admin)
  rw [← hstill .risk] at hp hh
  have hp : u.ledger.system.governance.proposal.get (cfg.proposalId .risk) = some p := hp
  simp only [hp]
  split
  · rename_i hearly
    exact absurd (hmature.still hstill .risk _ hp) (Nat.not_le.mpr hearly)
  -- nobody is nominated any more, so the simulation fails
  refine Wp.perform fun v hv => ⟨trivial, fun r hr => ?_⟩
  obtain ⟨env, hserver, _⟩ := hr
  obtain ⟨hv, hstill'⟩ := meanwhile_ready hcfg hv hu
  have hfails : ¬ (Submission.call cfg routes env (.execute .risk)).succeeds v.ledger = true := by
    intro hsucceeds
    obtain ⟨_, hreturns⟩ := returns_commit hsucceeds
    rw [← hstill' .risk] at hh
    obtain ⟨_, next, _, _, hnext, _⟩ := execute_custody hcfg (.inr (.inr hh)) hreturns
    rw [hh.pending] at hnext
    cases hnext
  simp only [exec, hserver, hfails, Bool.false_eq_true, if_false]
  show Except.error _ ≠ Except.ok () ∧ cfg.Ready v ∧ cfg.Still chain v
  refine ⟨?_, hv, fun k => (hstill' k).trans (hstill k)⟩
  rintro ⟨⟩

/-! ## The two phases -/

theorem missingGuardians_ready (hcfg : cfg.Proper routes) (hs : cfg.Ready chain) (l : List Target) :
    cfg.ReadyWp routes phase (missingGuardians l)
      (fun r t => r = .ok [] ∧ cfg.Ready t ∧ cfg.Still chain t) chain := by
  induction l generalizing chain with
  | nil => exact ⟨rfl, hs, fun _ => rfl⟩
  | cons c rest ih =>
    unfold missingGuardians
    split
    · exact ih hs
    · rename_i p _
      refine read_ready hcfg (fun t => t.ledger.system.guardian.get p.contract)
        (fun r t env h => by simp [exec, Reply.read, h]) hs fun t ht hstill => ?_
      refine Wp.bind ((ih ht).mono fun r u hu => ?_)
      obtain ⟨rfl, hu, hstill'⟩ := hu
      obtain ⟨guardian, hguardian⟩ := Option.ne_none_iff_exists'.mp (ht.guarded p)
      refine ⟨?_, hu, fun k => (hstill' k).trans (hstill k)⟩
      simp [hguardian]

theorem assertGuardiansSet_ready (hcfg : cfg.Proper routes) (hs : cfg.Ready chain) :
    cfg.ReadyWp routes phase assertGuardiansSet
      (fun r t => r = .ok () ∧ cfg.Ready t ∧ cfg.Still chain t) chain := by
  refine Wp.bind ((missingGuardians_ready hcfg hs targets).mono fun r t ht => ?_)
  obtain ⟨rfl, ht, hstill⟩ := ht
  exact ⟨rfl, ht, hstill⟩

theorem mem_targets (c : Target) : c ∈ targets := by
  cases c with
  | core c => cases c <;> decide
  | risk => decide

/-- The risk contract comes last. -/
theorem targets_split : ∃ cores, targets = cores ++ [.risk] ∧ ∀ c, c ∈ cores ↔ c ≠ .risk := by
  refine ⟨targets.dropLast, by decide, fun c => ?_⟩
  cases c with
  | core c => cases c <;> decide
  | risk => decide

theorem nominate_ready (hcfg : cfg.Proper routes) (hs : cfg.Ready chain)
    (htraced : cfg.Traced (cfg.custody chain.ledger .risk)) :
    cfg.ReadyWp routes .nominate (cfg.main .nominate true)
      (fun r t => r = .ok () ∧ cfg.Ready t ∧ cfg.Traced (cfg.custody t.ledger .risk) ∧
        ∀ c, cfg.Settled c t) chain := by
  refine Wp.bind ((assertGuardiansSet_ready hcfg hs).mono fun r t ht => ?_)
  obtain ⟨rfl, ht, hstill⟩ := ht
  refine read_ready hcfg (fun t => t.ledger.system.governance.minDelay)
    (fun r t env h => by simp [exec, Reply.read, h]) ht fun u hu hstill' => ?_
  refine Wp.perform fun v hv => ⟨trivial, fun r _ => ?_⟩
  obtain ⟨hv, hstill''⟩ := meanwhile_ready hcfg hv hu
  have htraced : cfg.Traced (cfg.custody v.ledger .risk) := by
    rw [hstill'' .risk, hstill' .risk, hstill .risk]
    exact htraced
  refine Wp.forEach_done (I := fun w => cfg.Ready w ∧ cfg.Traced (cfg.custody w.ledger .risk))
    (D := cfg.Settled) (fun c _ w hw => ?_)
    (fun w hw hall => ⟨rfl, hw.1, hw.2, fun c => hall c (mem_targets c)⟩) ⟨hv, htraced⟩
  refine (nominateTarget_ready hcfg hw.1 hw.2 _ c).mono fun r x hx => ?_
  obtain ⟨rfl, hx, honward, hsettled⟩ := hx
  exact ⟨⟨hx, honward.traced .risk hw.2⟩, hsettled, fun _ => honward.settled⟩

theorem governed_of_handed (hcfg : cfg.Proper routes) (hs : cfg.Handing chain.ledger)
    (h : ∀ c, cfg.Handed c (cfg.custody chain.ledger c)) : chain.ledger.Governed cfg.governance where
  system := by
    refine ⟨fun c => (h (.core c)).admin, fun c => (h (.core c)).pending, ?_⟩
    rw [hs.deployed]
    exact hcfg.apart _ (.inr rfl)
  admin := (h .risk).admin
  pending := (h .risk).pending

theorem execute_ready (hcfg : cfg.Proper routes) (hs : cfg.Ready chain)
    (htraced : cfg.Traced (cfg.custody chain.ledger .risk)) (hall : ∀ c, cfg.Settled c chain) :
    cfg.ReadyWp routes .execute (cfg.main .execute true)
      (fun r t => t.ledger.Governed cfg.governance ∧
        (r = .ok () ↔ cfg.Queued .risk (cfg.custody chain.ledger .risk))) chain := by
  refine Wp.bind ((assertGuardiansSet_ready hcfg hs).mono fun r t ht => ?_)
  obtain ⟨rfl, ht, hstill⟩ := ht
  show cfg.ReadyWp routes .execute (ask .dateNow >>= _) _ _
  refine Wp.perform fun u hu => ⟨trivial, fun r hr => ?_⟩
  obtain ⟨hu, hstill'⟩ := meanwhile_ready hcfg hu ht
  obtain ⟨_, _, hlate⟩ := hr
  have hmature : cfg.Matured r.clock u := hlate rfl
  have hstill : cfg.Still chain u := fun k => (hstill' k).trans (hstill k)
  obtain ⟨cores, hcores, hmem⟩ := targets_split
  show cfg.ReadyWp routes .execute (forEach targets (cfg.executeTarget true r.clock)) _ u
  rw [hcores, forEach_append]
  have hsettled : ∀ c, cfg.Settled c u := by
    intro c
    unfold Settled
    rw [hstill c]
    exact hall c
  refine Wp.bind ((cores_ready hcfg hu hmature hsettled fun c => (hmem c).mp).mono fun r v hv => ?_)
  obtain ⟨rfl, hv, hmature, hrisk, hcored⟩ := hv
  rw [hstill .risk] at hrisk
  have hhanded : ∀ {w : Chain Val}, (∀ k, k ≠ .risk → cfg.custody w.ledger k = cfg.custody v.ledger k) →
      cfg.Handed .risk (cfg.custody w.ledger .risk) → ∀ c, cfg.Handed c (cfg.custody w.ledger c) := by
    intro w hframe hh c
    by_cases hc : c = .risk
    · rw [hc]
      exact hh
    · rw [hframe c hc]
      exact hcored c ((hmem c).mpr hc)
  show cfg.ReadyWp routes .execute (cfg.executeTarget true r.clock .risk >>= pure) _ v
  rw [bind_pure]
  rcases hall .risk with hq | hh
  · -- still to be executed
    have hq' : cfg.Queued .risk (cfg.custody v.ledger .risk) := hrisk ▸ hq
    refine (executeTarget_ready hcfg hv hmature (.inl hq') fun _ => hq').mono fun result w hw => ?_
    obtain ⟨rfl, hw, _, hh, hframe⟩ := hw
    exact ⟨governed_of_handed hcfg hw.sound.handing (hhanded hframe hh), fun _ => hq, fun _ => rfl⟩
  · have hh' : cfg.Handed .risk (cfg.custody v.ledger .risk) := hrisk ▸ hh
    refine (executeRisk_again hcfg hv hmature hh' (hrisk ▸ htraced)).mono fun result w hw => ?_
    obtain ⟨hfails, hw, hstill⟩ := hw
    refine ⟨governed_of_handed hcfg hw.sound.handing (hhanded (fun k _ => hstill k) (hstill .risk ▸ hh')),
      fun h => absurd h hfails, fun hq => (hq.not_handed hcfg.distinct hh).elim⟩

/-- Wherever earlier runs of the script have left the contracts, a first phase that meets a
working network leaves none of them without a nomination and an acceptance, and a second
phase that starts once these have matured leaves all of them with the timelock. It ends without
an error unless the risk contract, whose admin it cannot see, was with the timelock before. -/
theorem handover_completes (hcfg : cfg.Proper routes) {s : Ledger Val} (hs : cfg.Handing s)
    (hrisk : cfg.Traced (cfg.custody s .risk))
    {run : List (HandoverMove Val × HandoverPool Val)} (hr : IsRun (cfg.Step routes) (unstarted s) run)
    (hplace : InPlace (final (unstarted s) run).shared) :
    cfg.ReadyWp routes .nominate (cfg.main .nominate true)
      (fun r t => r = .ok () ∧ (∀ c, cfg.Settled c t) ∧
        cfg.ReadyWp routes .execute (cfg.main .execute true)
          (fun r u => u.ledger.Governed cfg.governance ∧
            (r = .ok () ↔ cfg.Queued .risk (cfg.custody t.ledger .risk))) t)
      (final (unstarted s) run).shared := by
  obtain ⟨hsound, hmoves⟩ := sound_run hcfg hs hr
  have htraced := invariant_of_step
    (I := fun pool => cfg.Sound pool.shared ∧ cfg.Traced (cfg.custody pool.shared.ledger .risk))
    (fun pool _ pool' h hmove => ⟨(hmove h.1).sound, (hmove h.1).traced .risk h.2⟩)
    ⟨hsound.head, hrisk⟩ hmoves
  have hready : cfg.Ready (final (unstarted s) run).shared := ⟨hplace, hsound.at_final⟩
  refine (nominate_ready hcfg hready htraced.at_final.2).mono fun r t h => ?_
  obtain ⟨hr, ht, htraced, hall⟩ := h
  exact ⟨hr, hall, execute_ready hcfg ht htraced hall⟩

end Completion

open Sample in
theorem deployed_traced : plan.Traced (plan.custody deployed .risk) := by
  intro h
  cases h

open Sample in
theorem handover_completes_cutOff : ∃ run : List (HandoverMove Nat × HandoverPool Nat),
    queuedOf (final (unstarted deployed) run) = [true, false, false, false, false, false, false] ∧
    plan.ReadyWp accepting .nominate (plan.main .nominate true)
      (fun r t => r = .ok () ∧ (∀ c, plan.Settled c t) ∧
        plan.ReadyWp accepting .execute (plan.main .execute true)
          (fun r u => u.ledger.Governed plan.governance ∧
            (r = .ok () ↔ plan.Queued .risk (plan.custody t.ledger .risk))) t)
      (final (unstarted deployed) run).shared := by
  obtain ⟨run, hrun, hplace, hqueued⟩ := cutOff_run
  exact ⟨run, hqueued, handover_completes plan_proper deployed_handing deployed_traced hrun hplace⟩

end Handover

end Kryon

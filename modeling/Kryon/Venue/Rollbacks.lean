import Kryon.Venue.Jobs

/-! # Fills that are taken back

The matcher takes a fill back when its settlement ends without a hash. What the network
has taken stays valid for a minute whatever the polls answer, so a fill is gone for good
only when its submission has failed or has run out by then. -/
namespace Kryon.Venue

open Program Pool

/-! ## Submissions -/

def Op.submits : Op → Bool
  | .sendTransaction (.settleFillSigned ..) _ => true
  | _ => false

def Op.insertsFill : Op → Bool
  | .insertFill .. => true
  | _ => false

def Op.deletesFill : Op → Bool
  | .deleteFill .. => true
  | _ => false

/-- The hash of a submission that the network took. -/
def submission (e : VenueEvent) : Option Nat :=
  if e.op.submits then
    match e.reply with
    | .fails _ | .rejects _ => none
    | _ => some e.before.txs.length
  else none

/-- What a party did since it last inserted a fill. -/
def sinceFill (past : List VenueEvent) : List VenueEvent := past.takeWhile fun e => !e.op.insertsFill

/-- No submission made for a fill that has been deleted again is applied. -/
def GoneForGood (w : World) : List VenueEvent → Prop
  | [] => True
  | e :: older =>
    (e.op.deletesFill = true → tookEffect e.reply = true →
      ∀ s ∈ sinceFill older, ∀ hash ∈ submission s, w.outcome hash ≠ some .applied) ∧
    GoneForGood w older

instance (w : World) : (past : List VenueEvent) → Decidable (GoneForGood w past)
  | [] => .isTrue trivial
  | e :: older =>
    have : Decidable (GoneForGood w older) := instDecidableGoneForGood w older
    inferInstanceAs (Decidable ((e.op.deletesFill = true → tookEffect e.reply = true →
      ∀ s ∈ sinceFill older, ∀ hash ∈ submission s, w.outcome hash ≠ some .applied) ∧
        GoneForGood w older))

/-! ## Giving up -/

/-- It has failed, or no ledger took it within its time bound. -/
def ChainTx.dead (nowSec : Nat) (tx : ChainTx) : Bool :=
  tx.outcome == .failed || tx.outcome == .pending && tx.maxTime < nowSec

def World.dead (w : World) (hash : Nat) : Bool := w.txs[hash]?.any (·.dead w.nowSec)

def throws : Reply → Bool
  | .fails _ | .lost _ => true
  | _ => false

/-- The polls since a party last sent a transaction. -/
def pollsSoFar (past : List VenueEvent) : Nat :=
  (past.takeWhile fun e => match e.op with | .sendTransaction .. => false | _ => true).countP
    fun e => match e.op with | .getTransaction _ => true | _ => false

/-- The submission that the matcher gives up on this reply: the call that sends it throws, one
of its polls throws, the thirtieth has no answer, or its success cannot be recorded. -/
def givenUp (op : Op) (r : Reply) (s : World × List VenueEvent) : Option Nat :=
  match op with
  | .sendTransaction (.settleFillSigned ..) _ => if r matches .lost _ then some s.1.txs.length else none
  | .getTransaction hash =>
    let own := (sinceFill s.2).any (submission · == some hash)
    let unanswered := s.1.report hash r == .NOT_FOUND && pollsSoFar s.2 == 29
    if own && (throws r || unanswered) then some hash else none
  | .recordConfirmed _ _ hash => if wentThrough r then none else some hash
  | _ => none

/-- What the matcher gives up is dead. -/
def GivesUpTheDead (op : Op) (r : Reply) (s : World × List VenueEvent) : Prop :=
  ∀ hash ∈ givenUp op r s, (exec op r s.1).2.dead hash = true

instance (op : Op) (r : Reply) (s : World × List VenueEvent) : Decidable (GivesUpTheDead op r s) :=
  inferInstanceAs (Decidable (∀ hash ∈ givenUp op r s, (exec op r s.1).2.dead hash = true))

/-! ## The dead stay dead -/

def KeepsDead (w w' : World) : Prop := ∀ hash, w.dead hash = true → w'.dead hash = true

theorem now_le_exec (op : Op) (r : Reply) (w : World) : w.now ≤ (exec op r w).2.now := by
  cases op with
  | getAccount | getLatestLedger | simulateTransaction | sendTransaction | getTransaction =>
    cases r <;> exact le_refl _
  | sleep ms =>
    cases r with
    | late => exact le_refl _
    | _ => exact Nat.le_add_right _ _
  | dateNow => exact le_refl _
  | _ => exact sql_world (P := fun w' => w.now ≤ w'.now) (le_refl _) (le_refl _)

theorem ChainTx.dead_later {tx : ChainTx} {t t' : Nat} (h : tx.dead t = true) (ht : t ≤ t') :
    tx.dead t' = true := by
  simp only [ChainTx.dead, Bool.or_eq_true, Bool.and_eq_true, decide_eq_true_eq] at h ⊢
  cases h with
  | inl hfailed => exact .inl hfailed
  | inr hexpired => exact .inr ⟨hexpired.1, hexpired.2.trans_le ht⟩

theorem KeepsDead.of_txs {w w' : World} (hnow : w.now ≤ w'.now)
    (htxs : ∀ (hash : Nat) (tx : ChainTx), w.txs[hash]? = some tx → tx.dead w.nowSec = true →
      w'.txs[hash]? = some tx) : KeepsDead w w' := by
  intro hash hdead
  obtain ⟨tx, htx, hd⟩ := (Option.any_eq_true _ _).mp hdead
  exact (Option.any_eq_true _ _).mpr
    ⟨tx, htxs hash tx htx hd, ChainTx.dead_later hd (Nat.div_le_div_right hnow)⟩

theorem KeepsDead.refl (w : World) : KeepsDead w w := fun _ h => h

theorem KeepsDead.trans (a b c : World) (hab : KeepsDead a b) (hbc : KeepsDead b c) : KeepsDead a c :=
  fun hash h => hbc hash (hab hash h)

theorem keepsDead_exec (op : Op) (r : Reply) (w : World) : KeepsDead w (exec op r w).2 := by
  refine .of_txs (now_le_exec op r w) fun hash tx htx _ => ?_
  obtain ⟨taken, htxs⟩ := exec_txs op r w
  rw [htxs, List.getElem?_append_left (List.getElem?_eq_some_iff.mp htx).1]
  exact htx

theorem keepsDead_happen (e : Happening) (w w' : World) (h : happen e w = some w') : KeepsDead w w' := by
  rcases happen_cases h with hlater | htaken | hprice
  · obtain ⟨ms, rfl⟩ := hlater
    exact .of_txs (Nat.le_add_right _ _) fun _ _ htx _ => htx
  · obtain ⟨taken, tx, outcome, ledger, htx, hpending, hbound, rfl⟩ := htaken
    refine .of_txs (le_refl _) fun hash tx' htx' hdead => ?_
    -- A ledger takes only what is pending and within its bound.
    have hne : taken ≠ hash := by
      intro hsame
      rw [hsame, htx'] at htx
      obtain rfl := Option.some.inj htx
      simp [ChainTx.dead, hpending] at hdead
      omega
    rw [List.getElem?_set_ne hne]
    exact htx'
  · obtain ⟨_, rfl⟩ := hprice
    exact .refl w

theorem not_applied_of_dead {w : World} {hash : Nat} (h : w.dead hash = true) :
    w.outcome hash ≠ some .applied := by
  obtain ⟨tx, htx, hdead⟩ := (Option.any_eq_true _ _).mp h
  intro happlied
  rw [World.outcome, htx] at happlied
  have houtcome : tx.outcome = .applied := Option.some.inj happlied
  simp [ChainTx.dead, houtcome] at hdead

/-! ## A party's submissions -/

/-- All submissions of the running attempt but the hash, if any, are dead. -/
def DeadBut (hash : Option Nat) (s : World × List VenueEvent) : Prop :=
  ∀ e ∈ sinceFill s.2, ∀ h ∈ submission e, s.1.dead h = true ∨ hash = some h

/-- A fill is deleted only when all its submissions are dead. -/
def DeletesTheDead (op : Op) (s : World × List VenueEvent) : Prop :=
  op.deletesFill = true → DeadBut none s

variable {cfg : Config} {w : World} {s t : World × List VenueEvent} {hash : Option Nat}

theorem DeadBut.others (h : DeadBut hash s) (hst : Others KeepsDead s t) : DeadBut hash t := by
  intro e he k hk
  rw [hst.2] at he
  exact (h e he k hk).imp_left (hst.1 k)

theorem DeadBut.step {op : Op} {r : Reply} (h : DeadBut hash s)
    (hop : ∀ k ∈ submission ⟨op, r, s.1⟩, (exec op r s.1).2.dead k = true ∨ hash = some k) :
    DeadBut hash (recorded exec op r s).2 := by
  intro e he k hk
  unfold recorded sinceFill at he
  rw [List.takeWhile_cons] at he
  split at he
  · cases List.mem_cons.mp he with
    | inl hnew =>
      rw [hnew] at hk
      exact hop k hk
    | inr hold => exact (h e hold k hk).imp_left (keepsDead_exec op r s.1 k)
  · cases he

theorem submission_of_not_submits {op : Op} (hop : op.submits = false) (r : Reply) (w : World) :
    submission ⟨op, r, w⟩ = none := by
  simp [submission, hop]

theorem DeadBut.quiet {op : Op} (hop : op.submits = false) (h : DeadBut hash s) (r : Reply) :
    DeadBut hash (recorded exec op r s).2 :=
  h.step fun k hk => by
    rw [submission_of_not_submits hop] at hk
    cases hk

/-! ## The matcher's programs -/

/-- Against all that others do, and while it gives up only what is dead, the program deletes a
fill only when its submissions are dead, and ends with `Q`. -/
abbrev DeadWp {α : Type} (p : Async α) (Q : Except String α → World × List VenueEvent → Prop)
    (s : World × List VenueEvent) : Prop :=
  Wp (recorded exec) (Others KeepsDead) GivesUpTheDead DeletesTheDead p Q s

abbrev DeadSafe {α : Type} (p : Async α) : Prop :=
  Safe (recorded exec) (Others KeepsDead) GivesUpTheDead DeletesTheDead p

/-- No submission is made. -/
abbrev Submitless {α : Type} (p : Async α) : Prop :=
  Issues (fun _ _ => True) (fun op => op.submits = false) p

/-- No fill is deleted. -/
abbrev Deleteless {α : Type} (p : Async α) : Prop :=
  Issues (fun _ _ => True) (fun op => op.deletesFill = false) p

theorem safe_of_deleteless {α : Type} {p : Async α} (h : Deleteless p) : DeadSafe p := by
  refine h.safe fun op s hop hdeletes => ?_
  rw [hop] at hdeletes
  cases hdeletes

/-- While the attempt's submissions are dead, a program without submissions is safe. -/
theorem deadWp_of_submitless {α : Type} {p : Async α} (h : Submitless p) (hs : DeadBut none s) :
    DeadWp p (fun _ t => DeadBut none t) s :=
  h.wp (fun _ _ hst h => h.others hst) (fun _ _ h _ _ => h)
    (fun _ r _ h hop _ => ⟨trivial, h.quiet hop r⟩) hs

theorem recordSettlementFailure_submitless {network fillHash reason : String} :
    Submitless (recordSettlementFailure network fillHash reason) :=
  Issues.tryCatch (issues_perform.mpr rfl) fun _ => trivial

theorem rollbackFill_submitless {network : String} {m : MatchResult} :
    Submitless (rollbackFill network m) := by
  refine Issues.tryCatch ?_ fun _ => trivial
  refine Issues.perform rfl fun _ _ => Issues.perform rfl fun _ _ => Issues.perform rfl fun _ _ => ?_
  exact issues_perform.mpr rfl

theorem not_submits_of_asks {op : Op} (h : op.asks) : op.submits = false := by
  cases op with
  | sendTransaction => cases h
  | _ => rfl

theorem queueSettlement_submitless {network : String} {m : MatchResult} :
    Submitless (queueSettlement network m) := by
  refine (simulateSettleFill_issues.mono fun _ => not_submits_of_asks).bind fun pending => ?_
  cases pending with
  | none => exact recordSettlementFailure_submitless.bind fun _ => trivial
  | some assembledTxXdr => exact Issues.perform rfl fun _ _ => trivial

/-- The insert opens a new attempt. -/
theorem persistFill_deadWp {network : String} {m : MatchResult} :
    DeadWp (persistFill network m) (fun _ t => DeadBut none t) s := by
  refine Wp.tryCatch (Wp.perform fun t _ => ⟨fun hdeletes => ?_, fun r _ => ?_⟩)
  · cases hdeletes
  have hnew : DeadBut none (recorded exec (.insertFill network m) r t).2 := by
    intro e he
    cases he
  cases hanswer : (recorded exec (.insertFill network m) r t).1 with
  | error message => exact hnew
  | ok inserted =>
    refine Wp.mono (deadWp_of_submitless ?_ hnew) fun answer u hu => ?_
    · dsimp only
      split
      · trivial
      refine Issues.perform rfl fun makerUpdated _ => ?_
      split
      · trivial
      refine Issues.perform rfl fun takerUpdated _ => ?_
      split
      · trivial
      exact Issues.perform rfl fun _ _ => trivial
    · cases answer with
      | ok persisted => exact hu
      | error message => exact hu

/-- The polls of the attempt's last submission; all earlier ones are dead. -/
structure Polling (hash left : Nat) (s : World × List VenueEvent) : Prop where
  dead : DeadBut (some hash) s
  own : ∃ e ∈ sinceFill s.2, submission e = some hash
  polls : pollsSoFar s.2 + left = 30

theorem DeadBut.close {k : Nat} (h : DeadBut (some k) s) (hk : s.1.dead k = true) : DeadBut none s := by
  intro e he hash hhash
  cases h e he hash hhash with
  | inl hdead => exact .inl hdead
  | inr hsame =>
    obtain rfl := Option.some.inj hsame
    exact .inl hk

theorem DeadBut.open {k : Nat} (h : DeadBut none s) : DeadBut (some k) s := by
  intro e he hash hhash
  cases h e he hash hhash with
  | inl hdead => exact .inl hdead
  | inr hsame => cases hsame

/-- How a settlement may end: with a hash, all other submissions being dead, or with all of
them dead. -/
def SettledOrDead (r : Except String SettleResult) (s : World × List VenueEvent) : Prop :=
  match r with
  | .ok (.ok hash) => DeadBut (some hash) s
  | _ => DeadBut none s

theorem Polling.others {k left : Nat} (h : Polling k left s) (hst : Others KeepsDead s t) :
    Polling k left t :=
  ⟨h.dead.others hst, hst.2 ▸ h.own, hst.2 ▸ h.polls⟩

theorem mem_sinceFill_recorded {op : Op} {e : VenueEvent} (h : e ∈ sinceFill s.2)
    (hop : op.insertsFill = false) (r : Reply) : e ∈ sinceFill (recorded exec op r s).2.2 := by
  unfold recorded sinceFill
  rw [List.takeWhile_cons_of_pos (by simp [hop])]
  exact List.mem_cons_of_mem _ h

theorem Polling.sleep {k left : Nat} (h : Polling k left s) (ms : Nat) (r : Reply) :
    Polling k left (recorded exec (.sleep ms) r s).2 := by
  obtain ⟨e, he, hown⟩ := h.own
  exact ⟨h.dead.quiet rfl r, ⟨e, mem_sinceFill_recorded he rfl r, hown⟩, h.polls⟩

/-- One more poll without an answer. -/
theorem Polling.poll {k left : Nat} (h : Polling k (left + 1) s) (r : Reply) :
    Polling k left (recorded exec (.getTransaction k) r s).2 := by
  obtain ⟨e, he, hown⟩ := h.own
  refine ⟨h.dead.quiet rfl r, ⟨e, mem_sinceFill_recorded he rfl r, hown⟩, ?_⟩
  have hpolls := h.polls
  have hmore : pollsSoFar (recorded exec (.getTransaction k) r s).2.2 = pollsSoFar s.2 + 1 := by
    simp [recorded, pollsSoFar]
  omega

/-- A poll that leaves the submission open is the end of a dead one. -/
theorem Polling.dead_of_open {k left : Nat} {r : Reply} (h : Polling k (left + 1) s)
    (hC : GivesUpTheDead (.getTransaction k) r s)
    (hopen : throws r = true ∨ s.1.report k r = .NOT_FOUND ∧ left = 0) : s.1.dead k = true := by
  have hown : ((sinceFill s.2).any (submission · == some k)) = true := by
    obtain ⟨e, he, hk⟩ := h.own
    exact List.any_eq_true.mpr ⟨e, he, by simp [hk]⟩
  have hgiven : givenUp (.getTransaction k) r s = some k := by
    have hpolls := h.polls
    simp only [givenUp, hown, Bool.true_and, Bool.or_eq_true, Bool.and_eq_true, beq_iff_eq]
    refine if_pos (hopen.imp_right fun hlast => ⟨hlast.1, ?_⟩)
    omega
  have hdead := hC k hgiven
  rwa [show (exec (.getTransaction k) r s.1).2 = s.1 from rpc_world r s.1 _] at hdead

theorem dead_of_report {k : Nat} {r : Reply} (h : w.report k r = .FAILED) : w.dead k = true := by
  unfold World.report at h
  split at h
  · cases h
  · rename_i tx _ htx
    split at h
    · cases h
    · rename_i hfailed
      exact (Option.any_eq_true _ _).mpr ⟨tx, htx, by simp [ChainTx.dead, hfailed]⟩
    · cases h
  · cases h

/-- What a call to the RPC server answers: the report, or it throws. -/
theorem rpc_cases {β : Type} (r : Reply) (w : World) (a : β) :
    (throws r = true ∧ ∃ message, (rpc r w a).1 = .error message) ∨ (rpc r w a).1 = .ok a := by
  cases r with
  | fails message | lost message => exact .inl ⟨rfl, message, rfl⟩
  | _ => exact .inr rfl

theorem pollConfirmation_deadWp {k left : Nat} (h : Polling k left s)
    (hlast : left = 0 → s.1.dead k = true) : DeadWp (pollConfirmation k left) SettledOrDead s := by
  induction left generalizing s with
  | zero => exact h.dead.close (hlast rfl)
  | succ left ih =>
    refine Wp.perform fun t ht => ⟨fun hdeletes => ?_, fun r _ => ?_⟩
    · cases hdeletes
    have hslept := (h.others ht).sleep 2000 r
    refine Wp.perform fun u hu => ⟨fun hdeletes => ?_, fun r' hC => ?_⟩
    · cases hdeletes
    have hu' := hslept.others hu
    have hpolled := hu'.poll r'
    have hkeeps : u.1.dead k = true → (recorded exec (.getTransaction k) r' u).2.1.dead k = true :=
      keepsDead_exec _ r' u.1 k
    rcases rpc_cases r' u.1 (u.1.report k r') with hthrows | hanswer
    · obtain ⟨hthrows, message, hanswer⟩ := hthrows
      rw [show (recorded exec (.getTransaction k) r' u).1 = .error message from hanswer]
      exact hpolled.dead.close (hkeeps (hu'.dead_of_open hC (.inl hthrows)))
    · rw [show (recorded exec (.getTransaction k) r' u).1 = .ok (u.1.report k r') from hanswer]
      cases hreport : u.1.report k r' with
      | SUCCESS ledger => exact hpolled.dead
      | FAILED => exact hpolled.dead.close (hkeeps (dead_of_report hreport))
      | NOT_FOUND =>
        refine ih hpolled fun hzero => hkeeps (hu'.dead_of_open hC (.inr ⟨hreport, hzero⟩))

/-- An operation that submits nothing, and the rest of the program. -/
theorem deadWp_perform {α : Type} {op : Op} {f : op.Ans → Async α}
    {Q : Except String α → World × List VenueEvent → Prop} (hop : op.submits = false)
    (hs : DeadBut none s) (hf : ∀ answer t, DeadBut none t → DeadWp (f answer) Q t)
    (hQ : ∀ message t, DeadBut none t → Q (.error message) t) : DeadWp (await op >>= f) Q s := by
  refine Wp.perform fun t ht => ⟨fun _ => hs.others ht, fun r _ => ?_⟩
  have ht' := (hs.others ht).quiet hop r
  cases (recorded exec op r t).1 with
  | ok answer => exact hf answer _ ht'
  | error message => exact hQ message _ ht'

section Submission

variable {fill : MatchResult} {makerSig takerSig : String} {maxTime : Nat}

/-- The network has taken the submission: its polls begin. -/
theorem DeadBut.polling {r : Reply} (hs : DeadBut none s)
    (htaken : submission ⟨.sendTransaction (.settleFillSigned fill makerSig takerSig) maxTime, r, s.1⟩ =
      some s.1.txs.length) :
    Polling s.1.txs.length 30
      (recorded exec (.sendTransaction (.settleFillSigned fill makerSig takerSig) maxTime) r s).2 := by
  refine ⟨hs.open.step fun k hk => ?_, ⟨_, List.mem_cons_self, htaken⟩, rfl⟩
  exact .inr (htaken.symm.trans hk)

/-- The call threw after the network took the submission, which has run out by then. -/
theorem DeadBut.lost {message : String} (hs : DeadBut none s)
    (hC : GivesUpTheDead (.sendTransaction (.settleFillSigned fill makerSig takerSig) maxTime)
      (.lost message) s) : DeadBut none (recorded exec
        (.sendTransaction (.settleFillSigned fill makerSig takerSig) maxTime) (.lost message) s).2 :=
  hs.step fun k hk => .inl (hC k hk)

theorem submitSettleFillSigned_deadWp (hs : DeadBut none s) :
    DeadWp (submitSettleFillSigned fill makerSig takerSig) SettledOrDead s := by
  refine Wp.tryCatch (deadWp_perform rfl hs (fun _ s hs => ?_) fun _ _ h => h)
  refine deadWp_perform rfl hs (fun now s hs => ?_) fun _ _ h => h
  refine deadWp_perform rfl hs (fun sim s hs => ?_) fun _ _ h => h
  cases sim with
  | error detail => exact hs
  | ok simulated =>
    refine Wp.perform fun t ht => ⟨fun _ => hs.others ht, fun r hC => ?_⟩
    have hpoll : ∀ u k, Polling k 30 u → DeadWp (pollConfirmation k 30)
        (orElseWp (recorded exec) (Others KeepsDead) GivesUpTheDead DeletesTheDead
          (fun detail => return .error s!"threw: {detail}") SettledOrDead) u := by
      intro u k hu
      refine (pollConfirmation_deadWp hu fun hzero => ?_).mono fun answer v hv => ?_
      · cases hzero
      · cases answer with
        | ok result => exact hv
        | error message => exact hv
    cases r with
    | fails message | rejects message =>
      refine (hs.others ht).step fun k hk => ?_
      cases hk
    | lost message => exact (hs.others ht).lost hC
    | ok | late | simulated => exact hpoll _ _ ((hs.others ht).polling rfl)

end Submission

/-- How `executeSettlement` may end when the fill is kept or not. -/
def KeptOrDead (r : Except String Bool) (s : World × List VenueEvent) : Prop :=
  r = .ok true ∨ DeadBut none s

theorem settleSigned_deadWp {network : String} {m : MatchResult} {makerSig takerSig : String}
    (hs : DeadBut none s) : DeadWp (settleSigned network m makerSig takerSig) KeptOrDead s := by
  refine Wp.bind ((submitSettleFillSigned_deadWp hs).mono fun settled t ht => ?_)
  cases settled with
  | error message => exact .inr ht
  | ok settled =>
    cases settled with
    | error reason =>
      refine Wp.bind ((deadWp_of_submitless recordSettlementFailure_submitless ht).mono fun r u hu => ?_)
      cases r with
      | ok _ => exact .inr hu
      | error message => exact .inr hu
    | ok hash =>
      refine Wp.perform fun u hu => ⟨fun hdeletes => ?_, fun r hC => ?_⟩
      · cases hdeletes
      have hkept : DeadBut (some hash)
          (recorded exec (.recordConfirmed network m.pseudoTxHash hash) r u).2 :=
        (DeadBut.others ht hu).quiet rfl _
      cases r with
      | fails message | lost message =>
        -- The statement throws: the matcher gives up a submission that has succeeded.
        exact .inr (hkept.close (hC hash rfl))
      | _ => exact .inl rfl

theorem executeSettlement_deadWp {network : String} {m : MatchResult} (hs : DeadBut none s) :
    DeadWp (executeSettlement network m) KeptOrDead s := by
  unfold executeSettlement
  split
  · exact settleSigned_deadWp hs
  · exact (deadWp_of_submitless queueSettlement_submitless hs).mono fun _ _ h => .inr h

theorem settleOrRollback_deadWp {network : String} {m : MatchResult} (hs : DeadBut none s) :
    DeadWp (settleOrRollback network m) (fun _ _ => True) s := by
  refine Wp.tryCatch (Wp.bind ((executeSettlement_deadWp hs).mono fun settled t ht => ?_))
  have hback : ∀ (message : String) (u : World × List VenueEvent), DeadBut none u → DeadWp (do
      recordSettlementFailure network m.pseudoTxHash s!"executeSettlement threw: {message}"
      rollbackFill network m) (fun _ _ => True) u := by
    intro message u hu
    refine (deadWp_of_submitless ?_ hu).mono fun _ _ _ => trivial
    exact recordSettlementFailure_submitless.bind fun _ => rollbackFill_submitless
  cases settled with
  | error message =>
    cases ht with
    | inl hkept => cases hkept
    | inr hdead => exact hback message t hdead
  | ok settled =>
    cases settled with
    | true => trivial
    | false =>
      cases ht with
      | inl hkept => cases hkept
      | inr hdead =>
        refine (deadWp_of_submitless rollbackFill_submitless hdead).mono fun r u hu => ?_
        cases r with
        | ok _ => trivial
        | error message => exact hback message u hu

theorem processMatch_deadSafe {oracle : Option Int} {m : MatchResult} :
    DeadSafe (processMatch cfg oracle m) := by
  unfold processMatch
  split
  · exact fun _ => trivial
  split
  · exact fun _ => trivial
  refine (safe_of_deleteless (quarantine_issues fun _ _ => rfl)).bind fun poisoned => ?_
  split
  · exact fun _ => trivial
  intro s
  refine Wp.bind (persistFill_deadWp.mono fun persisted t ht => ?_)
  cases persisted with
  | error message => trivial
  | ok persisted =>
    cases persisted with
    | true => exact settleOrRollback_deadWp ht
    | false => trivial

theorem deadSafe_perform {op : Op} (hop : op.deletesFill = false) : DeadSafe (await op) :=
  safe_of_deleteless (issues_perform.mpr hop)

theorem matcherTick_deadSafe : DeadSafe (matcherTick cfg) := by
  refine (deadSafe_perform rfl).bind fun active => Safe.forEach fun marketId _ => ?_
  split
  · refine (deadSafe_perform rfl).bind fun limitOrders => (deadSafe_perform rfl).bind fun marketOrders => ?_
    split
    · exact fun _ => trivial
    · exact (deadSafe_perform rfl).bind fun oracle => Safe.forEach fun m _ => processMatch_deadSafe
  · exact fun _ => trivial

/-! ## The other programs -/

theorem not_submits_of_broadcast {op : Op} (h : op.ofBroadcast) : op.submits = false := by
  cases op with
  | sendTransaction body maxTime =>
    obtain ⟨payload, hbody⟩ := h
    unfold rebuiltBody at hbody
    split at hbody
    · obtain rfl := Option.some.inj hbody
      rfl
    · cases hbody
  | _ => rfl

/-- The reconciler broadcasts what both parties signed, and submits nothing of its own. -/
theorem not_submits_of_reconciler {op : Op} (h : op.ofReconciler) : op.submits = false := by
  cases op with
  | sendTransaction body maxTime =>
    obtain ⟨_, hbody⟩ := h
    exact not_submits_of_broadcast hbody
  | _ => rfl

theorem keeps_fills_of_sign {op : Op} {id : Nat} (h : op.ofSign id) : op.deletesFill = false := by
  cases op with
  | deleteFill => cases h
  | _ => rfl

theorem keeps_fills_of_orders {op : Op} (h : op.ofOrders) : op.deletesFill = false := by
  cases op with
  | deleteFill => cases h
  | _ => rfl

theorem Task.deadWp (task : Task) (w : World) : DeadWp (task.program cfg) (fun _ _ => True) (w, []) := by
  have hroute : ∀ {p : Async Response}, Deleteless p → DeadWp (answered p) (fun _ _ => True) (w, []) :=
    fun hp => safe_of_deleteless (issues_answered hp) _
  cases task with
  | matcherTick => exact matcherTick_deadSafe _
  | reconcilerTick =>
    refine (deadWp_of_submitless (reconcilerTick_issues.mono fun _ => not_submits_of_reconciler) ?_).mono
      fun _ _ _ => trivial
    intro e he
    cases he
  | sign req => exact hroute (sign_issues.mono fun _ => keeps_fills_of_sign)
  | cancelOrder => exact hroute (cancelOrder_issues.mono fun _ => keeps_fills_of_orders)
  | cancelAll => exact hroute (cancelAllOrders_issues.mono fun _ => keeps_fills_of_orders)
  | placeOrder => exact hroute (placeOrder_issues.mono fun _ => keeps_fills_of_orders)

/-! ## Runs -/

/-- What was dead when its fill was deleted is not applied later. -/
theorem goneForGood_of_accounted {past : List VenueEvent}
    (h : Accounted KeepsDead DeletesTheDead w past) : GoneForGood w past := by
  induction past with
  | nil => trivial
  | cons e older ih =>
    obtain ⟨hsafe, hsince, hrest⟩ := h
    refine ⟨fun hdeletes _ s hs hash hhash => ?_, ih hrest⟩
    cases hsafe hdeletes s hs hash hhash with
    | inl hdead => exact not_applied_of_dead (hsince hash hdead)
    | inr hsame => cases hsame

/-- While the matcher gives up only submissions that are dead, no submission of a fill that
was taken back is ever applied, through any interleaving of the venue's programs, their
crashes and what happens around them. -/
theorem rolledBack_goneForGood (cfg : Config) (w : World) (run : List (VenueMove × VenuePool))
    (hr : Runs.IsRun (VenueStep cfg) (idlePool w) run)
    (hc : Runs.AllSteps (Meets GivesUpTheDead) (idlePool w) run) :
    Runs.AllStates (Every fun w party => GoneForGood w party.past) (idlePool w) run := by
  have hinit : Every (SafeParty exec KeepsDead GivesUpTheDead DeletesTheDead) (idlePool w) := by
    intro party hparty
    cases hparty
  have hsafe := allStates_safe KeepsDead.refl KeepsDead.trans (fun op r w _ _ => keepsDead_exec op r w)
    keepsDead_happen (fun task w => task.deadWp w) hr hc hinit
  exact hsafe.mono fun pool hpool party hparty => goneForGood_of_accounted (hpool party hparty).2

namespace Sample

def signedBid : RestingOrder := { bid with signature := some "B" }

def signedAsk : RestingOrder := { ask with signature := some "A" }

/-- Two signed orders are placed, and a tick persists their fill, submits it and sleeps. -/
def submitted : List VenueMove :=
  [.start (.placeOrder signedBid), .act 0 .ok, .start (.placeOrder signedAsk), .act 1 .ok,
    .start .matcherTick] ++
    -- four reads, the four statements of the fill, the submission, the first sleep
    goes 2 13

/-- The first poll throws, the fill is taken back, and a ledger takes the submission. -/
def pollThrows : List VenueMove :=
  submitted ++ [.act 2 (.fails "fetch failed")] ++ goes 2 5 ++ [.world (.ledgerTakes 0 7 true)]

/-- The transaction fails, and the fill is taken back. -/
def failsOnChain : List VenueMove := submitted ++ [.world (.ledgerTakes 0 7 false)] ++ goes 2 6

end Sample

/-- A poll throws, the matcher takes the fill back, and a ledger then takes the submission. -/
theorem settles_after_rollback : ∃ run,
    Runs.IsRun (VenueStep Sample.venue) (idlePool Sample.listed) run ∧
      ¬ Every (fun w party => GoneForGood w party.past) (Runs.final (idlePool Sample.listed) run) := by
  obtain ⟨run, hrun, hfalse⟩ := exists_run_of_play Sample.venue Sample.listed Sample.pollThrows
    (fun run => decide (Every (fun w party => GoneForGood w party.past)
      (Runs.final (idlePool Sample.listed) run)))
    (show _ = some false by decide +kernel)
  exact ⟨run, hrun, of_decide_eq_false hfalse⟩

theorem rolledBack_goneForGood_failed : ∃ run : List (VenueMove × VenuePool),
    Runs.AllStates (Every fun w party => GoneForGood w party.past) (idlePool Sample.listed) run ∧
      (Runs.final (idlePool Sample.listed) run).shared.db.fills = [] := by
  obtain ⟨run, hrun, hboth⟩ := exists_run_of_play Sample.venue Sample.listed Sample.failsOnChain
    (fun run => (decide (Runs.AllSteps (Meets GivesUpTheDead) (idlePool Sample.listed) run),
      (Runs.final (idlePool Sample.listed) run).shared.db.fills))
    (show _ = some (true, []) by decide +kernel)
  obtain ⟨hmeets, hfills⟩ := Prod.mk.inj hboth
  exact ⟨run, rolledBack_goneForGood Sample.venue Sample.listed run hrun (of_decide_eq_true hmeets), hfills⟩

end Kryon.Venue

import Kryon.Venue.Books

/-! # The books through a shift

Every chore takes books that are in order to books that are in order, as long as its
operations are orderly. In between a match has a fill without a job, and an order counts
less than is booked for it or more. -/
namespace Kryon.Venue

open Program

variable {cfg : Config} {db₀ db : Db} {hole : Option (String × String)} {debt : String → Int → Int}
  {w : World} {t : Terms}

/-! ## Operations that keep the books -/

/-- It writes neither orders nor fills nor jobs. -/
def Op.quiet : Op → Bool
  | .insertFill .. | .addFilled .. | .deleteFill .. | .returnFilled .. | .returnFilledOf ..
  | .settleFillRow .. | .cancelPoisonOrder _ | .cancelOrder .. | .cancelAll .. | .insertOrder _ => false
  | op => !op.writesJobs

/-- What of the database a quiet operation leaves. -/
structure SameTables (db db' : Db) : Prop where
  orders : db'.orders = db.orders
  fills : db'.fills = db.fills
  jobs : db'.jobs = db.jobs ∧ db'.nextJobId = db.nextJobId

theorem sameTables_of_quiet {op : Op} (hop : op.quiet = true) (r : Reply) (w : World) :
    SameTables w.db (exec op r w).2.db := by
  have hdb : (exec op r w).2.db.orders = w.db.orders ∧ (exec op r w).2.db.fills = w.db.fills := by
    cases op with
    | insertFill | addFilled | deleteFill | returnFilled | returnFilledOf | settleFillRow
    | cancelPoisonOrder | cancelOrder | cancelAll | insertOrder | recordFailure | recordConfirmed
    | queueJob | mergeSignedEntry | claimQueued | storeSubmittedHash | markFailed | claimForResubmit
    | confirm | confirmSubmitted | failFrom => cases hop
    | getAccount | getLatestLedger | simulateTransaction | sendTransaction | getTransaction | sleep =>
      cases r <;> exact ⟨rfl, rfl⟩
    | dateNow => exact ⟨rfl, rfl⟩
    | _ =>
      exact sql_world (P := fun w' => w'.db.orders = w.db.orders ∧ w'.db.fills = w.db.fills)
        ⟨rfl, rfl⟩ ⟨rfl, rfl⟩
  have hjobs : op.writesJobs = false := by
    cases op with
    | recordFailure | recordConfirmed | queueJob | mergeSignedEntry | claimQueued | storeSubmittedHash
    | markFailed | claimForResubmit | confirm | confirmSubmitted | failFrom => cases hop
    | _ => rfl
  exact ⟨hdb.1, hdb.2, jobs_of_not_writes hjobs r w⟩

theorem Books.quiet {op : Op} (h : Books db₀ hole debt w.db) (hop : op.quiet = true) (r : Reply) :
    Books db₀ hole debt (exec op r w).2.db := by
  obtain ⟨horders, hfills, hjobs⟩ := sameTables_of_quiet hop r w
  exact h.of_tables horders hfills hjobs

/-- Besides, it may cancel or add an order, settle a fill, and move a job on. -/
def Op.plain : Op → Prop
  | .cancelPoisonOrder _ | .cancelOrder .. | .cancelAll .. | .settleFillRow .. | .mergeSignedEntry ..
  | .claimQueued _ | .storeSubmittedHash .. | .markFailed .. | .claimForResubmit _ | .confirm _
  | .confirmSubmitted _ => True
  | .insertOrder order => order.id = orderId order.owner order.nonce
  | op => op.quiet = true

theorem terms_withEntry {side : Side} {entry : String} {payload : JobPayload} :
    (Db.withEntry side entry payload).terms = payload.terms ∧
      (Db.withEntry side entry payload).pendingTxHash = payload.pendingTxHash := by
  cases side with
  | maker => exact ⟨rfl, rfl⟩
  | taker => exact ⟨rfl, rfl⟩

/-- A signed entry does not change what the job settles. -/
theorem terms_mergeSignedEntry {j : JobRow} {side : Side} {entry : String} {now : Nat} :
    JobRow.terms { j with unsignedXdr := j.unsignedXdr.map (Db.withEntry side entry), updatedAt := now } =
      j.terms := by
  unfold JobRow.terms
  cases j.unsignedXdr with
  | none => rfl
  | some payload =>
    simp only [Option.map_some, Option.bind_some, terms_withEntry.1, terms_withEntry.2]

theorem Books.plain {op : Op} {r : Reply} (h : Books db₀ none noDebt w.db) (hop : op.plain)
    (hC : Orderly op r w) : Books db₀ none noDebt (exec op r w).2.db := by
  have hcancel : ∀ p, Books db₀ none noDebt (w.db.cancelMatching p) := by
    intro p
    refine h.updateOrders (fun _ => ⟨rfl, rfl, rfl⟩) fun o _ hcounted => ?_
    split
    · exact hcounted
    · exact hcounted
  cases op with
  | cancelPoisonOrder | cancelOrder | cancelAll =>
    exact sql_world (P := fun w => Books db₀ none noDebt w.db) h (hcancel _)
  | insertOrder order =>
    exact sql_world (P := fun w => Books db₀ none noDebt w.db) h (h.insertOrder hop)
  | settleFillRow => exact sql_world (P := fun w => Books db₀ none noDebt w.db) h h.settleFillRow
  | markFailed id lastError =>
    -- The statement is orderly only when it does not go through.
    cases r with
    | fails => exact h
    | _ => cases hC
  | mergeSignedEntry id side entry =>
    refine sql_world (P := fun w => Books db₀ none noDebt w.db) h ?_
    exact h.updateJobs (exec_jobKeys (.mergeSignedEntry id side entry) .ok w h.keys)
      (fun _ => ⟨rfl, rfl, rfl, terms_mergeSignedEntry⟩) (fun _ _ hlive => hlive)
      fun _ _ _ hfailed => .inl hfailed
  | claimQueued id =>
    refine sql_world (P := fun w => Books db₀ none noDebt w.db) h ?_
    refine h.updateJobs (exec_jobKeys (.claimQueued id) .ok w h.keys) (fun _ => ⟨rfl, rfl, rfl, rfl⟩)
      (fun j hp _ => ?_) fun _ _ _ hfailed => by cases hfailed
    simp only [Db.claimable, Bool.and_eq_true, beq_iff_eq] at hp
    exact .inl hp.2
  | claimForResubmit id =>
    refine sql_world (P := fun w => Books db₀ none noDebt w.db) h ?_
    refine h.updateJobs (exec_jobKeys (.claimForResubmit id) .ok w h.keys)
      (fun _ => ⟨rfl, rfl, rfl, rfl⟩) (fun j hp _ => ?_) fun _ _ _ hfailed => by cases hfailed
    simp only [Db.reclaimable, Bool.and_eq_true, Bool.or_eq_true, beq_iff_eq] at hp
    exact hp.1.2
  | storeSubmittedHash id hash =>
    refine sql_world (P := fun w => Books db₀ none noDebt w.db) h ?_
    exact h.updateJobs (exec_jobKeys (.storeSubmittedHash id hash) .ok w h.keys)
      (fun _ => ⟨rfl, rfl, rfl, rfl⟩) (fun _ _ hlive => hlive) fun _ _ _ hfailed => .inl hfailed
  | confirm id =>
    refine sql_world (P := fun w => Books db₀ none noDebt w.db) h ?_
    exact h.updateJobs (exec_jobKeys (.confirm id) .ok w h.keys) (fun _ => ⟨rfl, rfl, rfl, rfl⟩)
      (fun _ _ hlive => absurd hlive (TxStatus.not_live (.inr rfl)))
      fun _ _ _ hfailed => by cases hfailed
  | confirmSubmitted id =>
    refine sql_world (P := fun w => Books db₀ none noDebt w.db) h ?_
    exact h.updateJobs (exec_jobKeys (.confirmSubmitted id) .ok w h.keys) (fun _ => ⟨rfl, rfl, rfl, rfl⟩)
      (fun _ _ hlive => absurd hlive (TxStatus.not_live (.inr rfl)))
      fun _ _ _ hfailed => by cases hfailed
  | insertFill | addFilled | deleteFill | returnFilled | returnFilledOf | recordFailure
  | recordConfirmed | queueJob | failFrom => cases hop
  | _ => exact h.quiet rfl r

/-! ## Programs that keep the books -/

/-- Alone and orderly, the program ends with `Q`. -/
abbrev WorkWp {α : Type} (p : Async α) (Q : Except String α → World → Prop) (w : World) : Prop :=
  Wp exec Eq Orderly (fun _ _ => True) p Q w

theorem workWp_of_plain {α : Type} {p : Async α} (hp : Issues (fun _ _ => True) Op.plain p)
    (h : Books db₀ none noDebt w.db) : WorkWp p (fun _ w' => Books db₀ none noDebt w'.db) w :=
  hp.wp (R := Eq) (I := fun w' : World => Books db₀ none noDebt w'.db) (fun _ _ hst hs => hst ▸ hs)
    (fun _ _ _ _ => trivial) (fun _ _ _ hs hop hC => ⟨trivial, hs.plain hop hC⟩) h

theorem workWp_of_quiet {α : Type} {p : Async α} (hp : Issues (fun _ _ => True) (fun op => op.quiet = true) p)
    (w : World) : WorkWp p (fun _ w' => SameTables w.db w'.db) w := by
  refine hp.wp (R := Eq) (I := fun w' : World => SameTables w.db w'.db) (fun _ _ hst hs => hst ▸ hs)
    (fun _ _ _ _ => trivial) (fun op r w' hs hop _ => ⟨trivial, ?_⟩) ⟨rfl, rfl, rfl, rfl⟩
  obtain ⟨horders, hfills, hjobs⟩ := sameTables_of_quiet hop r w'
  exact ⟨horders.trans hs.orders, hfills.trans hs.fills, hjobs.1.trans hs.jobs.1, hjobs.2.trans hs.jobs.2⟩

theorem sql_cases {β : Type} (r : Reply) (w : World) (f : Db → β × Db) :
    (∃ message, r = .fails message ∧ sql r w f = (.error message, w)) ∨
      (∃ message, r = .lost message ∧ sql r w f = (.error message, { w with db := (f w.db).2 })) ∨
      (wentThrough r = true ∧ sql r w f = (.ok (f w.db).1, { w with db := (f w.db).2 })) := by
  cases r with
  | fails message => exact .inl ⟨message, rfl, rfl⟩
  | lost message => exact .inr (.inl ⟨message, rfl, rfl⟩)
  | _ => exact .inr (.inr ⟨rfl, rfl⟩)

theorem workWp_statement (op : Op) (f : Db → op.Ans × Db) {Q : Except String op.Ans → World → Prop}
    (hexec : ∀ r, exec op r w = sql r w f)
    (hfails : ∀ message, Orderly op (.fails message) w → Q (.error message) w)
    (hlost : ∀ message, Orderly op (.lost message) w → Q (.error message) { w with db := (f w.db).2 })
    (hthrough : ∀ r, wentThrough r = true → Orderly op r w → Q (.ok (f w.db).1) { w with db := (f w.db).2 }) :
    WorkWp (await op) Q w := by
  refine wp_perform.mpr fun t ht => ⟨trivial, fun r hC => ?_⟩
  subst ht
  rw [hexec]
  rcases sql_cases r w f with hfailed | hunanswered | hwent
  · obtain ⟨message, rfl, hout⟩ := hfailed
    rw [hout]
    exact hfails message hC
  · obtain ⟨message, rfl, hout⟩ := hunanswered
    rw [hout]
    exact hlost message hC
  · rw [hwent.2]
    exact hthrough r hwent.1 hC

/-- A statement, and the rest of the program. -/
theorem workWp_sql {α : Type} (op : Op) (f : Db → op.Ans × Db) {next : op.Ans → Async α}
    {Q : Except String α → World → Prop} (hexec : ∀ r, exec op r w = sql r w f)
    (hfails : ∀ message, Orderly op (.fails message) w → Q (.error message) w)
    (hlost : ∀ message, Orderly op (.lost message) w → Q (.error message) { w with db := (f w.db).2 })
    (hnext : ∀ r, wentThrough r = true → Orderly op r w →
      WorkWp (next (f w.db).1) Q { w with db := (f w.db).2 }) : WorkWp (await op >>= next) Q w :=
  Wp.bind (workWp_statement op f hexec hfails hlost hnext)

/-- A statement that has to answer. -/
theorem workWp_must (op : Op) (f : Db → op.Ans × Db) {Q : Except String op.Ans → World → Prop}
    (hexec : ∀ r, exec op r w = sql r w f) (hmust : ∀ r, Orderly op r w → wentThrough r = true)
    (hthrough : ∀ r, Orderly op r w → Q (.ok (f w.db).1) { w with db := (f w.db).2 }) :
    WorkWp (await op) Q w := by
  refine workWp_statement op f hexec (fun message hC => ?_) (fun message hC => ?_) fun r _ => hthrough r
  · cases hmust _ hC
  · cases hmust _ hC

theorem workWp_sql_must {α : Type} (op : Op) (f : Db → op.Ans × Db) {next : op.Ans → Async α}
    {Q : Except String α → World → Prop} (hexec : ∀ r, exec op r w = sql r w f)
    (hmust : ∀ r, Orderly op r w → wentThrough r = true)
    (hnext : ∀ r, Orderly op r w → WorkWp (next (f w.db).1) Q { w with db := (f w.db).2 }) :
    WorkWp (await op >>= next) Q w :=
  Wp.bind (workWp_must op f hexec hmust hnext)

/-! ## A match -/

/-- The order is on the table under its id. -/
def Listed (db : Db) (x : RestingOrder) : Prop :=
  ∃ o ∈ db.orders, o.id = x.id ∧ o.owner = x.owner ∧ o.nonce = x.nonce

theorem Listed.later {x : RestingOrder} (hx : Listed db₀ x) (h : Lasting db₀ db) : Listed db x := by
  obtain ⟨o, ho, hid, howner, hnonce⟩ := hx
  obtain ⟨o', ho', hid', howner', hnonce'⟩ := h.orders o ho
  exact ⟨o', ho', hid'.trans hid, howner'.trans howner, hnonce'.trans hnonce⟩

/-- The id and the owner with the nonce name the same row. -/
theorem Listed.iff {x : RestingOrder} (hx : Listed db x) (hids : (db.orders.map (·.id)).Nodup)
    (hnames : ∀ o ∈ db.orders, o.id = orderId o.owner o.nonce) :
    ∀ o ∈ db.orders, o.id = x.id ↔ o.owner = x.owner ∧ o.nonce = x.nonce := by
  obtain ⟨o', ho', hid, howner, hnonce⟩ := hx
  intro o ho
  constructor
  · intro hsame
    obtain rfl := List.inj_on_of_nodup_map hids ho ho' (hsame.trans hid.symm)
    exact ⟨howner, hnonce⟩
  · intro hsame
    rw [hnames o ho, hsame.1, hsame.2, ← howner, ← hnonce, ← hnames o' ho', hid]

theorem Books.listed_iff {x : RestingOrder} (h : Books db₀ hole debt db) (hx : Listed db₀ x) :
    ∀ o ∈ db.orders, o.id = x.id ↔ o.owner = x.owner ∧ o.nonce = x.nonce :=
  (hx.later h.kept).iff h.ids h.names

/-- A match of orders on the table. -/
structure Matched (db : Db) (m : MatchResult) : Prop where
  maker : Listed db m.maker
  taker : Listed db m.taker
  size : 0 < m.fillSize

/-- The match's fill is on the table, and its job is not in the books. -/
structure Unsettled (db₀ : Db) (network : String) (m : MatchResult) (db : Db) : Prop where
  books : Books db₀ (some (network, m.pseudoTxHash)) noDebt db
  fill : Db.fillRow network m ∈ db.fills

/-- After `persistFill`. -/
def Persisted (db₀ : Db) (network : String) (m : MatchResult) (r : Except String Bool) (w : World) : Prop :=
  match r with
  | .ok true => Unsettled db₀ network m w.db
  | _ => Books db₀ none noDebt w.db

/-- After `executeSettlement`. -/
def SettledOrOpen (db₀ : Db) (network : String) (m : MatchResult) (r : Except String Bool) (w : World) :
    Prop :=
  match r with
  | .ok true => Books db₀ none noDebt w.db
  | _ => Unsettled db₀ network m w.db

/-- An orderly statement finds a row that takes the size. -/
theorem addFilled_of_orderly {id : String} {fillSize : Int} {r : Reply}
    (hC : Orderly (.addFilled id fillSize) r w) : (w.db.addFilled id fillSize).1 = true :=
  (Bool.and_eq_true_iff.mp hC).2

section Match

variable {network : String} {m : MatchResult}

theorem persistFill_wp (hm : Matched db₀ m) (h : Books db₀ none noDebt w.db) :
    WorkWp (persistFill network m) (Persisted db₀ network m) w := by
  refine Wp.tryCatch (workWp_sql (.insertFill network m) (·.insertFill network m) (fun _ => rfl)
    (fun _ _ => h) (fun message hC => ?_) fun r _ hC => ?_)
  · -- what the insert threw away was refused in any case
    have hexists : w.db.fills.any (Db.sameFill · (Db.fillRow network m)) = true := (Bool.and_eq_true_iff.mp hC).2
    rw [show w.db.insertFill network m = (false, w.db) from if_pos hexists]
    exact h
  have hone : OneMatch w.db network m := of_decide_eq_true (Bool.and_eq_true_iff.mp hC).1
  unfold Db.insertFill
  split
  · exact h
  rename_i hnew
  have hinserted := h.insertFill hone hm.size (Bool.eq_false_iff.mpr hnew)
  -- The maker's size, then the taker's.
  refine workWp_sql_must (.addFilled m.maker.id m.fillSize) (·.addFilled m.maker.id m.fillSize)
    (fun _ => rfl) (fun _ hC => (Bool.and_eq_true_iff.mp hC).1) fun r hC => ?_
  have hmaker := hinserted.addFilled m.maker.owner m.maker.nonce
    (part m.taker.owner m.taker.nonce m.fillSize) (fun o ho => (hinserted.listed_iff hm.maker o ho).mp) hm.size.le fun owner nonce => by
      simp only [Terms.share, MatchResult.terms]
      omega
  rw [addFilled_of_orderly hC]
  refine workWp_sql_must (.addFilled m.taker.id m.fillSize) (·.addFilled m.taker.id m.fillSize)
    (fun _ => rfl) (fun _ hC => (Bool.and_eq_true_iff.mp hC).1) fun r hC => ?_
  have htaker := hmaker.addFilled m.taker.owner m.taker.nonce noDebt
    (fun o ho => (hmaker.listed_iff hm.taker o ho).mp) hm.size.le fun owner nonce => by
      simp only [noDebt]
      omega
  rw [addFilled_of_orderly hC]
  refine workWp_sql_must (.recordTrade m.maker.marketId m.fillPrice m.fillValue)
    (fun db => ((), db.updateMarkets (·.id == m.maker.marketId) fun row =>
      { row with lastPrice := m.fillPrice, volume := row.volume + m.fillValue }))
    (fun _ => rfl) (fun _ => id) fun r hC => ?_
  exact ⟨htaker.of_tables rfl rfl ⟨rfl, rfl⟩, List.mem_append_right _ List.mem_cons_self⟩

theorem eq_of_mem_of_length_le_one {α : Type} {l : List α} {a b : α} (h : l.length ≤ 1) (ha : a ∈ l)
    (hb : b ∈ l) : a = b := by
  cases l with
  | nil => cases ha
  | cons x rest =>
    obtain rfl : rest = [] := List.length_eq_zero_iff.mp (by simpa using h)
    rw [List.mem_singleton.mp ha, List.mem_singleton.mp hb]

/-- All that is under the match's hash is its fill. -/
theorem Unsettled.terms (h : Unsettled db₀ network m db) :
    ∀ f ∈ db.fills, f.pendingAs network m.pseudoTxHash = true → f.terms = m.terms := by
  intro f hf hpending
  have hrow : (Db.fillRow network m).pendingAs network m.pseudoTxHash = true := by
    simp [FillRow.pendingAs, Db.fillRow]
  have hsame : f = Db.fillRow network m := by
    have hmem := List.mem_filter.mpr ⟨hf, hpending⟩
    have hmem' := List.mem_filter.mpr ⟨h.fill, hrow⟩
    exact eq_of_mem_of_length_le_one (h.books.single network m.pseudoTxHash) hmem hmem'
  rw [hsame]
  rfl

theorem Unsettled.of_sameTables (h : Unsettled db₀ network m db) {db' : Db} (hsame : SameTables db db') :
    Unsettled db₀ network m db' :=
  ⟨h.books.of_tables hsame.orders hsame.fills hsame.jobs, hsame.fills ▸ h.fill⟩

/-- The rollback of an open fill closes the books. -/
theorem rollbackFill_wp (hm : Matched db₀ m) (h : Unsettled db₀ network m w.db) :
    WorkWp (rollbackFill network m) (fun r w' => r = .ok () ∧ Books db₀ none noDebt w'.db) w := by
  have hsize := hm.size
  have hhole : ∀ n k, some (network, m.pseudoTxHash) = some (n, k) → n = network ∧ k = m.pseudoTxHash := by
    intro n k hsame
    obtain ⟨rfl, rfl⟩ := Prod.mk.inj (Option.some.inj hsame)
    exact ⟨rfl, rfl⟩
  refine Wp.tryCatch (workWp_sql_must (.deleteFill network m.pseudoTxHash)
    (fun db => ((), db.deleteFill network m.pseudoTxHash)) (fun _ => rfl)
    (fun _ => id) fun r hC => ?_)
  have hdeleted := h.books.deleteFill hhole h.terms hsize
  refine workWp_sql_must (.returnVolume m.maker.marketId m.fillValue)
    (fun db => ((), db.updateMarkets (·.id == m.maker.marketId) fun row =>
      { row with volume := max 0 (row.volume - m.fillValue) }))
    (fun _ => rfl) (fun _ => id) fun r hC => ?_
  refine workWp_sql_must (.returnFilled m.maker.id m.fillSize)
    (fun db => ((), db.updateOrders (·.id == m.maker.id) (Db.giveBack m.fillSize)))
    (fun _ => rfl) (fun _ => id) fun r hC => ?_
  have hmaker := hdeleted.giveBack (p := (·.id == m.maker.id)) m.maker.owner m.maker.nonce
    (fun owner nonce => - part m.taker.owner m.taker.nonce m.fillSize owner nonce)
    (fun o ho howner hnonce => beq_iff_eq.mpr ((hdeleted.listed_iff hm.maker o ho).mpr ⟨howner, hnonce⟩))
    hsize.le (fun owner nonce => by simp only [Terms.share, MatchResult.terms]; omega)
    fun owner nonce => neg_nonpos.mpr (part_nonneg hsize.le)
  refine workWp_must (.returnFilled m.taker.id m.fillSize)
    (fun db => ((), db.updateOrders (·.id == m.taker.id) (Db.giveBack m.fillSize)))
    (fun _ => rfl) (fun _ => id) fun r hC => ?_
  have htaker := hmaker.giveBack (p := (·.id == m.taker.id)) m.taker.owner m.taker.nonce noDebt
    (fun o ho howner hnonce => beq_iff_eq.mpr ((hmaker.listed_iff hm.taker o ho).mpr ⟨howner, hnonce⟩))
    hsize.le (fun owner nonce => by simp only [noDebt]; omega) fun owner nonce => le_refl _
  exact ⟨rfl, htaker.of_tables rfl rfl ⟨rfl, rfl⟩⟩

theorem JobRow.sound_of_no_terms {fills : List FillRow} {j : JobRow} (hterms : j.terms = none)
    (hstatus : ¬ (j.status = .QUEUED ∨ j.status = .SUBMITTED)) : j.Sound fills := by
  refine ⟨fun hlive => absurd hlive hstatus, ?_, ?_⟩
  · rw [hterms]
    intro t ht
    cases ht
  · rw [hterms]
    intro t ht
    cases ht

/-- A failure on record, or not; the fill is still open. -/
theorem recordSettlementFailure_wp {reason : String} (h : Unsettled db₀ network m w.db) :
    WorkWp (recordSettlementFailure network m.pseudoTxHash reason)
      (fun r w' => r = .ok () ∧ Unsettled db₀ network m w'.db) w := by
  have hopen : Unsettled db₀ network m (w.db.recordFailure network m.pseudoTxHash reason w.now) := by
    refine ⟨?_, h.fill⟩
    exact h.books.upsertJob
      (exec_jobKeys (.recordFailure network m.pseudoTxHash reason) .ok w h.books.keys)
      (fun _ _ _ => ⟨rfl, rfl, rfl, fun _ ht => ht⟩)
      (fun _ _ _ hsound => hsound.of_terms rfl rfl rfl fun hlive => absurd hlive (TxStatus.not_live (.inl rfl)))
      (JobRow.sound_of_no_terms rfl (TxStatus.not_live (.inl rfl))) (.inl rfl)
  exact Wp.tryCatch (workWp_statement (.recordFailure network m.pseudoTxHash reason)
    (fun db => ((), db.recordFailure network m.pseudoTxHash reason w.now)) (fun _ => rfl)
    (fun _ _ => ⟨rfl, h⟩) (fun _ _ => ⟨rfl, hopen⟩) fun _ _ _ => ⟨rfl, hopen⟩)

theorem recordConfirmed_wp {hash : Nat} (h : Unsettled db₀ network m w.db) :
    WorkWp (await (.recordConfirmed network m.pseudoTxHash hash)) (fun r w' =>
      match r with
      | .ok _ => Books db₀ none noDebt w'.db
      | .error _ => Unsettled db₀ network m w'.db) w := by
  have hclosed : Books db₀ none noDebt (w.db.recordConfirmed network m.pseudoTxHash hash w.now) := by
    refine h.books.upsertJob
      (exec_jobKeys (.recordConfirmed network m.pseudoTxHash hash) .ok w h.books.keys)
      (fun _ _ _ => ⟨rfl, rfl, rfl, fun _ ht => ht⟩)
      (fun _ _ _ hsound => hsound.of_terms rfl rfl rfl fun hlive => absurd hlive (TxStatus.not_live (.inr rfl)))
      (JobRow.sound_of_no_terms rfl (TxStatus.not_live (.inr rfl))) (.inr ⟨?_, ?_⟩)
    · intro hfailed
      cases hfailed
    · intro j _ _ hfailed
      cases hfailed
  exact workWp_statement (.recordConfirmed network m.pseudoTxHash hash)
    (fun db => ((), db.recordConfirmed network m.pseudoTxHash hash w.now)) (fun _ => rfl) (fun _ _ => h)
    (fun _ _ => ⟨hclosed.weaken, h.fill⟩) fun _ _ _ => hclosed

/-- The payload of a queued match settles the match. -/
theorem terms_queued {j : JobRow} {assembledTxXdr : String}
    (hpayload : j.unsignedXdr = some (Db.queuedPayload m assembledTxXdr))
    (hhash : j.payloadHash = m.pseudoTxHash) : j.terms = some m.terms := by
  unfold JobRow.terms
  rw [hpayload, hhash]
  exact if_pos rfl

theorem queueJob_wp {assembledTxXdr : String} (hm : Matched db₀ m) (h : Unsettled db₀ network m w.db) :
    WorkWp (await (.queueJob network m assembledTxXdr)) (fun r w' =>
      match r with
      | .ok _ => Books db₀ none noDebt w'.db
      | .error _ => Unsettled db₀ network m w'.db) w := by
  -- Whether or not it answers, a statement that takes effect closes the books.
  suffices hclosed : ∀ r, tookEffect r = true → Orderly (.queueJob network m assembledTxXdr) r w →
      Books db₀ none noDebt (w.db.queueJob network m assembledTxXdr w.now) from
    workWp_statement (.queueJob network m assembledTxXdr)
      (fun db => ((), db.queueJob network m assembledTxXdr w.now)) (fun _ => rfl) (fun _ _ => h)
      (fun _ hC => ⟨(hclosed _ rfl hC).weaken, h.fill⟩)
      fun r hr hC => hclosed r (tookEffect_of_wentThrough hr) hC
  intro r hr hC
  have hfill : (Db.fillRow network m).pendingAs network m.pseudoTxHash = true := by
    simp [FillRow.pendingAs, Db.fillRow]
  -- A row with the match's payload under the match's hash.
  have hsound : ∀ j : JobRow, j.unsignedXdr = some (Db.queuedPayload m assembledTxXdr) →
      j.network = network → j.payloadHash = m.pseudoTxHash → j.Sound w.db.fills := by
    intro j hpayload hnetwork hhash
    have hterms := terms_queued hpayload hhash
    refine ⟨fun _ => ⟨_, hterms⟩, fun t ht => ?_, fun t ht f hf hpending => ?_⟩
    · obtain rfl := Option.some.inj (hterms.symm.trans ht)
      exact hm.size
    · rw [hnetwork, hhash] at hpending
      exact (h.terms f hf hpending).trans (Option.some.inj (hterms.symm.trans ht))
  have hkey : ∀ j, Db.jobOf network m.pseudoTxHash j = true →
      j.network = network ∧ j.payloadHash = m.pseudoTxHash := by
    intro j hj
    simpa only [Db.jobOf, Bool.and_eq_true, beq_iff_eq] using hj
  refine h.books.upsertJob (exec_jobKeys (.queueJob network m assembledTxXdr) .ok w h.books.keys)
    (fun j hj hof => ⟨rfl, rfl, rfl, fun t ht => ?_⟩)
    (fun j _ hof _ => hsound _ rfl (hkey j hof).1 (hkey j hof).2) (hsound _ rfl rfl rfl) (.inr ⟨?_, ?_⟩)
  · -- What the job settled before is what the open fill under its hash is about.
    obtain ⟨hnetwork, hhash⟩ := hkey j hof
    have hown := (h.books.jobs j hj).own t ht _ h.fill (by rw [hnetwork, hhash]; exact hfill)
    have hterms := terms_queued
      (j := { j with unsignedXdr := some (Db.queuedPayload m assembledTxXdr), updatedAt := w.now }) rfl hhash
    exact hterms.trans (congrArg some hown)
  · intro hfailed
    cases hfailed
  · intro j hj hof hfailed
    have hsome := List.all_eq_true.mp ((Bool.or_eq_true_iff.mp hC).resolve_left (by simp [hr])) j hj
    have hstatus : j.status = .FAILED := hfailed
    simp [show Db.jobOf network m.pseudoTxHash j = true from hof, hstatus] at hsome

theorem quiet_of_ofSubmission {op : Op} (h : op.ofSubmission m) : op.quiet = true := by
  cases op with
  | getAccount | getLatestLedger | simulateTransaction | sendTransaction | getTransaction | sleep
  | dateNow => rfl
  | _ => cases h

theorem settleSigned_wp {makerSig takerSig : String} (h : Unsettled db₀ network m w.db) :
    WorkWp (settleSigned network m makerSig takerSig) (SettledOrOpen db₀ network m) w := by
  refine Wp.bind ((workWp_of_quiet (submitSettleFillSigned_issues.mono fun _ => quiet_of_ofSubmission) w).mono
    fun settled w' hsame => ?_)
  have hopen := h.of_sameTables hsame
  cases settled with
  | error message => exact hopen
  | ok settled =>
    cases settled with
    | error reason =>
      refine Wp.bind ((recordSettlementFailure_wp hopen).mono fun r u hu => ?_)
      obtain ⟨rfl, hu⟩ := hu
      exact hu
    | ok hash =>
      refine Wp.bind ((recordConfirmed_wp hopen).mono fun r u hu => ?_)
      cases r with
      | ok _ => exact hu
      | error message => exact hu

theorem queueSettlement_wp (hm : Matched db₀ m) (h : Unsettled db₀ network m w.db) :
    WorkWp (queueSettlement network m) (SettledOrOpen db₀ network m) w := by
  refine Wp.bind ((workWp_of_quiet (simulateSettleFill_issues.mono fun _ hop =>
    quiet_of_ofSubmission (Op.asks.ofSubmission (m := m) hop)) w).mono fun pending w' hsame => ?_)
  have hopen := h.of_sameTables hsame
  cases pending with
  | error message => exact hopen
  | ok pending =>
    cases pending with
    | none =>
      refine Wp.bind ((recordSettlementFailure_wp hopen).mono fun r u hu => ?_)
      obtain ⟨rfl, hu⟩ := hu
      exact hu
    | some assembledTxXdr =>
      refine Wp.bind ((queueJob_wp hm hopen).mono fun r u hu => ?_)
      cases r with
      | ok _ => exact hu
      | error message => exact hu

theorem executeSettlement_wp (hm : Matched db₀ m) (h : Unsettled db₀ network m w.db) :
    WorkWp (executeSettlement network m) (SettledOrOpen db₀ network m) w := by
  unfold executeSettlement
  split
  · exact settleSigned_wp h
  · exact queueSettlement_wp hm h

theorem settleOrRollback_wp (hm : Matched db₀ m) (h : Unsettled db₀ network m w.db) :
    WorkWp (settleOrRollback network m) (fun _ w' => Books db₀ none noDebt w'.db) w := by
  have hback : ∀ (message : String) (u : World), Unsettled db₀ network m u.db → WorkWp (do
      recordSettlementFailure network m.pseudoTxHash s!"executeSettlement threw: {message}"
      rollbackFill network m) (fun _ w' => Books db₀ none noDebt w'.db) u := by
    intro message u hu
    refine Wp.bind ((recordSettlementFailure_wp hu).mono fun r v hv => ?_)
    obtain ⟨rfl, hv⟩ := hv
    exact (rollbackFill_wp hm hv).mono fun r x hx => hx.2
  refine Wp.tryCatch (Wp.bind ((executeSettlement_wp hm h).mono fun settled u hu => ?_))
  cases settled with
  | error message => exact hback message u hu
  | ok settled =>
    cases settled with
    | true => exact hu
    | false =>
      refine (rollbackFill_wp hm hu).mono fun r v hv => ?_
      obtain ⟨rfl, hv⟩ := hv
      exact hv

theorem processMatch_wp {oracle : Option Int} (hm : Matched db₀ m) (h : Books db₀ none noDebt w.db) :
    WorkWp (processMatch cfg oracle m) (fun _ w' => Books db₀ none noDebt w'.db) w := by
  unfold processMatch
  split
  · exact h
  split
  · exact h
  have hquarantine : Issues (fun _ _ => True) Op.plain (quarantine cfg [m.maker, m.taker]) :=
    quarantine_issues fun _ _ => trivial
  refine Wp.bind ((workWp_of_plain hquarantine h).mono fun poisoned u hu => ?_)
  cases poisoned with
  | error message => exact hu
  | ok poisoned =>
    cases poisoned with
    | true => exact hu
    | false =>
      refine Wp.bind ((persistFill_wp hm hu).mono fun persisted v hv => ?_)
      cases persisted with
      | error message => exact hv
      | ok persisted =>
        cases persisted with
        | true => exact settleOrRollback_wp hm hv
        | false => exact hv

end Match

/-! ## A job -/

/-- The job is on the table under its id and hash, and settles what the reader saw. -/
def Recorded (db : Db) (job : JobRow) : Prop := ∃ j ∈ db.jobs, j.id = job.id ∧
  j.network = job.network ∧ j.payloadHash = job.payloadHash ∧ ∃ t, job.terms = some t ∧ j.terms = some t

theorem Recorded.later {job : JobRow} (hjob : Recorded db₀ job) (h : Lasting db₀ db) : Recorded db job := by
  obtain ⟨j, hj, hid, hnetwork, hhash, t, hjobt, hjt⟩ := hjob
  obtain ⟨j', hj', hid', hnetwork', hhash', hterms⟩ := h.jobs j hj
  exact ⟨j', hj', hid'.trans hid, hnetwork'.trans hnetwork, hhash'.trans hhash, t, hjobt, hterms t hjt⟩

theorem plain_of_ofResubmit {job : JobRow} {op : Op} (h : op.ofResubmit job) : op.plain := by
  cases op with
  | claimForResubmit | storeSubmittedHash | confirm | markFailed | settleFillRow => trivial
  | getTransaction | sleep | getAccount | dateNow | sendTransaction => rfl
  | _ => cases h

theorem terms_of_payload {payload : JobPayload} (h : payload.terms = some t) :
    payload.makerAddress = some t.maker ∧ payload.makerNonce = some t.makerNonce ∧
      payload.takerAddress = some t.taker ∧ payload.takerNonce = some t.takerNonce ∧
      payload.fillSize = some t.fillSize := by
  simp only [JobPayload.terms, Option.bind_eq_bind, Option.pure_def, Option.bind_eq_some_iff,
    Option.some.injEq] at h
  obtain ⟨_, hmaker, _, hmakerNonce, _, htaker, _, htakerNonce, _, hsize, rfl⟩ := h
  exact ⟨hmaker, hmakerNonce, htaker, htakerNonce, hsize⟩

/-- A job that settles something is rolled back in full. -/
theorem rollbackJob_eq {job : JobRow} (h : job.terms = some t) :
    rollbackJob job = (do
      await (.deleteFill job.network job.payloadHash)
      await (.returnFilledOf t.maker t.makerNonce t.fillSize)
      await (.returnFilledOf t.taker t.takerNonce t.fillSize)) := by
  unfold JobRow.terms at h
  obtain ⟨payload, hpayload, hterms⟩ := Option.bind_eq_some_iff.mp h
  split at hterms
  · rename_i hpending
    obtain ⟨hmaker, hmakerNonce, htaker, htakerNonce, hsize⟩ := terms_of_payload hterms
    simp only [rollbackJob, rollbackPayload, hpayload, Option.getD_some, hpending, hmaker, htaker, hsize,
      hmakerNonce, htakerNonce, returnFilledOf]
  · cases hterms

/-- The rollback takes off what the job settles, and nothing is left under its hash. -/
theorem rollbackJob_wp {job : JobRow} (hjob : Recorded db₀ job) (h : Books db₀ none noDebt w.db) :
    WorkWp (rollbackJob job) (fun r w' => r = .ok () ∧ Books db₀ none noDebt w'.db ∧
      ∀ f ∈ w'.db.fills, f.pendingAs job.network job.payloadHash = false) w := by
  obtain ⟨j, hj, _, hnetwork, hhash, t, hjobt, hjt⟩ := hjob.later h.kept
  have hsize := (h.jobs j hj).positive t hjt
  have hown := (h.jobs j hj).own t hjt
  rw [hnetwork, hhash] at hown
  rw [rollbackJob_eq hjobt]
  refine workWp_sql_must (.deleteFill job.network job.payloadHash)
    (fun db => ((), db.deleteFill job.network job.payloadHash)) (fun _ => rfl)
    (fun _ => id) fun r hC => ?_
  have hdeleted := h.deleteFill (fun n k hhole => by cases hhole) hown hsize
  refine workWp_sql_must (.returnFilledOf t.maker t.makerNonce t.fillSize)
    (fun db => ((), db.updateOrders (fun o => o.owner == t.maker && o.nonce == t.makerNonce)
      (Db.giveBack t.fillSize))) (fun _ => rfl) (fun _ => id) fun r hC => ?_
  have hmaker := hdeleted.giveBack (p := fun o => o.owner == t.maker && o.nonce == t.makerNonce)
    t.maker t.makerNonce (fun owner nonce => - part t.taker t.takerNonce t.fillSize owner nonce)
    (fun o _ howner hnonce => by simp [howner, hnonce]) hsize.le
    (fun owner nonce => by simp only [Terms.share]; omega)
    fun owner nonce => neg_nonpos.mpr (part_nonneg hsize.le)
  refine workWp_must (.returnFilledOf t.taker t.takerNonce t.fillSize)
    (fun db => ((), db.updateOrders (fun o => o.owner == t.taker && o.nonce == t.takerNonce)
      (Db.giveBack t.fillSize))) (fun _ => rfl) (fun _ => id) fun r hC => ?_
  have htaker := hmaker.giveBack (p := fun o => o.owner == t.taker && o.nonce == t.takerNonce)
    t.taker t.takerNonce noDebt (fun o _ howner hnonce => by simp [howner, hnonce]) hsize.le
    (fun owner nonce => by simp only [noDebt]; omega) fun owner nonce => le_refl _
  exact ⟨rfl, htaker, not_pending_deleteFill⟩

/-- A job without a fill may fail. -/
theorem failFrom_wp {job : JobRow} {status : TxStatus} {message : String} (hjob : Recorded db₀ job)
    (h : Books db₀ none noDebt w.db)
    (hgone : ∀ f ∈ w.db.fills, f.pendingAs job.network job.payloadHash = false) :
    WorkWp (await (.failFrom job.id status message)) (fun _ w' => Books db₀ none noDebt w'.db) w := by
  suffices hfailed : Books db₀ none noDebt
      (w.db.setStatus (fun j => j.id == job.id && j.status == status) .FAILED (some message) w.now) from
    workWp_statement (.failFrom job.id status message)
      (fun db => ((), db.setStatus (fun j => j.id == job.id && j.status == status) .FAILED (some message) w.now))
      (fun _ => rfl) (fun _ _ => h) (fun _ _ => hfailed) fun _ _ _ => hfailed
  refine h.updateJobs (exec_jobKeys (.failFrom job.id status message) .ok w h.keys)
    (fun _ => ⟨rfl, rfl, rfl, rfl⟩) (fun j _ hlive => absurd hlive (TxStatus.not_live (.inl rfl)))
    fun j hj hp _ => .inr (.inr ?_)
  simp only [Bool.and_eq_true, beq_iff_eq] at hp
  obtain ⟨j', hj', hid, hnetwork, hhash, _⟩ := hjob.later h.kept
  obtain rfl := h.keys.eq_of_id hj hj' (hp.1.trans hid.symm)
  rw [hnetwork, hhash]
  exact hgone

theorem rollbackAndFail_wp {job : JobRow} {status : TxStatus} {message : String}
    (hjob : Recorded db₀ job) (h : Books db₀ none noDebt w.db) :
    WorkWp (do
      rollbackJob job
      await (.failFrom job.id status message)) (fun _ w' => Books db₀ none noDebt w'.db) w := by
  refine Wp.bind ((rollbackJob_wp hjob h).mono fun r u hu => ?_)
  obtain ⟨rfl, hbooks, hgone⟩ := hu
  exact failFrom_wp hjob hbooks hgone

theorem reconcileSubmitted_wp {job : JobRow} (hjob : Recorded db₀ job) (h : Books db₀ none noDebt w.db) :
    WorkWp (reconcileSubmitted cfg job) (fun _ w' => Books db₀ none noDebt w'.db) w := by
  unfold reconcileSubmitted
  split
  · exact h
  · rename_i hash _
    have hpoll : Issues (fun _ _ => True) Op.plain (pollSubmitted hash) :=
      Issues.tryCatch (Issues.perform rfl fun _ _ => trivial) fun _ => trivial
    refine Wp.bind ((workWp_of_plain hpoll h).mono fun poll u hu => ?_)
    cases poll with
    | error message => exact hu
    | ok poll =>
      cases poll with
      | none => exact hu
      | some poll =>
        cases poll with
        | SUCCESS ledger =>
          exact workWp_of_plain (Issues.perform trivial fun _ _ =>
            settleFillRow_issues.mono fun _ => plain_of_ofResubmit) hu
        | FAILED => exact rollbackAndFail_wp hjob hu
        | NOT_FOUND => exact workWp_of_plain (resubmitJob_issues.mono fun _ => plain_of_ofResubmit) hu

theorem expireJob_wp {job : JobRow} (hjob : Recorded db₀ job) (h : Books db₀ none noDebt w.db) :
    WorkWp (expireJob job) (fun _ w' => Books db₀ none noDebt w'.db) w := by
  unfold expireJob
  split
  · exact h
  · exact rollbackAndFail_wp hjob h

end Kryon.Venue

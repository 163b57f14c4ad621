import Kryon.Venue.Books
import Kryon.Venue.Reconciler
import Kryon.Venue.Settleable

/-! # What `POST /api/orders` answers and what is stored

The handler inserts the accepted order and does nothing where its id is taken, and answers
the same either way. Other programs fill, cancel and settle at any time, but no statement
changes what an order says, and only this route inserts orders. -/
namespace Kryon.Venue
open Program Runs Transaction Text

/-! ## The handler -/

/-- A request as it reaches the handler. -/
structure OrderRequest (Num : Type) where
  bodyTooLarge : Bool
  /-- `await req.json()`, if that does not throw. -/
  body : Option (JsValue Num)
  withinRateLimit : Bool
  /-- `Date.now()` when the body is validated. -/
  now : Nat

variable {Num : Type} (host : IntakeHost Num) (passphrase : String)

/-- The checks in their order: the order and its signature, or the answer that refuses it. -/
def OrderRequest.check (req : OrderRequest Num) : Except Response (ValidatedOrder × Option String) := do
  failIf (req.bodyTooLarge = true) (refuse 413 "Body too large")
  let body ← someOr req.body (refuse 400 "Invalid JSON body")
  failIf (req.withinRateLimit = false) (refuse 429 "Too many order requests")
  let order ← (validateOrderIntent { host with now := req.now } body passphrase).mapError (refuse 400)
  return (order, (body.field "signature").string?)

/-- The row of an order and its signature; the statement sets its time. -/
def ValidatedOrder.placed (o : ValidatedOrder) (signature : Option String) : RestingOrder :=
  { o.row "" 0 with signature }

/-- `POST /api/orders`. -/
def postOrder (req : OrderRequest Num) : Async Response :=
  match req.check host passphrase with
  | .error response => return response
  | .ok (order, signature) => placeOrder (order.placed signature)

/-- `ok` of the answer's JSON. -/
def Response.ok (r : Response) : Bool := r.error.isNone

/-! ## Histories -/

def Op.insertsOrder : Op → Bool
  | .insertOrder _ => true
  | _ => false

def executeAll (l : List (Op × Reply)) (w : World) : World := l.foldl (fun w e => (exec e.1 e.2 w).2) w

/-- What the other programs do before a statement, and what the database answers to it. -/
structure Pause where
  others : List (Op × Reply) := []
  reply : Reply := .ok
  noInsert : (others.all fun e => !e.1.insertsOrder) = true := by rfl

/-- What the insert throws; a lost answer comes after its effect. -/
def thrown : Reply → Option String
  | .fails message | .lost message => some message
  | _ => none

def paused (op : Op) (t : Pause) (w : World) : Except String op.Ans × World :=
  exec op t.reply (executeAll t.others w)

/-- Other programs at work, or a request from start to end. -/
inductive IntakeMove (Num : Type) where
  | elsewhere (t : Pause)
  | post (req : OrderRequest Num) (env : Nat → Pause)

namespace IntakeMove

/-- The answer, if there is one to a request, and the world after it. -/
def result : IntakeMove Num → World → Option Response × World
  | elsewhere t, w => (none, executeAll t.others w)
  | post req env, w =>
    let run := play paused env (postOrder host passphrase req) 0 w
    (run.1.toOption, run.2.1)

abbrev Step (w : World) (i : IntakeMove Num) (w' : World) : Prop := w' = (i.result host passphrase w).2

end IntakeMove

/-! ## What an order says -/

/-- The terms of a row. -/
def RestingOrder.intent (o : RestingOrder) : ValidatedOrder where
  owner := o.owner
  marketId := o.marketId
  isLong := o.isLong
  size := o.size
  limitPrice := o.limitPrice
  reduceOnly := o.reduceOnly
  nonce := o.nonce
  expiryTs := o.expiryTs

/-- The owner's signature over the terms. -/
def Signs (signature : Option String) (o : ValidatedOrder) : Prop :=
  ∃ text publicKey, signature = some text ∧ host.decodeEd25519PublicKey o.owner = some publicKey ∧
    verifySignedMessage host o.owner
      (orderSettlementMessage passphrase (toHex (Gateway.toArray publicKey)) o.signed) text = true

/-- The one row of the owner and the nonce says what the order says, and is signed. -/
def Stored (o : ValidatedOrder) (w : World) : Prop :=
  ∃ row ∈ w.db.orders,
    (∀ row' ∈ w.db.orders, row'.owner = o.owner → row'.nonce = o.nonce → row' = row) ∧
      row.intent = o ∧ Signs host passphrase row.signature o

/-- A request is answered with `ok` only when its order is the stored one. -/
def Honest (w : World) : IntakeMove Num → Prop
  | .elsewhere _ => True
  | .post req env => ∀ response,
    ((IntakeMove.post req env).result host passphrase w).1 = some response → response.ok = true →
      ∃ o signature, req.check host passphrase = .ok (o, signature) ∧
        Stored host passphrase o ((IntakeMove.post req env).result host passphrase w).2

/-- One of the attempts answers, `left` of them after the next, each after a sleep. -/
def answers (env : Nat → Pause) (n : Nat) : (left : Nat) → Bool
  | 0 => (thrown (env n).reply).isNone
  | left + 1 =>
    match thrown (env n).reply with
    | none => true
    | some message => isTransient message && answers env (n + 2) left

/-- Where the insert of an accepted order answers, its nonce is new to its owner or stands for
the same terms. -/
def Unclaimed (w : World) : IntakeMove Num → Prop
  | .elsewhere _ => True
  | .post req env => ∀ o signature, req.check host passphrase = .ok (o, signature) →
    answers env 0 2 = true →
      ∀ row ∈ w.db.orders, row.owner = o.owner → row.nonce = o.nonce → row.intent = o

/-! ## Statements on what orders say -/

/-- The part of a row that no statement changes. -/
def OrderRow.placed (row : OrderRow) : RestingOrder :=
  { row.toRestingOrder with filledSize := 0, createdAt := 0 }

def World.placed (w : World) : List RestingOrder := w.db.orders.map OrderRow.placed

/-- The rows after an insert. -/
def World.withOrder (w : World) (x : RestingOrder) : List RestingOrder :=
  Table.insertNew w.placed (·.id == x.id) { x with filledSize := 0, createdAt := 0 }

variable {host passphrase} {w w' : World} {o : ValidatedOrder} {signature : Option String}

theorem exec_placed {op : Op} (h : op.insertsOrder = false) (r : Reply) (w : World) :
    (exec op r w).2.placed = w.placed := by
  have hupdate : ∀ {p : OrderRow → Bool} {f : OrderRow → OrderRow}, (∀ row, (f row).placed = row.placed) →
      World.placed { w with db := w.db.updateOrders p f } = w.placed :=
    fun hf => Table.map_update hf
  cases op with
  | insertOrder => cases h
  | addFilled | returnFilled | returnFilledOf | cancelPoisonOrder | cancelOrder | cancelAll =>
    exact sql_world (P := fun w' => w'.placed = w.placed) rfl (hupdate fun _ => rfl)
  | insertFill network m =>
    refine sql_world (P := fun w' => w'.placed = w.placed) rfl ?_
    show World.placed { w with db := (w.db.insertFill network m).2 } = w.placed
    unfold Db.insertFill
    split <;> rfl
  | getAccount | getLatestLedger | simulateTransaction | sendTransaction | getTransaction | sleep =>
    cases r <;> rfl
  | dateNow => rfl
  | _ => exact sql_world (P := fun w' => w'.placed = w.placed) rfl rfl

theorem executeAll_placed {l : List (Op × Reply)} (h : (l.all fun e => !e.1.insertsOrder) = true)
    (w : World) : (executeAll l w).placed = w.placed := by
  induction l generalizing w with
  | nil => rfl
  | cons e rest ih =>
    rw [List.all_cons, Bool.and_eq_true, Bool.not_eq_true'] at h
    exact (ih h.2 _).trans (exec_placed h.1 e.2 w)

/-- Whatever others do meanwhile, an insert adds the order if its id is free. -/
theorem executeInsert_placed (x : RestingOrder) (l : List (Op × Reply))
    (h : (l.all fun e => !e.1.insertsOrder) = true) (w : World) :
    World.placed { executeAll l w with
      db := (executeAll l w).db.insertOrder x (executeAll l w).now } = w.withOrder x := by
  unfold World.withOrder
  rw [← executeAll_placed h w]
  generalize executeAll l w = v
  rw [Db.insertOrder_eq]
  exact Table.map_insertNew fun _ => rfl

variable {x : RestingOrder} {env : Nat → Pause} {n : Nat}

theorem play_insert_answers (h : thrown (env n).reply = none) :
    ∃ w', play paused env (await (.insertOrder x)) n w = (.ok (), w', n + 1) ∧ w'.placed = w.withOrder x := by
  refine ⟨_, ?_, executeInsert_placed x (env n).others (env n).noInsert w⟩
  refine play_perform.trans ?_
  unfold paused
  cases hreply : (env n).reply with
  | fails | lost =>
    rw [hreply] at h
    cases h
  | _ => rfl

theorem play_insert_throws {message : String} (h : thrown (env n).reply = some message) :
    ∃ w', play paused env (await (.insertOrder x)) n w = (.error message, w', n + 1) ∧
      (w'.placed = w.placed ∨ w'.placed = w.withOrder x) := by
  have hthrown : (paused (.insertOrder x) (env n) w).1 = .error message := by
    unfold paused
    cases hreply : (env n).reply with
    | fails | lost =>
      rw [hreply] at h
      obtain rfl := Option.some.inj h
      rfl
    | _ =>
      rw [hreply] at h
      cases h
  refine ⟨(paused (.insertOrder x) (env n) w).2, play_perform.trans (by rw [hthrown]), ?_⟩
  unfold paused
  cases hreply : (env n).reply with
  | fails => exact .inl (executeAll_placed (env n).noInsert w)
  | _ => exact .inr (executeInsert_placed x (env n).others (env n).noInsert w)

theorem play_sleep (env : Nat → Pause) (n ms : Nat) (w : World) :
    ∃ w', play paused env (await (.sleep ms)) n w = (.ok (), w', n + 1) ∧ w'.placed = w.placed := by
  have hsleep : ∀ r v, (exec (.sleep ms) r v).2.placed = v.placed := fun r v => exec_placed rfl r v
  have hkept := (hsleep (env n).reply _).trans (executeAll_placed (env n).noInsert w)
  exact ⟨_, rfl, hkept⟩

/-- Inserting an order twice is inserting it once. -/
theorem withOrder_eq (h : w'.placed = w.placed ∨ w'.placed = w.withOrder x) :
    w'.withOrder x = w.withOrder x := by
  unfold World.withOrder at h ⊢
  cases h with
  | inl hsame => rw [hsame]
  | inr hinserted =>
    rw [hinserted]
    exact Table.insertNew_insertNew (beq_self_eq_true _)

/-! ## The attempts -/

/-- How the attempts may end: with the order inserted once, or with an error after which it may
be. -/
def Attempted (x : RestingOrder) (w : World) (answered : Bool) (r : Except String Unit) (w' : World) : Prop :=
  match r with
  | .ok _ => answered = true ∧ w'.placed = w.withOrder x
  | .error _ => answered = false ∧ (w'.placed = w.placed ∨ w'.placed = w.withOrder x)

theorem Attempted.after {answered : Bool} {r : Except String Unit} {w₁ w₂ : World}
    (h : w₁.placed = w.placed ∨ w₁.placed = w.withOrder x) (hrest : Attempted x w₁ answered r w₂) :
    Attempted x w answered r w₂ := by
  have hsame := withOrder_eq h
  cases r with
  | ok _ => exact ⟨hrest.1, hrest.2.trans hsame⟩
  | error _ =>
    refine ⟨hrest.1, ?_⟩
    cases hrest.2 with
    | inl hunchanged =>
      rw [hunchanged]
      exact h
    | inr hinserted => exact .inr (hinserted.trans hsame)

/-- By induction on the attempts left: what one that threw has left behind, the next finds. -/
theorem play_attempts (x : RestingOrder) (env : Nat → Pause) (n : Nat) (w : World) (left i : Nat) :
    ∃ r w' n', play paused env (retryFrom (await (.insertOrder x)) i left) n w = (r, w', n') ∧
      Attempted x w (answers env n left) r w' := by
  induction left generalizing n w i with
  | zero =>
    unfold answers
    cases hthrown : thrown (env n).reply with
    | none =>
      obtain ⟨w', hrun, hplaced⟩ := play_insert_answers (w := w) (x := x) hthrown
      exact ⟨_, _, _, hrun, rfl, hplaced⟩
    | some message =>
      obtain ⟨w', hrun, hplaced⟩ := play_insert_throws (w := w) (x := x) hthrown
      exact ⟨_, _, _, hrun, rfl, hplaced⟩
  | succ left ih =>
    unfold answers
    cases hthrown : thrown (env n).reply with
    | none =>
      obtain ⟨w', hrun, hplaced⟩ := play_insert_answers (w := w) (x := x) hthrown
      exact ⟨_, _, _, play_tryCatch_ok hrun, rfl, hplaced⟩
    | some message =>
      obtain ⟨w₁, hrun, hplaced⟩ := play_insert_throws (w := w) (x := x) hthrown
      unfold retryFrom
      rw [play_tryCatch_error hrun]
      show ∃ r w' n', _ ∧ Attempted x w (isTransient message && answers env (n + 2) left) r w'
      cases htransient : isTransient message with
      | false => exact ⟨_, _, _, rfl, rfl, hplaced⟩
      | true =>
        obtain ⟨w₂, hslept, hkept⟩ := play_sleep env (n + 1) (100 * (i + 1)) w₁
        obtain ⟨r, w', n', hrest, hattempted⟩ := ih (n + 2) w₂ (i + 1)
        rw [Bool.true_and]
        exact ⟨r, w', n', (play_bind hslept).trans hrest, (hattempted.after (.inl hkept)).after hplaced⟩

/-! ## The answer -/

variable {req : OrderRequest Num} {response : Response}

theorem check_error (h : req.check host passphrase = .error response) : response.ok = false := by
  simp only [OrderRequest.check, except_bind_error, failIf_error, someOr_error] at h
  obtain ⟨-, rfl⟩ | ⟨-, -, ⟨-, rfl⟩ | ⟨body, -, ⟨-, rfl⟩ | ⟨-, -, hinvalid | ⟨o, -, h⟩⟩⟩⟩ := h
  · rfl
  · rfl
  · rfl
  · cases hvalid : validateOrderIntent { host with now := req.now } body passphrase with
    | ok o =>
      rw [hvalid] at hinvalid
      cases hinvalid
    | error text =>
      rw [hvalid] at hinvalid
      rw [← Except.error.inj hinvalid]
      rfl
  · cases h

/-- An accepted order is signed by its owner. -/
theorem check_ok (h : req.check host passphrase = .ok (o, signature)) : Signs host passphrase signature o := by
  simp only [OrderRequest.check, except_bind_ok, someOr_ok, failIf_ok] at h
  obtain ⟨-, -, body, -, -, -, o', hmapped, hpair⟩ := h
  obtain ⟨rfl, rfl⟩ := Prod.mk.inj (Except.ok.inj hpair)
  cases hvalid : validateOrderIntent { host with now := req.now } body passphrase with
  | error text =>
    rw [hvalid] at hmapped
    cases hmapped
  | ok o =>
    rw [hvalid] at hmapped
    obtain rfl := Except.ok.inj hmapped
    obtain ⟨text, publicKey, hintake⟩ := validateOrderIntent_intake hvalid
    exact ⟨text, publicKey, by rw [hintake.signed]; rfl, hintake.owner, hintake.verified⟩

theorem result_refused (h : req.check host passphrase = .error response) :
    (IntakeMove.post req env).result host passphrase w = (some response, w) := by
  have hpost : postOrder host passphrase req = pure response := by
    unfold postOrder
    rw [h]
  show ((play paused env (postOrder host passphrase req) 0 w).1.toOption, _) = _
  rw [hpost]
  rfl

/-- The answer to an accepted order says whether an attempt of the insert answered. -/
theorem result_accepted (env : Nat → Pause) (w : World) (h : req.check host passphrase = .ok (o, signature)) :
    ∃ response w', (IntakeMove.post req env).result host passphrase w = (some response, w') ∧
      response.ok = answers env 0 2 ∧ (w'.placed = w.withOrder (o.placed signature) ∨
        answers env 0 2 = false ∧ w'.placed = w.placed) := by
  have hpost : postOrder host passphrase req = placeOrder (o.placed signature) := by
    unfold postOrder
    rw [h]
  show ∃ response w', ((play paused env (postOrder host passphrase req) 0 w).1.toOption, _) = _ ∧ _
  rw [hpost]
  obtain ⟨r, w', n', hrun, hattempted⟩ :=
    play_attempts (o.placed signature) env 0 w 2 0
  cases r with
  | ok _ =>
    have hplay : play paused env (placeOrder (o.placed signature)) 0 w = (.ok (accept "ok"), w', n') :=
      play_tryCatch_ok (play_bind hrun)
    rw [hplay]
    exact ⟨_, _, rfl, hattempted.1.symm, .inl hattempted.2⟩
  | error message =>
    have hplay : play paused env (placeOrder (o.placed signature)) 0 w =
        (.ok (refuse 500 "Failed to persist order"), w', n') :=
      play_tryCatch_error (play_bind_error hrun)
    rw [hplay]
    refine ⟨_, _, rfl, hattempted.1.symm, ?_⟩
    cases hattempted.2 with
    | inl hsame => exact .inr ⟨hattempted.1, hsame⟩
    | inr hinserted => exact .inl hinserted

theorem placed_of_answers (h : w'.placed = w.withOrder x ∨ answers env 0 2 = false ∧ w'.placed = w.placed)
    (hanswers : answers env 0 2 = true) : w'.placed = w.withOrder x := by
  refine h.resolve_right fun hsilent => ?_
  rw [hanswers] at hsilent
  cases hsilent.1

theorem placed_elsewhere (t : Pause) :
    ((IntakeMove.elsewhere t).result host passphrase w).2.placed = w.placed :=
  executeAll_placed t.noInsert w

theorem placed_post (h : req.check host passphrase = .ok (o, signature)) (hanswers : answers env 0 2 = true) :
    ((IntakeMove.post req env).result host passphrase w).2.placed = w.withOrder (o.placed signature) := by
  obtain ⟨_, w', hresult, -, hplaced⟩ := result_accepted env w h
  rw [hresult]
  exact placed_of_answers hplaced hanswers

/-! ## What the table keeps -/

theorem orderId_inj {owner owner' : String} {nonce nonce' : Int}
    (h : orderId owner nonce = orderId owner' nonce') : owner = owner' ∧ nonce = nonce' := by
  have hcolon : ∀ n : Int, ':' ∉ n.repr.toList := by
    intro n hmem
    cases mem_intRepr hmem with
    | inl hdigit => exact absurd hdigit (by decide)
    | inr hminus => exact absurd hminus (by decide)
  have hchars := congrArg String.toList h
  simp only [orderId, String.toList_append, List.append_assoc] at hchars
  obtain ⟨howner, hnonce⟩ := append_sep_inj (hcolon nonce) (hcolon nonce') hchars
  exact ⟨String.toList_inj.mp howner, intRepr_injective (String.toList_inj.mp hnonce)⟩

variable (host passphrase) in
/-- Each row is named by its owner and its nonce, and its owner has signed its terms. -/
structure SignedRows (rows : List RestingOrder) : Prop where
  ids : (rows.map (·.id)).Nodup
  names : ∀ row ∈ rows, row.id = orderId row.owner row.nonce
  signed : ∀ row ∈ rows, Signs host passphrase row.signature row.intent

variable {rows : List RestingOrder}

theorem SignedRows.withOrder (h : SignedRows host passphrase w.placed)
    (hsigned : Signs host passphrase signature o) :
    SignedRows host passphrase (w.withOrder (o.placed signature)) := by
  exact ⟨Table.nodup_insertNew (fun _ => rfl) h.ids, Table.forall_mem_insertNew h.names fun _ => rfl,
    Table.forall_mem_insertNew h.signed fun _ => hsigned⟩

theorem SignedRows.step {i : IntakeMove Num} (h : SignedRows host passphrase w.placed)
    (hstep : i.Step host passphrase w w') : SignedRows host passphrase w'.placed := by
  have hw' : w' = (i.result host passphrase w).2 := hstep
  cases i with
  | elsewhere t =>
    rw [hw', placed_elsewhere]
    exact h
  | post req env =>
    cases hcheck : req.check host passphrase with
    | error response =>
      rw [hw', result_refused hcheck]
      exact h
    | ok accepted =>
      obtain ⟨o, signature⟩ := accepted
      obtain ⟨response, w'', hresult, -, hplaced⟩ := result_accepted env w hcheck
      rw [hw', hresult]
      cases hplaced with
      | inl hinserted =>
        rw [hinserted]
        exact h.withOrder (check_ok hcheck)
      | inr hunchanged =>
        rw [hunchanged.2]
        exact h

/-- A row of the table and what it says. -/
theorem mem_placed {x : RestingOrder} : x ∈ w.placed ↔ ∃ row ∈ w.db.orders, row.placed = x := List.mem_map

theorem stored_withOrder (h : SignedRows host passphrase w.placed) (hsigned : Signs host passphrase signature o)
    (hinserted : w'.placed = w.withOrder (o.placed signature)) : Stored host passphrase o w' ↔
      ∀ row ∈ w.db.orders, row.owner = o.owner → row.nonce = o.nonce → row.intent = o := by
  have h' : SignedRows host passphrase w'.placed := by
    rw [hinserted]
    exact h.withOrder hsigned
  constructor
  · intro hstored row hrow howner hnonce
    obtain ⟨kept, -, hunique, hintent, -⟩ := hstored
    have hstill : row.placed ∈ w'.placed := by
      rw [hinserted]
      exact Table.mem_insertNew.mpr (.inl (List.mem_map_of_mem hrow))
    obtain ⟨row', hrow', hsame⟩ := mem_placed.mp hstill
    have hkept := hunique row' hrow' ((congrArg RestingOrder.owner hsame).trans howner)
      ((congrArg RestingOrder.nonce hsame).trans hnonce)
    calc row.intent = row'.intent := (congrArg RestingOrder.intent hsame).symm
      _ = o := by rw [hkept, hintent]
  · intro hunclaimed
    have hthere : ∃ x ∈ w'.placed, (x.id == (o.placed signature).id) = true := by
      rw [hinserted]
      exact Table.exists_mem_insertNew (beq_self_eq_true _)
    obtain ⟨x, hx, hid⟩ := hthere
    have hname : orderId x.owner x.nonce = orderId o.owner o.nonce :=
      (h'.names x hx).symm.trans (beq_iff_eq.mp hid)
    obtain ⟨howner, hnonce⟩ := orderId_inj hname
    have hintent : x.intent = o := by
      cases Table.mem_insertNew.mp (hinserted ▸ hx) with
      | inl hold =>
        obtain ⟨row, hrow, rfl⟩ := mem_placed.mp hold
        exact hunclaimed row hrow howner hnonce
      | inr hnew =>
        rw [hnew.2]
        rfl
    obtain ⟨kept, hkept, rfl⟩ := mem_placed.mp hx
    have hids : (w'.db.orders.map (·.id)).Nodup := by
      have hnodup := h'.ids
      rwa [World.placed, List.map_map] at hnodup
    refine ⟨kept, hkept, fun row hrow howner' hnonce' => ?_, hintent, ?_⟩
    · have hnamed := h'.names _ (List.mem_map_of_mem hrow)
      refine List.inj_on_of_nodup_map hids hrow hkept ?_
      calc row.id = orderId row.owner row.nonce := hnamed
        _ = orderId o.owner o.nonce := by rw [howner', hnonce']
        _ = kept.id := (beq_iff_eq.mp hid).symm
    · have hsigned' := h'.signed _ hx
      rwa [hintent] at hsigned'

/-- With the rows signed, a request is answered as it deserves exactly if its nonce is free. -/
theorem honest_iff {i : IntakeMove Num} (h : SignedRows host passphrase w.placed) :
    Honest host passphrase w i ↔ Unclaimed host passphrase w i := by
  cases i with
  | elsewhere t => exact Iff.rfl
  | post req env =>
    simp only [Honest, Unclaimed]
    cases hcheck : req.check host passphrase with
    | error response =>
      rw [result_refused hcheck]
      refine iff_of_true (fun response' hresponse hok => ?_) fun o signature haccepted => by cases haccepted
      rw [← Option.some.inj hresponse, check_error hcheck] at hok
      cases hok
    | ok accepted =>
      obtain ⟨o, signature⟩ := accepted
      obtain ⟨response, w', hresult, hok, hplaced⟩ := result_accepted env w hcheck
      rw [hresult]
      have hinserted := placed_of_answers hplaced
      constructor
      · intro hhonest o' signature' haccepted hanswers
        obtain ⟨rfl, rfl⟩ := Prod.mk.inj (Except.ok.inj haccepted)
        obtain ⟨o', signature', haccepted', hstored⟩ := hhonest response rfl (hok.trans hanswers)
        obtain ⟨rfl, rfl⟩ := Prod.mk.inj (Except.ok.inj haccepted')
        exact (stored_withOrder h (check_ok hcheck) (hinserted hanswers)).mp hstored
      · intro hunclaimed response' hresponse hok'
        obtain rfl := Option.some.inj hresponse
        have hanswers : answers env 0 2 = true := hok.symm.trans hok'
        exact ⟨o, signature, rfl, (stored_withOrder h (check_ok hcheck) (hinserted hanswers)).mpr
          (hunclaimed o signature rfl hanswers)⟩

/-- **An answer of `ok` tells what is stored exactly where the nonce is new.** -/
theorem placement_honest_iff {w₀ : World} {t : List (IntakeMove Num × World)} (hempty : w₀.db.orders = [])
    (hrun : IsRun (IntakeMove.Step host passphrase) w₀ t) :
    AllSteps (Honest host passphrase) w₀ t ↔ AllSteps (Unclaimed host passphrase) w₀ t := by
  have hstart : SignedRows host passphrase w₀.placed := by
    unfold World.placed
    rw [hempty]
    exact ⟨List.nodup_nil, by simp, by simp⟩
  have hstep : ∀ (w : World) (i : IntakeMove Num) (w' : World), SignedRows host passphrase w.placed →
      i.Step host passphrase w w' → SignedRows host passphrase w'.placed := fun _ _ _ h => h.step
  have hstates := invariant_of_step hstep hstart hrun
  exact AllStates.allSteps_iff (fun w i (h : SignedRows host passphrase w.placed) => honest_iff h) hstates

namespace Replacement

def replacerAddress : String := "GAY4IBQ4ETQ6WH223ZXE4OWGURRX6IVJ2WSUILF7UPVRKF5Q2YXDMCT2"

def replacerKey : BitVec 256 := 0x31c4061c24e1eb1f5ade6e4e3ac6a4637f22a9d5a5442cbfa3eb1517b0d62e36

/-- SHA-256 of the message of a long of one unit under its prefix, and of that of two units. -/
def oneUnitDigest : List UInt8 :=
  Gateway.toArray 0xc12a2541907b56583aaaedc091d6773155910df6037a3a772c7a7f168da6f569

def twoUnitsDigest : List UInt8 :=
  Gateway.toArray 0x81c47c03f1d58d53d68fc615e1ea7300db048ecea9ba7c53fb70655ca01fa87e

def oneUnitText : String :=
  "FVzMGqpd3zPx7nOsJFpdmgAnTyOoIefCJ8PJuOPlukZD9TQZplqU6jVJCDlutVhykHzTFc6mhhQbfv58djSrCQ=="

def twoUnitsText : String :=
  "Ie0R/8J0J4s/q4/HWHEZGBfOBo+Zguc8/UWQeQb0Ru4/W3Yyuv6SnQcfoHrw4gc+xvXlZOoIwCvEmtDnAcbABg=="

/-- The two messages differ in the first digit of the size. -/
def replacerHost : IntakeHost Int where
  numberText := Int.repr
  integer
    | .number n => some n
    | _ => none
  decodeEd25519PublicKey owner := if owner = replacerAddress then some replacerKey else none
  hash message := if message.getD 139 0 = 49 then oneUnitDigest else twoUnitsDigest
  verify publicKey digest sig := decide (publicKey = replacerKey ∧
    (digest = oneUnitDigest ∧ sig = signatureBits (decodeSignature oneUnitText) ∨
      digest = twoUnitsDigest ∧ sig = signatureBits (decodeSignature twoUnitsText)))
  activeMarkets := ["XLM-PERP"]
  now := 1780730744551

/-- A long under nonce 7. -/
def replacerRequest (size signature : String) : OrderRequest Int where
  bodyTooLarge := false
  body := some (.object [
    ("owner", .string replacerAddress),
    ("market_id", .number 1),
    ("is_long", .boolean true),
    ("size", .string size),
    ("limit_price", .string "98250000000000000"),
    ("reduce_only", .boolean false),
    ("nonce", .string "7"),
    ("expiry_ts", .string "1780734344"),
    ("signature", .string signature)])
  withinRateLimit := true
  now := 1780730744551

def replacerIntent (size : Int) : ValidatedOrder where
  owner := replacerAddress
  marketId := 1
  isLong := true
  size := size
  limitPrice := 98250000000000000
  reduceOnly := false
  nonce := 7
  expiryTs := 1780734344

/-- No orders yet. -/
def emptyBook : World where
  db := { orders := [], fills := [], markets := [⟨1, 98250000000000000, 0, 0⟩], jobs := [], nextJobId := 1 }
  txs := []
  now := 1780730744551

def replacerNetwork : String := "Test SDF Network ; September 2015"

def oneUnit : OrderRequest Int := replacerRequest "10000000" oneUnitText

def twoUnits : OrderRequest Int := replacerRequest "20000000" twoUnitsText

theorem oneUnit_accepted : oneUnit.check replacerHost replacerNetwork =
    .ok (replacerIntent 10000000, some oneUnitText) := by decide +kernel

theorem twoUnits_accepted : twoUnits.check replacerHost replacerNetwork =
    .ok (replacerIntent 20000000, some twoUnitsText) := by decide +kernel

def cancelled : IntakeMove Int := .elsewhere { others := [(.cancelOrder replacerAddress 7, .ok)] }

/-- The answer to a first attempt is lost. -/
def answerLost (n : Nat) : Pause := if n = 0 then { reply := .lost "read ECONNRESET" } else {}

def afterMove (w : World) (i : IntakeMove Int) : World := (i.result replacerHost replacerNetwork w).2

/-- The order of one unit is placed and cancelled. -/
def cancelledBook : World := afterMove (afterMove emptyBook (.post oneUnit answerLost)) cancelled

/-- Then another request comes in. -/
def replacerRun (last : OrderRequest Int) : List (IntakeMove Int × World) :=
  follow afterMove emptyBook [.post oneUnit answerLost, cancelled, .post last fun _ => {}]

theorem cancelledBook_placed : cancelledBook.placed =
    [(replacerIntent 10000000).placed (some oneUnitText)] := by
  have hanswers : answers answerLost 0 2 = true := by decide +kernel
  rw [cancelledBook, afterMove, cancelled, placed_elsewhere, afterMove, placed_post oneUnit_accepted hanswers]
  rfl

theorem replacerRun_allSteps {C : World → IntakeMove Int → Prop} {last : OrderRequest Int} :
    AllSteps C emptyBook (replacerRun last) ↔ C emptyBook (.post oneUnit answerLost) ∧
      C (afterMove emptyBook (.post oneUnit answerLost)) cancelled ∧
      C cancelledBook (.post last fun _ => {}) := by
  rw [replacerRun, allSteps_follow_cons, allSteps_follow_cons, allSteps_follow_cons, ← cancelledBook]
  exact and_congr_right fun _ => and_congr_right fun _ => and_true _ ▸ Iff.rfl

end Replacement

theorem intent_of_placed {row : OrderRow} {x : RestingOrder} (h : w.placed = [x]) (hrow : row ∈ w.db.orders) :
    row.intent = x.intent := by
  have hmem : row.placed ∈ w.placed := List.mem_map_of_mem hrow
  rw [h, List.mem_singleton] at hmem
  calc row.intent = row.placed.intent := rfl
    _ = x.intent := by rw [hmem]

open Replacement in
/-- The table has the cancelled order of one unit, and the one of two units is answered `ok`. -/
theorem replacement_acknowledged :
    (final emptyBook (replacerRun twoUnits)).placed = [(replacerIntent 10000000).placed (some oneUnitText)] ∧
    IsRun (IntakeMove.Step replacerHost replacerNetwork) emptyBook (replacerRun twoUnits) ∧
    ¬ AllSteps (Honest replacerHost replacerNetwork) emptyBook (replacerRun twoUnits) := by
  have hplaced : ((IntakeMove.post twoUnits fun _ => {}).result replacerHost replacerNetwork
      cancelledBook).2.placed = [(replacerIntent 10000000).placed (some oneUnitText)] := by
    rw [placed_post twoUnits_accepted rfl, World.withOrder, cancelledBook_placed]
    exact if_pos (by decide +kernel)
  refine ⟨?_, isRun_follow _ _, fun h => ?_⟩
  · rw [replacerRun, final_follow_cons, final_follow_cons, final_follow_cons, ← cancelledBook]
    exact hplaced
  · have hlast := (replacerRun_allSteps.mp h).2.2
    obtain ⟨response, w', hresult, hok, -⟩ := result_accepted (fun _ => {}) cancelledBook twoUnits_accepted
    obtain ⟨o, signature, hcheck, row, hrow, -, hintent, -⟩ := hlast response (by rw [hresult]) hok
    have ho : replacerIntent 20000000 = o :=
      congrArg Prod.fst (Except.ok.inj (twoUnits_accepted.symm.trans hcheck))
    have hkept := (intent_of_placed hplaced hrow).symm.trans (hintent.trans ho.symm)
    exact absurd hkept (by decide)

open Replacement in
theorem placement_honest_resubmitted :
    AllSteps (Honest replacerHost replacerNetwork) emptyBook (replacerRun oneUnit) := by
  have hfirst : Unclaimed replacerHost replacerNetwork emptyBook (.post oneUnit answerLost) := by
    intro o signature _ _ row hrow
    cases hrow
  have hlast : Unclaimed replacerHost replacerNetwork cancelledBook (.post oneUnit fun _ => {}) := by
    intro o signature hcheck _ row hrow _ _
    have ho : replacerIntent 10000000 = o :=
      congrArg Prod.fst (Except.ok.inj (oneUnit_accepted.symm.trans hcheck))
    exact (intent_of_placed cancelledBook_placed hrow).trans ho
  exact (placement_honest_iff rfl (isRun_follow _ _)).mpr (replacerRun_allSteps.mpr ⟨hfirst, trivial, hlast⟩)

end Kryon.Venue

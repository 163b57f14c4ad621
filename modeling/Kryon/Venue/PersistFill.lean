import Kryon.Venue.MatchSafety
import Mathlib.Algebra.Group.Pi.Basic

/-! # When persisting a fill is all or nothing

`persistFill` is four statements without a transaction, and other instances of the matcher
fill the same orders in between. The first statement is the only one whose failure leaves
nothing behind: once the row of the fill is in, every later guard that stops the function
leaves it there, with the result that says that nothing was persisted. -/
namespace Kryon.Venue
open Program

/-! ## Other instances -/

/-- What other instances add to each order's `filledSize` before a statement, and what the
database answers to it. -/
structure Turn where
  others : String → Int := 0
  reply : Reply := .ok

/-- The orders when others have added `δ` to each one's `filledSize`. -/
def shifted (δ : String → Int) (orders : List OrderRow) : List OrderRow :=
  orders.map fun o => { o with filledSize := o.filledSize + δ o.id }

/-- Others change the orders, then the statement is carried out. -/
def interleaved (op : Op) (t : Turn) (w : World) : Except String op.Ans × World :=
  exec op t.reply { w with db := { w.db with orders := shifted t.others w.db.orders } }

/-- What others have added before the first `n` statements together. -/
def others (env : Nat → Turn) : Nat → String → Int
  | 0 => 0
  | n + 1 => others env n + (env n).others

/-- The order exists and is not filled beyond its size by the fill, on top of what others add. -/
def HasRoom (orders : List OrderRow) (δ : String → Int) (o : RestingOrder) (fillSize : Int) : Prop :=
  ∃ row ∈ orders, row.id = o.id ∧ row.filledSize + δ o.id + fillSize ≤ row.size

instance (orders : List OrderRow) (δ : String → Int) (o : RestingOrder) (fillSize : Int) :
    Decidable (HasRoom orders δ o fillSize) :=
  inferInstanceAs (Decidable (∃ row ∈ orders, _))

/-- The fill's size, for the one order. -/
def grown (o : RestingOrder) (fillSize : Int) : String → Int := fun id =>
  if id = o.id then fillSize else 0

/-- With `false` the tables are what others make them without the call; with `true` the fill
is the one new row, and both orders have grown by its size and had room for it then. -/
def AllOrNothing (network : String) (m : MatchResult) (env : Nat → Turn) (w : World) :
    Bool → Nat → World → Prop
  | false, n, w' => w'.db.fills = w.db.fills ∧ w'.db.orders = shifted (others env n) w.db.orders ∧
    w'.db.markets.map (·.volume) = w.db.markets.map (·.volume)
  | true, n, w' => w'.db.fills = w.db.fills ++ [Db.fillRow network m] ∧
    w'.db.orders = shifted (others env n + grown m.maker m.fillSize + grown m.taker m.fillSize)
      w.db.orders ∧
    HasRoom w.db.orders (others env 2) m.maker m.fillSize ∧
    HasRoom w.db.orders (others env 3) m.taker m.fillSize

/-- The row is not inserted, as it is there already or the statement fails without effect, or
else every statement answers and both orders have room when it is their turn. -/
def Unbroken (network : String) (m : MatchResult) (env : Nat → Turn) (w : World) : Prop :=
  tookEffect (env 0).reply = false ∨ w.db.fills.any (Db.sameFill · (Db.fillRow network m)) = true ∨
    (wentThrough (env 0).reply = true ∧
      wentThrough (env 1).reply = true ∧ HasRoom w.db.orders (others env 2) m.maker m.fillSize ∧
      wentThrough (env 2).reply = true ∧ HasRoom w.db.orders (others env 3) m.taker m.fillSize ∧
      wentThrough (env 3).reply = true)

/-! ## The statements -/

variable {network : String} {m : MatchResult} {env : Nat → Turn} {w : World} {db : Db}
  {o : RestingOrder} {δ δ' : String → Int} {fillSize : Int} {orders : List OrderRow}

theorem shifted_shifted : shifted δ' (shifted δ orders) = shifted (δ + δ') orders := by
  unfold shifted
  rw [List.map_map]
  refine List.map_congr_left fun row _ => ?_
  simp [Int.add_assoc]

theorem hasRoom_shifted : (shifted δ orders).any (fun row => row.id == o.id && Db.fits fillSize row) = true ↔
    HasRoom orders δ o fillSize := by
  unfold shifted HasRoom Db.fits
  rw [List.any_map, List.any_eq_true]
  simp only [Function.comp_apply, Bool.and_eq_true, beq_iff_eq, decide_eq_true_eq]
  refine exists_congr fun row => and_congr_right fun _ => and_congr_right fun hid => ?_
  rw [hid]

/-- An update that finds room adds the fill's size to its one order. -/
theorem addFilled_orders (hids : (orders.map (·.id)).Nodup) (hroom : HasRoom orders δ o fillSize)
    (hdb : db.orders = shifted δ orders) :
    (db.addFilled o.id fillSize).2.orders = shifted (δ + grown o fillSize) orders := by
  obtain ⟨row, hrow, hid, hfits⟩ := hroom
  show Table.update db.orders _ _ = _
  rw [hdb, Table.update, shifted, shifted, List.map_map]
  refine List.map_congr_left fun row' hrow' => ?_
  show (if (row'.id == o.id && Db.fits fillSize _) = true then _ else _) = _
  by_cases h : row'.id = o.id
  · obtain rfl := List.inj_on_of_nodup_map hids hrow' hrow (h.trans hid.symm)
    rw [if_pos]
    · simp [grown, h, Int.add_assoc]
    · simp [Db.fits, h, hfits]
  · rw [if_neg]
    · simp [grown, h]
    · simp [h]

/-! ## The run -/

/-- `persistFill` from the taker's update on. -/
def persistTaker (m : MatchResult) : Async Bool := do
  let takerUpdated ← await (.addFilled m.taker.id m.fillSize)
  if !takerUpdated then return false
  await (.recordTrade m.maker.marketId m.fillPrice m.fillValue)
  return true

/-- `persistFill` from the maker's update on. -/
def persistMaker (m : MatchResult) : Async Bool := do
  let makerUpdated ← await (.addFilled m.maker.id m.fillSize)
  if !makerUpdated then return false
  persistTaker m

def guarded (p : Async Bool) : Async Bool := tryCatch p fun _ => return false

theorem persistFill_eq : persistFill network m = guarded (do
    let inserted ← await (.insertFill network m)
    if !inserted then return false
    persistMaker m) := rfl

/-- A run that ends with `b` after the statements before `n'`, in `w'`. -/
def EndsAs (env : Nat → Turn) (p : Async Bool) (n : Nat) (w : World) (b : Bool) (w' : World) (n' : Nat) :
    Prop := play interleaved env (guarded p) n w = (.ok b, w', n')

/-- The fill is in, and the orders are shifted by `δ`. -/
structure Inserted (network : String) (m : MatchResult) (w : World) (δ : String → Int) (w' : World) :
    Prop where
  fills : w'.db.fills = w.db.fills ++ [Db.fillRow network m]
  orders : w'.db.orders = shifted δ w.db.orders

/-- The world that statement `n` finds. -/
def World.turned (env : Nat → Turn) (n : Nat) (v : World) : World :=
  { v with db := { v.db with orders := shifted (env n).others v.db.orders } }

/-- What a guarded statement does: it throws, or it answers and the rest goes on. -/
theorem guarded_statement (env : Nat → Turn) (n : Nat) (v : World) (op : Op)
    (f : Db → op.Ans × Db) (next : op.Ans → Async Bool) (hop : ∀ r w, exec op r w = sql r w f) :
    (wentThrough (env n).reply = false →
      EndsAs env (await op >>= next) n v false (interleaved op (env n) v).2 (n + 1)) ∧
    (wentThrough (env n).reply = true → ∀ b w' n',
      EndsAs env (next (f (v.turned env n).db).1) (n + 1)
        { v.turned env n with db := (f (v.turned env n).db).2 } b w' n' →
      EndsAs env (await op >>= next) n v b w' n') := by
  have hexec : interleaved op (env n) v = sql (env n).reply (v.turned env n) f := hop _ _
  constructor
  · intro hfails
    obtain ⟨message, hmessage⟩ := sql_throws (w := v.turned env n) (f := f) hfails
    rw [← hexec] at hmessage
    unfold EndsAs guarded
    rw [play_guarded_error hmessage]
    rfl
  · intro hanswers b w' n' hrest
    have hanswer := sql_answers (w := v.turned env n) (f := f) hanswers
    rw [← hexec] at hanswer
    unfold EndsAs guarded
    rw [play_guarded_ok (congrArg Prod.fst hanswer), congrArg Prod.snd hanswer]
    exact hrest

theorem Inserted.turned {n : Nat} {v : World} (h : Inserted network m w (others env n + δ) v) :
    Inserted network m w (others env (n + 1) + δ) (v.turned env n) where
  fills := h.fills
  orders := by
    show shifted _ v.db.orders = _
    rw [h.orders, shifted_shifted, others, add_right_comm]

/-- With the fill in, the rest of `persistFill` answers `true` only if `c`, and then both
orders have grown; the fill stays either way. -/
def Leaves (network : String) (m : MatchResult) (env : Nat → Turn) (w : World) (c : Prop)
    (p : Async Bool) (n : Nat) (v : World) : Prop :=
  ∃ b w' n', EndsAs env p n v b w' n' ∧ w'.db.fills = w.db.fills ++ [Db.fillRow network m] ∧
    (b = true ↔ c) ∧ (b = true → n' = 4 ∧
      Inserted network m w (others env 4 + (grown m.maker m.fillSize + grown m.taker m.fillSize)) w')

variable {v : World}

theorem trade_leaves
    (h : Inserted network m w (others env 3 + (grown m.maker m.fillSize + grown m.taker m.fillSize)) v) :
    Leaves network m env w (wentThrough (env 3).reply = true) (do
      await (.recordTrade m.maker.marketId m.fillPrice m.fillValue)
      return true) 3 v := by
  obtain ⟨hthrows, hanswers⟩ := guarded_statement env 3 v
    (.recordTrade m.maker.marketId m.fillPrice m.fillValue)
    (fun db => ((), db.updateMarkets (·.id == m.maker.marketId) fun market =>
      { market with lastPrice := m.fillPrice, volume := market.volume + m.fillValue }))
    (fun _ => return true) (fun _ _ => rfl)
  cases hreply : wentThrough (env 3).reply with
  | false =>
    refine ⟨false, _, _, hthrows hreply, ?_, by simp, by simp⟩
    exact sql_world (P := fun u : World => u.db.fills = _) h.turned.fills h.turned.fills
  | true =>
    refine ⟨true, _, _, hanswers hreply _ _ _ rfl, h.turned.fills, by simp, fun _ => ⟨rfl, ?_⟩⟩
    exact ⟨h.turned.fills, h.turned.orders⟩

/-- An update of one of the two orders, as the guards read it. -/
theorem update_turn {n : Nat} (hids : (w.db.orders.map (·.id)).Nodup)
    (h : Inserted network m w (others env n + δ) v) (o : RestingOrder) (hδ : δ o.id = 0) :
    (((v.turned env n).db.addFilled o.id m.fillSize).1 = true ↔
      HasRoom w.db.orders (others env (n + 1)) o m.fillSize) ∧
    (HasRoom w.db.orders (others env (n + 1)) o m.fillSize →
      Inserted network m w (others env (n + 1) + (δ + grown o m.fillSize))
        { v.turned env n with db := ((v.turned env n).db.addFilled o.id m.fillSize).2 }) := by
  have hroom : HasRoom w.db.orders (others env (n + 1) + δ) o m.fillSize ↔
      HasRoom w.db.orders (others env (n + 1)) o m.fillSize := by
    unfold HasRoom
    rw [Pi.add_apply, hδ, Int.add_zero]
  constructor
  · show (v.turned env n).db.orders.any _ = true ↔ _
    rw [h.turned.orders, hasRoom_shifted, hroom]
  · intro hhas
    exact ⟨h.turned.fills,
      (addFilled_orders hids (hroom.mpr hhas) h.turned.orders).trans (by rw [add_assoc])⟩

/-- The update of one order, and then the rest once the order has grown. -/
theorem update_leaves {n : Nat} {c : Prop} {rest : Async Bool} (hids : (w.db.orders.map (·.id)).Nodup)
    (h : Inserted network m w (others env n + δ) v) (o : RestingOrder) (hδ : δ o.id = 0)
    (hrest : ∀ v', Inserted network m w (others env (n + 1) + (δ + grown o m.fillSize)) v' →
      Leaves network m env w c rest (n + 1) v') :
    Leaves network m env w (wentThrough (env n).reply = true ∧
      HasRoom w.db.orders (others env (n + 1)) o m.fillSize ∧ c) (do
        let updated ← await (.addFilled o.id m.fillSize)
        if !updated then return false
        rest) n v := by
  obtain ⟨hthrows, hanswers⟩ := guarded_statement env n v (.addFilled o.id m.fillSize)
    (·.addFilled o.id m.fillSize) (fun updated => do
      if !updated then return false
      rest) (fun _ _ => rfl)
  obtain ⟨hguard, hgrown⟩ := update_turn hids h o hδ
  cases hreply : wentThrough (env n).reply with
  | false =>
    refine ⟨false, _, _, hthrows hreply, ?_, by simp, by simp⟩
    exact sql_world (P := fun u : World => u.db.fills = _) h.turned.fills h.turned.fills
  | true =>
    cases hupdated : ((v.turned env n).db.addFilled o.id m.fillSize).1 with
    | false =>
      rw [hupdated] at hanswers
      refine ⟨false, _, _, hanswers hreply _ _ _ rfl, h.turned.fills, ?_, by simp⟩
      have hno := mt hguard.mpr (by rw [hupdated]; decide)
      simp [hno]
    | true =>
      rw [hupdated] at hanswers
      have hroom := hguard.mp hupdated
      obtain ⟨b, w', n', hrun, hfills, hb, hall⟩ := hrest _ (hgrown hroom)
      exact ⟨b, w', n', hanswers hreply _ _ _ hrun, hfills, hb.trans (by simp [hroom]), hall⟩

theorem taker_leaves (hids : (w.db.orders.map (·.id)).Nodup) (hm : m.maker.id ≠ m.taker.id)
    (h : Inserted network m w (others env 2 + grown m.maker m.fillSize) v) :
    Leaves network m env w (wentThrough (env 2).reply = true ∧
      HasRoom w.db.orders (others env 3) m.taker m.fillSize ∧ wentThrough (env 3).reply = true)
      (persistTaker m) 2 v :=
  update_leaves hids h m.taker (if_neg (Ne.symm hm)) fun _ => trade_leaves

theorem maker_leaves (hids : (w.db.orders.map (·.id)).Nodup) (hm : m.maker.id ≠ m.taker.id)
    (h : Inserted network m w (others env 1 + 0) v) :
    Leaves network m env w (wentThrough (env 1).reply = true ∧
      HasRoom w.db.orders (others env 2) m.maker m.fillSize ∧ wentThrough (env 2).reply = true ∧
      HasRoom w.db.orders (others env 3) m.taker m.fillSize ∧ wentThrough (env 3).reply = true)
      (persistMaker m) 1 v := by
  refine update_leaves hids h m.maker rfl fun v' hmaker => ?_
  rw [zero_add] at hmaker
  exact taker_leaves hids hm hmaker

/-- Once a new row is in, everything depends on what follows it. -/
theorem unbroken_of_inserted (htook : tookEffect (env 0).reply = true)
    (hexists : w.db.fills.any (Db.sameFill · (Db.fillRow network m)) = false) :
    Unbroken network m env w ↔ wentThrough (env 0).reply = true ∧
      wentThrough (env 1).reply = true ∧ HasRoom w.db.orders (others env 2) m.maker m.fillSize ∧
      wentThrough (env 2).reply = true ∧ HasRoom w.db.orders (others env 3) m.taker m.fillSize ∧
      wentThrough (env 3).reply = true := by
  simp only [Unbroken, htook, hexists, Bool.true_eq_false, Bool.false_eq_true, false_or]

/-- A row that stays is not nothing. -/
theorem not_allOrNothing_of_row {n : Nat} {w' : World}
    (hfills : w'.db.fills = w.db.fills ++ [Db.fillRow network m]) :
    ¬ AllOrNothing network m env w false n w' := by
  intro h
  have hlength := congrArg List.length (hfills.symm.trans h.1)
  rw [List.length_append, List.length_singleton] at hlength
  omega

/-- **Persisting a fill.** For every database, match and schedule of what other instances
add to the orders and of what the four statements answer, the function returns; and it is
all or nothing exactly when it is unbroken: the row of the fill is not inserted at all, or
after it no statement fails and no guard finds its order without room. -/
theorem persistFill_atomic_iff (hids : (w.db.orders.map (·.id)).Nodup)
    (hm : m.maker.id ≠ m.taker.id) :
    ∃ b w' n, play interleaved env (persistFill network m) 0 w = (.ok b, w', n) ∧
      (AllOrNothing network m env w b n w' ↔ Unbroken network m env w) := by
  rw [persistFill_eq]
  obtain ⟨hthrows, hanswers⟩ := guarded_statement env 0 w (.insertFill network m)
    (·.insertFill network m) (fun inserted => do
      if !inserted then return false
      persistMaker m) (fun _ _ => rfl)
  -- without an insertion the tables are as the others leave them
  have hnothing : AllOrNothing network m env w false 1 (w.turned env 0) :=
    ⟨rfl, congrArg (shifted · w.db.orders) (zero_add _).symm, rfl⟩
  have hsame : w.db.fills.any (Db.sameFill · (Db.fillRow network m)) = true →
      (w.turned env 0).db.insertFill network m = (false, (w.turned env 0).db) := fun hexists => if_pos hexists
  have hnew : w.db.fills.any (Db.sameFill · (Db.fillRow network m)) = false →
      (w.turned env 0).db.insertFill network m = (true, { (w.turned env 0).db with
        fills := (w.turned env 0).db.fills ++ [Db.fillRow network m] }) :=
    fun hexists => if_neg (ne_true_of_eq_false hexists)
  cases hreply : wentThrough (env 0).reply with
  | false =>
    refine ⟨false, _, _, hthrows hreply, ?_⟩
    have hrun : (interleaved (.insertFill network m) (env 0) w).2 =
        (sql (env 0).reply (w.turned env 0) (·.insertFill network m)).2 := rfl
    rw [hrun]
    cases htook : tookEffect (env 0).reply with
    | false =>
      rw [sql_skips htook]
      exact iff_of_true hnothing (.inl htook)
    | true =>
      -- the statement throws after it took effect
      rw [sql_takes htook]
      cases hexists : w.db.fills.any (Db.sameFill · (Db.fillRow network m)) with
      | true =>
        rw [hsame hexists]
        exact iff_of_true hnothing (.inr (.inl hexists))
      | false =>
        rw [hnew hexists, unbroken_of_inserted htook hexists, hreply]
        exact iff_of_false (not_allOrNothing_of_row rfl) fun h => Bool.false_ne_true h.1
  | true =>
    have hfirst := hanswers hreply
    cases hexists : w.db.fills.any (Db.sameFill · (Db.fillRow network m)) with
    | true =>
      rw [hsame hexists] at hfirst
      exact ⟨false, _, _, hfirst _ _ _ rfl, iff_of_true hnothing (.inr (.inl hexists))⟩
    | false =>
      have hstart : Inserted network m w (others env 1 + 0) { w.turned env 0 with
          db := { (w.turned env 0).db with
            fills := (w.turned env 0).db.fills ++ [Db.fillRow network m] } } := by
        refine ⟨rfl, ?_⟩
        show shifted (env 0).others w.db.orders = _
        rw [others, others, zero_add, add_zero]
      rw [hnew hexists] at hfirst
      obtain ⟨b, w', n', hrun, hfills, hb, hall⟩ := maker_leaves hids hm hstart
      refine ⟨b, w', n', hfirst _ _ _ hrun, ?_⟩
      rw [unbroken_of_inserted (tookEffect_of_wentThrough hreply) hexists]
      cases b with
      | false =>
        exact iff_of_false (not_allOrNothing_of_row hfills) fun h => Bool.false_ne_true (hb.mpr h.2)
      | true =>
        obtain ⟨rfl, hboth⟩ := hall rfl
        have hunbroken := hb.mp rfl
        refine iff_of_true ⟨hfills, ?_, hunbroken.2.1, hunbroken.2.2.2.1⟩ ⟨hreply, hunbroken⟩
        rw [hboth.orders, add_assoc]

namespace Sample

/-- An empty market, and two orders of the same size in it. -/
def twoOrders : World where
  db := { orders := [⟨resting "alice" true 5 100 1, false⟩, ⟨resting "carol" false 5 100 2, false⟩]
          fills := [], markets := [⟨1, 0, 0, 100⟩], jobs := [], nextJobId := 1 }
  txs := []
  now := 1000

def fullMatch : MatchResult := ⟨resting "alice" true 5 100 1, resting "carol" false 5 100 2, 5, 100⟩

/-- Another instance fills all of the maker's order right after the fill has been inserted. -/
def makerTaken : Nat → Turn
  | 1 => { others := fun id => if id = "alice" then 5 else 0 }
  | _ => {}

end Sample

open Sample in
/-- The fill stays, though the answer is that nothing was persisted. -/
theorem fill_left_behind : ∃ w' n,
    play interleaved makerTaken (persistFill "testnet" fullMatch) 0 twoOrders = (.ok false, w', n) ∧
      w'.db.fills = [Db.fillRow "testnet" fullMatch] ∧
      ¬ AllOrNothing "testnet" fullMatch makerTaken twoOrders false n w' := by
  refine ⟨_, _, rfl, by decide +kernel, fun h => ?_⟩
  exact absurd h.1 (by decide +kernel)

open Sample in
theorem persistFill_atomic_iff_alone : ∃ b w' n,
    play interleaved (fun _ => {}) (persistFill "testnet" fullMatch) 0 twoOrders = (.ok b, w', n) ∧
      AllOrNothing "testnet" fullMatch (fun _ => {}) twoOrders b n w' := by
  have hunbroken : Unbroken "testnet" fullMatch (fun _ => {}) twoOrders :=
    .inr (.inr ⟨rfl, rfl, by decide, rfl, by decide, rfl⟩)
  have hids : (twoOrders.db.orders.map (·.id)).Nodup := by decide
  obtain ⟨b, w', n, hrun, hiff⟩ := persistFill_atomic_iff hids
    (show fullMatch.maker.id ≠ fullMatch.taker.id by decide)
  exact ⟨b, w', n, hrun, hiff.mpr hunbroken⟩

end Kryon.Venue

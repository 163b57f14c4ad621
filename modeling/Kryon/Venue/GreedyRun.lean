import Kryon.Venue.Matching
import Kryon.Lib.Greedy
import Mathlib.Algebra.Ring.Int.Defs

/-! # The greedy loop of `matchAll`

Both loops of `matchAll` are the same greedy loop, over a market order's opposite side and
over a bid's asks. One rule for whole runs of `matchAll` follows from the rules of that
loop: what a match keeps, made when everything that outranks its orders is used up, holds of
the result. -/
namespace Kryon.Venue
open Greedy

namespace Matching

variable {st : Matching} {a b o : RestingOrder} {m : MatchResult}

theorem pendingFills_record (id : String) : (st.record a b m).pendingFills id =
    st.pendingFills id + (if a.id = id then m.fillSize else 0) +
      (if b.id = id then m.fillSize else 0) := by
  simp only [record, add]
  grind

theorem remaining_record : (st.record a b m).remaining o =
    st.remaining o - (if a.id = o.id then m.fillSize else 0) -
      (if b.id = o.id then m.fillSize else 0) := by
  unfold remaining
  rw [pendingFills_record]
  omega

theorem record_le (h : 0 < m.fillSize) : (st.record a b m).remaining o ≤ st.remaining o := by
  rw [remaining_record]
  split <;> split <;> omega

/-- A fill of all that both orders have left uses up one of them. -/
theorem record_uses (ha : 0 < st.remaining a) (hb : 0 < st.remaining b)
    (hfill : m.fillSize = st.fillSize a b) :
    (st.record a b m).remaining a ≤ 0 ∨ (st.record a b m).remaining b ≤ 0 := by
  rw [remaining_record, remaining_record, if_pos rfl, if_pos rfl, hfill]
  unfold fillSize
  split
  · left
    split <;> omega
  · right
    split <;> omega

theorem fillSize_meet (bid ask : RestingOrder) : (st.meet bid ask).fillSize = st.fillSize bid ask := by
  unfold meet
  split <;> rfl

theorem fillSize_of_pos (ha : 0 < st.remaining a) (hb : 0 < st.remaining b) : 0 < st.fillSize a b :=
  fillSize_pos (by omega)

/-- A market order is the taker of a resting order. -/
def hitDesk : Desk RestingOrder Matching where
  left := remaining
  deal := fun resting mo st => st.record resting mo (st.hit resting mo)
  deal_left_le := fun hresting hmo _ => record_le (fillSize_of_pos hresting hmo)
  deal_uses := fun hresting hmo => record_uses hresting hmo rfl

/-- A bid goes through the asks. -/
def meetDesk : Desk RestingOrder Matching where
  left := remaining
  deal := fun ask bid st => st.record bid ask (st.meet bid ask)
  deal_left_le := fun hask hbid _ => record_le (by rw [fillSize_meet]; exact fillSize_of_pos hbid hask)
  deal_uses := fun hask hbid => (record_uses hbid hask (fillSize_meet _ _)).symm

def sameOwner (taker maker : RestingOrder) : Prop := maker.owner = taker.owner

def never (_ _ : RestingOrder) : Prop := False

/-- The bid's price is below the ask's. -/
def apart (bid ask : RestingOrder) : Prop := bid.limitPrice < ask.limitPrice

instance (taker : RestingOrder) : DecidablePred (sameOwner taker) := fun maker =>
  inferInstanceAs (Decidable (maker.owner = taker.owner))

instance (taker : RestingOrder) : DecidablePred (never taker) := fun _ =>
  inferInstanceAs (Decidable False)

instance (bid : RestingOrder) : DecidablePred (apart bid) := fun ask =>
  inferInstanceAs (Decidable (bid.limitPrice < ask.limitPrice))

theorem sweep_eq (mo : RestingOrder) (book : List RestingOrder) (st : Matching) :
    st.sweep mo book = hitDesk.pass mo (sameOwner mo) (never mo) book st := by
  induction book generalizing st with
  | nil => rfl
  | cons resting book ih =>
    unfold sweep Desk.pass
    rw [ih, ih, if_neg (show ¬ never mo resting from id)]
    rfl

theorem cross_eq (bid : RestingOrder) (asks : List RestingOrder) (st : Matching) :
    st.cross bid asks = meetDesk.pass bid (sameOwner bid) (apart bid) asks st := by
  induction asks generalizing st with
  | nil => rfl
  | cons ask asks ih =>
    unfold cross Desk.pass
    rw [ih, ih]
    simp only [eq_comm (a := bid.owner), or_comm (a := st.remaining bid ≤ 0)]
    rfl

end Matching

/-! ## The run -/

/-- A market's resting limit orders and its market orders, each under an id of its own. -/
structure Book where
  limitOrders : List RestingOrder
  marketOrders : List RestingOrder
  ids : ((limitOrders ++ marketOrders).map RestingOrder.id).Nodup

namespace Book

def limitBids (book : Book) : List RestingOrder :=
  (book.limitOrders.filter (·.isLong)).insertionSort bidBefore

def limitAsks (book : Book) : List RestingOrder :=
  (book.limitOrders.filter (!·.isLong)).insertionSort askBefore

def marketSells (book : Book) : List RestingOrder := book.marketOrders.filter (!·.isLong)

def marketBuys (book : Book) : List RestingOrder := book.marketOrders.filter (·.isLong)

open Matching in
/-- The maps as `matchAll` leaves them. -/
def run (book : Book) : Matching :=
  let st := hitDesk.rounds sameOwner never book.marketSells book.limitBids Matching.empty
  let st := hitDesk.rounds sameOwner never book.marketBuys book.limitAsks st
  meetDesk.rounds sameOwner apart book.limitBids book.limitAsks st

theorem run_results (book : Book) :
    book.run.results = matchAll book.limitOrders book.marketOrders := by
  unfold matchAll
  simp only [Matching.sweep_eq, Matching.cross_eq]
  rfl

variable {book : Book} {a b o : RestingOrder} {id : String}

theorem mem_limitBids : o ∈ book.limitBids ↔ o ∈ book.limitOrders ∧ o.isLong = true := by
  rw [limitBids, List.mem_insertionSort, List.mem_filter]

theorem mem_limitAsks : o ∈ book.limitAsks ↔ o ∈ book.limitOrders ∧ o.isLong = false := by
  rw [limitAsks, List.mem_insertionSort, List.mem_filter, Bool.not_eq_true']

theorem mem_marketSells : o ∈ book.marketSells ↔ o ∈ book.marketOrders ∧ o.isLong = false := by
  rw [marketSells, List.mem_filter, Bool.not_eq_true']

theorem mem_marketBuys : o ∈ book.marketBuys ↔ o ∈ book.marketOrders ∧ o.isLong = true :=
  List.mem_filter

theorem eq_of_id (ha : a ∈ book.limitOrders ++ book.marketOrders)
    (hb : b ∈ book.limitOrders ++ book.marketOrders) (h : a.id = b.id) : a = b :=
  List.inj_on_of_nodup_map book.ids ha hb h

instance : Std.Total bidBefore where
  total a b := by unfold bidBefore; omega

instance : IsTrans RestingOrder bidBefore where
  trans a b c := by unfold bidBefore; omega

instance : Std.Total askBefore where
  total a b := by unfold askBefore; omega

instance : IsTrans RestingOrder askBefore where
  trans a b c := by unfold askBefore; omega

theorem limitBids_sorted (book : Book) : book.limitBids.Pairwise bidBefore :=
  List.pairwise_insertionSort _ _

theorem limitAsks_sorted (book : Book) : book.limitAsks.Pairwise askBefore :=
  List.pairwise_insertionSort _ _

/-- What the sort keeps behind `x` is not in front of it. -/
theorem mem_before {R : RestingOrder → RestingOrder → Prop} {l before after : List RestingOrder}
    {x y : RestingOrder} (hsorted : l.Pairwise R) (hl : l = before ++ x :: after) (hy : y ∈ l)
    (hne : y ≠ x) (h : ¬ R x y) : y ∈ before := by
  subst hl
  rcases List.mem_append.mp hy with hbefore | hrest
  · exact hbefore
  · have hlater := (List.mem_cons.mp hrest).resolve_left hne
    exact absurd (List.rel_of_pairwise_cons (List.pairwise_append.mp hsorted).2.1 hlater) h

end Book

/-- Strictly the better price on the same side, or the same price and older. -/
def RestingOrder.Outranks (o o' : RestingOrder) : Prop :=
  o.isLong = o'.isLong ∧
    ((if o.isLong then o'.limitPrice < o.limitPrice else o.limitPrice < o'.limitPrice) ∨
      (o.limitPrice = o'.limitPrice ∧ o.createdAt < o'.createdAt))

namespace Book

open RestingOrder (Outranks)

variable {book : Book} {a b o x : RestingOrder} {P : Matching → Prop} {st : Matching}

theorem outranks_before_bid {before after : List RestingOrder}
    (hbids : book.limitBids = before ++ x :: after) (ho : o ∈ book.limitOrders)
    (h : o.Outranks x) : o ∈ before := by
  have hx : x ∈ book.limitBids := by rw [hbids]; simp
  obtain ⟨hside, hbetter⟩ := h
  have hlong : o.isLong = true := hside.trans (mem_limitBids.mp hx).2
  rw [if_pos hlong] at hbetter
  refine mem_before (limitBids_sorted book) hbids (mem_limitBids.mpr ⟨ho, hlong⟩) ?_ ?_
  · rintro rfl
    omega
  · unfold bidBefore
    omega

theorem outranks_before_ask {before after : List RestingOrder}
    (hasks : book.limitAsks = before ++ x :: after) (ho : o ∈ book.limitOrders)
    (h : o.Outranks x) : o ∈ before := by
  have hx : x ∈ book.limitAsks := by rw [hasks]; simp
  obtain ⟨hside, hbetter⟩ := h
  have hshort : o.isLong = false := hside.trans (mem_limitAsks.mp hx).2
  rw [if_neg (Bool.not_eq_true _ ▸ hshort)] at hbetter
  refine mem_before (limitAsks_sorted book) hasks (mem_limitAsks.mpr ⟨ho, hshort⟩) ?_ ?_
  · rintro rfl
    omega
  · unfold askBefore
    omega

/-- A market order meets a resting order, and nothing that outranks the latter is left for it. -/
structure Hits (book : Book) (st : Matching) (resting mo : RestingOrder) : Prop where
  limit : resting ∈ book.limitOrders
  market : mo ∈ book.marketOrders
  sides : resting.isLong ≠ mo.isLong
  owners : resting.owner ≠ mo.owner
  best : ∀ o ∈ book.limitOrders, o.Outranks resting → o.owner ≠ mo.owner → st.remaining o ≤ 0
  left : 0 < st.remaining resting ∧ 0 < st.remaining mo

/-- A bid meets an ask that it crosses, and nothing that outranks one is left for the other. -/
structure Meets (book : Book) (st : Matching) (bid ask : RestingOrder) : Prop where
  buys : bid ∈ book.limitOrders ∧ bid.isLong = true
  sells : ask ∈ book.limitOrders ∧ ask.isLong = false
  owners : bid.owner ≠ ask.owner
  crossed : ask.limitPrice ≤ bid.limitPrice
  bestAsk : ∀ o ∈ book.limitOrders, o.Outranks ask → o.owner ≠ bid.owner → st.remaining o ≤ 0
  bestBid : ∀ o ∈ book.limitOrders, o.Outranks bid → o.owner ≠ ask.owner → st.remaining o ≤ 0
  left : 0 < st.remaining bid ∧ 0 < st.remaining ask

open Matching Greedy.Desk

/-- A market pass, whichever side it takes its makers from. -/
theorem hits_induct {takers makers : List RestingOrder} (hmarket : ∀ mo ∈ takers, mo ∈ book.marketOrders)
    (hlimit : ∀ o ∈ makers, o ∈ book.limitOrders)
    (hsides : ∀ mo ∈ takers, ∀ o ∈ makers, o.isLong ≠ mo.isLong)
    (hbest : ∀ {before x after}, makers = before ++ x :: after → ∀ o ∈ book.limitOrders,
      o.Outranks x → o ∈ before)
    (hhit : ∀ st resting mo, book.Hits st resting mo → P st →
      P (st.record resting mo (st.hit resting mo))) (h : P st) :
    P (hitDesk.rounds sameOwner never takers makers st) ∧
      hitDesk.Served sameOwner never takers makers
        (hitDesk.rounds sameOwner never takers makers st) := by
  refine rounds_induct (fun _ _ => List.pairwise_of_forall fun _ _ => id) ?_ h
  intro st earlier mo later before resting after htakers hmakers howner _ hbefore _ hresting hmo hP
  have hmemMo : mo ∈ takers := by rw [htakers]; simp
  have hmemResting : resting ∈ makers := by rw [hmakers]; simp
  refine hhit st resting mo ⟨hlimit resting hmemResting, hmarket mo hmemMo,
    hsides mo hmemMo resting hmemResting, howner, ?_, hresting, hmo⟩ hP
  exact fun o ho hbetter hother => hbefore o (hbest hmakers o ho hbetter) hother

/-- The bids against the asks. -/
theorem meets_induct (hmeet : ∀ st bid ask, book.Meets st bid ask → P st →
      P (st.record bid ask (st.meet bid ask))) (h : P st) :
    P (meetDesk.rounds sameOwner apart book.limitBids book.limitAsks st) ∧
      meetDesk.Served sameOwner apart book.limitBids book.limitAsks
        (meetDesk.rounds sameOwner apart book.limitBids book.limitAsks st) := by
  refine rounds_induct ?_ ?_ h
  · -- the asks that a bid does not reach are behind those it does
    intro bid _
    refine (limitAsks_sorted book).imp fun {a b} hab hapart => ?_
    unfold askBefore at hab
    unfold apart at hapart ⊢
    omega
  · intro st earlier bid later before ask after hbids hasks howner hapart hbefore hearlier hask hbid hP
    have hmemBid : bid ∈ book.limitBids := by rw [hbids]; simp
    have hmemAsk : ask ∈ book.limitAsks := by rw [hasks]; simp
    have hcrossed : ask.limitPrice ≤ bid.limitPrice := Int.not_lt.mp hapart
    refine hmeet st bid ask ⟨mem_limitBids.mp hmemBid, mem_limitAsks.mp hmemAsk, Ne.symm howner,
      hcrossed, ?_, ?_, hbid, hask⟩ hP
    · exact fun o ho hbetter hother => hbefore o (outranks_before_ask hasks ho hbetter) hother
    · intro o ho hbetter hother
      have hmem := outranks_before_bid hbids ho hbetter
      have hlong : o.isLong = true := hbetter.1.trans (mem_limitBids.mp hmemBid).2
      refine hearlier o hmem (Ne.symm hother) ?_
      have := hbetter.2
      rw [if_pos hlong] at this
      unfold apart
      omega

/-- **The run rule.** What every match keeps, with its orders the best that are left for
each other, is so of the result; and in the result nobody is left who could still trade. -/
theorem run_induct (hhit : ∀ st resting mo, book.Hits st resting mo → P st →
      P (st.record resting mo (st.hit resting mo)))
    (hmeet : ∀ st bid ask, book.Meets st bid ask → P st → P (st.record bid ask (st.meet bid ask)))
    (h : P Matching.empty) : P book.run ∧
      (∀ mo ∈ book.marketOrders, ∀ o ∈ book.limitOrders, o.isLong ≠ mo.isLong → o.owner ≠ mo.owner →
        book.run.remaining mo ≤ 0 ∨ book.run.remaining o ≤ 0) ∧
      ∀ bid ∈ book.limitOrders, ∀ ask ∈ book.limitOrders, bid.isLong = true → ask.isLong = false →
        bid.owner ≠ ask.owner → ask.limitPrice ≤ bid.limitPrice →
        book.run.remaining bid ≤ 0 ∨ book.run.remaining ask ≤ 0 := by
  obtain ⟨hP₁, hsells⟩ := hits_induct (fun mo hmo => (mem_marketSells.mp hmo).1)
    (fun o ho => (mem_limitBids.mp ho).1)
    (fun mo hmo o ho => by rw [(mem_marketSells.mp hmo).2, (mem_limitBids.mp ho).2]; decide)
    (fun heq o ho hbetter => outranks_before_bid heq ho hbetter) hhit h
  obtain ⟨hP₂, hbuys⟩ := hits_induct (fun mo hmo => (mem_marketBuys.mp hmo).1)
    (fun o ho => (mem_limitAsks.mp ho).1)
    (fun mo hmo o ho => by rw [(mem_marketBuys.mp hmo).2, (mem_limitAsks.mp ho).2]; decide)
    (fun heq o ho hbetter => outranks_before_ask heq ho hbetter) hhit hP₁
  obtain ⟨hP, hmet⟩ := meets_induct hmeet hP₂
  refine ⟨hP, ?_, ?_⟩
  · intro mo hmo o ho hside howner
    cases hlong : mo.isLong with
    | true =>
      have hask : o ∈ book.limitAsks := mem_limitAsks.mpr ⟨ho, by simpa [hlong] using hside⟩
      have hlater : ∀ c, book.run.remaining c ≤ _ := left_rounds_le (d := meetDesk)
      exact hbuys.of_le hlater mo (mem_marketBuys.mpr ⟨hmo, hlong⟩) o hask howner id
    | false =>
      have hbid : o ∈ book.limitBids := mem_limitBids.mpr ⟨ho, by simpa [hlong] using hside⟩
      have hlater : ∀ c, book.run.remaining c ≤ _ := fun c =>
        (left_rounds_le (d := meetDesk) c).trans (left_rounds_le (d := hitDesk) c)
      exact hsells.of_le hlater mo (mem_marketSells.mpr ⟨hmo, hlong⟩) o hbid howner id
  · intro bid hbid ask hask hlong hshort howner hcrossed
    exact hmet bid (mem_limitBids.mpr ⟨hbid, hlong⟩) ask (mem_limitAsks.mpr ⟨hask, hshort⟩)
      (Ne.symm howner) (Int.not_lt.mpr hcrossed)

end Book

/-! ## What the matches fill -/

/-- What the matches fill of the order with this id, as maker or as taker. -/
def filled (results : List MatchResult) (id : String) : Int :=
  ((results.filter fun m => m.maker.id = id ∨ m.taker.id = id).map MatchResult.fillSize).sum

/-- What they leave of an order. -/
def RestingOrder.leftover (o : RestingOrder) (results : List MatchResult) : Int :=
  o.size - o.filledSize - filled results o.id

theorem filled_concat (results : List MatchResult) (m : MatchResult) (id : String) :
    filled (results ++ [m]) id =
      filled results id + if m.maker.id = id ∨ m.taker.id = id then m.fillSize else 0 := by
  unfold filled
  rw [List.filter_append, List.map_append, List.sum_append, List.filter_singleton]
  split <;> simp_all

/-- A match is between `a` and `b`, whichever of them is the maker. -/
def MatchResult.Between (m : MatchResult) (a b : RestingOrder) : Prop :=
  (m.maker = a ∧ m.taker = b) ∨ (m.maker = b ∧ m.taker = a)

/-- The map of the pending fills adds up what has been recorded. -/
def Matching.Tracks (st : Matching) : Prop := ∀ id, st.pendingFills id = filled st.results id

theorem Matching.Tracks.remaining {st : Matching} (h : st.Tracks) (o : RestingOrder) :
    st.remaining o = o.leftover st.results := by
  unfold Matching.remaining RestingOrder.leftover
  rw [h]

theorem Matching.Tracks.record {st : Matching} {a b : RestingOrder} {m : MatchResult} (h : st.Tracks)
    (hids : a.id ≠ b.id) (hm : m.Between a b) : (st.record a b m).Tracks := by
  intro id
  show _ = filled (st.results ++ [m]) id
  rw [Matching.pendingFills_record, filled_concat, h]
  rcases hm with ⟨rfl, rfl⟩ | ⟨rfl, rfl⟩ <;> grind

theorem Matching.meet_between (st : Matching) (bid ask : RestingOrder) :
    (st.meet bid ask).Between bid ask := by
  unfold Matching.meet
  split
  · exact .inl ⟨rfl, rfl⟩
  · exact .inr ⟨rfl, rfl⟩

namespace Book

variable {book : Book} {st : Matching} {resting mo bid ask : RestingOrder}

theorem market_id_ne {o : RestingOrder} (ho : o ∈ book.limitOrders) (hmo : mo ∈ book.marketOrders) :
    mo.id ≠ o.id := by
  have hnodup := book.ids
  rw [List.map_append] at hnodup
  intro hid
  exact List.disjoint_of_nodup_append hnodup (List.mem_map_of_mem ho)
    (hid ▸ List.mem_map_of_mem hmo)

theorem Hits.ids (h : book.Hits st resting mo) : resting.id ≠ mo.id :=
  (market_id_ne h.limit h.market).symm

theorem Meets.ids (h : book.Meets st bid ask) : bid.id ≠ ask.id := by
  intro hid
  have heq := book.eq_of_id (List.mem_append_left _ h.buys.1) (List.mem_append_left _ h.sells.1) hid
  exact h.owners (congrArg RestingOrder.owner heq)

end Book

end Kryon.Venue

import Kryon.Venue.GreedyRun
import Kryon.Venue.Matcher

/-! # Matching is safe

Whatever the book, a match by itself does nothing that its two orders do not allow, and all
matches together fill no order beyond its size. -/
namespace Kryon.Venue

/-- Everything a match may do by itself. -/
structure Book.Sound (book : Book) (m : MatchResult) : Prop where
  size : 0 < m.fillSize
  owners : m.maker.owner ≠ m.taker.owner
  sides : m.maker.isLong ≠ m.taker.isLong
  /-- Market orders are takers only. -/
  maker : m.maker ∈ book.limitOrders ∧ ∀ mo ∈ book.marketOrders, mo.id ≠ m.maker.id
  taker : m.taker ∈ book.limitOrders ++ book.marketOrders
  price : m.fillPrice = m.maker.limitPrice
  /-- A buyer does not pay more than its limit, a seller does not get less. -/
  limits : ∀ o, o = m.maker ∨ o = m.taker → o ∈ book.limitOrders →
    if o.isLong then m.fillPrice ≤ o.limitPrice else o.limitPrice ≤ m.fillPrice

namespace Book

variable {book : Book} {st : Matching} {resting mo bid ask : RestingOrder}

theorem Hits.sound (h : book.Hits st resting mo) : book.Sound (st.hit resting mo) where
  size := Matching.fillSize_of_pos h.left.1 h.left.2
  owners := h.owners
  sides := h.sides
  maker := ⟨h.limit, fun _ hmo => market_id_ne h.limit hmo⟩
  taker := List.mem_append_right _ h.market
  price := rfl
  limits := by
    rintro o (rfl | rfl) ho
    · show if o.isLong then o.limitPrice ≤ o.limitPrice else o.limitPrice ≤ o.limitPrice
      split <;> exact le_rfl
    · exact absurd rfl (market_id_ne ho h.market)

theorem Meets.sound (h : book.Meets st bid ask) : book.Sound (st.meet bid ask) := by
  have hsize : 0 < st.fillSize bid ask := Matching.fillSize_of_pos h.left.1 h.left.2
  have hcrossed := h.crossed
  have hbidLimit : ∀ price, ask.limitPrice ≤ price → price ≤ bid.limitPrice →
      ∀ o, o = bid ∨ o = ask → if o.isLong then price ≤ o.limitPrice else o.limitPrice ≤ price := by
    rintro price habove hbelow o (rfl | rfl)
    · rw [if_pos h.buys.2]
      exact hbelow
    · rw [if_neg (by rw [h.sells.2]; decide)]
      exact habove
  have hnot : bid.isLong ≠ ask.isLong := by rw [h.buys.2, h.sells.2]; decide
  unfold Matching.meet
  split
  · exact ⟨hsize, h.owners, hnot, ⟨h.buys.1, fun _ hmo => market_id_ne h.buys.1 hmo⟩,
      List.mem_append_left _ h.sells.1, rfl, fun o ho _ => hbidLimit _ hcrossed le_rfl o ho⟩
  · exact ⟨hsize, h.owners.symm, hnot.symm, ⟨h.sells.1, fun _ hmo => market_id_ne h.sells.1 hmo⟩,
      List.mem_append_left _ h.buys.1, rfl, fun o ho _ => hbidLimit _ le_rfl hcrossed o ho.symm⟩

/-- A fill of what both have left takes nobody below zero. -/
theorem remaining_nonneg {a b : RestingOrder} {m : MatchResult} (hids : a.id ≠ b.id)
    (hfill : m.fillSize = st.fillSize a b)
    (ha : a ∈ book.limitOrders ++ book.marketOrders) (hb : b ∈ book.limitOrders ++ book.marketOrders)
    (h : ∀ o ∈ book.limitOrders ++ book.marketOrders, 0 ≤ st.remaining o) :
    ∀ o ∈ book.limitOrders ++ book.marketOrders, 0 ≤ (st.record a b m).remaining o := by
  intro o ho
  have hle : m.fillSize ≤ st.remaining a ∧ m.fillSize ≤ st.remaining b := by
    rw [hfill]
    unfold Matching.fillSize
    split <;> omega
  rw [Matching.remaining_record]
  by_cases hoa : a.id = o.id
  · obtain rfl := book.eq_of_id ha ho hoa
    rw [if_pos rfl, if_neg hids.symm]
    omega
  · rw [if_neg hoa]
    by_cases hob : b.id = o.id
    · obtain rfl := book.eq_of_id hb ho hob
      rw [if_pos rfl]
      omega
    · rw [if_neg hob]
      have := h o ho
      omega

/-- What `matchAll` keeps as it goes, besides that its matches are sound. -/
structure Safe (book : Book) (st : Matching) : Prop where
  tracks : st.Tracks
  left : ∀ o ∈ book.limitOrders ++ book.marketOrders, 0 ≤ st.remaining o

theorem Safe.record {a b : RestingOrder} {m : MatchResult} (h : book.Safe st) (hids : a.id ≠ b.id)
    (hm : m.Between a b) (hfill : m.fillSize = st.fillSize a b)
    (ha : a ∈ book.limitOrders ++ book.marketOrders) (hb : b ∈ book.limitOrders ++ book.marketOrders) :
    book.Safe (st.record a b m) where
  tracks := h.tracks.record hids hm
  left := remaining_nonneg hids hfill ha hb h.left

theorem sound_record {a b : RestingOrder} {m : MatchResult} (h : ∀ m ∈ st.results, book.Sound m)
    (hm : book.Sound m) : ∀ m' ∈ (st.record a b m).results, book.Sound m' := by
  intro m' hm'
  rcases List.mem_append.mp hm' with hold | hlast
  · exact h m' hold
  · exact List.mem_singleton.mp hlast ▸ hm

theorem matchAll_sound (book : Book) :
    ∀ m ∈ matchAll book.limitOrders book.marketOrders, book.Sound m := by
  rw [← run_results]
  exact (run_induct (P := fun st => ∀ m ∈ st.results, book.Sound m)
    (fun st resting mo h hst => sound_record hst h.sound)
    (fun st bid ask h hst => sound_record hst h.sound) (fun m hm => by cases hm)).1

/-- The two orders of a match have different ids. -/
theorem Sound.ids {m : MatchResult} (h : book.Sound m) : m.maker.id ≠ m.taker.id := by
  intro hid
  have heq := book.eq_of_id (List.mem_append_left _ h.maker.1) h.taker hid
  exact h.owners (congrArg RestingOrder.owner heq)

end Book

/-- **Matching is safe.** For every book, limit and market orders under ids of their own
with no order filled beyond its size: every match that comes out is for a positive size,
between different owners on opposite sides, at the maker's limit price and within every
limit order's own limit, and no market order is ever a maker; and over both passes no order
is filled for more than it had left. -/
theorem matchAll_safe {book : Book}
    (hsizes : ∀ o ∈ book.limitOrders ++ book.marketOrders, o.filledSize ≤ o.size) :
    (∀ m ∈ matchAll book.limitOrders book.marketOrders, book.Sound m) ∧
    ∀ o ∈ book.limitOrders ++ book.marketOrders,
      filled (matchAll book.limitOrders book.marketOrders) o.id ≤ o.size - o.filledSize := by
  have hempty : book.Safe Matching.empty := by
    refine ⟨fun _ => rfl, fun o ho => ?_⟩
    show 0 ≤ o.size - o.filledSize - 0
    have := hsizes o ho
    omega
  have hsafe : book.Safe book.run := by
    refine (Book.run_induct (P := book.Safe) ?_ ?_ hempty).1
    · intro st resting mo h hst
      exact hst.record h.ids (.inl ⟨rfl, rfl⟩) rfl (List.mem_append_left _ h.limit)
        (List.mem_append_right _ h.market)
    · intro st bid ask h hst
      exact hst.record h.ids (st.meet_between bid ask) (Matching.fillSize_meet bid ask)
        (List.mem_append_left _ h.buys.1) (List.mem_append_left _ h.sells.1)
  refine ⟨book.matchAll_sound, fun o ho => ?_⟩
  rw [← Book.run_results]
  have hleft := hsafe.left o ho
  rw [hsafe.tracks.remaining, RestingOrder.leftover] at hleft
  omega

namespace Sample

def resting (owner : String) (isLong : Bool) (size limitPrice : Int) (createdAt : Nat) : RestingOrder :=
  { id := owner, owner, marketId := 1, isLong, size, limitPrice, reduceOnly := false, nonce := 1
    expiryTs := 0, filledSize := 0, createdAt, signature := none }

/-- Two bids, an ask that crosses both, and a market sell that comes before the ask. -/
def crowdedBook : Book where
  limitOrders := [resting "alice" true 5 100 1, resting "bob" true 3 101 2,
    resting "carol" false 4 99 3]
  marketOrders := [resting "dave" false 4 0 4]
  ids := by decide

end Sample

open Sample in
theorem matchAll_safe_crowded :
    (matchAll crowdedBook.limitOrders crowdedBook.marketOrders).map
      (fun m => (m.maker.id, m.taker.id, m.fillSize, m.fillPrice)) =
      [("bob", "dave", 3, 101), ("alice", "dave", 1, 100), ("alice", "carol", 4, 100)] ∧
    (∀ m ∈ matchAll crowdedBook.limitOrders crowdedBook.marketOrders, crowdedBook.Sound m) ∧
    ∀ o ∈ crowdedBook.limitOrders ++ crowdedBook.marketOrders,
      filled (matchAll crowdedBook.limitOrders crowdedBook.marketOrders) o.id ≤
        o.size - o.filledSize :=
  ⟨by decide +kernel, matchAll_safe (by decide)⟩

/-! ## The book of a tick -/

/-- An order is loaded once, as a limit order or as a market order. -/
theorem loaded_nodup {db : Db} (hids : (db.orders.map (·.id)).Nodup) (marketId nowSec : Nat) :
    ((db.loadRestingOrders marketId nowSec ++ db.loadMarketOrders marketId nowSec).map
      RestingOrder.id).Nodup := by
  let isOpen := fun o : OrderRow => o.marketId == marketId && Db.isOpen nowSec o
  have hlimit : (db.loadRestingOrders marketId nowSec).Perm
      (((db.orders.filter isOpen).filter (·.limitPrice != 0)).map (·.toRestingOrder)) := by
    rw [List.filter_filter]
    refine (List.perm_insertionSort _ _).trans ((List.perm_insertionSort _ _).trans (.of_eq ?_))
    simp only [isOpen, Bool.and_comm]
  have hmarket : (db.loadMarketOrders marketId nowSec).Perm
      (((db.orders.filter isOpen).filter (!·.limitPrice != 0)).map (·.toRestingOrder)) := by
    rw [List.filter_filter]
    refine (List.perm_insertionSort _ _).trans (.of_eq ?_)
    simp only [isOpen, bne, Bool.not_not, Bool.and_comm]
  have hall : ((db.loadRestingOrders marketId nowSec ++ db.loadMarketOrders marketId nowSec).map
      RestingOrder.id).Perm ((db.orders.filter isOpen).map (·.id)) := by
    have hrows := (List.filter_append_perm (·.limitPrice != 0) (db.orders.filter isOpen)).map
      (·.toRestingOrder)
    rw [List.map_append] at hrows
    have hloaded := (((hlimit.append hmarket).trans hrows).map RestingOrder.id)
    rwa [List.map_map] at hloaded
  exact hall.nodup_iff.mpr (hids.sublist (List.filter_sublist.map _))

/-- What the matcher matches in one market, if all of it is read from the same tables. -/
def Book.load (cfg : Config) (db : Db) (hids : (db.orders.map (·.id)).Nodup)
    (marketId nowSec : Nat) : Book where
  limitOrders := inBand cfg (db.loadOraclePrice marketId) (db.loadRestingOrders marketId nowSec)
  marketOrders := db.loadMarketOrders marketId nowSec
  ids := (loaded_nodup hids marketId nowSec).sublist (((inBand_sublist cfg _ _).append_right _).map _)

/-- No order that is loaded is filled beyond its size. -/
theorem Book.load_sizes {cfg : Config} {db : Db} {hids : (db.orders.map (·.id)).Nodup}
    {marketId nowSec : Nat} {book : Book} (h : book = .load cfg db hids marketId nowSec) :
    ∀ o ∈ book.limitOrders ++ book.marketOrders, o.filledSize ≤ o.size := by
  have hopen : ∀ o : OrderRow, Db.isOpen nowSec o = true → o.filledSize ≤ o.size := by
    intro o ho
    simp only [Db.isOpen, Bool.and_eq_true, decide_eq_true_eq] at ho
    omega
  subst h
  intro o ho
  rcases List.mem_append.mp ho with hlimit | hmarket
  · obtain ⟨row, _, hrow, rfl⟩ := Db.mem_loadRestingOrders ((inBand_sublist cfg _ _).subset hlimit)
    exact hopen row hrow
  · obtain ⟨row, _, hrow, rfl⟩ := Db.mem_loadMarketOrders hmarket
    exact hopen row hrow

end Kryon.Venue

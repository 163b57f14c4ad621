import Kryon.Venue.MatchSafety

/-! # Price-time priority

When matching is done nobody is left who could still trade, and nobody has traded before
an order of its own side that outranks it. -/
namespace Kryon.Venue

/-- Each match is made when the earlier ones have used up whatever outranks its limit orders. -/
def Book.Prioritised (book : Book) (results : List MatchResult) : Prop :=
  ∀ earlier m later, results = earlier ++ m :: later →
    ∀ o ∈ book.limitOrders, o = m.maker ∨ o = m.taker →
    ∀ o' ∈ book.limitOrders, o'.Outranks o → o'.leftover earlier ≤ 0

theorem Book.Prioritised.concat {book : Book} {results : List MatchResult} {m : MatchResult}
    (h : book.Prioritised results)
    (hlast : ∀ o ∈ book.limitOrders, o = m.maker ∨ o = m.taker →
      ∀ o' ∈ book.limitOrders, o'.Outranks o → o'.leftover results ≤ 0) :
    book.Prioritised (results ++ [m]) := by
  intro earlier m' later heq
  rcases List.eq_nil_or_concat later with rfl | ⟨later, last, rfl⟩
  · obtain ⟨rfl, hm⟩ := List.append_inj' heq rfl
    obtain rfl := List.singleton_inj.mp hm
    exact hlast
  · have heq' : results ++ [m] = (earlier ++ m' :: later) ++ [last] := by simpa using heq
    obtain ⟨rfl, -⟩ := List.append_inj' heq' rfl
    exact h earlier m' later rfl

/-- No owner is on both sides of the book. -/
def Book.OneSided (book : Book) : Prop :=
  ∀ o ∈ book.limitOrders ++ book.marketOrders, ∀ o' ∈ book.limitOrders ++ book.marketOrders,
    o.owner = o'.owner → o.isLong = o'.isLong

namespace Book

variable {book : Book} {st : Matching} {resting mo bid ask : RestingOrder}

theorem Hits.prioritised (hone : book.OneSided) (h : book.Hits st resting mo) (htracks : st.Tracks)
    (hst : book.Prioritised st.results) :
    book.Prioritised (st.record resting mo (st.hit resting mo)).results := by
  refine hst.concat ?_
  rintro o ho (rfl | rfl) o' ho' hbetter
  · rw [← htracks.remaining]
    refine h.best o' ho' hbetter fun howner => h.sides ?_
    exact hbetter.1.symm.trans
      (hone o' (List.mem_append_left _ ho') mo (List.mem_append_right _ h.market) howner)
  · exact absurd rfl (market_id_ne ho h.market)

theorem Meets.prioritised (hone : book.OneSided) (h : book.Meets st bid ask) (htracks : st.Tracks)
    (hst : book.Prioritised st.results) :
    book.Prioritised (st.record bid ask (st.meet bid ask)).results := by
  have hnot : bid.isLong ≠ ask.isLong := by rw [h.buys.2, h.sells.2]; decide
  have hboth : ∀ o, o = bid ∨ o = ask → ∀ o' ∈ book.limitOrders, o'.Outranks o →
      o'.leftover st.results ≤ 0 := by
    rintro o (rfl | rfl) o' ho' hbetter
    · rw [← htracks.remaining]
      refine h.bestBid o' ho' hbetter fun howner => hnot ?_
      exact hbetter.1.symm.trans
        (hone o' (List.mem_append_left _ ho') ask (List.mem_append_left _ h.sells.1) howner)
    · rw [← htracks.remaining]
      refine h.bestAsk o' ho' hbetter fun howner => hnot.symm ?_
      exact hbetter.1.symm.trans
        (hone o' (List.mem_append_left _ ho') bid (List.mem_append_left _ h.buys.1) howner)
  refine hst.concat fun o _ hm => ?_
  rcases st.meet_between bid ask with ⟨hmaker, htaker⟩ | ⟨hmaker, htaker⟩
  · rw [hmaker, htaker] at hm
    exact hboth o hm
  · rw [hmaker, htaker] at hm
    exact hboth o hm.symm

end Book

/-- **Price-time priority.** For every book: when `matchAll` is done no bid and ask of
different owners that cross both have something left, nor do a market order and a limit
order of another owner on the opposite side; and if no owner is on both sides, a limit
order gets a fill only after the earlier matches have completely filled every order of its
side that has a better price, or the same price and came earlier. -/
theorem matchAll_priority (book : Book) :
    (∀ bid ∈ book.limitOrders, ∀ ask ∈ book.limitOrders, bid.isLong = true → ask.isLong = false →
      bid.owner ≠ ask.owner → ask.limitPrice ≤ bid.limitPrice →
      ¬ (0 < bid.leftover (matchAll book.limitOrders book.marketOrders) ∧
        0 < ask.leftover (matchAll book.limitOrders book.marketOrders))) ∧
    (∀ mo ∈ book.marketOrders, 0 < mo.leftover (matchAll book.limitOrders book.marketOrders) →
      ∀ o ∈ book.limitOrders, o.isLong ≠ mo.isLong → o.owner ≠ mo.owner →
        o.leftover (matchAll book.limitOrders book.marketOrders) ≤ 0) ∧
    (book.OneSided → book.Prioritised (matchAll book.limitOrders book.marketOrders)) := by
  have htracks : Matching.empty.Tracks := fun _ => rfl
  obtain ⟨hrun, hmarket, hcrossed⟩ := Book.run_induct (P := Matching.Tracks)
    (fun st resting mo (h : book.Hits st resting mo) hst => hst.record h.ids (.inl ⟨rfl, rfl⟩))
    (fun st bid ask h hst => hst.record h.ids (st.meet_between bid ask)) htracks
  rw [← Book.run_results]
  simp only [hrun.remaining] at hmarket hcrossed
  refine ⟨?_, ?_, ?_⟩
  · intro bid hbid ask hask hlong hshort howner hprice hleft
    have := hcrossed bid hbid ask hask hlong hshort howner hprice
    omega
  · intro mo hmo hleft o ho hside howner
    have := hmarket mo hmo o ho hside howner
    omega
  · intro hone
    have hempty : book.Prioritised Matching.empty.results := by
      intro earlier m later heq
      cases earlier <;> cases heq
    refine (Book.run_induct (P := fun st => st.Tracks ∧ book.Prioritised st.results) ?_ ?_
      ⟨htracks, hempty⟩).1.2
    · intro st resting mo h hst
      exact ⟨hst.1.record h.ids (.inl ⟨rfl, rfl⟩), h.prioritised hone hst.1 hst.2⟩
    · intro st bid ask h hst
      exact ⟨hst.1.record h.ids (st.meet_between bid ask), h.prioritised hone hst.1 hst.2⟩

open Sample in
theorem matchAll_priority_crowded :
    crowdedBook.Prioritised (matchAll crowdedBook.limitOrders crowdedBook.marketOrders) :=
  (matchAll_priority crowdedBook).2.2 (by unfold Book.OneSided; decide)

end Kryon.Venue

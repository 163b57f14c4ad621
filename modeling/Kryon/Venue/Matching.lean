import Mathlib.Algebra.Group.Int.Defs
import Mathlib.Data.List.Sort

/-! # Matching (`client/scripts/matcher-service.ts`)

Price-time priority over one market's resting orders, and the hash a fill carries until
it has settled. A `bigint` is an `Int`; dates are milliseconds. -/
namespace Kryon.Venue

structure RestingOrder where
  id : String
  owner : String
  marketId : Nat
  isLong : Bool
  size : Int
  /-- Zero for a market order. -/
  limitPrice : Int
  reduceOnly : Bool
  nonce : Int
  expiryTs : Int
  filledSize : Int
  createdAt : Nat
  signature : Option String
  deriving DecidableEq, Repr

structure MatchResult where
  maker : RestingOrder
  taker : RestingOrder
  fillSize : Int
  fillPrice : Int
  deriving DecidableEq, Repr

/-! ## One pass over the book -/

/-- The maps that `matchAll` fills as it goes. -/
structure Matching where
  pendingFills : String → Int
  results : List MatchResult

namespace Matching

def empty : Matching := ⟨fun _ => 0, []⟩

def remaining (st : Matching) (o : RestingOrder) : Int := o.size - o.filledSize - st.pendingFills o.id

def add (st : Matching) (id : String) (delta : Int) : Matching :=
  { st with pendingFills := fun k => if k = id then st.pendingFills id + delta else st.pendingFills k }

/-- Both orders are used up by the match's size, and the match is recorded. -/
def record (st : Matching) (a b : RestingOrder) (m : MatchResult) : Matching :=
  let st := (st.add a.id m.fillSize).add b.id m.fillSize
  { st with results := st.results ++ [m] }

/-- The size that both orders have left. -/
def fillSize (st : Matching) (a b : RestingOrder) : Int :=
  if st.remaining a < st.remaining b then st.remaining a else st.remaining b

/-- A market order hits a resting order at the resting order's price. -/
def hit (st : Matching) (resting mo : RestingOrder) : MatchResult :=
  ⟨resting, mo, st.fillSize resting mo, resting.limitPrice⟩

/-- The older of two crossing orders is the maker. -/
def meet (st : Matching) (bid ask : RestingOrder) : MatchResult :=
  if bid.createdAt ≤ ask.createdAt then ⟨bid, ask, st.fillSize bid ask, bid.limitPrice⟩
  else ⟨ask, bid, st.fillSize bid ask, ask.limitPrice⟩

/-- A market order against the resting side, best price first. -/
def sweep (mo : RestingOrder) : List RestingOrder → Matching → Matching
  | [], st => st
  | resting :: book, st =>
    if resting.owner = mo.owner then sweep mo book st
    else if st.remaining resting ≤ 0 ∨ st.remaining mo ≤ 0 then sweep mo book st
    else if (st.record resting mo (st.hit resting mo)).remaining mo ≤ 0 then
      st.record resting mo (st.hit resting mo)
    else sweep mo book (st.record resting mo (st.hit resting mo))

/-- One bid against the asks, up to the first ask it does not cross. -/
def cross (bid : RestingOrder) : List RestingOrder → Matching → Matching
  | [], st => st
  | ask :: asks, st =>
    if bid.owner = ask.owner then cross bid asks st
    else if bid.limitPrice < ask.limitPrice then st
    else if st.remaining bid ≤ 0 ∨ st.remaining ask ≤ 0 then cross bid asks st
    else if (st.record bid ask (st.meet bid ask)).remaining bid ≤ 0 then
      st.record bid ask (st.meet bid ask)
    else cross bid asks (st.record bid ask (st.meet bid ask))

end Matching

/-- The order of the bids: the higher price first, then the older order. -/
def bidBefore (a b : RestingOrder) : Prop :=
  b.limitPrice < a.limitPrice ∨ (a.limitPrice = b.limitPrice ∧ a.createdAt ≤ b.createdAt)

/-- The order of the asks: the lower price first, then the older order. -/
def askBefore (a b : RestingOrder) : Prop :=
  a.limitPrice < b.limitPrice ∨ (a.limitPrice = b.limitPrice ∧ a.createdAt ≤ b.createdAt)

instance : DecidableRel bidBefore := fun a b =>
  inferInstanceAs (Decidable (b.limitPrice < a.limitPrice ∨
    (a.limitPrice = b.limitPrice ∧ a.createdAt ≤ b.createdAt)))

instance : DecidableRel askBefore := fun a b =>
  inferInstanceAs (Decidable (a.limitPrice < b.limitPrice ∨
    (a.limitPrice = b.limitPrice ∧ a.createdAt ≤ b.createdAt)))

/-- Market sells, market buys, then limit against limit. Both sorts are stable. -/
def matchAll (limitOrders marketOrders : List RestingOrder) : List MatchResult :=
  let limitBids := (limitOrders.filter (·.isLong)).insertionSort bidBefore
  let limitAsks := (limitOrders.filter (!·.isLong)).insertionSort askBefore
  let st := (marketOrders.filter (!·.isLong)).foldl (fun st mo => st.sweep mo limitBids) Matching.empty
  let st := (marketOrders.filter (·.isLong)).foldl (fun st mo => st.sweep mo limitAsks) st
  let st := limitBids.foldl (fun st bid => st.cross bid limitAsks) st
  st.results

/-! ## What comes out of a pass -/

/-- Every match so far is between orders in `S` and for a positive size. -/
def Matching.Within (S : RestingOrder → Prop) (st : Matching) : Prop :=
  ∀ m ∈ st.results, S m.maker ∧ S m.taker ∧ 0 < m.fillSize

namespace Matching

variable {S : RestingOrder → Prop} {st : Matching} {a b : RestingOrder}

theorem fillSize_pos (h : ¬ (st.remaining a ≤ 0 ∨ st.remaining b ≤ 0)) : 0 < st.fillSize a b := by
  unfold fillSize
  split <;> omega

theorem Within.record {m : MatchResult} (h : st.Within S) (hmaker : S m.maker) (htaker : S m.taker)
    (hsize : 0 < m.fillSize) : (st.record a b m).Within S := by
  intro m' hm'
  cases List.mem_append.mp hm' with
  | inl hold => exact h m' hold
  | inr hlast =>
    rw [List.mem_singleton.mp hlast]
    exact ⟨hmaker, htaker, hsize⟩

theorem Within.meet (h : st.Within S) (ha : S a) (hb : S b)
    (hrem : ¬ (st.remaining a ≤ 0 ∨ st.remaining b ≤ 0)) : (st.record a b (st.meet a b)).Within S := by
  unfold Matching.meet
  split
  · exact h.record ha hb (fillSize_pos hrem)
  · exact h.record hb ha (fillSize_pos hrem)

theorem Within.sweep {mo : RestingOrder} (hmo : S mo) {book : List RestingOrder}
    (hbook : ∀ o ∈ book, S o) (h : st.Within S) : (st.sweep mo book).Within S := by
  induction book generalizing st with
  | nil => exact h
  | cons resting book ih =>
    have hrest : ∀ o ∈ book, S o := fun o ho => hbook o (List.mem_cons_of_mem _ ho)
    unfold Matching.sweep
    split
    · exact ih hrest h
    split
    · exact ih hrest h
    rename_i hrem
    have hhit : (st.record resting mo (st.hit resting mo)).Within S :=
      h.record (hbook resting List.mem_cons_self) hmo (fillSize_pos hrem)
    split
    · exact hhit
    · exact ih hrest hhit

theorem Within.cross {bid : RestingOrder} (hbid : S bid) {asks : List RestingOrder}
    (hasks : ∀ o ∈ asks, S o) (h : st.Within S) : (st.cross bid asks).Within S := by
  induction asks generalizing st with
  | nil => exact h
  | cons ask asks ih =>
    have hrest : ∀ o ∈ asks, S o := fun o ho => hasks o (List.mem_cons_of_mem _ ho)
    unfold Matching.cross
    split
    · exact ih hrest h
    split
    · exact h
    split
    · exact ih hrest h
    rename_i hrem
    have hmeet := h.meet hbid (hasks ask List.mem_cons_self) hrem
    split
    · exact hmeet
    · exact ih hrest hmeet

/-- A pass for each order of a list keeps what each of them keeps. -/
theorem Within.foldl {pass : Matching → RestingOrder → Matching} {l : List RestingOrder}
    (hpass : ∀ o ∈ l, ∀ st, st.Within S → (pass st o).Within S) (h : st.Within S) :
    (l.foldl pass st).Within S := by
  induction l generalizing st with
  | nil => exact h
  | cons o l ih =>
    exact ih (fun o' ho' => hpass o' (List.mem_cons_of_mem _ ho')) (hpass o List.mem_cons_self st h)

end Matching

/-- Only the orders that went in are matched, each time for a positive size. -/
theorem matchAll_within {S : RestingOrder → Prop} {limitOrders marketOrders : List RestingOrder}
    (hlimit : ∀ o ∈ limitOrders, S o) (hmarket : ∀ o ∈ marketOrders, S o) :
    ∀ m ∈ matchAll limitOrders marketOrders, S m.maker ∧ S m.taker ∧ 0 < m.fillSize := by
  have hsorted : ∀ (side : RestingOrder → Bool) (before : RestingOrder → RestingOrder → Prop)
      [DecidableRel before], ∀ o ∈ (limitOrders.filter side).insertionSort before, S o := by
    intro side before _ o ho
    exact hlimit o (List.mem_of_mem_filter ((List.mem_insertionSort _).mp ho))
  have hmo : ∀ (side : RestingOrder → Bool), ∀ o ∈ marketOrders.filter side, S o :=
    fun side o ho => hmarket o (List.mem_of_mem_filter ho)
  have hempty : Matching.empty.Within S := by
    intro m hm
    cases hm
  have hbids := hsorted (·.isLong) bidBefore
  have hasks := hsorted (!·.isLong) askBefore
  have hsells := hempty.foldl fun mo hmem st hst => hst.sweep (hmo (!·.isLong) mo hmem) hbids
  have hbuys := hsells.foldl fun mo hmem st hst => hst.sweep (hmo (·.isLong) mo hmem) hasks
  exact hbuys.foldl fun bid hmem st hst => hst.cross (hbids bid hmem) hasks

/-! ## The oracle band -/

def withinOracleBand (maxDeviationBps fillPrice oracle : Int) : Bool :=
  let delta := (oracle * maxDeviationBps).tdiv 10000
  oracle - delta ≤ fillPrice && fillPrice ≤ oracle + delta

/-! ## The hash of a pending fill -/

/-- The UTF-16 code units of a string, as `charCodeAt` reads them. -/
def charCodes (s : String) : List Nat :=
  s.toList.flatMap fun c =>
    if c.toNat < 0x10000 then [c.toNat]
    else [0xD800 + (c.toNat - 0x10000) / 0x400, 0xDC00 + (c.toNat - 0x10000) % 0x400]

/-- `Math.imul(31, h) + code | 0` over the codes. -/
def hash31 (codes : List Nat) : BitVec 32 :=
  codes.foldl (fun h code => 31#32 * h + BitVec.ofNat 32 code) 0#32

def pseudoTxHash (maker taker : RestingOrder) (fillSize : Int) : String :=
  let raw := "db:" ++ maker.owner ++ ":" ++ maker.nonce.repr ++ ":" ++ taker.owner ++ ":" ++
    taker.nonce.repr ++ ":" ++ fillSize.repr
  "dbfill" ++ .ofList ((Nat.toDigits 16 (hash31 (charCodes raw)).toInt.natAbs).leftpad 58 '0')

namespace MatchResult

def pseudoTxHash (m : MatchResult) : String := Venue.pseudoTxHash m.maker m.taker m.fillSize

/-- `(fillSize * fillPrice) / BigInt(Math.round(PRICE_PRECISION))`. -/
def fillValue (m : MatchResult) : Int := (m.fillSize * m.fillPrice).tdiv (10 ^ 18)

end MatchResult

end Kryon.Venue

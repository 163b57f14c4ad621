import Mathlib.Algebra.BigOperators.Intervals
import Mathlib.Algebra.Order.BigOperators.Group.Finset
import Mathlib.Tactic.Linarith

/-! # Averages weighted by time

Prices are quoted one after the other, and each stands until the next. A reading averages
the standing price over the seconds since the reading before it, or since the first quote,
and closes that window. An accumulator of four numbers is enough to know the average. -/

namespace TimeWeighted

inductive Event where
  | quote (now : Nat) (price : Int)
  | read (now : Nat)
  deriving DecidableEq, Repr

namespace Event

def now : Event → Nat
  | quote now _ | read now => now

end Event

/-- The price that stands in the second `s`: the last one quoted up to it. -/
def standing (es : List Event) (s : Nat) : Int :=
  es.foldl (fun price e => match e with
    | .quote now p => if now ≤ s then p else price
    | .read _ => price) 0

/-- The open window's first second, none before the first quote, and the closed windows. -/
structure Windows where
  start : Option Nat := none
  closed : List (Nat × Nat) := []

def Windows.next (ws : Windows) : Event → Windows
  | .quote now _ => { ws with start := some (ws.start.getD now) }
  | .read now => match ws.start with
    | none => ws
    | some a => { start := some now, closed := ws.closed ++ [(a, now)] }

def windows (es : List Event) : Windows := es.foldl Windows.next {}

/-- The standing price averaged over the seconds of a window, rounded down; that of an
empty window is the price that stands at it. -/
def average (es : List Event) (start now : Nat) : Int :=
  if start < now then (∑ s ∈ Finset.Ico start now, standing es s) / ((now - start : Nat) : Int)
  else standing es now

variable {es : List Event} {e : Event} {s a now last : Nat} {price sum p lo hi : Int}

@[simp] theorem standing_quote :
    standing (es ++ [.quote now p]) s = if now ≤ s then p else standing es s := by
  simp [standing]

@[simp] theorem standing_read : standing (es ++ [.read now]) s = standing es s := by
  simp [standing]

theorem windows_append : windows (es ++ [e]) = (windows es).next e := by
  simp [windows]

/-! ## Bounds -/

/-- The average lies between the prices that stood in its window. -/
theorem average_mem (hle : a ≤ now)
    (h : ∀ s, a ≤ s → s < max now (a + 1) → lo ≤ standing es s ∧ standing es s ≤ hi) :
    lo ≤ average es a now ∧ average es a now ≤ hi := by
  unfold average
  split
  case isTrue hlt =>
    have hpos : (0 : Int) < ((now - a : Nat) : Int) := by omega
    have hin : ∀ s ∈ Finset.Ico a now, lo ≤ standing es s ∧ standing es s ≤ hi := by
      intro s hs
      rw [Finset.mem_Ico] at hs
      exact h s hs.1 (by omega)
    have hlow := Finset.card_nsmul_le_sum _ _ lo fun s hs => (hin s hs).1
    have hhigh := Finset.sum_le_card_nsmul _ _ hi fun s hs => (hin s hs).2
    rw [Nat.card_Ico, nsmul_eq_mul] at hlow hhigh
    constructor
    · exact Int.le_ediv_of_mul_le hpos (by rw [mul_comm]; exact hlow)
    · refine Int.ediv_le_of_le_mul hpos ?_
      rw [mul_comm]
      exact hhigh
  case isFalse hempty =>
    obtain rfl : a = now := by omega
    exact h a le_rfl (by omega)

/-! ## The accumulator -/

/-- `price` stands from `last` on, and `sum` adds up what stood from `a` to `last`. -/
structure Accumulates (es : List Event) (a last : Nat) (price sum : Int) : Prop where
  le : a ≤ last
  stands : ∀ s, last ≤ s → standing es s = price
  sum_eq : sum = ∑ s ∈ Finset.Ico a last, standing es s

theorem Accumulates.advance (h : Accumulates es a last price sum) (hnow : last ≤ now) :
    Accumulates es a now price (sum + price * (now - last : Nat)) where
  le := h.le.trans hnow
  stands s hs := h.stands s (hnow.trans hs)
  sum_eq := by
    have hnew : ∑ s ∈ Finset.Ico last now, standing es s = price * (now - last : Nat) := by
      rw [Finset.sum_congr rfl fun s hs => h.stands s (Finset.mem_Ico.mp hs).1, Finset.sum_const,
        Nat.card_Ico, nsmul_eq_mul, mul_comm]
    rw [← Finset.sum_Ico_consecutive _ h.le hnow, hnew, ← h.sum_eq]

theorem Accumulates.quote (h : Accumulates es a now price sum) :
    Accumulates (es ++ [.quote now p]) a now p sum where
  le := h.le
  stands s hs := by rw [standing_quote, if_pos hs]
  sum_eq := by
    rw [h.sum_eq]
    refine Finset.sum_congr rfl fun s hs => ?_
    rw [standing_quote, if_neg (not_le.mpr (Finset.mem_Ico.mp hs).2)]

theorem Accumulates.read (h : Accumulates es a now price sum) :
    Accumulates (es ++ [.read now]) now now price 0 where
  le := le_rfl
  stands s hs := by rw [standing_read]; exact h.stands s hs
  sum_eq := by rw [Finset.Ico_self, Finset.sum_empty]

theorem accumulates_first : Accumulates (es ++ [.quote now p]) now now p 0 where
  le := le_rfl
  stands s hs := by rw [standing_quote, if_pos hs]
  sum_eq := by rw [Finset.Ico_self, Finset.sum_empty]

theorem Accumulates.average (h : Accumulates es a now price sum) :
    average es a now = if a < now then sum / ((now - a : Nat) : Int) else price := by
  unfold TimeWeighted.average
  rw [← h.sum_eq, h.stands now le_rfl]

theorem Accumulates.sum_nonneg (h : Accumulates es a last price sum)
    (hnn : ∀ s, 0 ≤ standing es s) : 0 ≤ sum := by
  rw [h.sum_eq]
  exact Finset.sum_nonneg fun s _ => hnn s

/-! ## The windows -/

/-- The closed windows that a second lies in. -/
def Windows.hits (ws : Windows) (s : Nat) : Nat :=
  ws.closed.countP fun w => decide (w.1 ≤ s ∧ s < w.2)

/-- When the first price was quoted. -/
def firstQuote (es : List Event) : Option Nat :=
  es.findSome? fun e => match e with
    | .quote now _ => some now
    | .read _ => none

/-- The closed windows tile the seconds from the first quote to the open window, which
starts at `time` at the latest; before the first quote there are none. -/
def Tiled (es : List Event) (time : Nat) : Prop :=
  (firstQuote es = none ∧ windows es = {}) ∨
  ∃ first a, firstQuote es = some first ∧ (windows es).start = some a ∧ first ≤ a ∧ a ≤ time ∧
    ∀ s, (windows es).hits s = if first ≤ s ∧ s < a then 1 else 0

theorem firstQuote_append :
    firstQuote (es ++ [e]) = (firstQuote es).or (match e with
      | .quote now _ => some now
      | .read _ => none) := by
  cases e <;> simp [firstQuote, List.findSome?_append]

theorem hits_append {ws : Windows} {w : Nat × Nat} {start : Option Nat} :
    Windows.hits { start, closed := ws.closed ++ [w] } s =
      ws.hits s + if w.1 ≤ s ∧ s < w.2 then 1 else 0 := by
  simp only [Windows.hits, List.countP_append, List.countP_cons, List.countP_nil, decide_eq_true_eq,
    zero_add]

theorem tiled_nil {time : Nat} : Tiled [] time := .inl ⟨rfl, rfl⟩

theorem Tiled.next {time : Nat} (h : Tiled es time) (he : time ≤ e.now) : Tiled (es ++ [e]) e.now := by
  unfold Tiled
  rw [windows_append, firstQuote_append]
  cases h with
  | inl hnone =>
    obtain ⟨hfirst, hclosed⟩ := hnone
    rw [hfirst, hclosed]
    cases e with
    | quote now p => exact .inr ⟨now, now, rfl, rfl, le_rfl, le_rfl, fun s => (if_neg (by omega)).symm⟩
    | read now => exact .inl ⟨rfl, rfl⟩
  | inr hopen =>
    obtain ⟨first, a, hfirst, hstart, hle, ha, hhits⟩ := hopen
    rw [hfirst]
    cases e with
    | quote now p =>
      refine .inr ⟨first, a, rfl, ?_, hle, ha.trans he, hhits⟩
      show some ((windows es).start.getD now) = some a
      rw [hstart, Option.getD_some]
    | read now =>
      have hnow : time ≤ now := he
      have hnext : (windows es).next (.read now) =
          { start := some now, closed := (windows es).closed ++ [(a, now)] } := by
        simp only [Windows.next, hstart]
      rw [hnext]
      refine .inr ⟨first, now, rfl, rfl, by omega, le_rfl, fun s => ?_⟩
      rw [hits_append, hhits]
      dsimp only
      split <;> split <;> split <;> omega

end TimeWeighted

import Mathlib.Algebra.Order.Group.Int
import Mathlib.Data.List.Basic

/-! # Greedy matching

A taker goes through the makers in a fixed order. It passes over those it may not deal
with, stops at the first one it does not want, and otherwise deals until one of the two has
nothing left. Takers come one after the other. What is proved once: a deal is made only
when every maker before it, and every taker before that wants this maker, is used up; and
at the end no taker and maker that want each other both have something left. -/

namespace Greedy

variable {ι σ : Type _}

/-- What is left of everyone, and what a deal between a maker and a taker does to it. -/
structure Desk (ι σ : Type _) where
  left : σ → ι → Int
  deal : ι → ι → σ → σ
  /-- A deal gives nothing back. -/
  deal_left_le : ∀ {maker taker s}, 0 < left s maker → 0 < left s taker →
    ∀ c, left (deal maker taker s) c ≤ left s c
  /-- A deal uses up one of the two. -/
  deal_uses : ∀ {maker taker s}, 0 < left s maker → 0 < left s taker →
    left (deal maker taker s) maker ≤ 0 ∨ left (deal maker taker s) taker ≤ 0

namespace Desk

variable (d : Desk ι σ) (taker : ι) (skip stop : ι → Prop) [DecidablePred skip] [DecidablePred stop]

/-- One taker against the makers. -/
def pass : List ι → σ → σ
  | [], s => s
  | maker :: makers, s =>
    if skip maker then pass makers s
    else if stop maker then s
    else if d.left s maker ≤ 0 ∨ d.left s taker ≤ 0 then pass makers s
    else if d.left (d.deal maker taker s) taker ≤ 0 then d.deal maker taker s
    else pass makers (d.deal maker taker s)

variable {d taker skip stop} {P : σ → Prop} {makers : List ι} {s : σ}

/-- The rule for one taker: a property is kept if a deal keeps it, made when all makers
before it that the taker may deal with are used up. -/
theorem pass_induct
    (hdeal : ∀ s before maker after, makers = before ++ maker :: after → ¬ skip maker → ¬ stop maker →
      (∀ m ∈ before, ¬ skip m → d.left s m ≤ 0) → 0 < d.left s maker → 0 < d.left s taker →
      P s → P (d.deal maker taker s)) (h : P s) : P (d.pass taker skip stop makers s) := by
  -- `before` are the makers that have been visited
  suffices hgo : ∀ before rest s, makers = before ++ rest →
      (0 < d.left s taker → ∀ m ∈ before, ¬ skip m → d.left s m ≤ 0) → P s →
      P (d.pass taker skip stop rest s) from
    hgo [] makers s rfl (fun _ m hm => by cases hm) h
  intro before rest
  induction rest generalizing before with
  | nil => exact fun s _ _ h => h
  | cons maker rest ih =>
    intro s heq hused h
    have happend : makers = (before ++ [maker]) ++ rest := by rw [heq, List.append_assoc]; rfl
    have hvisited : ∀ s', (0 < d.left s' taker → ∀ m ∈ before, ¬ skip m → d.left s' m ≤ 0) →
        (0 < d.left s' taker → ¬ skip maker → d.left s' maker ≤ 0) →
        0 < d.left s' taker → ∀ m ∈ before ++ [maker], ¬ skip m → d.left s' m ≤ 0 := by
      intro s' hbefore hmaker htaker m hm hskip
      rcases List.mem_append.mp hm with hold | hlast
      · exact hbefore htaker m hold hskip
      · obtain rfl := List.mem_singleton.mp hlast
        exact hmaker htaker hskip
    unfold pass
    split
    case isTrue hskip => exact ih _ s happend (hvisited s hused fun _ hno => absurd hskip hno) h
    case isFalse hskip =>
    split
    case isTrue => exact h
    case isFalse hstop =>
    split
    case isTrue hnone =>
      refine ih _ s happend (hvisited s hused fun htaker _ => ?_) h
      rcases hnone with hmaker | hdone
      · exact hmaker
      · omega
    case isFalse hleft =>
      have hmaker : 0 < d.left s maker := by omega
      have htaker : 0 < d.left s taker := by omega
      have hP := hdeal s before maker rest heq hskip hstop (hused htaker) hmaker htaker h
      split
      case isTrue => exact hP
      case isFalse hmore =>
        refine ih _ _ happend (hvisited _ (fun _ m hm hno => ?_) fun _ _ => ?_) hP
        · exact (d.deal_left_le hmaker htaker m).trans (hused htaker m hm hno)
        · exact (d.deal_uses hmaker htaker).resolve_right hmore

theorem left_pass_le (c : ι) : d.left (d.pass taker skip stop makers s) c ≤ d.left s c :=
  pass_induct (P := fun s' => d.left s' c ≤ d.left s c)
    (fun _ _ _ _ _ _ _ _ hmaker htaker hle => (d.deal_left_le hmaker htaker c).trans hle) le_rfl

/-- Either the taker is used up or all the makers are that it may deal with and wants, if
the ones it wants come first. -/
theorem pass_exhausts (hstop : makers.Pairwise fun a b => stop a → stop b) :
    d.left (d.pass taker skip stop makers s) taker ≤ 0 ∨
    ∀ maker ∈ makers, ¬ skip maker → ¬ stop maker →
      d.left (d.pass taker skip stop makers s) maker ≤ 0 := by
  induction makers generalizing s with
  | nil => exact .inr fun maker hm => by cases hm
  | cons maker makers ih =>
    obtain ⟨hfirst, hrest⟩ := List.pairwise_cons.mp hstop
    unfold pass
    split
    case isTrue hskip =>
      refine (ih hrest).imp_right fun hall => List.forall_mem_cons.mpr ⟨?_, hall⟩
      exact fun hno => absurd hskip hno
    case isFalse hskip =>
    split
    case isTrue hstopped =>
      right
      intro m hm _ hwanted
      rcases List.mem_cons.mp hm with rfl | hlater
      · exact absurd hstopped hwanted
      · exact absurd (hfirst m hlater hstopped) hwanted
    case isFalse hwanted =>
    split
    case isTrue hnone =>
      rcases hnone with hmaker | htaker
      · refine (ih hrest).imp_right fun hall => List.forall_mem_cons.mpr ⟨?_, hall⟩
        exact fun _ _ => (left_pass_le maker).trans hmaker
      · exact .inl ((left_pass_le taker).trans htaker)
    case isFalse hleft =>
      split
      case isTrue hdone => exact .inl hdone
      case isFalse hmore =>
        refine (ih hrest).imp_right fun hall => List.forall_mem_cons.mpr ⟨?_, hall⟩
        intro _ _
        exact (left_pass_le maker).trans
          ((d.deal_uses (by omega) (by omega)).resolve_right hmore)

end Desk

/-! ## One taker after the other -/

namespace Desk

variable (d : Desk ι σ) (skip stop : ι → ι → Prop)

/-- Of each taker and each maker that want each other, one is used up. -/
def Served (takers makers : List ι) (s : σ) : Prop :=
  ∀ taker ∈ takers, ∀ maker ∈ makers, ¬ skip taker maker → ¬ stop taker maker →
    d.left s taker ≤ 0 ∨ d.left s maker ≤ 0

variable [∀ t, DecidablePred (skip t)] [∀ t, DecidablePred (stop t)]

/-- Every taker in turn against the same makers. -/
def rounds (takers makers : List ι) (s : σ) : σ :=
  takers.foldl (fun s taker => d.pass taker (skip taker) (stop taker) makers s) s

variable {d skip stop} {takers makers : List ι} {s s' : σ} {P : σ → Prop}

omit [∀ t, DecidablePred (skip t)] [∀ t, DecidablePred (stop t)] in
theorem Served.of_le (h : d.Served skip stop takers makers s)
    (hle : ∀ c, d.left s' c ≤ d.left s c) : d.Served skip stop takers makers s' := by
  intro taker ht maker hm hskip hwanted
  exact (h taker ht maker hm hskip hwanted).imp (hle taker).trans (hle maker).trans

theorem left_rounds_le (c : ι) : d.left (d.rounds skip stop takers makers s) c ≤ d.left s c := by
  induction takers generalizing s with
  | nil => exact le_rfl
  | cons taker takers ih => exact ih.trans (left_pass_le c)

/-- The rule for all takers: when a deal is made, no earlier taker has anything left that
would have wanted the maker. -/
theorem rounds_induct (hstop : ∀ taker ∈ takers, makers.Pairwise fun a b => stop taker a → stop taker b)
    (hdeal : ∀ s earlier taker later before maker after,
      takers = earlier ++ taker :: later → makers = before ++ maker :: after →
      ¬ skip taker maker → ¬ stop taker maker →
      (∀ m ∈ before, ¬ skip taker m → d.left s m ≤ 0) →
      (∀ t ∈ earlier, ¬ skip t maker → ¬ stop t maker → d.left s t ≤ 0) →
      0 < d.left s maker → 0 < d.left s taker → P s → P (d.deal maker taker s))
    (h : P s) : P (d.rounds skip stop takers makers s) ∧
      d.Served skip stop takers makers (d.rounds skip stop takers makers s) := by
  -- `earlier` are the takers that have had their turn
  suffices hgo : ∀ earlier rest s, takers = earlier ++ rest → d.Served skip stop earlier makers s →
      P s → P (d.rounds skip stop rest makers s) ∧
        d.Served skip stop takers makers (d.rounds skip stop rest makers s) from
    hgo [] takers s rfl (fun t ht => by cases ht) h
  intro earlier rest
  induction rest generalizing earlier with
  | nil =>
    intro s heq hserved h
    rw [List.append_nil] at heq
    exact ⟨h, heq ▸ hserved⟩
  | cons taker rest ih =>
    intro s heq hserved h
    have happend : takers = (earlier ++ [taker]) ++ rest := by rw [heq, List.append_assoc]; rfl
    have hmem : taker ∈ takers := by rw [heq]; simp
    have hkept : P (d.pass taker (skip taker) (stop taker) makers s) ∧
        d.Served skip stop earlier makers (d.pass taker (skip taker) (stop taker) makers s) := by
      refine pass_induct (P := fun s => P s ∧ d.Served skip stop earlier makers s) ?_ ⟨h, hserved⟩
      intro s before maker after hmakers hskip hwanted hbefore hmaker htaker ⟨hP, hused⟩
      refine ⟨?_, hused.of_le (d.deal_left_le hmaker htaker)⟩
      refine hdeal s earlier taker rest before maker after heq hmakers hskip hwanted hbefore ?_
        hmaker htaker hP
      intro t ht hskip' hwanted'
      have hthis : maker ∈ makers := by rw [hmakers]; simp
      exact (hused t ht maker hthis hskip' hwanted').resolve_right (by omega)
    refine ih _ _ happend ?_ hkept.1
    intro t ht maker hm hno hwanted
    rcases List.mem_append.mp ht with hold | hlast
    · exact hkept.2 t hold maker hm hno hwanted
    · obtain rfl := List.mem_singleton.mp hlast
      exact (pass_exhausts (hstop t hmem)).imp_right fun hall => hall maker hm hno hwanted

end Desk

end Greedy

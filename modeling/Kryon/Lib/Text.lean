import Mathlib.Algebra.Group.Nat.Defs
import Mathlib.Data.List.Basic

/-! # Text as bytes

The UTF-8 bytes of a string, decimal numerals, and texts joined by a separator: the
bytes determine the string, a numeral its number, and a joined text its fields when none
of them contains the separator. -/
namespace Text

/-- The UTF-8 bytes of a string. -/
def utf8 (s : String) : List UInt8 := s.toList.flatMap String.utf8EncodeChar

/-- The byte of each character of a text of one-byte characters. -/
def oneByte (s : String) : List UInt8 := s.toList.map fun c => UInt8.ofNat c.toNat

def IsAscii (s : String) : Prop := ∀ c ∈ s.toList, c.toNat < 128

@[simp] theorem utf8_empty : utf8 "" = [] := rfl

@[simp] theorem utf8_append (s t : String) : utf8 (s ++ t) = utf8 s ++ utf8 t := by
  simp only [utf8, String.toList_append, List.flatMap_append]

theorem utf8_intercalate (s : String) (l : List String) :
    utf8 (s.intercalate l) = (utf8 s).intercalate (l.map utf8) := by
  induction l with
  | nil => rw [String.intercalate_nil]; rfl
  | cons head rest ih =>
    cases rest with
    | nil => rw [String.intercalate_singleton, List.map_singleton, List.intercalate_singleton]
    | cons next rest =>
      rw [String.intercalate_cons_cons, utf8_append, utf8_append, ih, List.map_cons, List.map_cons,
        List.map_cons, List.intercalate_cons_cons]

theorem utf8_of_ascii {s : String} (h : IsAscii s) : utf8 s = oneByte s := by
  unfold IsAscii at h
  unfold utf8 oneByte
  generalize s.toList = chars at h
  induction chars with
  | nil => rfl
  | cons c rest ih =>
    obtain ⟨hc, hrest⟩ := List.forall_mem_cons.mp h
    have hone : String.utf8EncodeChar c = [UInt8.ofNat c.toNat] :=
      if_pos (show c.val.toNat ≤ 127 from Nat.le_of_lt_succ hc)
    rw [List.flatMap_cons, List.map_cons, hone, ih hrest, List.singleton_append]

/-- The bytes determine the string. -/
theorem utf8_injective {s t : String} (h : utf8 s = utf8 t) : s = t := by
  have hbytes := congrArg List.toByteArray h
  have hencode : s.toList.utf8Encode = t.toList.utf8Encode := hbytes
  rw [← String.toByteArray_ofList, ← String.toByteArray_ofList, String.toByteArray_inj,
    String.ofList_toList, String.ofList_toList] at hencode
  exact hencode

/-! ## Decimal numerals -/

theorem repr_injective {n m : Nat} (h : n.repr = m.repr) : n = m := by
  have hdigits := congrArg String.toList h
  rw [Nat.toList_repr, Nat.toList_repr] at hdigits
  rw [← Nat.ofDigitChars_ten_toDigits (n := n), hdigits, Nat.ofDigitChars_ten_toDigits]

theorem digit_of_mem_repr {n : Nat} {c : Char} (h : c ∈ n.repr.toList) : c.isDigit = true := by
  rw [Nat.toList_repr] at h
  exact Nat.isDigit_of_mem_toDigits (by decide) (by decide) h

theorem minus_notMem_repr (n : Nat) : '-' ∉ n.repr.toList := by
  intro h
  exact absurd (digit_of_mem_repr h) (by decide)

theorem intRepr_injective {a b : Int} (h : a.repr = b.repr) : a = b := by
  rw [Int.repr_eq_if, Int.repr_eq_if] at h
  have hminus : ∀ n m : Nat, n.repr ≠ "-" ++ m.repr := by
    intro n m heq
    refine minus_notMem_repr n ?_
    rw [heq, String.toList_append]
    exact List.mem_append_left _ (.head _)
  split at h
  · split at h
    · have := repr_injective h
      omega
    · exact absurd h (hminus _ _)
  · split at h
    · exact absurd h.symm (hminus _ _)
    · have := repr_injective ((String.append_right_inj "-").mp h)
      omega

/-- The characters of a decimal integer. -/
theorem mem_intRepr {a : Int} {c : Char} (h : c ∈ a.repr.toList) : c.isDigit = true ∨ c = '-' := by
  rw [Int.repr_eq_if] at h
  split at h
  · exact .inl (digit_of_mem_repr h)
  · rw [String.toList_append, List.mem_append] at h
    cases h with
    | inl hsign => exact .inr (List.mem_singleton.mp hsign)
    | inr hdigit => exact .inl (digit_of_mem_repr hdigit)

theorem isAscii_intRepr (a : Int) : IsAscii a.repr := by
  intro c hc
  cases mem_intRepr hc with
  | inl hdigit =>
    simp only [Char.isDigit, Bool.and_eq_true, decide_eq_true_eq] at hdigit
    exact Nat.lt_of_le_of_lt hdigit.2 (by decide)
  | inr hminus => rw [hminus]; decide

theorem isAscii_repr (n : Nat) : IsAscii n.repr := isAscii_intRepr n

/-! ## Fields and separators -/

theorem notMem_oneByte {s : String} {sep : Char} (hs : IsAscii s) (hsep : sep.toNat < 128)
    (h : sep ∉ s.toList) : UInt8.ofNat sep.toNat ∉ oneByte s := by
  intro hmem
  obtain ⟨c, hc, heq⟩ := List.mem_map.mp hmem
  have hnat := congrArg UInt8.toNat heq
  rw [UInt8.toNat_ofNat', UInt8.toNat_ofNat'] at hnat
  have hlt := hs c hc
  have heq' : c.toNat = sep.toNat := by omega
  obtain rfl : c = sep := Char.toNat_inj.mp heq'
  exact h hc

/-- A joined text determines its fields. -/
theorem intercalate_injective {α : Type} [DecidableEq α] {sep : α} {l l' : List (List α)}
    (hl : ∀ x ∈ l, sep ∉ x) (hl' : ∀ x ∈ l', sep ∉ x) (hne : l ≠ []) (hne' : l' ≠ [])
    (h : [sep].intercalate l = [sep].intercalate l') : l = l' := by
  rw [← List.splitOn_intercalate sep hl hne, h, List.splitOn_intercalate sep hl' hne']

/-- What follows the last separator, and what precedes it. -/
theorem append_sep_inj {α : Type} {sep : α} {l l' r r' : List α} (hr : sep ∉ r) (hr' : sep ∉ r')
    (h : l ++ sep :: r = l' ++ sep :: r') : l = l' ∧ r = r' := by
  have hshort : ∀ {c r r' : List α}, sep ∉ r → sep :: r = c ++ sep :: r' → c = [] ∧ r = r' := by
    intro c r r' hr hc
    cases c with
    | nil => exact ⟨rfl, (List.cons.inj hc).2⟩
    | cons a c =>
      refine absurd ?_ hr
      rw [(List.cons.inj hc).2]
      exact List.mem_append_right c List.mem_cons_self
  cases List.append_eq_append_iff.mp h with
  | inl hlonger =>
    obtain ⟨c, rfl, hc⟩ := hlonger
    obtain ⟨rfl, rfl⟩ := hshort hr hc
    exact ⟨(List.append_nil l).symm, rfl⟩
  | inr hshorter =>
    obtain ⟨c, rfl, hc⟩ := hshorter
    obtain ⟨rfl, rfl⟩ := hshort hr' hc
    exact ⟨List.append_nil l', rfl⟩

/-! ## Positional digits -/

/-- The low digits determine a number below their range. -/
theorem eq_of_digits {b k n m : Nat} (hn : n < b ^ k) (hm : m < b ^ k)
    (h : ∀ j < k, n / b ^ j % b = m / b ^ j % b) : n = m := by
  induction k generalizing n m with
  | zero =>
    rw [Nat.pow_zero] at hn hm
    omega
  | succ k ih =>
    have hb : 0 < b := by
      refine Nat.pos_of_ne_zero fun hz => ?_
      subst hz
      simp at hn
    have hhigh : n / b = m / b := by
      refine ih ((Nat.div_lt_iff_lt_mul hb).mpr ?_) ((Nat.div_lt_iff_lt_mul hb).mpr ?_) fun j hj => ?_
      · rwa [← Nat.pow_succ]
      · rwa [← Nat.pow_succ]
      · have hj' := h (j + 1) (by omega)
        rwa [Nat.pow_succ', ← Nat.div_div_eq_div_mul, ← Nat.div_div_eq_div_mul] at hj'
    have hlow : n % b = m % b := by
      have h0 := h 0 (by omega)
      rwa [Nat.pow_zero, Nat.div_one, Nat.div_one] at h0
    rw [← Nat.div_add_mod n b, ← Nat.div_add_mod m b, hhigh, hlow]

/-- Pieces of one length determine the list they were made from. -/
theorem flatMap_injective {α β : Type} {f : α → List β} {len : Nat} (hlen : ∀ a, (f a).length = len)
    (hf : ∀ a b, f a = f b → a = b) {l l' : List α} (hll : l.length = l'.length)
    (h : l.flatMap f = l'.flatMap f) : l = l' := by
  induction l generalizing l' with
  | nil =>
    exact (List.length_eq_zero_iff.mp hll.symm).symm
  | cons a rest ih =>
    cases l' with
    | nil => cases hll
    | cons b rest' =>
      rw [List.flatMap_cons, List.flatMap_cons] at h
      obtain ⟨hab, hrest⟩ := List.append_inj h ((hlen a).trans (hlen b).symm)
      rw [hf a b hab, ih (Nat.succ.inj hll) hrest]

end Text

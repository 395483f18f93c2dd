-- SUMMARY: The integers that are read off the front of a text, and the texts that are nothing but an integer.
import Mathlib.Data.List.Induction
import Bpt.Util.String

/-!
# Integers in a text

Reading an integer stops at the first character that is no digit and says nothing
about the rest. A text is only an integer if it is printed again with the same
digits, up to zeros in front.
-/

namespace Bpt

/-! ## Digits -/

theorem leadingDigits_eq (cs : List Char) :
    leadingDigits cs =
      if cs.takeWhile Char.isDigit = [] then none
      else some (Nat.ofDigitChars 10 (cs.takeWhile Char.isDigit) 0) := by
  have hdigit : (fun c : Char => decide ('0' ≤ c) && decide (c ≤ '9')) = Char.isDigit := rfl
  unfold leadingDigits
  rw [hdigit, Nat.ofDigitChars_eq_foldl]
  simp only [List.isEmpty_iff]

/-- Digits are read to their end. -/
theorem leadingDigits_of_digits {ds : List Char} (hds : ∀ d ∈ ds, d.isDigit = true)
    (hne : ds ≠ []) : leadingDigits ds = some (Nat.ofDigitChars 10 ds 0) := by
  rw [leadingDigits_eq, List.takeWhile_eq_self_iff.mpr hds, if_neg hne]

theorem digitChar_of_isDigit {c : Char} (hc : c.isDigit = true) :
    c.toNat - '0'.toNat < 10 ∧ Nat.digitChar (c.toNat - '0'.toNat) = c := by
  have hrange : '0'.toNat ≤ c.toNat ∧ c.toNat ≤ '9'.toNat := Char.isDigit_iff_toNat.mp hc
  have hzero : '0'.toNat = 48 := rfl
  have hnine : '9'.toNat = 57 := rfl
  refine ⟨by omega, ?_⟩
  apply Char.toNat_inj.mp
  rw [Nat.toNat_digitChar_of_lt_ten (by omega)]
  omega

theorem toDigits_concat {n : Nat} (hn : 0 < n) {c : Char} (hc : c.isDigit = true) :
    Nat.toDigits 10 n ++ [c] = Nat.toDigits 10 (10 * n + (c.toNat - '0'.toNat)) := by
  obtain ⟨hlt, hchar⟩ := digitChar_of_isDigit hc
  rw [← Nat.toDigits_append_toDigits (by decide) hn hlt, Nat.toDigits_of_lt_base hlt, hchar]

theorem ofDigitChars_concat (ds : List Char) (c : Char) :
    Nat.ofDigitChars 10 (ds ++ [c]) 0 = 10 * Nat.ofDigitChars 10 ds 0 + (c.toNat - '0'.toNat) := by
  rw [Nat.ofDigitChars_append, Nat.ofDigitChars_cons, Nat.ofDigitChars_nil]

/-- Digits are the number that they denote, with zeros in front. -/
theorem exists_zeros {ds : List Char} (hds : ∀ d ∈ ds, d.isDigit = true) (hne : ds ≠ []) :
    ∃ k, ds = List.replicate k '0' ++ Nat.toDigits 10 (Nat.ofDigitChars 10 ds 0) := by
  induction ds using List.reverseRecOn with
  | nil => exact absurd rfl hne
  | append_singleton front c ih =>
    have hc := hds c (List.mem_append_right _ List.mem_cons_self)
    obtain ⟨hlt, hchar⟩ := digitChar_of_isDigit hc
    rw [ofDigitChars_concat]
    by_cases hfront : front = []
    · subst hfront
      refine ⟨0, ?_⟩
      rw [Nat.ofDigitChars_nil, Nat.mul_zero, Nat.zero_add, Nat.toDigits_of_lt_base hlt, hchar]
      rfl
    · obtain ⟨k, hk⟩ := ih (fun d hd => hds d (List.mem_append_left _ hd)) hfront
      cases hn : Nat.ofDigitChars 10 front 0 with
      | zero =>
        rw [hn, Nat.toDigits_zero, ← List.replicate_succ'] at hk
        refine ⟨k + 1, ?_⟩
        rw [Nat.mul_zero, Nat.zero_add, Nat.toDigits_of_lt_base hlt, hchar, hk]
      | succ n =>
        rw [hn] at hk
        refine ⟨k, ?_⟩
        rw [← toDigits_concat (Nat.succ_pos n) hc, ← List.append_assoc, ← hk]

theorem isDigit_of_mem_toDigits {n : Nat} {c : Char} (h : c ∈ Nat.toDigits 10 n) :
    c.isDigit = true := Nat.isDigit_of_mem_toDigits (by decide) (by decide) h

/-- Zeros in front do not change a number. -/
theorem leadingDigits_zeros (k n : Nat) :
    leadingDigits (List.replicate k '0' ++ Nat.toDigits 10 n) = some n := by
  rw [leadingDigits_of_digits]
  · rw [Nat.ofDigitChars_append, Nat.ofDigitChars_replicate_zero, Nat.mul_zero,
      Nat.ofDigitChars_ten_toDigits]
  · intro d hd
    cases List.mem_append.mp hd with
    | inl hzero => exact List.eq_of_mem_replicate hzero ▸ rfl
    | inr hdigit => exact isDigit_of_mem_toDigits hdigit
  · exact List.append_ne_nil_of_right_ne_nil _ Nat.toDigits_ne_nil

/-! ## Integers -/

/-- A text that is an integer to its end. A zero has no sign. -/
def IsIntegerText : List Char → Prop
  | '-' :: ds => (∀ d ∈ ds, d.isDigit = true) ∧ ∃ d ∈ ds, d ≠ '0'
  | ds => ∀ d ∈ ds, d.isDigit = true

/-- The printed integer, with zeros in front of its digits. -/
def AddsZeros (text printed : List Char) : Prop :=
  ∃ (sign : List Char) (k : Nat) (digits : List Char), (sign = [] ∨ sign = ['-']) ∧
    (∀ d ∈ digits, d.isDigit = true) ∧ printed = sign ++ digits ∧
    text = sign ++ List.replicate k '0' ++ digits

theorem intRepr_natCast (n : Nat) : (n : Int).repr.toList = Nat.toDigits 10 n := by
  rw [Int.repr_eq_if, if_pos (Int.natCast_nonneg n), Int.toNat_natCast, Nat.toList_repr]

theorem intRepr_neg {n : Nat} (hn : 0 < n) :
    (-n : Int).repr.toList = '-' :: Nat.toDigits 10 n := by
  rw [Int.repr_eq_if, if_neg (by omega), String.toList_append, Int.neg_neg, Int.toNat_natCast,
    Nat.toList_repr]
  rfl

theorem fromCharsInt_of_digits {ds : List Char} (hds : ∀ d ∈ ds, d.isDigit = true) :
    fromCharsInt ds =
      (leadingDigits ds).bind fun n => if n ≤ 2147483647 then some (n : Int) else none := by
  unfold fromCharsInt
  split
  next rest => exact absurd (hds '-' List.mem_cons_self) (by decide)
  next => rfl

/-- An integer that is not negative is read as it is printed. -/
theorem fromCharsInt_intRepr {i : Int} (hnonneg : 0 ≤ i) (hle : i ≤ 2147483647) :
    fromCharsInt i.repr.toList = some i := by
  obtain ⟨n, rfl⟩ := Int.eq_ofNat_of_zero_le hnonneg
  rw [intRepr_natCast, fromCharsInt_of_digits fun d hd => isDigit_of_mem_toDigits hd]
  have hread := leadingDigits_zeros 0 n
  rw [List.replicate_zero, List.nil_append] at hread
  rw [hread]
  exact if_pos (by omega)

theorem isIntegerText_of_digits {ds : List Char} (hds : ∀ d ∈ ds, d.isDigit = true) :
    IsIntegerText ds := by
  unfold IsIntegerText
  split
  next rest => exact absurd (hds '-' List.mem_cons_self) (by decide)
  next => exact hds

/-- Only zeros denote zero. -/
theorem exists_ne_zero_iff {ds : List Char} (hds : ∀ d ∈ ds, d.isDigit = true) :
    (∃ d ∈ ds, d ≠ '0') ↔ 0 < Nat.ofDigitChars 10 ds 0 := by
  constructor
  · rintro ⟨d, hd, hne⟩
    apply Nat.pos_of_ne_zero
    intro hzero
    obtain ⟨k, hk⟩ := exists_zeros hds (List.ne_nil_of_mem hd)
    rw [hzero, Nat.toDigits_zero, ← List.replicate_succ'] at hk
    rw [hk] at hd
    exact hne (List.eq_of_mem_replicate hd)
  · intro hpos
    by_contra hall
    have hzeros : ∀ d ∈ ds, d = '0' := by
      intro d hd
      by_contra hne
      exact hall ⟨d, hd, hne⟩
    rw [List.eq_replicate_of_mem hzeros, Nat.ofDigitChars_replicate_zero, Nat.mul_zero] at hpos
    exact absurd hpos (Nat.lt_irrefl 0)

theorem leadingDigits_of_signed {ds : List Char} {i : Int}
    (h : fromCharsInt ('-' :: ds) = some i) : ∃ n : Nat, leadingDigits ds = some n ∧ i = -n := by
  obtain ⟨n, hn, hread⟩ := Option.bind_eq_some_iff.mp h
  split at hread
  · cases hread
    exact ⟨n, hn, rfl⟩
  · cases hread

/-- A text that is read is the printed integer, with zeros in front, if it is an integer
to its end. -/
theorem addsZeros_iff {text : List Char} {i : Int} (h : fromCharsInt text = some i) :
    AddsZeros text i.repr.toList ↔ IsIntegerText text := by
  constructor
  · rintro ⟨sign, k, digits, hsign, hdigits, hprinted, rfl⟩
    have hall : ∀ d ∈ List.replicate k '0' ++ digits, d.isDigit = true := by
      intro d hd
      cases List.mem_append.mp hd with
      | inl hzero => exact List.eq_of_mem_replicate hzero ▸ rfl
      | inr hdigit => exact hdigits d hdigit
    rcases hsign with rfl | rfl
    · exact isIntegerText_of_digits hall
    · refine ⟨hall, (exists_ne_zero_iff hall).mpr ?_⟩
      have hsigned : fromCharsInt ('-' :: (List.replicate k '0' ++ digits)) = some i := h
      obtain ⟨n, hn, rfl⟩ := leadingDigits_of_signed hsigned
      have hne : List.replicate k '0' ++ digits ≠ [] := by
        intro hempty
        rw [leadingDigits_eq, hempty] at hn
        cases hn
      rw [leadingDigits_of_digits hall hne] at hn
      rw [Option.some.inj hn]
      apply Nat.pos_of_ne_zero
      rintro rfl
      cases hprinted
  · intro htext
    unfold IsIntegerText at htext
    split at htext
    next ds =>
      obtain ⟨hds, hnonzero⟩ := htext
      obtain ⟨n, hn, rfl⟩ := leadingDigits_of_signed h
      have hne : ds ≠ [] := by
        obtain ⟨d, hd, -⟩ := hnonzero
        exact List.ne_nil_of_mem hd
      have hpos := (exists_ne_zero_iff hds).mp hnonzero
      rw [leadingDigits_of_digits hds hne] at hn
      obtain ⟨k, hk⟩ := exists_zeros hds hne
      rw [Option.some.inj hn] at hk hpos
      refine ⟨['-'], k, Nat.toDigits 10 n, .inr rfl, fun d hd => isDigit_of_mem_toDigits hd, ?_, ?_⟩
      · exact intRepr_neg hpos
      · rw [hk]
        rfl
    next =>
      rw [fromCharsInt_of_digits htext] at h
      obtain ⟨n, hn, hread⟩ := Option.bind_eq_some_iff.mp h
      have hne : text ≠ [] := by
        rintro rfl
        cases hn
      rw [leadingDigits_of_digits htext hne] at hn
      obtain ⟨k, hk⟩ := exists_zeros htext hne
      rw [Option.some.inj hn] at hk
      obtain rfl : (n : Int) = i := by
        split at hread
        · exact Option.some.inj hread
        · cases hread
      exact ⟨[], k, Nat.toDigits 10 n, .inl rfl, fun d hd => isDigit_of_mem_toDigits hd,
        intRepr_natCast n, hk⟩

/-! ## Where reading stops -/

/-- Reading stops at what is no digit. -/
theorem leadingDigits_append {cs rest : List Char} (hrest : ∀ c ∈ rest.head?, c.isDigit = false) :
    leadingDigits (cs ++ rest) = leadingDigits cs := by
  have hnil : rest.takeWhile Char.isDigit = [] := by
    cases rest with
    | nil => rfl
    | cons c rest => rw [List.takeWhile_cons_of_neg (by simp [hrest c rfl])]
  have htake : (cs ++ rest).takeWhile Char.isDigit = cs.takeWhile Char.isDigit := by
    rw [List.takeWhile_append, hnil, List.append_nil]
    split
    next hall => exact (List.takeWhile_prefix _).eq_of_length hall |>.symm
    next => rfl
  rw [leadingDigits_eq, leadingDigits_eq, htake]

theorem fromCharsInt_append {cs rest : List Char}
    (hrest : ∀ c ∈ rest.head?, c.isDigit = false ∧ c ≠ '-') :
    fromCharsInt (cs ++ rest) = fromCharsInt cs := by
  have hdigits : ∀ c ∈ rest.head?, c.isDigit = false := fun c hc => (hrest c hc).1
  have hplain : ∀ cs : List Char, cs.head? ≠ some '-' → fromCharsInt cs =
      (leadingDigits cs).bind fun n => if n ≤ 2147483647 then some (n : Int) else none := by
    intro cs hcs
    unfold fromCharsInt
    split
    next => exact absurd rfl hcs
    next => rfl
  by_cases hminus : cs.head? = some '-'
  · obtain ⟨ds, rfl⟩ := List.head?_eq_some_iff.mp hminus
    rw [List.cons_append, fromCharsInt, fromCharsInt, leadingDigits_append hdigits]
  · rw [hplain cs hminus, hplain (cs ++ rest) ?_, leadingDigits_append hdigits]
    cases cs with
    | nil => exact fun h => (hrest '-' h).2 rfl
    | cons c cs => exact hminus

theorem isSpace_not_number {c : Char} (h : Name.isSpace c = true) : c.isDigit = false ∧ c ≠ '-' := by
  unfold Name.isSpace at h
  simp only [Bool.or_eq_true, decide_eq_true_eq] at h
  obtain ((((rfl | rfl) | rfl) | rfl) | rfl) | rfl := h <;> decide

theorem fromCharsInt_trimView (value : List Char) :
    fromCharsInt (trimView value) = fromCharsInt (value.dropWhile Name.isSpace) := by
  generalize hfront : value.dropWhile Name.isSpace = front
  have htrim : trimView value = front.rdropWhile Name.isSpace := by rw [trimView_eq, hfront]
  have hback : ∀ c ∈ (front.rtakeWhile Name.isSpace).head?, c.isDigit = false ∧ c ≠ '-' :=
    fun c hc => isSpace_not_number (List.mem_rtakeWhile_imp (List.mem_of_head? hc))
  calc fromCharsInt (trimView value)
      = fromCharsInt (front.rdropWhile Name.isSpace ++ front.rtakeWhile Name.isSpace) := by
        rw [fromCharsInt_append hback, htrim]
    _ = fromCharsInt front := by rw [List.rdropWhile_append_rtakeWhile]

end Bpt

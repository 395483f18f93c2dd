-- SUMMARY: String helpers: trimming, splitting at a separator, and reading an integer off the front.
import Mathlib.Data.List.DropRight
import Bpt.Util.Name

namespace Bpt

/-- `s` without the whitespace at both ends. -/
def trimView (s : List Char) : List Char :=
  ((s.dropWhile Name.isSpace).reverse.dropWhile Name.isSpace).reverse

/-- Split at `sep`. The first argument counts the characters of a separator that
are still to be passed over, the second is the part read so far, reversed. -/
def splitViewFrom (sep : List Char) : Nat → List Char → List Char → List (List Char)
  | _, part, [] => [part.reverse]
  | skip + 1, part, _ :: cs => splitViewFrom sep skip part cs
  | 0, part, c :: cs =>
    if sep.isPrefixOf (c :: cs) then part.reverse :: splitViewFrom sep (sep.length - 1) [] cs
    else splitViewFrom sep 0 (c :: part) cs

def splitView (s sep : List Char) : List (List Char) := splitViewFrom sep 0 [] s

/-- Replace a non-empty key from left to right. The first argument counts the
characters of a key that are still to be passed over. -/
def replaceFrom (key repl : List Char) : Nat → List Char → List Char
  | _, [] => []
  | skip + 1, _ :: cs => replaceFrom key repl skip cs
  | 0, c :: cs =>
    if key.isPrefixOf (c :: cs) then repl ++ replaceFrom key repl (key.length - 1) cs
    else c :: replaceFrom key repl 0 cs

def replace (s key repl : List Char) : List Char := replaceFrom key repl 0 s

/-- A key of one character is replaced character by character. -/
theorem replace_singleton (s : List Char) (k : Char) (repl : List Char) :
    replace s [k] repl = s.flatMap fun c => if c = k then repl else [c] := by
  unfold replace
  induction s with
  | nil => rfl
  | cons c cs ih =>
      rw [replaceFrom, List.flatMap_cons]
      by_cases hc : c = k
      · simp [List.isPrefixOf, hc, ih]
      · simp [List.isPrefixOf, hc, Ne.symm hc, ih]

/-- The value of leading digits, if there are any. -/
def leadingDigits (cs : List Char) : Option Nat :=
  let digits := cs.takeWhile fun c => '0' ≤ c && c ≤ '9'
  if digits.isEmpty then none
  else some (digits.foldl (fun n c => 10 * n + (c.toNat - '0'.toNat)) 0)

/-- Read a 32-bit integer off the front (`std::from_chars`). -/
def fromCharsInt : List Char → Option Int
  | '-' :: cs => (leadingDigits cs).bind fun n => if n ≤ 2147483648 then some (-n) else none
  | cs => (leadingDigits cs).bind fun n => if n ≤ 2147483647 then some n else none

/-! ## Trimming -/

theorem trimView_eq (s : List Char) :
    trimView s = (s.dropWhile Name.isSpace).rdropWhile Name.isSpace := rfl

theorem rdropWhile_append_cons {p : Char → Bool} (cs : List Char) {c : Char} (rest : List Char)
    (h : p c = false) : (cs ++ c :: rest).rdropWhile p = cs ++ c :: rest.rdropWhile p := by
  have hstop : ¬ p c = true := by simp [h]
  unfold List.rdropWhile
  rw [List.reverse_append, List.reverse_cons, List.append_assoc, List.dropWhile_append,
    List.singleton_append, List.dropWhile_cons_of_neg hstop]
  split
  next hempty => simp [List.isEmpty_iff.mp hempty]
  next => simp

/-- It does not matter which end is trimmed first. -/
theorem dropWhile_rdropWhile (p : Char → Bool) (s : List Char) :
    (s.rdropWhile p).dropWhile p = (s.dropWhile p).rdropWhile p := by
  cases hrest : s.dropWhile p with
  | nil =>
      have hnil : s.rdropWhile p = [] :=
        List.rdropWhile_eq_nil_iff.mpr (List.dropWhile_eq_nil_iff.mp hrest)
      rw [hnil]
      rfl
  | cons c rest =>
      have hc : p c = false := by
        have := List.head?_dropWhile_not p s
        rwa [hrest] at this
      have hs : s = s.takeWhile p ++ c :: rest := by rw [← hrest, List.takeWhile_append_dropWhile]
      have hstop : ¬ p c = true := by simp [hc]
      have hr : (c :: rest).rdropWhile p = c :: rest.rdropWhile p := rdropWhile_append_cons [] rest hc
      rw [hr, hs, rdropWhile_append_cons _ rest hc,
        List.dropWhile_append_of_pos fun a ha => List.mem_takeWhile_imp ha,
        List.dropWhile_cons_of_neg hstop]

theorem trimView_rdropWhile (s : List Char) : trimView (s.rdropWhile Name.isSpace) = trimView s := by
  rw [trimView_eq, dropWhile_rdropWhile, List.rdropWhile_idempotent, trimView_eq]

theorem trimView_trimView (s : List Char) : trimView (trimView s) = trimView s := by
  rw [trimView_eq s, trimView_rdropWhile, trimView_eq, List.dropWhile_idempotent]

/-- Trimmed text is empty or does not start with whitespace. -/
theorem trimView_head (s : List Char) {c : Char} (h : (trimView s).head? = some c) :
    Name.isSpace c = false := by
  rw [trimView_eq] at h
  have hfront := List.rdropWhile_prefix Name.isSpace (l := s.dropWhile Name.isSpace)
  obtain ⟨cs, hcs⟩ := List.head?_eq_some_iff.mp h
  rw [hcs] at hfront
  obtain ⟨rest, hrest⟩ := hfront
  have hhead := List.head?_dropWhile_not Name.isSpace s
  rw [← hrest] at hhead
  simpa using hhead

theorem trimView_space (s : List Char) : trimView (' ' :: s) = trimView s := by
  rw [trimView_eq, List.dropWhile_cons_of_pos (by decide), trimView_eq]

theorem mem_dropWhile {p : Char → Bool} {s : List Char} {c : Char} (h : c ∈ s) (hc : p c = false) :
    c ∈ s.dropWhile p := by
  rw [← List.takeWhile_append_dropWhile (p := p) (l := s)] at h
  rcases List.mem_append.mp h with h | h
  · exact absurd (List.mem_takeWhile_imp h) (by simp [hc])
  · exact h

/-- Only whitespace is trimmed. -/
theorem mem_trimView {s : List Char} {c : Char} (h : c ∈ s) (hc : Name.isSpace c = false) :
    c ∈ trimView s := by
  unfold trimView
  rw [List.mem_reverse]
  exact mem_dropWhile (List.mem_reverse.mpr (mem_dropWhile h hc)) hc

/-! ## Splitting -/

theorem splitViewFrom_part (sep : List Char) (skip : Nat) (part s : List Char) :
    splitViewFrom sep skip part s = (splitViewFrom sep skip [] s).modifyHead (part.reverse ++ ·) := by
  induction s generalizing skip part with
  | nil => simp [splitViewFrom]
  | cons c cs ih =>
      cases skip with
      | succ skip => exact ih skip part
      | zero =>
          rw [splitViewFrom, splitViewFrom]
          split
          next => simp
          next => rw [ih 0 (c :: part), ih 0 [c], List.modifyHead_modifyHead]; simp [Function.comp_def]

theorem splitView_cons {sep : List Char} {c : Char} {cs : List Char}
    (h : sep.isPrefixOf (c :: cs) = false) :
    splitView (c :: cs) sep = (splitView cs sep).modifyHead (c :: ·) := by
  rw [splitView, splitViewFrom, if_neg (by simp [h]), splitViewFrom_part]
  rfl

theorem splitView_ne_nil (s sep : List Char) : splitView s sep ≠ [] := by
  unfold splitView
  fun_induction splitViewFrom sep 0 [] s with
  | case1 => exact List.cons_ne_nil _ _
  | case2 _ _ _ _ ih => exact ih
  | case3 => exact List.cons_ne_nil _ _
  | case4 _ _ _ _ ih => exact ih

/-! ## Printed integers -/

theorem natRepr_injective : Function.Injective Nat.repr := by
  intro m n h
  rw [← Nat.ofDigitChars_toDigits (b := 10) (n := m) (by decide) (by decide),
    ← Nat.toList_repr, h, Nat.toList_repr, Nat.ofDigitChars_toDigits (by decide) (by decide)]

theorem isDigit_of_mem_natRepr {n : Nat} {c : Char} (h : c ∈ n.repr.toList) : c.isDigit = true := by
  rw [Nat.toList_repr] at h
  exact Nat.isDigit_of_mem_toDigits (by decide) (by decide) h

theorem of_mem_intRepr {i : Int} {c : Char} (h : c ∈ i.repr.toList) :
    c = '-' ∨ c.isDigit = true := by
  rw [Int.repr_eq_if] at h
  split at h
  next => exact .inr (isDigit_of_mem_natRepr h)
  next =>
    rw [String.toList_append] at h
    rcases List.mem_append.mp h with h | h
    · exact .inl (by simpa using h)
    · exact .inr (isDigit_of_mem_natRepr h)

theorem minus_append_ne_natRepr {m n : Nat} : "-" ++ m.repr ≠ n.repr := by
  intro h
  have hmem : '-' ∈ n.repr.toList := by
    rw [← h]
    simp
  exact absurd (isDigit_of_mem_natRepr hmem) (by decide)

theorem intRepr_injective : Function.Injective Int.repr := by
  intro i j h
  rw [Int.repr_eq_if, Int.repr_eq_if] at h
  split at h <;> split at h
  · have := natRepr_injective h
    omega
  · exact absurd h.symm minus_append_ne_natRepr
  · exact absurd h minus_append_ne_natRepr
  · have := natRepr_injective (by simpa using h)
    omega

/-- A text that ends with a separator and an integer tells both apart. -/
theorem tilde_intRepr_injective {s t : String} {i j : Int}
    (h : s ++ "~" ++ i.repr = t ++ "~" ++ j.repr) : s = t ∧ i = j := by
  -- read from the back, the integer goes up to the first separator
  have hback : ∀ (u : String) (k : Int),
      (u ++ "~" ++ k.repr).toList.reverse.takeWhile (· ≠ '~') = k.repr.toList.reverse ∧
        (u ++ "~" ++ k.repr).toList.reverse.dropWhile (· ≠ '~') = '~' :: u.toList.reverse := by
    intro u k
    have hne : ∀ c ∈ k.repr.toList.reverse, decide (c ≠ '~') = true := by
      intro c hc
      rw [decide_eq_true_iff]
      rintro rfl
      rcases of_mem_intRepr (List.mem_reverse.mp hc) with h | h
      · exact absurd h (by decide)
      · exact absurd h (by decide)
    have happend : (u ++ "~" ++ k.repr).toList.reverse =
        k.repr.toList.reverse ++ '~' :: u.toList.reverse := by
      simp [String.toList_append]
    rw [happend, List.takeWhile_append_of_pos hne, List.dropWhile_append_of_pos hne]
    simp
  have hs := (hback s i).2
  have hi := (hback s i).1
  rw [h, (hback t j).2, List.cons.injEq] at hs
  rw [h, (hback t j).1] at hi
  exact ⟨(String.toList_inj.mp (List.reverse_injective hs.2)).symm,
    (intRepr_injective (String.toList_inj.mp (List.reverse_injective hi))).symm⟩

end Bpt

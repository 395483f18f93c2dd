-- SUMMARY: The names are the strings without a defect, and a rejected string is given a reason it has.
import Bpt.Util.Name

/-!
# Defects of names

A reason is a search of its own over the string, and the names are a regular
expression. Each name has none of the defects that are searched for, and each
other string has one of them.
-/

namespace Bpt.Name

/-- The string has what the reason says. -/
def Defect (s : List Char) : InvalidReason → Prop
  | .empty => s = []
  | .capital => ∃ c ∈ s, isCapital c = true
  | .initialNotAlpha => ∃ c ∈ s.head?, isLower c = false
  | .doublePunct => ∃ c d, [c, d] <:+: s ∧ isNamePunct c = true ∧ isNamePunct d = true
  | .endPunct => ∃ c ∈ s.getLast?, isNamePunct c = true
  | .invalidChar => ∃ c ∈ s, isNameChar c = false
  | .whitespace => ∃ c ∈ s, isSpace c = true

/-! ## A name has no defect -/

theorem isCapital_of_isNameChar {c : Char} (h : isNameChar c = true) : isCapital c = false := by
  by_contra hcapital
  simp only [Bool.not_eq_false, isCapital, isNameChar, isNameAlnum, isLower, isNamePunct,
    Bool.or_eq_true, Bool.and_eq_true, decide_eq_true_eq] at hcapital h
  obtain ⟨hlow, hhigh⟩ := hcapital
  rcases h with (⟨hlower, -⟩ | ⟨-, hdigit⟩) | (rfl | rfl) | rfl
  · exact absurd (hlower.trans hhigh) (by decide)
  · exact absurd (hlow.trans hdigit) (by decide)
  · exact absurd hlow (by decide)
  · exact absurd hhigh (by decide)
  · exact absurd hlow (by decide)

theorem isSpace_of_isNameChar {c : Char} (h : isNameChar c = true) : isSpace c = false := by
  by_contra hspace
  simp only [Bool.not_eq_false, isSpace, Bool.or_eq_true, decide_eq_true_eq] at hspace
  rcases hspace with ((((rfl | rfl) | rfl) | rfl) | rfl) | rfl <;> cases h

theorem isNamePunct_of_isNameAlnum {c : Char} (h : isNameAlnum c = true) :
    isNamePunct c = false := by
  by_contra hpunct
  simp only [Bool.not_eq_false, isNamePunct, Bool.or_eq_true, decide_eq_true_eq] at hpunct
  rcases hpunct with (rfl | rfl) | rfl <;> cases h

/-- One character of a name: punctuation follows none. -/
theorem matchTail_cons {afterPunct : Bool} {c : Char} {cs : List Char}
    (h : matchTail afterPunct (c :: cs) = true) :
    (isNamePunct c = false ∧ matchTail false cs = true) ∨
      (afterPunct = false ∧ matchTail true cs = true) := by
  unfold matchTail at h
  split at h
  next halnum => exact .inl ⟨isNamePunct_of_isNameAlnum halnum, h⟩
  next =>
    split at h
    next hpunct => exact .inr ⟨by simpa using (Bool.and_eq_true_iff.mp hpunct).2, h⟩
    next => cases h

theorem not_isNamePunct_of_matchTail {c : Char} {cs : List Char}
    (h : matchTail true (c :: cs) = true) : isNamePunct c = false := by
  rcases matchTail_cons h with ⟨hpunct, -⟩ | ⟨hfalse, -⟩
  · exact hpunct
  · cases hfalse

theorem matchTail_no_doublePunct {afterPunct : Bool} {s : List Char}
    (h : matchTail afterPunct s = true) {c d : Char} (hpair : [c, d] <:+: s) :
    ¬ (isNamePunct c = true ∧ isNamePunct d = true) := by
  rintro ⟨hc, hd⟩
  induction s generalizing afterPunct with
  | nil => cases List.infix_nil.mp hpair
  | cons e s ih =>
    rcases List.infix_cons_iff.mp hpair with hfirst | hrest
    · obtain ⟨rfl, hnext⟩ := List.cons_prefix_cons.mp hfirst
      obtain ⟨rest, rfl⟩ := hnext
      rcases matchTail_cons h with ⟨hpunct, -⟩ | ⟨-, htail⟩
      · cases hpunct.symm.trans hc
      · cases (not_isNamePunct_of_matchTail htail).symm.trans hd
    · rcases matchTail_cons h with ⟨-, htail⟩ | ⟨-, htail⟩
      · exact ih htail hrest
      · exact ih htail hrest

theorem matchTail_no_endPunct {afterPunct : Bool} {s : List Char}
    (h : matchTail afterPunct s = true) {c : Char} (hlast : c ∈ s.getLast?) :
    isNamePunct c = false := by
  induction s generalizing afterPunct with
  | nil => cases hlast
  | cons e s ih =>
    cases s with
    | nil =>
      obtain rfl : e = c := by simpa using hlast
      rcases matchTail_cons h with ⟨hpunct, -⟩ | ⟨-, htail⟩
      · exact hpunct
      · cases htail
    | cons d s =>
      rw [List.getLast?_cons_cons] at hlast
      rcases matchTail_cons h with ⟨-, htail⟩ | ⟨-, htail⟩
      · exact ih htail hlast
      · exact ih htail hlast

theorem not_defect_of_matchesRe {s : List Char} (h : matchesRe s = true) (why : InvalidReason) :
    ¬ Defect s why := by
  cases s with
  | nil => cases h
  | cons c cs =>
    obtain ⟨hfirst, htail⟩ := Bool.and_eq_true_iff.mp h
    have hall : matchTail false (c :: cs) = true := by
      unfold matchTail
      rw [if_pos (by simp [isNameAlnum, hfirst])]
      exact htail
    have hchars := isNameChar_of_matchTail hall
    cases why with
    | empty => exact List.cons_ne_nil c cs
    | capital =>
      rintro ⟨d, hd, hcapital⟩
      cases (isCapital_of_isNameChar (hchars d hd)).symm.trans hcapital
    | initialNotAlpha =>
      rintro ⟨d, hd, hlower⟩
      obtain rfl := Option.some.inj hd
      cases hlower.symm.trans hfirst
    | doublePunct =>
      rintro ⟨d, e, hpair, hpunct⟩
      exact matchTail_no_doublePunct hall hpair hpunct
    | endPunct =>
      rintro ⟨d, hd, hpunct⟩
      cases (matchTail_no_endPunct hall hd).symm.trans hpunct
    | invalidChar =>
      rintro ⟨d, hd, hinvalid⟩
      cases hinvalid.symm.trans (hchars d hd)
    | whitespace =>
      rintro ⟨d, hd, hspace⟩
      cases (isSpace_of_isNameChar (hchars d hd)).symm.trans hspace

/-! ## The reason that is found -/

theorem defect_of_hasDoublePunct {s : List Char} (h : hasDoublePunct s = true) :
    Defect s .doublePunct := by
  fun_induction hasDoublePunct s with
  | case1 c d cs ih =>
    rcases Bool.or_eq_true_iff.mp h with hpair | hrest
    · obtain ⟨hc, hd⟩ := Bool.and_eq_true_iff.mp hpair
      exact ⟨c, d, (List.prefix_append [c, d] cs).isInfix, hc, hd⟩
    · obtain ⟨e, f, hinfix, hpunct⟩ := ih hrest
      exact ⟨e, f, List.infix_cons hinfix, hpunct⟩
  | case2 => cases h

theorem defect_of_reason {s : List Char} {why : InvalidReason}
    (h : calcInvalidNameReason s = some why) : Defect s why := by
  cases s with
  | nil =>
    cases h
    rfl
  | cons c cs =>
    simp only [calcInvalidNameReason] at h
    split_ifs at h with hcapital hdouble hfirst hend hspace hchar <;> cases h
    · exact List.any_eq_true.mp hcapital
    · exact defect_of_hasDoublePunct hdouble
    · exact ⟨c, rfl, by simpa using hfirst⟩
    · exact ⟨_, List.getLast?_eq_some_getLast (List.cons_ne_nil c cs), hend⟩
    · exact List.any_eq_true.mp hspace
    · obtain ⟨d, hd, hinvalid⟩ := List.any_eq_true.mp hchar
      exact ⟨d, hd, by simpa [isNameChar] using hinvalid⟩

theorem exists_defect_of_error {str : String} {e : InvalidName} (h : fromString str = .error e) :
    ∃ why, e.reason = some why ∧ Defect str.toList why := by
  obtain ⟨why, hwhy⟩ := fromString_error_reason h
  refine ⟨why, hwhy, defect_of_reason ?_⟩
  unfold fromString at h
  split at h
  next => cases h
  next =>
    cases h
    exact hwhy

/-- A string is a name when it has no defect. Otherwise a reason is found, which is
a defect of the string. -/
theorem fromString_defects (str : String) :
    ((∃ n, fromString str = .ok n) ↔ ∀ why, ¬ Defect str.toList why) ∧
      ∀ e, fromString str = .error e → ∃ why, e.reason = some why ∧ Defect str.toList why := by
  refine ⟨⟨?_, ?_⟩, fun e => exists_defect_of_error⟩
  · rintro ⟨n, hn⟩
    apply not_defect_of_matchesRe
    by_contra hre
    rw [fromString, if_neg hre] at hn
    cases hn
  · intro hnone
    cases hstr : fromString str with
    | ok n => exact ⟨n, rfl⟩
    | error e =>
      obtain ⟨why, -, hdefect⟩ := exists_defect_of_error hstr
      exact absurd hdefect (hnone why)

end Bpt.Name

-- SUMMARY: Package and library names: their order, the accepted spelling, and the reason a spelling is rejected.
import Mathlib.Data.String.Basic

/-!
# Names

`bpt::name` wraps a string. Names compare by their strings. `Name.fromString` is
the only checked constructor of the source; it accepts the regular expression
`^([a-z][a-z0-9]*)([._\-][a-z0-9]+)*$`.
-/

namespace Bpt

/-- What is relied on of `*` on a `boost::leaf::result`: it throws the error that
the result holds, as `value` does. -/
class LeafResult where
  deref {ε α : Type} : Except ε α → Except ε α
  deref_ok {ε α : Type} (a : α) : deref (.ok a : Except ε α) = .ok a
  deref_error {ε α : Type} (e : ε) : deref (.error e : Except ε α) = .error e

theorem LeafResult.deref_eq [LeafResult] {ε α : Type} (x : Except ε α) : deref x = x := by
  cases x with
  | ok a => exact deref_ok a
  | error e => exact deref_error e

instance : LeafResult where
  deref := id
  deref_ok := fun _ => rfl
  deref_error := fun _ => rfl

/-- The name of a package or of a library. -/
structure Name where
  str : String
  deriving DecidableEq, Repr

namespace Name

theorem str_injective : Function.Injective Name.str := fun a b h => by
  cases a; cases b; exact congrArg Name.mk h

instance : LinearOrder Name where
  __ := PartialOrder.lift Name.str str_injective
  le_total := fun a b => le_total a.str b.str
  toDecidableLE := fun a b => inferInstanceAs (Decidable (a.str ≤ b.str))
  toDecidableLT := fun a b => inferInstanceAs (Decidable (a.str < b.str))
  toDecidableEq := inferInstance

/-- Why a string is not a name. -/
inductive InvalidReason where
  | empty
  | capital
  | initialNotAlpha
  | doublePunct
  | endPunct
  | invalidChar
  | whitespace
  deriving DecidableEq, Repr

def isLower (c : Char) : Bool := 'a' ≤ c && c ≤ 'z'

def isCapital (c : Char) : Bool := 'A' ≤ c && c ≤ 'Z'

def isNameAlnum (c : Char) : Bool := isLower c || ('0' ≤ c && c ≤ '9')

def isNamePunct (c : Char) : Bool := c = '.' || c = '_' || c = '-'

/-- The characters of `\s`. -/
def isSpace (c : Char) : Bool :=
  c = ' ' || c = '\t' || c = '\n' || c = '\x0b' || c = '\x0c' || c = '\r'

/-- Match what follows the first letter. The flag says that the previous
character was a punctuation character. -/
def matchTail : Bool → List Char → Bool
  | afterPunct, [] => !afterPunct
  | afterPunct, c :: cs =>
    if isNameAlnum c then matchTail false cs
    else if isNamePunct c && !afterPunct then matchTail true cs
    else false

/-- The regular expression of names. -/
def matchesRe : List Char → Bool
  | [] => false
  | c :: cs => isLower c && matchTail false cs

/-- Whether two adjacent characters are both punctuation. -/
def hasDoublePunct : List Char → Bool
  | c :: d :: cs => (isNamePunct c && isNamePunct d) || hasDoublePunct (d :: cs)
  | _ => false

/-- The first reason that applies. `none` is the failed assertion at the end of
the source function. -/
def calcInvalidNameReason : List Char → Option InvalidReason
  | [] => some .empty
  | c :: cs =>
    if (c :: cs).any isCapital then some .capital
    else if hasDoublePunct (c :: cs) then some .doublePunct
    else if !isLower c then some .initialNotAlpha
    else if isNamePunct ((c :: cs).getLast (List.cons_ne_nil c cs)) then some .endPunct
    else if (c :: cs).any isSpace then some .whitespace
    else if (c :: cs).any (fun d => !(isNameAlnum d || isNamePunct d)) then some .invalidChar
    else none

/-- The text of a reason. -/
def InvalidReason.str : InvalidReason → String
  | .capital => "Uppercase letters are not valid in names"
  | .doublePunct => "Adjacent punctuation characters are not valid in names"
  | .endPunct => "Names must not end with a punctuation character"
  | .whitespace => "Names must not contain whitespace"
  | .invalidChar => "Name contains an invalid character"
  | .initialNotAlpha => "Name must begin with a lowercase alphabetic character"
  | .empty => "Name cannot be empty"

/-- A rejected name string, with the reason found for it. -/
structure InvalidName where
  str : String
  reason : Option InvalidReason
  deriving DecidableEq

def fromString (str : String) : Except InvalidName Name :=
  if matchesRe str.toList then .ok ⟨str⟩
  else .error ⟨str, calcInvalidNameReason str.toList⟩

/-- The characters of names. -/
def isNameChar (c : Char) : Bool := isNameAlnum c || isNamePunct c

theorem isNameChar_of_matchTail {afterPunct : Bool} {cs : List Char}
    (h : matchTail afterPunct cs = true) : ∀ c ∈ cs, isNameChar c = true := by
  induction cs generalizing afterPunct with
  | nil => exact fun c hc => absurd hc List.not_mem_nil
  | cons c cs ih =>
    unfold matchTail at h
    split at h
    next halnum => exact List.forall_mem_cons.2 ⟨by simp [isNameChar, halnum], ih h⟩
    next =>
      split at h
      next hpunct =>
        obtain ⟨hpunct, _⟩ := (Bool.and_eq_true_iff).1 hpunct
        exact List.forall_mem_cons.2 ⟨by simp [isNameChar, hpunct], ih h⟩
      next => cases h

theorem isNameChar_of_fromString {str : String} {n : Name} (h : fromString str = .ok n) :
    n.str.toList ≠ [] ∧ ∀ c ∈ n.str.toList, isNameChar c = true := by
  unfold fromString at h
  split at h
  next hre =>
    cases h
    generalize str.toList = cs at hre
    cases cs with
    | nil => cases hre
    | cons c cs =>
      obtain ⟨hc, htail⟩ := (Bool.and_eq_true_iff).1 hre
      refine ⟨List.cons_ne_nil c cs, List.forall_mem_cons.2 ⟨?_, isNameChar_of_matchTail htail⟩⟩
      simp [isNameChar, isNameAlnum, hc]
  next => cases h

/-- A name is one filename. -/
theorem noSeparator_of_fromString {str : String} {n : Name} (h : fromString str = .ok n) :
    '/' ∉ n.str.toList :=
  fun hmem => absurd ((isNameChar_of_fromString h).2 _ hmem) (by decide)

theorem fromString_str {str : String} {n : Name} (h : fromString str = .ok n) : n.str = str := by
  unfold fromString at h
  split at h
  · cases h
    rfl
  · cases h

/-! ## A rejected string has a reason

The last branch of the reason search asserts that it cannot be reached. A string
with only name characters, without adjacent punctuation, that starts with a
letter and does not end in punctuation matches the regular expression. -/

private theorem matchTail_of_no_reason {afterPunct : Bool} {cs : List Char}
    (hchars : ∀ d ∈ cs, isNameAlnum d ∨ isNamePunct d)
    (hfirst : afterPunct = true → ∃ d ds, cs = d :: ds ∧ isNamePunct d = false)
    (hdouble : hasDoublePunct cs = false)
    (hlast : ∀ h : cs ≠ [], isNamePunct (cs.getLast h) = false) :
    matchTail afterPunct cs = true := by
  induction cs generalizing afterPunct with
  | nil =>
      cases afterPunct with
      | false => rfl
      | true =>
          obtain ⟨d, ds, hd, _⟩ := hfirst rfl
          cases hd
  | cons c cs ih =>
      have hrest : ∀ d ∈ cs, isNameAlnum d ∨ isNamePunct d :=
        fun d hd => hchars d (List.mem_cons_of_mem c hd)
      have hdouble' : hasDoublePunct cs = false := by
        cases cs with
        | nil => rfl
        | cons d ds =>
            simp only [hasDoublePunct, Bool.or_eq_false_iff] at hdouble
            exact hdouble.2
      have hlast' : ∀ h : cs ≠ [], isNamePunct (cs.getLast h) = false := by
        intro h
        have := hlast (List.cons_ne_nil c cs)
        rwa [List.getLast_cons h] at this
      unfold matchTail
      by_cases hc : isNameAlnum c = true
      · rw [if_pos hc]
        exact ih hrest (fun h => by cases h) hdouble' hlast'
      · have hp : isNamePunct c = true :=
          (hchars c List.mem_cons_self).resolve_left hc
        have hnot : afterPunct = false := by
          cases afterPunct with
          | false => rfl
          | true =>
              obtain ⟨d, ds, hd, hpunct⟩ := hfirst rfl
              obtain ⟨rfl, rfl⟩ := List.cons.inj hd
              rw [hp] at hpunct
              cases hpunct
        rw [if_neg hc, hp, hnot, if_pos (by rfl)]
        refine ih hrest (fun _ => ?_) hdouble' hlast'
        cases cs with
        | nil =>
            have := hlast (List.cons_ne_nil c [])
            simp only [List.getLast_singleton, hp] at this
            cases this
        | cons d ds =>
            refine ⟨d, ds, rfl, ?_⟩
            simp only [hasDoublePunct, hp, Bool.true_and, Bool.or_eq_false_iff] at hdouble
            exact hdouble.1

/-- The assertion that ends the search for a reason is unreachable. -/
theorem fromString_error_reason {str : String} {e : InvalidName} (h : fromString str = .error e) :
    ∃ why, e.reason = some why := by
  unfold fromString at h
  split at h
  · cases h
  · rename_i hre
    cases h
    show ∃ why, calcInvalidNameReason str.toList = some why
    cases hcs : str.toList with
    | nil => exact ⟨_, rfl⟩
    | cons c cs =>
        rw [hcs] at hre
        simp only [calcInvalidNameReason]
        split_ifs with hcap hdouble hlower hend hspace hchar
        · exact ⟨_, rfl⟩
        · exact ⟨_, rfl⟩
        · exact ⟨_, rfl⟩
        · exact ⟨_, rfl⟩
        · exact ⟨_, rfl⟩
        · exact ⟨_, rfl⟩
        · -- nothing is wrong with the string, so it is a name
          exfalso
          apply hre
          have hchars : ∀ d ∈ c :: cs, isNameAlnum d ∨ isNamePunct d := by
            intro d hd
            by_contra hbad
            apply hchar
            rw [List.any_eq_true]
            refine ⟨d, hd, ?_⟩
            rw [not_or, Bool.not_eq_true, Bool.not_eq_true] at hbad
            simp [hbad.1, hbad.2]
          have hfirst : isLower c = true := by simpa using hlower
          have htail := @matchTail_of_no_reason false _ hchars
            (fun h => by cases h) (by simpa using hdouble)
            (fun _ => by simpa using hend)
          have halnum : isNameAlnum c = true := by simp [isNameAlnum, hfirst]
          unfold matchTail at htail
          rw [if_pos halnum] at htail
          simp [matchesRe, hfirst, htail]

end Name

end Bpt

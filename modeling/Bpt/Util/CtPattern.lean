-- SUMMARY: Compile-time file name patterns: their compilation and their matching with its fast paths.
import Bpt.Base.Fallible
import Bpt.Base.Wildcard

/-!
# Compile-time patterns

`ct_pattern` has one element for each character of a literal, and its matching has
overloads for literals up to the end of the pattern. Both are modelled as they
are, and then shown to be plain wildcard matching.
-/

namespace Bpt.CtPattern

open Fallible Wildcard

/-- An element of a compile-time pattern. -/
inductive Elem where
  | star
  | anyOne
  | oneof (chars : List Char)
  | notOneof (chars : List Char)
  | just (c : Char)
  deriving DecidableEq

/-! ## Compilation

The error is the text of the failed `static_assert`. -/

/-- The characters of a group, and what follows the group. -/
def compileOneofChars : List Char → List Char → Except String (List Char × List Char)
  | [], _ => .error "Unterminated '[' group in pattern"
  | ']' :: rest, chars => .ok (chars, rest)
  | ['\\'], _ => .error "Escape \\ at end of pattern"
  | '\\' :: c :: rest, chars => compileOneofChars rest (chars ++ [c])
  | c :: rest, chars => compileOneofChars rest (chars ++ [c])

/-- A group, which a `!` at its start negates. -/
def compileOneof (s : List Char) : Except String (Elem × List Char) :=
  match s with
  | '!' :: rest => (compileOneofChars rest []).map fun (chars, rest') => (.notOneof chars, rest')
  | _ => (compileOneofChars s []).map fun (chars, rest') => (.oneof chars, rest')

theorem compileOneofChars_length {s chars chars' rest : List Char}
    (h : compileOneofChars s chars = .ok (chars', rest)) : rest.length < s.length := by
  fun_induction compileOneofChars s chars with
  | case1 => cases h
  | case2 rest' chars =>
    cases h
    exact Nat.lt_succ_self _
  | case3 => cases h
  | case4 c rest' chars ih =>
    have hlt := ih h
    simp only [List.length_cons]
    omega
  | case5 c rest' chars _ _ _ ih => exact (ih h).trans (Nat.lt_succ_self _)

/-- The group that is made, and the text that it takes. -/
theorem compileOneof_eq_ok {s rest : List Char} {elem : Elem}
    (h : compileOneof s = .ok (elem, rest)) :
    (∃ s' chars, s = '!' :: s' ∧ elem = .notOneof chars ∧
      compileOneofChars s' [] = .ok (chars, rest)) ∨
    ∃ chars, s.head? ≠ some '!' ∧ elem = .oneof chars ∧
      compileOneofChars s [] = .ok (chars, rest) := by
  unfold compileOneof at h
  split at h
  next s' =>
    obtain ⟨found, hchars, heq⟩ := map_eq_ok.mp h
    cases heq
    exact .inl ⟨s', _, rfl, rfl, hchars⟩
  next hbang =>
    obtain ⟨found, hchars, heq⟩ := map_eq_ok.mp h
    cases heq
    refine .inr ⟨_, fun hhead => ?_, rfl, hchars⟩
    obtain ⟨s', rfl⟩ := List.head?_eq_some_iff.mp hhead
    exact hbang s' rfl

theorem compileOneof_length {s rest : List Char} {elem : Elem}
    (h : compileOneof s = .ok (elem, rest)) : rest.length < s.length := by
  rcases compileOneof_eq_ok h with ⟨s', chars, rfl, -, hchars⟩ | ⟨chars, -, -, hchars⟩
  · exact (compileOneofChars_length hchars).trans (Nat.lt_succ_self _)
  · exact compileOneofChars_length hchars

def compileNext (s : List Char) : Except String (List Elem) :=
  match s with
  | [] => .ok []
  | '*' :: rest => (compileNext rest).map (.star :: ·)
  | '?' :: rest => (compileNext rest).map (.anyOne :: ·)
  | '[' :: rest =>
    match _hgroup : compileOneof rest with
    | .error what => .error what
    | .ok (elem, rest') => (compileNext rest').map (elem :: ·)
  | ['\\'] => .error "Escape \\ at end of pattern."
  | '\\' :: c :: rest => (compileNext rest).map (.just c :: ·)
  | c :: rest => (compileNext rest).map (.just c :: ·)
termination_by s.length
decreasing_by
  · simp
  · simp
  · exact Nat.lt_succ_of_lt (compileOneof_length _hgroup)
  · simp only [List.length_cons]
    omega
  · simp

/-- `fnmatch::compile` of a string literal, which is read up to its first null character. -/
def compile (str : String) : Except String (List Elem) :=
  compileNext (str.toList.takeWhile (· ≠ '\x00'))

/-! ## Matching -/

/-- The characters of elements that are all literal. -/
def literals : List Elem → Option (List Char)
  | [] => some []
  | .just c :: elems => (literals elems).map (c :: ·)
  | _ :: _ => none

/-- The overload for literals up to the end of the pattern. -/
def matchLiterals (chars s : List Char) : Bool :=
  if s.length ≠ chars.length then false else s = chars

/-- The overloads of `match_1`. -/
def match1 : List Elem → List Char → Bool
  | [], s => s.isEmpty
  | .star :: elems, s =>
    match literals elems with
    | some (c :: chars) =>
      -- the length that the literals need is known, so the star takes the rest
      if s.length < chars.length + 1 then false
      else matchLiterals (c :: chars) (s.drop (s.length - (chars.length + 1)))
    | _ => s.tails.any fun rest => match1 elems rest
  | .just c :: elems, s =>
    match literals elems with
    | some chars => matchLiterals (c :: chars) s
    | none =>
      match s with
      | [] => false
      | d :: rest => if d ≠ c then false else match1 elems rest
  | .notOneof chars :: elems, s =>
    match s with
    | [] => false
    | c :: rest => if chars.contains c then false else match1 elems rest
  | .oneof chars :: elems, s =>
    match s with
    | [] => false
    | c :: rest => if chars.contains c then match1 elems rest else false
  | .anyOne :: elems, s =>
    match s with
    | [] => false
    | _ :: rest => match1 elems rest

/-- `ct_pattern::match` -/
def isMatch (elems : List Elem) (fname : String) : Bool :=
  match1 elems (fname.toList.takeWhile (· ≠ '\x00'))

/-! ## What the overloads do -/

def Elem.item : Elem → Item Char
  | .star => .star
  | .anyOne => .one fun _ => true
  | .oneof chars => .one fun d => chars.contains d
  | .notOneof chars => .one fun d => !chars.contains d
  | .just c => .one fun d => d = c

theorem literals_eq_some {elems : List Elem} {chars : List Char} (h : literals elems = some chars) :
    elems = chars.map .just := by
  induction elems generalizing chars with
  | nil =>
    cases h
    rfl
  | cons elem elems ih =>
    cases elem with
    | just c =>
      obtain ⟨rest, hrest, rfl⟩ := Option.map_eq_some_iff.mp h
      rw [ih hrest]
      rfl
    | _ => cases h

/-- The test for one character. -/
def isChar (c : Char) : Char → Bool := fun d => d = c

theorem pass_isChar {chars s : List Char} : Pass (chars.map isChar) s ↔ s = chars := by
  rw [Pass, List.forall₂_map_left_iff]
  constructor
  · intro h
    induction h with
    | nil => rfl
    | cons hd _ ih => rw [of_decide_eq_true hd, ih]
  · rintro rfl
    rw [List.forall₂_same]
    intro c _
    exact decide_eq_true rfl

theorem matchLiterals_eq (chars s : List Char) :
    matchLiterals chars s = true ↔ Pass (chars.map isChar) s := by
  rw [pass_isChar, matchLiterals]
  constructor
  · intro h
    split at h
    · cases h
    · exact of_decide_eq_true h
  · rintro rfl
    simp

theorem items_just (chars : List Char) :
    (chars.map Elem.just).map Elem.item = (chars.map isChar).map .one := by
  rw [List.map_map, List.map_map]
  rfl

/-- The fast paths match what the elements match one by one. -/
theorem match1_eq (elems : List Elem) (s : List Char) :
    match1 elems s = accepts (elems.map Elem.item) s := by
  induction elems generalizing s with
  | nil => rfl
  | cons elem elems ih =>
    cases elem with
    | star =>
      unfold match1
      split
      next c chars hliterals =>
        obtain rfl := literals_eq_some hliterals
        rw [Bool.eq_iff_iff, List.map_cons, items_just]
        refine Iff.trans ?_ (accepts_star_map_one _ _).symm
        rw [List.length_map, List.length_cons]
        split
        next hlt => simp only [Bool.false_eq_true, false_iff, not_and]; omega
        next hle =>
          rw [matchLiterals_eq]
          exact (and_iff_right (Nat.le_of_not_lt hle)).symm
      next => simp only [ih]; rfl
    | just c =>
      unfold match1
      split
      next chars hliterals =>
        obtain rfl := literals_eq_some hliterals
        rw [Bool.eq_iff_iff, ← List.map_cons (f := Elem.just), items_just, accepts_map_one,
          matchLiterals_eq]
      next =>
        cases s with
        | nil => rfl
        | cons d rest =>
          dsimp only
          rw [ih, List.map_cons, Elem.item, accepts]
          by_cases hd : d = c
          · simp [hd]
          · simp [hd]
    | notOneof chars =>
      cases s with
      | nil => rfl
      | cons d rest =>
        rw [match1, List.map_cons, Elem.item, accepts, ih]
        cases chars.contains d <;> rfl
    | oneof chars =>
      cases s with
      | nil => rfl
      | cons d rest =>
        rw [match1, List.map_cons, Elem.item, accepts, ih]
        cases chars.contains d <;> rfl
    | anyOne =>
      cases s with
      | nil => rfl
      | cons d rest =>
        rw [match1, List.map_cons, Elem.item, accepts, ih]
        rfl

end Bpt.CtPattern

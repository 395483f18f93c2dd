-- SUMMARY: Run-time file name patterns: their compilation and their matching.
import Mathlib.Data.List.Basic

/-!
# Patterns of file names

A compiled pattern is a chain of elements that ends with the test for the end of
the string, so it is modelled as the list of the elements before that end. A
string is given by its `char` units.
-/

namespace Bpt.Fnmatch

/-- An element of a run-time pattern. -/
inductive PatternElem where
  | star
  | anyChar
  | oneof (chars : List Char)
  | lit (lit : List Char)
  deriving DecidableEq

/-- A compiled pattern (`pattern_impl`), without the `rt_end` at its tail. -/
abbrev Pattern := List PatternElem

/-! ## Matching -/

def matchElems : Pattern → List Char → Bool
  | [], s => s.isEmpty
  | .star :: next, s => s.tails.any fun rest => matchElems next rest
  | .anyChar :: next, s =>
    match s with
    | [] => false
    | _ :: rest => matchElems next rest
  | .oneof chars :: next, s =>
    match s with
    | [] => false
    | c :: rest => chars.contains c && matchElems next rest
  | .lit lit :: next, s => lit.isPrefixOf s && matchElems next (s.drop lit.length)

/-- `pattern::match` -/
def Pattern.isMatch (pattern : Pattern) (str : String) : Bool := matchElems pattern str.toList

/-! ## Compilation

The error is the text of the exception. -/

/-- The characters of a group, and what follows the group. -/
def compileOneof : List Char → List Char → Except String (List Char × List Char)
  | [], _ => .error "Unterminated [group] in pattern"
  | ']' :: rest, chars => .ok (chars, rest)
  | ['\\'], _ => .error "Unterminated [group] in pattern"
  | '\\' :: c :: rest, chars => compileOneof rest (chars ++ [c])
  | c :: rest, chars => compileOneof rest (chars ++ [c])

/-- The characters of a literal, and what follows it. -/
def compileLit : List Char → List Char → Except String (List Char × List Char)
  | [], lit => .ok (lit, [])
  | ['\\'], _ => .error "Invalid \\ at end of pattern"
  | '\\' :: c :: rest, lit => compileLit rest (lit ++ [c])
  | c :: rest, lit =>
    if c = '*' ∨ c = '[' ∨ c = '?' then .ok (lit, c :: rest) else compileLit rest (lit ++ [c])

theorem compileOneof_length {s chars chars' rest : List Char}
    (h : compileOneof s chars = .ok (chars', rest)) : rest.length < s.length := by
  fun_induction compileOneof s chars with
  | case1 => cases h
  | case2 rest' chars =>
      cases h
      simp
  | case3 => cases h
  | case4 c rest' chars ih =>
      have := ih h
      simp only [List.length_cons]
      omega
  | case5 c rest' chars _ _ _ ih =>
      have := ih h
      simp only [List.length_cons]
      omega

theorem compileLit_length {s lit lit' rest : List Char} (h : compileLit s lit = .ok (lit', rest)) :
    rest.length ≤ s.length := by
  fun_induction compileLit s lit with
  | case1 =>
      cases h
      simp
  | case2 => cases h
  | case3 c rest' lit ih =>
      have := ih h
      simp only [List.length_cons]
      omega
  | case4 c rest' lit _ _ _ =>
      cases h
      simp
  | case5 c rest' lit _ _ _ ih =>
      have := ih h
      simp only [List.length_cons]
      omega

/-- A literal is compiled where no other element starts, and is not empty. -/
theorem compileLit_length_lt {c : Char} {s lit lit' rest : List Char}
    (hc : ¬ (c = '*' ∨ c = '[' ∨ c = '?')) (h : compileLit (c :: s) lit = .ok (lit', rest)) :
    rest.length < (c :: s).length := by
  unfold compileLit at h
  split at h
  next heq => cases heq
  next => cases h
  next heq =>
    cases heq
    have := compileLit_length h
    simp only [List.length_cons]
    omega
  next heq =>
    cases heq
    rw [if_neg hc] at h
    have := compileLit_length h
    simp only [List.length_cons]
    omega

def compileNext (s : List Char) : Except String Pattern :=
  match s with
  | [] => .ok []
  | c :: rest =>
    if c = '*' then (compileNext rest).map (.star :: ·)
    else if c = '[' then
      match _h : compileOneof rest [] with
      | .error what => .error what
      | .ok (chars, rest') => (compileNext rest').map (.oneof chars :: ·)
    else if c = '?' then (compileNext rest).map (.anyChar :: ·)
    else
      match _h : compileLit (c :: rest) [] with
      | .error what => .error what
      | .ok (lit, rest') => (compileNext rest').map (.lit lit :: ·)
termination_by s.length
decreasing_by
  · simp
  · exact Nat.lt_succ_of_lt (compileOneof_length _h)
  · simp
  · exact compileLit_length_lt (by simp_all) _h

/-- `fnmatch::compile` -/
def compile (str : String) : Except String Pattern := compileNext str.toList

end Bpt.Fnmatch

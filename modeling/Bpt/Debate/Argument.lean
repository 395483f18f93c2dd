-- SUMMARY: Command-line arguments, parsers and subparsers, and how an argument is found by its spelling.
import Mathlib.Data.List.Basic

/-!
# Arguments

An argument has long and short spellings, or none when it is positional. Its
action is run on each value; `σ` is all that the actions change, and `ε` what
they throw.
-/

namespace Bpt.Debate

abbrev Strv := List Char

structure Argument (σ ε : Type) where
  longSpellings : List Strv := []
  shortSpellings : List Strv := []
  valname : Strv := []
  required : Bool := false
  nargs : Int := 1
  canRepeat : Bool := false
  action : Strv → Strv → σ → Except ε σ

variable {σ ε : Type}

namespace Argument

def isPositional (arg : Argument σ ε) : Bool :=
  arg.longSpellings.isEmpty && arg.shortSpellings.isEmpty

/-- The first short spelling that the group begins with, or nothing. -/
def tryMatchShort (arg : Argument σ ε) (given : Strv) : Strv :=
  (arg.shortSpellings.find? fun cand => cand.isPrefixOf given).getD []

/-- The first long spelling that is given, alone or before a `=`, or nothing. -/
def tryMatchLong (arg : Argument σ ε) (given : Strv) : Strv :=
  (arg.longSpellings.find? fun cand =>
    cand.isPrefixOf given &&
      ((given.drop cand.length).isEmpty || (given.drop cand.length).head? = some '=')).getD []

def preferredSpelling (arg : Argument σ ε) : Strv :=
  match arg.longSpellings, arg.shortSpellings with
  | long :: _, _ => '-' :: '-' :: long
  | [], short :: _ => '-' :: short
  | [], [] => arg.valname

end Argument

/-! ## Parsers -/

structure Subparser (Parser σ ε : Type) where
  name : Strv
  action : Option (σ → Except ε σ)
  parser : Parser

structure SubparserGroup (Parser σ ε : Type) where
  valname : Strv := "<subcommand>".toList
  required : Bool := true
  action : Option (Strv → Strv → σ → Except ε σ)
  subparsers : List (Subparser Parser σ ε)

inductive ArgumentParser (σ ε : Type) where
  | mk (arguments : List (Argument σ ε))
      (subparsers : Option (SubparserGroup (ArgumentParser σ ε) σ ε))

namespace ArgumentParser

def arguments : ArgumentParser σ ε → List (Argument σ ε)
  | .mk arguments _ => arguments

def subparsers : ArgumentParser σ ε → Option (SubparserGroup (ArgumentParser σ ε) σ ε)
  | .mk _ subparsers => subparsers

end ArgumentParser

/-! ## Finding an argument -/

/-- Which argument: how many parsers its parser is below the outermost one, and
the place of the argument in it. -/
structure ArgId where
  depth : Nat
  index : Nat
  deriving DecidableEq

/-- An argument and the part of the word that it matched. -/
structure Match (σ ε : Type) where
  id : ArgId
  arg : Argument σ ε
  matched : Strv

/-- The first argument, from place `index` on, that matches some of the word. -/
def matchArguments (tryMatch : Argument σ ε → Strv) (depth : Nat) :
    Nat → List (Argument σ ε) → Option (Match σ ε)
  | _, [] => none
  | index, cand :: rest =>
    if (tryMatch cand).isEmpty then matchArguments tryMatch depth (index + 1) rest
    else some ⟨⟨depth, index⟩, cand, tryMatch cand⟩

/-- The first match in a chain of parsers, from the bottom parser to its parents. -/
def matchChain (tryMatch : Argument σ ε → Strv) : List (ArgumentParser σ ε) → Option (Match σ ε)
  | [] => none
  | argset :: parents =>
    match matchArguments tryMatch parents.length 0 argset.arguments with
    | some found => some found
    | none => matchChain tryMatch parents

theorem matchArguments_eq_some {tryMatch : Argument σ ε → Strv} {depth index : Nat}
    {args : List (Argument σ ε)} {found : Match σ ε}
    (h : matchArguments tryMatch depth index args = some found) :
    found.matched = tryMatch found.arg ∧ found.matched ≠ [] := by
  induction args generalizing index with
  | nil => cases h
  | cons cand rest ih =>
    rw [matchArguments] at h
    split at h
    next => exact ih h
    next hmatch =>
      cases h
      exact ⟨rfl, by simpa using hmatch⟩

theorem matchChain_eq_some {tryMatch : Argument σ ε → Strv} {chain : List (ArgumentParser σ ε)}
    {found : Match σ ε} (h : matchChain tryMatch chain = some found) :
    found.matched = tryMatch found.arg ∧ found.matched ≠ [] := by
  induction chain with
  | nil => cases h
  | cons argset parents ih =>
    rw [matchChain] at h
    split at h
    next hfound =>
      cases h
      exact matchArguments_eq_some hfound
    next => exact ih h

theorem Argument.tryMatchShort_prefix (arg : Argument σ ε) (given : Strv) :
    arg.tryMatchShort given <+: given := by
  unfold tryMatchShort
  cases hfind : arg.shortSpellings.find? fun cand => cand.isPrefixOf given with
  | none => exact List.nil_prefix
  | some cand => exact List.isPrefixOf_iff_prefix.mp (List.find?_some hfind :)

/-- What a match leaves of a group is shorter than the group. -/
theorem length_drop_matched {tail : Strv} {chain : List (ArgumentParser σ ε)} {found : Match σ ε}
    (h : matchChain (fun cand => cand.tryMatchShort tail) chain = some found) :
    (tail.drop found.matched.length).length < tail.length := by
  obtain ⟨hmatched, hne⟩ := matchChain_eq_some h
  have hlen := (found.arg.tryMatchShort_prefix tail).length_le
  have hpos := List.length_pos_iff.mpr hne
  rw [hmatched] at hpos ⊢
  rw [List.length_drop]
  omega

end Bpt.Debate

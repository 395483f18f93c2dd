-- SUMMARY: Filesystem paths as their elements, with reading, printing and lexical normalization.
import Mathlib.Data.List.Basic

/-!
# Paths

A `std::filesystem::path` with POSIX separators. Two paths are equal in the
source when their elements are, so a path is kept as its elements: whether it
starts at the root, the names in between, and whether a separator ends it.
-/

namespace Bpt

structure Path where
  /-- The path starts with a root directory. -/
  root : Bool
  names : List String
  /-- A separator follows the last name, so the filename is empty. -/
  trailing : Bool
  deriving DecidableEq, Repr

namespace Path

/-- The pieces between the separators, empty pieces included. -/
def splitSeparator : List Char → List (List Char)
  | [] => [[]]
  | c :: cs =>
    if c = '/' then [] :: splitSeparator cs
    else match splitSeparator cs with
      | [] => [[c]]
      | piece :: pieces => (c :: piece) :: pieces

/-- Read a path. Repeated separators count as one. -/
def ofString (str : String) : Path :=
  let pieces := splitSeparator str.toList
  let names := (pieces.filter (· ≠ [])).map String.ofList
  { root := str.toList.head? = some '/'
    names := names
    trailing := names ≠ [] ∧ str.toList.getLast? = some '/' }

/-- The path with `/` as separator (`generic_string`). -/
def toGenericString (p : Path) : String :=
  (if p.root then "/" else "") ++ String.intercalate "/" p.names ++ (if p.trailing then "/" else "")

/-- Resolve the dot and dot-dot names against the names kept so far, innermost
first. At the root a dot-dot name is dropped. -/
def resolveDots (root : Bool) (kept : List String) : List String → List String
  | [] => kept.reverse
  | name :: names =>
    if name = "." then resolveDots root kept names
    else if name = ".." then
      match kept with
      | [] => if root then resolveDots root [] names else resolveDots root [".."] names
      | top :: rest =>
        if top = ".." then resolveDots root (".." :: kept) names
        else resolveDots root rest names
    else resolveDots root (name :: kept) names

/-- The normal form of a path: no dot names, no name followed by a dot-dot name,
no dot-dot name at the root, and a lone dot for the empty path. -/
def lexicallyNormal (p : Path) : Path :=
  if p.root = false ∧ p.names = [] then p
  else
    let names := resolveDots p.root [] p.names
    if names = [] then
      if p.root then ⟨true, [], false⟩ else ⟨false, ["."], false⟩
    else
      let endsInDots := p.names.getLast? = some "." ∨ p.names.getLast? = some ".."
      ⟨p.root, names, (p.trailing ∨ endsInDots) ∧ names.getLast? ≠ some ".."⟩

def hasRootPath (p : Path) : Bool := p.root

/-- The path is relative and its first element is a dot-dot name. -/
def startsWithDotDot (p : Path) : Bool := !p.root && p.names.head? = some ".."

def filename (p : Path) : String := if p.trailing then "" else p.names.getLast?.getD ""

/-- The last dot of the filename and what follows. A leading dot starts no extension. -/
def extension (p : Path) : String :=
  let name := p.filename
  let back := name.toList.reverse
  let stem := (back.dropWhile (· ≠ '.')).tail
  if name = ".." ∨ stem = [] then "" else "." ++ String.ofList (back.takeWhile (· ≠ '.')).reverse

/-- A path of one element. -/
def ofFilename (name : String) : Path := ⟨false, if name = "" then [] else [name], false⟩

/-- A filename without its extension. -/
def filenameStem (name : String) : String :=
  let stem := (name.toList.reverse.dropWhile (· ≠ '.')).tail
  if name = ".." ∨ stem = [] then name else String.ofList stem.reverse

def stem (p : Path) : Path := ofFilename (filenameStem p.filename)

example : (ofString "a.b/c.hpp.syncheck").extension = ".syncheck" := by decide

example : (ofString "src/app.main.cpp").stem.stem = ofString "app" := by decide

example : (ofString "a.b/.c").extension = "" := by decide

/-- `operator/`. -/
instance : Div Path where
  div p q :=
    if q.root then q
    else ⟨p.root, p.names ++ q.names, if q.names = [] then p.names ≠ [] else q.trailing⟩

def parentPath (p : Path) : Path :=
  if p.trailing then { p with trailing := false } else ⟨p.root, p.names.dropLast, false⟩

/-- The path with another filename (`replace_filename`). -/
def replaceFilename (p q : Path) : Path :=
  (if p.trailing then p else ⟨p.root, p.names.dropLast, p.names.dropLast ≠ []⟩) / q

/-- `normalize_path`: the normal form without separators at its end. The loop
that removes them does not end on the root, which is its own parent. -/
def normalizePath (p : Path) : Option Path :=
  let q := p.lexicallyNormal
  if q.root ∧ q.names = [] then none else some { q with trailing := false }

/-- What is left of each path after the names that both start with. -/
def dropCommon : List String → List String → List String × List String
  | a :: as, b :: bs => if a = b then dropCommon as bs else (a :: as, b :: bs)
  | as, bs => (as, bs)

/-- The way from `base` to `p`, for absolute paths in normal form. -/
def lexicallyRelative (p base : Path) : Path :=
  let (rest, up) := dropCommon p.names base.names
  let names := List.replicate up.length ".." ++ rest
  if names = [] then ofFilename "." else ⟨false, names, false⟩

example : (ofString "a//b/../c/.").lexicallyNormal.toGenericString = "a/c/" := by decide

end Path

end Bpt

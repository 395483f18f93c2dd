-- SUMMARY: Dependencies of a library: the used libraries, the accepted versions, and the reader of the JSON form.
import Mathlib.Data.List.Sort
import Bpt.Crs.Info.Version
import Bpt.Util.Json

namespace Bpt.Crs

open Walk

/-- The libraries a dependency uses from its package. -/
inductive DependencyUses where
  | implicitUsesAll
  | explicitUsesList (uses : List Name)
  deriving DecidableEq, Repr

namespace DependencyUses

/-- The used libraries are not listed (`is<implicit_uses_all>`). -/
def isImplicit : DependencyUses → Bool
  | implicitUsesAll => true
  | explicitUsesList _ => false

/-- A listed use of a library. -/
def uses (u : DependencyUses) (lib : Name) : Prop :=
  match u with
  | implicitUsesAll => True
  | explicitUsesList l => lib ∈ l

instance (u : DependencyUses) (lib : Name) : Decidable (u.uses lib) :=
  match u with
  | implicitUsesAll => isTrue trivial
  | explicitUsesList l => inferInstanceAs (Decidable (lib ∈ l))

end DependencyUses

/-- A dependency on a package. -/
structure Dependency (S : Type) where
  name : Name
  acceptableVersions : S
  uses : DependencyUses

namespace Dependency

variable {V S : Type} [Semver V] [VersionRangeSet S V]

instance : DecidableEq (Dependency S) := fun a b =>
  decidable_of_iff (a.name = b.name ∧ a.acceptableVersions = b.acceptableVersions ∧ a.uses = b.uses)
    (by cases a; cases b; simp)

def versionFromString (s : String) : Except WalkExn V :=
  match Semver.parse s with
  | some v => .ok v
  | none => .error (.invalidVersion s)

variable [Semester]

/-- The handler of each field of an interval. -/
def readRangeField (key : String) (value : Json) (acc : V × V) :
    Option (Except WalkExn (V × V)) :=
  match key with
  | "low" => some do
    let s ← requireStr "'low' version must be a string" value
    return (← versionFromString s, acc.2)
  | "high" => some do
    let s ← requireStr "'high' version must be a string" value
    return (acc.1, ← versionFromString s)
  | "_comment" => some (.ok acc)
  | _ => none

/-- One element of the `versions` array: the interval `[low, high)`. -/
def parseVersionRange : Reader (V × V) := fun range => do
  let fields ← requireMapping "'versions' elements must be objects" range
  let (low, high) ← mapping
    [("low", "'low' version is required"), ("high", "'high' version is required")]
    readRangeField (default, default) fields
  if high ≤ low then
    throw (.walkError "'high' version must be strictly greater than 'low' version")
  return (low, high)

/-- What is collected while the fields of a dependency are read. -/
structure Fields (V : Type) where
  name : Name := ⟨""⟩
  verRanges : List (V × V) := []
  uses : List Name := []

/-- The handler of each field of a dependency. -/
def readField (key : String) (value : Json) (acc : Fields V) :
    Option (Except WalkExn (Fields V)) :=
  match key with
  | "name" => some do
    let s ← requireStr "Dependency 'name' must be a string" value
    return { acc with name := ← nameFromString s }
  | "versions" => some do
    let elems ← requireArray "Dependency 'versions' must be an array" value
    return { acc with verRanges := acc.verRanges ++ (← forEach parseVersionRange elems) }
  | "using" => some do
    let elems ← requireArray "Dependency 'using' must be an array of usage objects" value
    let uses ← forEach (fun elem => do
      let s ← requireStr "Each 'using' item must be a usage string" elem
      nameFromString s) elems
    return { acc with uses := acc.uses ++ uses }
  | "_comment" => some (.ok acc)
  | _ => none

def fromData : Reader (Dependency S) := fun data => do
  let fields ← requireMapping "Each dependency should be a JSON object" data
  let ret : Fields V ← mapping
    [("name", "A string 'name' is required for each dependency"),
     ("versions", "A 'versions' array is required for each dependency"),
     ("using", "A dependency 'using' key is required")]
    readField {} fields
  if ret.verRanges.isEmpty then
    throw (.walkError "A dependency's 'versions' array may not be empty")
  return {
    name := ret.name
    acceptableVersions := ret.verRanges.foldl
      (fun acc iv => IntervalOps.union acc (IntervalOps.ofInterval iv.1 iv.2)) IntervalOps.emptySet
    uses := .explicitUsesList ret.uses }

end Dependency

end Bpt.Crs

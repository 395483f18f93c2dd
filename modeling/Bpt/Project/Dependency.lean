-- SUMMARY: The dependencies of a project manifest: their shorthand spelling, their object form, and their package form.
import Bpt.Crs.Info.Dependency
import Bpt.Util.Path
import Bpt.Util.String

/-!
# Project dependencies

A project may leave open which libraries of a dependency it uses. An object of a
manifest accepts no other keys than its own, also where package metadata passes
over them.
-/

namespace Bpt.Project

open Walk

/-- How the reading of a manifest ends early. -/
inductive ProjectExn where
  | walk (exn : WalkExn)
  /-- `e_bad_pkg_yaml_key`, without its suggestion. -/
  | badPkgYamlKey (key : String)
  /-- `e_human_message`. -/
  | humanMessage (message : String)
  /-- `semver::invalid_range`. -/
  | invalidRange (str : String)
  /-- The value of a result that holds an error. -/
  | noValue
  /-- `e_bad_spdx_expression`. -/
  | badSpdxExpression (message : String)
  | invalidUrl (str : String)
  | invalidMetaData (value : String)
  /-- `normalize_path` does not return. -/
  | noNormalForm (path : Path)
  deriving DecidableEq

instance : MonadLift (Except WalkExn) (Except ProjectExn) := ⟨Except.mapError ProjectExn.walk⟩

/-- `semver::range::parse_restricted`, by the two ends of the range. -/
class SemverRange (V : Type) where
  parseRestricted : String → Option (V × V)

/-- The keys that have no handler are rejected. -/
def eachField {σ : Type} (handle : String → Json → σ → Option (Except ProjectExn σ)) :
    List (String × Json) → σ → Except ProjectExn σ :=
  walkFields (fun key _ => .error (.badPkgYamlKey key)) handle

def mapping {σ : Type} (required : List (String × String))
    (handle : String → Json → σ → Option (Except ProjectExn σ)) (init : σ)
    (fields : List (String × Json)) : Except ProjectExn σ := do
  let acc ← eachField handle fields init
  requireKeys fields required
  return acc

/-- A dependency that a project declares. -/
structure ProjectDependency (S : Type) where
  depName : Name
  acceptableVersions : S
  /-- The libraries that are used, unless this is left open. -/
  explicitUses : Option (List Name)

namespace ProjectDependency

variable {V S : Type} [Semver V] [VersionRangeSet S V] [SemverRange V]

def asCrsDependency (dep : ProjectDependency S) : Crs.Dependency S where
  name := dep.depName
  acceptableVersions := dep.acceptableVersions
  uses := match dep.explicitUses with
    | some uses => .explicitUsesList uses
    | none => .implicitUsesAll

omit [SemverRange V] [Semver V] [VersionRangeSet S V] in
theorem asCrsDependency_isImplicit {dep : ProjectDependency S} :
    dep.asCrsDependency.uses.isImplicit = true ↔ dep.explicitUses = none := by
  unfold asCrsDependency
  cases dep.explicitUses with
  | none => simp [Crs.DependencyUses.isImplicit]
  | some uses => simp [Crs.DependencyUses.isImplicit]

/-! ## Shorthand strings -/

def rangeOperators : List Char := ['=', '@', '^', '~', '+']

def parseDepRangeShorthand (sv : List Char) : Except ProjectExn (ProjectDependency S) := do
  match sv.dropWhile (· ∉ rangeOperators) with
  | [] => throw (.humanMessage "Expected one of '=@^~+' in name+version shorthand")
  | op :: version =>
    let depName ← nameFromString (String.ofList (sv.takeWhile (· ∉ rangeOperators)))
    let rangeStr := String.ofList ((if op = '@' then '^' else op) :: version)
    match SemverRange.parseRestricted rangeStr with
    | none => throw (.invalidRange rangeStr)
    | some (low, high) =>
      return ⟨depName, IntervalOps.ofInterval low high, none⟩

def nextToken (sv : List Char) : List Char :=
  match trimView sv with
  | [] => []
  | c :: cs =>
    if c = ',' then [',']
    else (c :: cs).takeWhile fun d => !Name.isSpace d && d ≠ ','

/-- The next token and what follows it. -/
def advToken (remain : List Char) : List Char × List Char :=
  let tok := nextToken remain
  (tok, (remain.dropWhile Name.isSpace).drop tok.length)

theorem length_nextToken (sv : List Char) :
    (nextToken sv).length ≤ (sv.dropWhile Name.isSpace).length := by
  have htrim : (trimView sv).length ≤ (sv.dropWhile Name.isSpace).length := by
    unfold trimView
    rw [List.length_reverse]
    exact (List.dropWhile_sublist _).length_le.trans_eq List.length_reverse
  unfold nextToken
  split
  · exact Nat.zero_le _
  next c cs hview =>
    rw [hview] at htrim
    split
    · exact (Nat.succ_le_succ (Nat.zero_le cs.length)).trans htrim
    · exact (List.takeWhile_sublist _).length_le.trans htrim

theorem length_advToken (remain : List Char) :
    (advToken remain).1.length + (advToken remain).2.length ≤ remain.length := by
  have htok := length_nextToken remain
  have hdrop : (remain.dropWhile Name.isSpace).length ≤ remain.length :=
    (List.dropWhile_sublist _).length_le
  simp only [advToken, List.length_drop]
  omega

variable [LeafResult]

/-- The names after `using`, the token after them, and what was left before it. -/
def parseUses (remain : List Char) : Except ProjectExn (List Name × List Char × List Char) :=
  if (advToken remain).1 = [','] then
    .error (.humanMessage "Unexpected extra comma in dependency specifier")
  else match LeafResult.deref (Name.fromString (String.ofList (advToken remain).1)) with
    | .error _ => .error .noValue
    | .ok name =>
      if _hcomma : (advToken (advToken remain).2).1 = [','] then do
        let (names, tok, remain) ← parseUses (advToken (advToken remain).2).2
        return (name :: names, tok, remain)
      else .ok ([name], (advToken (advToken remain).2).1, (advToken remain).2)
termination_by remain.length
decreasing_by
  have hrest := length_advToken remain
  have hsep := length_advToken (advToken remain).2
  rw [_hcomma, List.length_singleton] at hsep
  omega

def fromShorthandString (sv : String) : Except ProjectExn (ProjectDependency S) := do
  let (tok, remain) := advToken sv.toList
  if tok = [] then throw (.humanMessage "Invalid empty dependency specifier")
  let ret ← parseDepRangeShorthand tok
  let (tok, remain) := advToken remain
  if tok = [] then return ret
  if tok ≠ "using".toList then
    throw (.humanMessage s!"Expected 'using' following dependency name and range (Got '{String.ofList tok}')")
  let (uses, tok, remain) ← parseUses remain
  if tok ≠ [] then
    throw (.humanMessage s!"Unexpected trailing string in dependency string \"{String.ofList remain}\"")
  return { ret with explicitUses := some uses }

/-! ## Objects -/

/-- The handler of each field of an interval. -/
def readRangeField (key : String) (value : Json) (acc : V × V) :
    Option (Except ProjectExn (V × V)) :=
  match key with
  | "low" => some do
    let s ← requireStr "'low' version must be a string" value
    return (← Crs.Dependency.versionFromString s, acc.2)
  | "high" => some do
    let s ← requireStr "'high' version must be a string" value
    return (acc.1, ← Crs.Dependency.versionFromString s)
  | "_comment" => some (.ok acc)
  | _ => none

def parseVersionRange (range : Json) : Except ProjectExn (V × V) := do
  let fields ← requireMapping "'versions' elements must be objects" range
  let (low, high) ← mapping
    [("low", "'low' version is required"), ("high", "'high' version is required")]
    readRangeField (default, default) fields
  if high ≤ low then
    throw (.walk (.walkError "'high' version must be strictly greater than 'low' version"))
  return (low, high)

/-- What is collected while the fields of a dependency are read. -/
structure Fields (V : Type) where
  depString : String := ""
  gotVersionsKey : Bool := false
  verRanges : List (V × V) := []
  gotUsingKey : Bool := false
  explicitUses : List Name := []

/-- The handler of each field of a dependency. An empty `using` array has no
element that would say that the key is there. -/
def readField (key : String) (value : Json) (acc : Fields V) :
    Option (Except ProjectExn (Fields V)) :=
  match key with
  | "dep" => some do
    return { acc with depString := ← requireStr "Dependency 'dep' must be a string" value }
  | "versions" => some do
    let elems ← requireArray "Dependency 'versions' must be an array of objects" value
    let verRanges ← elems.mapM fun elem => do
      let _ ← requireMapping "Each 'versions' element must be an object" elem
      parseVersionRange elem
    return { acc with gotVersionsKey := true, verRanges := acc.verRanges ++ verRanges }
  | "using" => some do
    let elems ← requireArray "Dependency 'using' must be an array" value
    let uses ← elems.mapM fun elem => do
      let s ← requireStr "Each dependency 'using' item must be a string" elem
      nameFromString s
    return { acc with
      gotUsingKey := acc.gotUsingKey || !elems.isEmpty
      explicitUses := acc.explicitUses ++ uses }
  | _ => none

def fromJsonData (data : Json) : Except ProjectExn (ProjectDependency S) :=
  match data with
  | .str s => fromShorthandString s
  | _ => do
    let fields ← requireMapping "Dependency must be a shorthand string or a JSON object" data
    let walked : Fields V ← mapping
      [("dep", "A 'dep' key is required in a dependency object")] readField {} fields
    let explicitUses := if walked.gotUsingKey then some walked.explicitUses else none
    if walked.gotVersionsKey then
      return {
        depName := ← nameFromString walked.depString
        acceptableVersions := walked.verRanges.foldl
          (fun acc iv => IntervalOps.union acc (IntervalOps.ofInterval iv.1 iv.2))
          IntervalOps.emptySet
        explicitUses := explicitUses }
    else
      let partial_ : ProjectDependency S ← parseDepRangeShorthand walked.depString.toList
      return { partial_ with explicitUses := explicitUses }

end ProjectDependency

end Bpt.Project

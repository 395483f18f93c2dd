-- SUMMARY: Package metadata: libraries, package identity, and the readers of the JSON form.
import Bpt.Crs.Info.Dependency
import Bpt.Util.Path

/-!
# Package metadata

The readers follow `library_info::from_data`, `meta_from_data` and
`package_info::from_json_data`. Only the last one decides which failures become
an `e_invalid_meta_data`.
-/

namespace Bpt.Crs

open Fallible Walk

structure LibraryInfo (S : Type) where
  name : Name
  path : Path
  intraUsing : List Name
  intraTestUsing : List Name
  dependencies : List (Dependency S)
  testDependencies : List (Dependency S)

/-- The identity of a package. -/
structure PkgId (V : Type) where
  name : Name
  version : V
  revision : Int
  deriving DecidableEq

structure PackageInfo (V S : Type) where
  id : PkgId V
  libraries : List (LibraryInfo S)
  extra : Json
  /-- The field `meta`. -/
  meta_ : Json

variable {V S : Type} [Semver V] [VersionRangeSet S V]

namespace LibraryInfo

instance : DecidableEq (LibraryInfo S) := fun a b =>
  decidable_of_iff
    (a.name = b.name ∧ a.path = b.path ∧ a.intraUsing = b.intraUsing ∧
      a.intraTestUsing = b.intraTestUsing ∧ a.dependencies = b.dependencies ∧
      a.testDependencies = b.testDependencies)
    (by cases a; cases b; simp)

/-- A library path is kept in normal form, relative and inside the package. -/
def normalizeLibraryPath (s : String) : Except WalkExn Path :=
  let p := (Path.ofString s).lexicallyNormal
  if p.hasRootPath then
    .error (.walkError s!"Library path [{p.toGenericString}] must be a relative path")
  else if p.startsWithDotDot then
    .error (.walkError
      s!"Library path [{p.toGenericString}] must not reach outside of the distribution directory.")
  else .ok p

variable [Semester]

/-- The handler of each field of a library. -/
def readField (key : String) (value : Json) (acc : LibraryInfo S) :
    Option (Except WalkExn (LibraryInfo S)) :=
  match key with
  | "name" => some do
    let s ← requireStr "Library 'name' must be a string" value
    return { acc with name := ← nameFromString s }
  | "path" => some do
    let s ← requireStr "Library 'path' must be a string" value
    return { acc with path := ← normalizeLibraryPath s }
  | "using" => some do
    let elems ← requireArray "A library's 'using' must be an array of usage objects" value
    let names ← forEach (fun elem => do nameFromString (← asString elem)) elems
    return { acc with intraUsing := acc.intraUsing ++ names }
  | "test-using" => some do
    let elems ← requireArray "A library's 'test-using' must be an array of usage objects" value
    let names ← forEach (fun elem => do nameFromString (← asString elem)) elems
    return { acc with intraTestUsing := acc.intraTestUsing ++ names }
  | "dependencies" => some do
    let elems ← requireArray "'dependencies' must be an array of dependency objects" value
    return { acc with dependencies := acc.dependencies ++ (← forEach Dependency.fromData elems) }
  | "test-dependencies" => some do
    let elems ← requireArray "'test-dependencies' must be an array of dependency objects" value
    return { acc with
      testDependencies := acc.testDependencies ++ (← forEach Dependency.fromData elems) }
  | "_comment" => some (.ok acc)
  | _ => none

def fromData : Reader (LibraryInfo S) := fun data => do
  let fields ← requireMapping "Each library must be a JSON object" data
  mapping
    [("name", "A library 'name' string is required"),
     ("path", "A library 'path' string is required"),
     ("using", "A 'using' array is required"),
     ("test-using", "A 'test-using' array is required"),
     ("dependencies", "A 'dependencies' array is required"),
     ("test-dependencies", "A 'test-dependencies' array is required")]
    readField ⟨⟨""⟩, ⟨false, [], false⟩, [], [], [], []⟩ fields

end LibraryInfo

namespace PackageInfo

instance : DecidableEq (PackageInfo V S) := fun a b =>
  decidable_of_iff
    (a.id = b.id ∧ a.libraries = b.libraries ∧ a.extra = b.extra ∧ a.meta_ = b.meta_)
    (by cases a; cases b; simp)

/-- A number that a conversion to `int` and back leaves alone. -/
def requireIntegerKey (name : String) : Reader Int
  | .num q =>
    if q.den = 1 ∧ -2147483648 ≤ q.num ∧ q.num ≤ 2147483647 then .ok q.num
    else .error (.walkError s!"'{name}' must be an integer")
  | _ => .error (.walkError s!"'{name}' must be an integer")

variable [Semester]

/-- The handler of each field of a package. -/
def readField (key : String) (value : Json) (acc : PackageInfo V S) :
    Option (Except WalkExn (PackageInfo V S)) :=
  match key with
  | "$schema" => some (.ok acc)
  | "name" => some do
    let s ← requireStr "'name' must be a string" value
    return { acc with id := { acc.id with name := ← nameFromString s } }
  | "version" => some do
    let s ← requireStr "'version' must be a string" value
    return { acc with id := { acc.id with version := ← Dependency.versionFromString s } }
  | "pkg-version" => some do
    return { acc with id := { acc.id with revision := ← requireIntegerKey "pkg-version" value } }
  | "libraries" => some do
    let elems ← requireArray "'libraries' must be an array of library objects" value
    return { acc with libraries := acc.libraries ++ (← forEach LibraryInfo.fromData elems) }
  | "schema-version" => some (.ok acc)
  | "extra" => some (.ok { acc with extra := value })
  | "meta" => some (.ok { acc with meta_ := value })
  | "_comment" => some (.ok acc)
  | _ => none

/-- The reader of schema version 1 (`meta_from_data`). -/
def fromJsonDataV1 : Reader (PackageInfo V S) := fun data => do
  let fields ← requireMapping "Root of CRS manifest must be a JSON object" data
  let ret : PackageInfo V S ← mapping
    [("name", "A string 'name' is required"),
     ("version", "A 'version' string is required"),
     ("pkg-version", "A 'pkg-version' integer is required"),
     ("libraries", "A 'libraries' array is required"),
     ("schema-version", "A 'schema-version' number is required")]
    readField ⟨⟨⟨""⟩, default, 0⟩, [], .null, .null⟩ fields
  if ret.libraries.isEmpty then
    throw (.walkError "'libraries' array must be non-empty")
  return ret

/-- How the loading of package metadata fails. -/
inductive LoadError where
  | invalidMetaData (value : String)
  /-- The text is not JSON: `e_json_parse_error`. -/
  | jsonParse
  /-- An exception that no handler of `from_json_data` matches. -/
  | uncaught (exn : WalkExn)
  deriving DecidableEq

/-- The handlers of `from_json_data`. -/
def handleWalkExn : WalkExn → LoadError
  | .walkError what => .invalidMetaData what
  | .invalidVersion str => .invalidMetaData s!"Invalid semantic version string '{str}'"
  | .invalidName err => match err.reason with
    | some why => .invalidMetaData s!"Invalid name string '{err.str}': {why.str}"
    | none => .uncaught (.invalidName err)
  | .typeMismatch => .uncaught .typeMismatch

def fromJsonData (data : Json) : Except LoadError (PackageInfo V S) :=
  Except.mapError handleWalkExn <|
    match data with
    | .obj fields =>
      match fields.lookup "schema-version" with
      | none => .error (.walkError "A 'schema-version' integer is required")
      | some version =>
        if version = .num 1 then fromJsonDataV1 data
        else .error (.walkError "Only 'schema-version' == 1 is supported")
    | _ => .error (.walkError "Root of CRS manifest must be a JSON object")

def fromJsonStr : JsonText → Except LoadError (PackageInfo V S)
  | none => .error .jsonParse
  | some data => fromJsonData data

end PackageInfo

/-! ## Printing

The printed text is given by its value. Uses that are not listed fail an
assertion, for which the result is `none`. -/

def namesAsStrArray (names : List Name) : Json := .arr (names.map fun n => .str n.str)

namespace Dependency

def toJson (dep : Dependency S) : Option Json :=
  match dep.uses with
  | .implicitUsesAll => none
  | .explicitUsesList uses => some (.obj
    [("name", .str dep.name.str),
     ("versions", .arr ((IntervalOps.iterIntervals dep.acceptableVersions).map fun ver =>
       .obj [("low", .str (Semver.toStr ver.1)), ("high", .str (Semver.toStr ver.2))])),
     ("using", namesAsStrArray uses)])

end Dependency

namespace LibraryInfo

def toJson (lib : LibraryInfo S) : Option Json := do
  let dependencies ← lib.dependencies.mapM Dependency.toJson
  let testDependencies ← lib.testDependencies.mapM Dependency.toJson
  return .obj
    [("name", .str lib.name.str),
     ("path", .str lib.path.toGenericString),
     ("using", namesAsStrArray lib.intraUsing),
     ("test-using", namesAsStrArray lib.intraTestUsing),
     ("dependencies", .arr dependencies),
     ("test-dependencies", .arr testDependencies)]

end LibraryInfo

namespace PackageInfo

def toJson (pkg : PackageInfo V S) : Option Json := do
  let libraries ← pkg.libraries.mapM LibraryInfo.toJson
  return .obj
    [("name", .str pkg.id.name.str),
     ("version", .str (Semver.toStr pkg.id.version)),
     ("pkg-version", .num pkg.id.revision),
     ("extra", pkg.extra),
     ("meta", pkg.meta_),
     ("libraries", .arr libraries),
     ("schema-version", .num 1)]

end PackageInfo

/-! ### Reading what was printed

A printed package that can be read has the same identity, and the same library
names and uses of sibling libraries. -/

omit [VersionRangeSet S V] in
theorem versionFromString_toStr {v w : V}
    (h : Dependency.versionFromString (Semver.toStr v) = .ok w) : w = v := by
  unfold Dependency.versionFromString at h
  rw [Semver.parse_toStr] at h
  cases h
  rfl

theorem forall₂_of_mapM {α β : Type} {f : α → Option β} {as : List α} {bs : List β}
    (h : as.mapM f = some bs) : List.Forall₂ (fun a b => f a = some b) as bs := by
  induction as generalizing bs with
  | nil =>
      cases h
      exact .nil
  | cons a as ih =>
      simp only [List.mapM_cons, Option.bind_eq_bind, Option.bind_eq_some_iff, Option.pure_def,
        Option.some.injEq] at h
      obtain ⟨b, hb, rest, hrest, rfl⟩ := h
      exact .cons hb (ih hrest)

/-- A list of names is read back as it was printed. -/
theorem forEach_names_eq_ok {read : Reader Name}
    (hread : ∀ n m : Name, read (.str n.str) = .ok m → m = n) {names result : List Name}
    (h : forEach read (names.map fun n => .str n.str) = .ok result) : result = names := by
  have hall := forEach_eq_ok h
  rw [List.forall₂_map_left_iff] at hall
  have heq : List.Forall₂ (· = ·) names result := hall.imp fun n m hm => (hread n m hm).symm
  rw [List.forall₂_eq_eq_eq] at heq
  exact heq.symm

theorem PackageInfo.requireIntegerKey_intCast {name : String} {n m : Int}
    (h : requireIntegerKey name (.num n) = .ok m) : m = n := by
  simp only [requireIntegerKey] at h
  split_ifs at h
  exact (Except.ok.inj h).symm

theorem forall₂_trans {α β γ : Type} {R : α → β → Prop} {Q : β → γ → Prop} {T : α → γ → Prop}
    {as : List α} {bs : List β} {cs : List γ} (hab : List.Forall₂ R as bs)
    (hbc : List.Forall₂ Q bs cs) (h : ∀ a b c, R a b → Q b c → T a c) : List.Forall₂ T as cs := by
  induction hab generalizing cs with
  | nil =>
      cases hbc
      exact .nil
  | cons hr _ ih =>
      cases hbc with
      | cons hq hrest => exact .cons (h _ _ _ hr hq) (ih hrest)

variable [Semester]

theorem LibraryInfo.fromData_toJson {lib lib' : LibraryInfo S} {data : Json}
    (hprint : lib.toJson = some data) (hread : LibraryInfo.fromData data = .ok lib') :
    lib'.name = lib.name ∧ lib'.intraUsing = lib.intraUsing := by
  simp only [LibraryInfo.toJson, Option.bind_eq_bind, Option.bind_eq_some_iff, Option.pure_def,
    Option.some.injEq] at hprint
  obtain ⟨deps, _, testDeps, _, rfl⟩ := hprint
  simp only [LibraryInfo.fromData, bind_eq_ok] at hread
  obtain ⟨fields, hfields, hwalk⟩ := hread
  cases hfields
  -- one step for each printed field
  obtain ⟨acc₁, h₁, hwalk⟩ := (eachField_cons_eq_ok rfl).mp (mapping_eq_ok hwalk).1
  obtain ⟨acc₂, h₂, hwalk⟩ := (eachField_cons_eq_ok rfl).mp hwalk
  obtain ⟨acc₃, h₃, hwalk⟩ := (eachField_cons_eq_ok rfl).mp hwalk
  obtain ⟨acc₄, h₄, hwalk⟩ := (eachField_cons_eq_ok rfl).mp hwalk
  obtain ⟨acc₅, h₅, hwalk⟩ := (eachField_cons_eq_ok rfl).mp hwalk
  obtain ⟨acc₆, h₆, hwalk⟩ := (eachField_cons_eq_ok rfl).mp hwalk
  cases hwalk
  simp only [bind_eq_ok, pure_eq_ok, requireStr, requireArray, namesAsStrArray, Except.ok.injEq,
    exists_eq_left'] at h₁ h₂ h₃ h₄ h₅ h₆
  obtain ⟨name, hname, rfl⟩ := h₁
  obtain ⟨_, _, rfl⟩ := h₂
  obtain ⟨names, hnames, rfl⟩ := h₃
  obtain ⟨_, _, rfl⟩ := h₄
  obtain ⟨_, _, rfl⟩ := h₅
  obtain ⟨_, _, rfl⟩ := h₆
  refine ⟨Name.str_injective (nameFromString_eq_ok hname), ?_⟩
  exact forEach_names_eq_ok (fun n m hm => Name.str_injective (nameFromString_eq_ok hm)) hnames

/-- The two libraries have one name and use the same sibling libraries. -/
def LibraryInfo.SameUsing (lib lib' : LibraryInfo S) : Prop :=
  lib'.name = lib.name ∧ lib'.intraUsing = lib.intraUsing

theorem PackageInfo.fromJsonData_toJson {pkg pkg' : PackageInfo V S} {data : Json}
    (hprint : pkg.toJson = some data) (hread : fromJsonData data = .ok pkg') :
    pkg'.id = pkg.id ∧ List.Forall₂ LibraryInfo.SameUsing pkg.libraries pkg'.libraries := by
  simp only [PackageInfo.toJson, Option.bind_eq_bind, Option.bind_eq_some_iff, Option.pure_def,
    Option.some.injEq] at hprint
  obtain ⟨libs, hlibs, rfl⟩ := hprint
  have hv1 := mapError_eq_ok.mp hread
  simp only [List.lookup_cons, String.reduceBEq, if_true, fromJsonDataV1, bind_eq_ok] at hv1
  obtain ⟨fields, hfields, ret, hwalk, hret⟩ := hv1
  cases hfields
  -- one step for each printed field
  obtain ⟨acc₁, h₁, hwalk⟩ := (eachField_cons_eq_ok rfl).mp (mapping_eq_ok hwalk).1
  obtain ⟨acc₂, h₂, hwalk⟩ := (eachField_cons_eq_ok rfl).mp hwalk
  obtain ⟨acc₃, h₃, hwalk⟩ := (eachField_cons_eq_ok rfl).mp hwalk
  obtain ⟨acc₄, h₄, hwalk⟩ := (eachField_cons_eq_ok rfl).mp hwalk
  obtain ⟨acc₅, h₅, hwalk⟩ := (eachField_cons_eq_ok rfl).mp hwalk
  obtain ⟨acc₆, h₆, hwalk⟩ := (eachField_cons_eq_ok rfl).mp hwalk
  obtain ⟨acc₇, h₇, hwalk⟩ := (eachField_cons_eq_ok rfl).mp hwalk
  cases hwalk
  split at hret
  · cases hret
  cases hret
  simp only [bind_eq_ok, pure_eq_ok, requireStr, requireArray, Except.ok.injEq,
    exists_eq_left'] at h₁ h₂ h₃ h₄ h₅ h₆ h₇
  obtain ⟨name, hname, h₁⟩ := h₁
  obtain ⟨version, hversion, h₂⟩ := h₂
  obtain ⟨revision, hrevision, h₃⟩ := h₃
  obtain ⟨libraries, hlibraries, h₆⟩ := h₆
  have hid : pkg'.id = ⟨name, version, revision⟩ := by
    simp only [← h₇, ← h₆, ← h₅, ← h₄, ← h₃, ← h₂, ← h₁]
  have hlibs' : pkg'.libraries = libraries := by
    simp only [← h₇, ← h₆, ← h₅, ← h₄, ← h₃, ← h₂, ← h₁, List.nil_append]
  rw [hid, hlibs', Name.str_injective (nameFromString_eq_ok hname),
    versionFromString_toStr hversion, requireIntegerKey_intCast hrevision]
  refine ⟨rfl, ?_⟩
  exact forall₂_trans (forall₂_of_mapM hlibs) (forEach_eq_ok hlibraries)
    fun _ _ _ hprint hread => LibraryInfo.fromData_toJson hprint hread

/-! ## Validity -/

namespace PackageInfo

omit [Semver V] [VersionRangeSet S V] [Semester]

/-- The package has a library of this name. -/
def hasLibrary (pkg : PackageInfo V S) (lib : Name) : Bool :=
  pkg.libraries.any fun l => l.name = lib

/-- The first library found under a name. -/
def findLibrary (pkg : PackageInfo V S) (lib : Name) : Option (LibraryInfo S) :=
  pkg.libraries.find? fun l => l.name = lib

/-- The message of `throw_if_invalid`, if it throws. -/
def throwIfInvalid (pkg : PackageInfo V S) : Option String :=
  pkg.libraries.findSome? fun lib =>
    ((lib.intraUsing ++ lib.intraTestUsing).find? fun name => !pkg.hasLibrary name).map fun name =>
      s!"Library '{lib.name.str}' uses non-existent sibling library '{name.str}'"

theorem hasLibrary_iff {pkg : PackageInfo V S} {lib : Name} :
    pkg.hasLibrary lib = true ↔ ∃ l ∈ pkg.libraries, l.name = lib := by
  simp [hasLibrary]

theorem findLibrary_isSome {pkg : PackageInfo V S} {lib : Name} :
    (pkg.findLibrary lib).isSome = pkg.hasLibrary lib := by
  rw [Bool.eq_iff_iff]
  simp [findLibrary, hasLibrary]

theorem findLibrary_some {pkg : PackageInfo V S} {lib : Name} {l : LibraryInfo S}
    (h : pkg.findLibrary lib = some l) : l ∈ pkg.libraries ∧ l.name = lib :=
  ⟨List.mem_of_find?_eq_some h, by simpa using List.find?_some h⟩

end PackageInfo

end Bpt.Crs

-- SUMMARY: The libraries and the metadata of a project manifest, their reading from `pkg.yaml`, and the package they make.
import Bpt.Crs.Info.Package
import Bpt.Project.Dependency
import Bpt.Util.FileTree

/-!
# Project manifests

The readers follow `project_library::from_json_data` and
`project_manifest::from_json_data`; `asCrsPackageMeta` is the package that a
project is built and distributed as. The parsers of URLs and of license
expressions are parameters.
-/

namespace Bpt.Project

open Walk

/-- `neo::url` -/
class NeoUrl (U : Type) where
  parse : String → Option U
  /-- The normalized URL, printed. -/
  normalizedString : U → String

/-- `spdx_license_expression` -/
class SpdxLicense (L : Type) where
  parse : String → Except String L
  toStr : L → String

structure ProjectLibrary (S : Type) where
  name : Name
  relpath : Path
  intraUsing : List Name
  intraTestUsing : List Name
  libDependencies : List (ProjectDependency S)
  testDependencies : List (ProjectDependency S)

structure ProjectManifest (V S U L : Type) where
  name : Name
  version : V
  libraries : List (ProjectLibrary S)
  rootDependencies : List (ProjectDependency S)
  rootTestDependencies : List (ProjectDependency S)
  authors : Option (List String)
  description : Option String
  documentation : Option U
  readme : Option Path
  homepage : Option U
  repository : Option U
  license : Option L
  licenseFile : Option Path

variable {V S U L : Type} [Semver V] [VersionRangeSet S V] [SemverRange V] [LeafResult] [NeoUrl U]
  [SpdxLicense L]

/-! ## Libraries -/

namespace ProjectLibrary

variable [Semester]

def recordUsings (key : String) (elem : Json) : Except ProjectExn Name := do
  let s ← requireStr s!"Each '{key}' must be a string" elem
  nameFromString s

/-- The handler of each field of a library. The path is taken as it is given. -/
def readField (key : String) (value : Json) (acc : ProjectLibrary S) :
    Option (Except ProjectExn (ProjectLibrary S)) :=
  match key with
  | "name" => some do
    let s ← requireStr "Library 'name' must be a string" value
    return { acc with name := ← nameFromString s }
  | "path" => some do
    return { acc with relpath := Path.ofString (← asString value) }
  | "using" => some do
    let elems ← requireArray "Library 'using' key must be an array of strings" value
    return { acc with intraUsing := acc.intraUsing ++ (← elems.mapM (recordUsings "using")) }
  | "test-using" => some do
    let elems ← requireArray "Library 'test-using' key must be an array of strings" value
    return { acc with
      intraTestUsing := acc.intraTestUsing ++ (← elems.mapM (recordUsings "test-using")) }
  | "dependencies" => some do
    let elems ← requireArray "Library 'dependencies' must be an array of dependencies" value
    return { acc with
      libDependencies := acc.libDependencies ++ (← elems.mapM ProjectDependency.fromJsonData) }
  | "test-dependencies" => some do
    let elems ← requireArray "Library 'test-dependencies' must be an array of dependencies" value
    return { acc with
      testDependencies := acc.testDependencies ++ (← elems.mapM ProjectDependency.fromJsonData) }
  | _ => none

def fromJsonData (data : Json) : Except ProjectExn (ProjectLibrary S) := do
  let fields ← requireMapping "Library entries must be a mapping (JSON object)" data
  mapping
    [("name", "Library must have a 'name' string"),
     ("path", "Library must have a 'path' string")]
    readField ⟨⟨""⟩, ⟨false, [], false⟩, [], [], [], []⟩ fields

/-- The library of a project with one library: its path is that of the project. -/
def parseRootLib (fields : List (String × Json)) : Except ProjectExn (ProjectLibrary S) :=
  if fields.any fun field => field.1 = "path" then
    .error (.walk (.walkError "Project's main 'lib' cannot have a 'path' property"))
  else fromJsonData (.obj (fields ++ [("path", .str ".")]))

end ProjectLibrary

/-! ## Packages -/

namespace ProjectManifest

/-- The library of the package for one of the project. -/
def asCrsLibrary (m : ProjectManifest V S U L) (lib : ProjectLibrary S) : Crs.LibraryInfo S where
  name := lib.name
  path := lib.relpath
  intraUsing := lib.intraUsing
  intraTestUsing := lib.intraTestUsing
  dependencies :=
    (lib.libDependencies ++ m.rootDependencies).map ProjectDependency.asCrsDependency
  testDependencies :=
    (lib.testDependencies ++ m.rootTestDependencies).map ProjectDependency.asCrsDependency

/-- The field `meta` of the package. -/
def metaObject (m : ProjectManifest V S U L) : Json :=
  let field := fun (key : String) (value : Option String) =>
    (value.map fun s => (key, Json.str s)).toList
  let fields :=
    (m.authors.map fun authors => ("authors", Json.arr (authors.map Json.str))).toList ++
      field "description" m.description ++
      field "documentation" (m.documentation.map NeoUrl.normalizedString) ++
      field "readme" (m.readme.map Path.toGenericString) ++
      field "homepage" (m.homepage.map NeoUrl.normalizedString) ++
      field "repository" (m.repository.map NeoUrl.normalizedString) ++
      field "license" (m.license.map SpdxLicense.toStr) ++
      field "license-file" (m.licenseFile.map Path.toGenericString)
  if fields.isEmpty then .null else .obj fields

/-- `as_crs_package_meta`. Without libraries the project itself is one. -/
def asCrsPackageMeta (m : ProjectManifest V S U L) : Crs.PackageInfo V S where
  id := ⟨m.name, m.version, 1⟩
  libraries :=
    if m.libraries.isEmpty then [m.asCrsLibrary ⟨m.name, Path.ofString ".", [], [], [], []⟩]
    else m.libraries.map m.asCrsLibrary
  extra := .null
  meta_ := m.metaObject

/-! ## Dependencies -/

/-- The dependencies that the project and its libraries declare. -/
def dependencies (m : ProjectManifest V S U L) : List (ProjectDependency S) :=
  m.rootDependencies ++ m.libraries.flatMap ProjectLibrary.libDependencies

def testDependencies (m : ProjectManifest V S U L) : List (ProjectDependency S) :=
  m.rootTestDependencies ++ m.libraries.flatMap ProjectLibrary.testDependencies

omit [Semver V] [VersionRangeSet S V] [SemverRange V] [LeafResult] in
/-- The package has a library for the dependencies of the project, also when the
project has none. `field` is one of the two lists of dependencies. -/
theorem mem_flatMap_libraries {m : ProjectManifest V S U L}
    {field : Crs.LibraryInfo S → List (Crs.Dependency S)}
    {own : ProjectLibrary S → List (ProjectDependency S)} {root : List (ProjectDependency S)}
    (hfield : ∀ lib, field (m.asCrsLibrary lib) =
      (own lib ++ root).map ProjectDependency.asCrsDependency)
    (hmain : own ⟨m.name, Path.ofString ".", [], [], [], []⟩ = []) {d : Crs.Dependency S} :
    d ∈ m.asCrsPackageMeta.libraries.flatMap field ↔
      ∃ dep ∈ root ++ m.libraries.flatMap own, dep.asCrsDependency = d := by
  unfold asCrsPackageMeta
  cases hlibs : m.libraries with
  | nil => simp [hfield, hmain]
  | cons lib libs =>
    simp only [List.isEmpty_cons, Bool.false_eq_true, if_false, List.mem_flatMap, List.mem_map,
      exists_exists_and_eq_and, hfield, List.mem_append]
    constructor
    · rintro ⟨lib', hlib', dep, hdep | hdep, rfl⟩
      · exact ⟨dep, .inr ⟨lib', hlib', hdep⟩, rfl⟩
      · exact ⟨dep, .inl hdep, rfl⟩
    · rintro ⟨dep, hdep | ⟨lib', hlib', hdep⟩, rfl⟩
      · exact ⟨lib, List.mem_cons_self, dep, .inr hdep, rfl⟩
      · exact ⟨lib', hlib', dep, .inl hdep, rfl⟩

omit [Semver V] [VersionRangeSet S V] [SemverRange V] [LeafResult] in
theorem mem_flatMap_dependencies {m : ProjectManifest V S U L} {d : Crs.Dependency S} :
    d ∈ m.asCrsPackageMeta.libraries.flatMap (·.dependencies) ↔
      ∃ dep ∈ m.dependencies, dep.asCrsDependency = d :=
  mem_flatMap_libraries (fun _ => rfl) rfl

omit [Semver V] [VersionRangeSet S V] [SemverRange V] [LeafResult] in
theorem mem_flatMap_testDependencies {m : ProjectManifest V S U L} {d : Crs.Dependency S} :
    d ∈ m.asCrsPackageMeta.libraries.flatMap (·.testDependencies) ↔
      ∃ dep ∈ m.testDependencies, dep.asCrsDependency = d :=
  mem_flatMap_libraries (fun _ => rfl) rfl

/-! ## Reading -/

/-- A path of the project. The file it names is looked for, to warn about it. -/
def pathKey (tree : FileTree) (projDir : Option Path) (key : String) (value : Json) :
    Except ProjectExn Path := do
  let s ← requireStr s!"Project's '{key}' property must be a file path string" value
  match projDir with
  | none => pure ()
  | some dir =>
    if (tree.weaklyCanonical (dir / Path.ofString s)).normalizePath = none then
      throw (.noNormalForm (dir / Path.ofString s))
  match (Path.ofString s).normalizePath with
  | none => throw (.noNormalForm (Path.ofString s))
  | some p => return p

def urlKey (key : String) (value : Json) : Except ProjectExn U := do
  let s ← requireStr s!"Project's '{key}' property must be a URL string" value
  match NeoUrl.parse s with
  | none => throw (.invalidUrl s)
  | some url => return url

variable [Semester]

/-- The elements of an array where the walk names no type. -/
def asArray : Reader (List Json)
  | .arr elems => .ok elems
  | _ => .error Semester.mismatch

/-- The handler of each field of a manifest. -/
def readField (tree : FileTree) (projDir : Option Path) (key : String) (value : Json)
    (acc : ProjectManifest V S U L) : Option (Except ProjectExn (ProjectManifest V S U L)) :=
  match key with
  | "name" => some do
    let s ← requireStr "Project 'name' must be a string" value
    return { acc with name := ← nameFromString s }
  | "version" => some do
    let s ← requireStr "Project 'version' must be a string" value
    return { acc with version := ← Crs.Dependency.versionFromString s }
  | "dependencies" => some do
    let elems ← requireArray "Project 'dependencies' should be an array" value
    return { acc with
      rootDependencies := acc.rootDependencies ++ (← elems.mapM ProjectDependency.fromJsonData) }
  | "test-dependencies" => some do
    let elems ← requireArray "Project 'test-dependencies' should be an array" value
    return { acc with
      rootTestDependencies :=
        acc.rootTestDependencies ++ (← elems.mapM ProjectDependency.fromJsonData) }
  | "lib" => some do
    let fields ← requireMapping "Project 'lib' must be a mapping (JSON object)" value
    return { acc with libraries := acc.libraries ++ [← ProjectLibrary.parseRootLib fields] }
  | "libs" => some do
    let elems ← asArray value
    return { acc with libraries := acc.libraries ++ (← elems.mapM ProjectLibrary.fromJsonData) }
  | "$schema" => some (.ok acc)
  | "x" => some (.ok acc)
  | "readme" => some do
    return { acc with readme := some (← pathKey tree projDir "readme" value) }
  | "license-file" => some do
    return { acc with licenseFile := some (← pathKey tree projDir "license-file" value) }
  | "homepage" => some do
    return { acc with homepage := some (← urlKey "homepage" value) }
  | "repository" => some do
    return { acc with repository := some (← urlKey "repository" value) }
  | "documentation" => some do
    return { acc with documentation := some (← urlKey "documentation" value) }
  | "description" => some do
    return { acc with
      description := some (← requireStr "Project 'description' must be a string" value) }
  | "license" => some do
    let s ← requireStr "Project 'license' must be an SPDX license expression string" value
    let license ← Except.mapError ProjectExn.badSpdxExpression (SpdxLicense.parse s)
    return { acc with license := some license }
  | "authors" => some do
    let elems ← requireArray "Project 'authors' must be an array of strings" value
    let authors ← forEach (requireStr "Each element of project 'authors' must be a string") elems
    return { acc with authors := some authors }
  | _ => none

/-- `project_manifest::from_json_data` -/
def fromJsonData (tree : FileTree) (projDir : Option Path) (data : Json) :
    Except ProjectExn (ProjectManifest V S U L) := do
  let fields ← requireMapping "Project manifest root must be a mapping (JSON object)" data
  let ret : ProjectManifest V S U L ← mapping
    [("name", "A project 'name' is required"), ("version", "A project 'version' is required")]
    (readField tree projDir)
    ⟨⟨""⟩, default, [], [], [], none, none, none, none, none, none, none, none⟩ fields
  match ret.asCrsPackageMeta.throwIfInvalid with
  | some message => throw (.invalidMetaData message)
  | none => return ret

end ProjectManifest

end Bpt.Project

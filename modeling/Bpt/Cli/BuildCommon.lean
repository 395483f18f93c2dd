-- SUMMARY: The builder for a project: the solution of its dependencies, and the uses that the solution makes explicit.
import Bpt.Build.Plan
import Bpt.Crs.BadEntries
import Bpt.Crs.Prefetch
import Bpt.Project.Manifest
import Bpt.Solve.Solve

/-!
# The builder of a project

`create_project_builder` solves the dependencies of the project, loads what was
solved, and lets each loaded package say which libraries an open dependency on it
uses. Planning stops at a dependency that is still open.
-/

namespace Bpt.Cli

open Plan Project

/-- The options that the builder of a project depends on. -/
structure Options where
  wantTests : Bool
  wantApps : Bool
  disableWarnings : Bool
  lmIndex : Option Path
  projectDir : Path

/-- What a project directory holds. -/
inductive ProjectSource (V S U L : Type) where
  | pkgJson (text : JsonText)
  | manifest (m : ProjectManifest V S U L)
  | missing

/-- What is read of the package cache. -/
structure Cache (V S : Type) [Semver V] where
  view : Crs.CacheView V S
  /-- The directory that `prefetch` gives for a package, and the text of its `pkg.json`. -/
  prefetched : Crs.PkgId V → Option (Path × JsonText)

inductive BuilderError where
  | solve (err : Solve.SolveError)
  | notPrefetched
  | load (err : Crs.PackageInfo.LoadError)

variable {V S U L : Type} [Semver V] [VersionRangeSet S V] [NeoUrl U] [SpdxLicense L]

/-- The libraries of a loaded package are the uses of every open dependency on it. -/
def resolveImplicitUsages (proj dep : Crs.PackageInfo V S) : Crs.PackageInfo V S :=
  { proj with
    libraries := proj.libraries.map fun lib =>
      { lib with
        dependencies := lib.dependencies.map fun item =>
          if item.name = dep.id.name ∧ item.uses.isImplicit then
            { item with uses := .explicitUsesList (dep.libraries.map (·.name)) }
          else item } }

variable [Semester]

def fetchCacheLoadDependency (cache : Cache V S) (pkg : Crs.PkgId V)
    (builder : List (SdistTarget V S)) (subdirBase : Path) :
    Except BuilderError (Crs.PackageInfo V S × List (SdistTarget V S)) :=
  match cache.prefetched pkg with
  | none => .error .notPrefetched
  | some (localDir, text) => do
    let crsMeta ← Except.mapError BuilderError.load (Crs.PackageInfo.fromJsonStr text)
    let params : SdistBuildParams :=
      ⟨subdirBase / Path.ofString crsMeta.id.toString, false, false, false⟩
    return (crsMeta, builder ++ [⟨⟨crsMeta, localDir⟩, params⟩])

/-- The loop over the solution. -/
def loadSolution (cache : Cache V S) : List (Crs.PkgId V) → Crs.PackageInfo V S →
    List (SdistTarget V S) → Except BuilderError (Crs.PackageInfo V S × List (SdistTarget V S))
  | [], proj, builder => .ok (proj, builder)
  | pkg :: sln, proj, builder => do
    let (depMeta, builder) ← fetchCacheLoadDependency cache pkg builder (Path.ofString "_deps")
    loadSolution cache sln (resolveImplicitUsages proj depMeta) builder

/-- The package of a directory without a manifest. -/
def defaultMeta : Crs.PackageInfo V S where
  id := ⟨⟨"anon"⟩, default, 0⟩
  libraries := [⟨⟨"anon"⟩, Path.ofString "", [], [], [], []⟩]
  extra := .null
  meta_ := .null

/-- `sdist::from_directory`, or the default package. -/
def projectPackage : ProjectSource V S U L → Except BuilderError (Crs.PackageInfo V S)
  | .pkgJson text => Except.mapError BuilderError.load (Crs.PackageInfo.fromJsonStr text)
  | .manifest m => .ok m.asCrsPackageMeta
  | .missing => .ok defaultMeta

/-- The dependencies that are solved. -/
def crsDeps (opts : Options) (proj : Crs.PackageInfo V S) : List (Crs.Dependency S) :=
  proj.libraries.flatMap (·.dependencies) ++
    if opts.wantTests then proj.libraries.flatMap (·.testDependencies) else []

/-- `create_project_builder`, by the packages that it adds to the builder. -/
def createProjectBuilder (pubgrub : Solve.PubgrubSolve S) (cache : Cache V S) (opts : Options)
    (source : ProjectSource V S U L) : Except BuilderError (List (SdistTarget V S)) := do
  let mainParams : SdistBuildParams :=
    ⟨Path.ofString "", opts.wantTests, opts.wantApps, !opts.disableWarnings⟩
  let proj ← projectPackage source
  let (proj, builder) ←
    if opts.lmIndex.isSome then pure (proj, [])
    else do
      let sln ← Except.mapError BuilderError.solve
        (Solve.solve pubgrub cache.view (crsDeps opts proj))
      loadSolution cache sln proj []
  return builder ++ [⟨⟨proj, opts.projectDir⟩, mainParams⟩]

end Bpt.Cli

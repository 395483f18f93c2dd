-- SUMMARY: The plan of a build: the files to compile, the archives and the executables of each library, and the paths they are written to.
import Bpt.Crs.Info.Package
import Bpt.Sdist.SourceFile
import Bpt.UsageReqs.Map

/-!
# Build plans

`library_plan::create` sorts the source files of one library and decides what is
compiled, archived and linked. The paths of the outputs are put together later,
when the environment of the build is known.
-/

namespace Bpt.Plan

/-- The suffixes of a toolchain's output files. They end a filename, so they
hold no separator. -/
structure Toolchain where
  objectSuffix : String
  archiveSuffix : String
  executableSuffix : String
  object_noSeparator : '/' ∉ objectSuffix.toList
  archive_noSeparator : '/' ∉ archiveSuffix.toList
  executable_noSeparator : '/' ∉ executableSuffix.toList

structure BuildEnv where
  toolchain : Toolchain
  outputRoot : Path

/-! ## Plans -/

/-- What the compilations of one library share (`shared_compile_file_rules`). -/
structure CompileFileRules where
  includeDirs : List Path
  defs : List String
  uses : List Usage
  enableWarnings : Bool
  syntaxOnly : Bool

structure CompileFilePlan where
  rules : CompileFileRules
  source : SourceFile
  qualifier : String
  /-- The directory of the object file, below the output root. -/
  subdir : Path

def CompileFilePlan.calcObjectFilePath (plan : CompileFilePlan) (tree : FileTree) (env : BuildEnv) :
    Path :=
  let relpath := plan.source.relativePath tree
  let ret := env.outputRoot / plan.subdir / relpath
  tree.weaklyCanonical
    (ret.replaceFilename (Path.ofString (relpath.filename ++ env.toolchain.objectSuffix)))

structure CreateArchivePlan where
  name : String
  qualName : String
  subdir : Path
  compileFiles : List CompileFilePlan

def CreateArchivePlan.calcArchiveFilePath (plan : CreateArchivePlan) (tc : Toolchain) : Path :=
  plan.subdir / Path.ofString ("lib" ++ plan.name ++ tc.archiveSuffix)

structure LinkExecutablePlan where
  links : List Usage
  mainCompile : CompileFilePlan
  outSubdir : Path
  name : String

def LinkExecutablePlan.calcExecutablePath (plan : LinkExecutablePlan) (env : BuildEnv) : Path :=
  env.outputRoot / plan.outSubdir / Path.ofString (plan.name ++ env.toolchain.executableSuffix)

structure LibraryPlan where
  name : String
  libRoot : Path
  qualName : String
  subdir : Path
  createArchive : Option CreateArchivePlan
  linkExes : List LinkExecutablePlan
  headers : List CompileFilePlan
  libUses : List Usage

structure PackagePlan where
  name : String
  libraries : List LibraryPlan

structure BuildPlan where
  packages : List PackagePlan

def BuildPlan.libraries (plan : BuildPlan) : List LibraryPlan :=
  plan.packages.flatMap PackagePlan.libraries

def LibraryPlan.fileCompilations (lib : LibraryPlan) : List CompileFilePlan :=
  (lib.createArchive.map CreateArchivePlan.compileFiles).getD []

/-- `iter_compilations` -/
def BuildPlan.compilations (plan : BuildPlan) : List CompileFilePlan :=
  plan.libraries.flatMap LibraryPlan.fileCompilations ++
    plan.libraries.flatMap LibraryPlan.headers ++
    (plan.libraries.flatMap LibraryPlan.linkExes).map LinkExecutablePlan.mainCompile

def BuildPlan.executables (plan : BuildPlan) : List LinkExecutablePlan :=
  plan.libraries.flatMap LibraryPlan.linkExes

def BuildPlan.archives (plan : BuildPlan) : List CreateArchivePlan :=
  plan.libraries.filterMap LibraryPlan.createArchive

/-! ## Planning -/

inductive PlanError where
  /-- A directory iterator over something that is not a directory. -/
  | notADirectory (path : Path)
  /-- `normalize_path` does not return. -/
  | noNormalForm (path : Path)
  /-- The assertion `Expected an explicit usage requirement for dependency object`. -/
  | implicitUses (name : Name)
  deriving DecidableEq

structure LibraryBuildParams where
  outSubdir : Path
  buildTests : Bool
  buildApps : Bool
  enableWarnings : Bool

structure SdistBuildParams where
  subdir : Path
  buildTests : Bool
  buildApps : Bool
  enableWarnings : Bool

variable {V S : Type}

structure Sdist (V S : Type) where
  pkg : Crs.PackageInfo V S
  path : Path

structure SdistTarget (V S : Type) where
  sd : Sdist V S
  params : SdistBuildParams

/-- The source files of a directory, none when there is no such directory. -/
def sourcesOf (tree : FileTree) (dir : Path) : Except PlanError (List SourceFile) :=
  if tree.resolve dir ∈ tree.files then .error (.notADirectory dir)
  else if tree.exists_ dir then .ok (collectSources tree dir)
  else .ok []

def pkgDepToUsages (dep : Crs.Dependency S) : Except PlanError (List Usage) :=
  match dep.uses with
  | .implicitUsesAll => .error (.implicitUses dep.name)
  | .explicitUsesList uses => .ok (uses.map fun l => ⟨dep.name.str, l.str⟩)

/-- The uses of other libraries of the package, then those of the dependencies. -/
def usagesOfKind (pkg : Crs.PackageInfo V S) (intra : List Name) (deps : List (Crs.Dependency S)) :
    Except PlanError (List Usage) := do
  let fromDep ← deps.mapM pkgDepToUsages
  return intra.map (fun use => ⟨pkg.id.name.str, use.str⟩) ++ fromDep.flatten

/-- A directory of the library, named by one element. -/
def subdirectory (name : String) : Path := Path.ofFilename name

/-- The plan for an entry point: a test or an app. -/
def planExecutable (tree : FileTree) (outDir : Path) (qualName : String)
    (rules testRules : CompileFileRules) (links testLinks : List Usage) (source : SourceFile) :
    LinkExecutablePlan :=
  let isTest := source.kind = .test
  let subdirBase := if isTest then outDir / subdirectory "test" else outDir
  { links := if isTest then testLinks else links
    mainCompile :=
      { rules := if isTest then testRules else rules
        source := source
        qualifier := qualName
        subdir := outDir / subdirectory "obj" }
    outSubdir := subdirBase / (source.relativePath tree).parentPath
    name := source.path.stem.stem.toGenericString }

def LibraryPlan.create (tree : FileTree) (pkgBase : Path) (pkg : Crs.PackageInfo V S)
    (lib : Crs.LibraryInfo S) (params : LibraryBuildParams) : Except PlanError LibraryPlan := do
  let outDir := params.outSubdir
  let qualName := pkg.id.name.str ++ "/" ++ lib.name.str
  let srcDir := pkgBase / lib.path / subdirectory "src"
  let allSources ← sourcesOf tree srcDir
  let ofKind := fun kind => allSources.filter (·.kind = kind)
  let includeDir := pkgBase / lib.path / subdirectory "include"
  let publicSources ← sourcesOf tree includeDir
  -- Without tests no header is checked.
  let publicHeaderSources :=
    if params.buildTests then publicSources.filter (·.kind = .header) else []
  let headerSources := if params.buildTests then ofKind .header else []
  let libUses ← usagesOfKind pkg lib.intraUsing lib.dependencies
  let testUses ← usagesOfKind pkg lib.intraTestUsing lib.testDependencies
  let hasInclude := tree.exists_ includeDir
  let srcInclude := if hasInclude then [srcDir] else []
  let pubInc := if hasInclude then includeDir else srcDir
  let compileRules : CompileFileRules :=
    ⟨pubInc :: srcInclude, [], libUses, params.enableWarnings, false⟩
  let publicHeaderRules : CompileFileRules :=
    ⟨[pubInc], ["__bpt_header_check=1"], libUses, params.enableWarnings, true⟩
  let srcHeaderRules := { publicHeaderRules with includeDirs := pubInc :: srcInclude }
  let testRules := { compileRules with uses := libUses ++ testUses }
  let libCompileFiles := (ofKind .source).map fun sf =>
    (⟨compileRules, sf, qualName, outDir / subdirectory "obj"⟩ : CompileFilePlan)
  let headerIndepPlan := headerSources.map fun sf =>
    (⟨srcHeaderRules, sf, qualName, outDir / subdirectory "timestamps"⟩ : CompileFilePlan)
  let publicHeaderPlan := publicHeaderSources.map fun sf =>
    (⟨publicHeaderRules, sf, qualName, outDir / subdirectory "timestamps"⟩ : CompileFilePlan)
  let built := (ofKind .app ++ ofKind .test).filter fun sf =>
    if sf.kind = .test then params.buildTests else params.buildApps
  return {
    name := lib.name.str
    libRoot := pkgBase / lib.path
    qualName := qualName
    subdir := outDir
    createArchive :=
      if libCompileFiles = [] then none else some ⟨lib.name.str, qualName, outDir, libCompileFiles⟩
    linkExes :=
      built.map (planExecutable tree outDir qualName compileRules testRules libUses
        (libUses ++ testUses))
    headers := headerIndepPlan ++ publicHeaderPlan
    libUses := libUses }

def prepareLibrary (tree : FileTree) (sdt : SdistTarget V S) (lib : Crs.LibraryInfo S)
    (pkgMan : Crs.PackageInfo V S) : Except PlanError LibraryPlan :=
  match (sdt.params.subdir / lib.path).normalizePath with
  | none => .error (.noNormalForm (sdt.params.subdir / lib.path))
  | some outSubdir =>
    LibraryPlan.create tree sdt.sd.path pkgMan lib
      ⟨outSubdir, sdt.params.buildTests, sdt.params.buildApps, sdt.params.enableWarnings⟩

def prepareOne (tree : FileTree) (sd : SdistTarget V S) : Except PlanError PackagePlan := do
  let libraries ← sd.sd.pkg.libraries.mapM fun lib => prepareLibrary tree sd lib sd.sd.pkg
  return ⟨sd.sd.pkg.id.name.str, libraries⟩

def prepareBuildPlan (tree : FileTree) (sdists : List (SdistTarget V S)) :
    Except PlanError BuildPlan := do
  return ⟨← sdists.mapM (prepareOne tree)⟩

end Bpt.Plan

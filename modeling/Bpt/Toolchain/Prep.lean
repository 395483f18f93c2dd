-- SUMMARY: What is known of a toolchain, first as it is prepared from its options, then as it is used.
import Bpt.Base.SortedMap
import Bpt.Build.FileDeps
import Bpt.Util.Json
import Bpt.Util.Siphash

namespace Bpt

open Build (FileDepsMode)

structure ToolchainPrep where
  cCompile : List String
  cxxCompile : List String
  includeTemplate : List String
  externalIncludeTemplate : List String
  defineTemplate : List String
  linkArchive : List String
  linkExe : List String
  warningFlags : List String
  ttyFlags : List String
  /-- The environment variables that the hash depends on. -/
  considerEnvs : List String
  cSourceTypeFlags : List String
  cxxSourceTypeFlags : List String
  syntaxOnlyFlags : List String
  archivePrefix : String
  archiveSuffix : String
  objectPrefix : String
  objectSuffix : String
  exePrefix : String
  exeSuffix : String
  depsMode : FileDepsMode
  deriving DecidableEq

structure Toolchain where
  cCompile : List String
  cxxCompile : List String
  incTemplate : List String
  externIncTemplate : List String
  defTemplate : List String
  linkArchive : List String
  linkExe : List String
  warningFlags : List String
  ttyFlags : List String
  cSourceTypeFlags : List String
  cxxSourceTypeFlags : List String
  syntaxOnlyFlags : List String
  archivePrefix : String
  archiveSuffix : String
  objectPrefix : String
  objectSuffix : String
  exePrefix : String
  exeSuffix : String
  depsMode : FileDepsMode
  hash : UInt64
  deriving DecidableEq

/-- What the hash of a toolchain is made with. -/
class HashEnvironment where
  getenv : String → Option String
  /-- `nlohmann::json::dump` -/
  dump : Json → List UInt8

namespace ToolchainPrep

/-- Flags that make no difference to the ABI. -/
def shouldPruneFlag (flag : String) : Bool :=
  flag = "-fdiagnostics-color" || flag = "/nologo" ||
    "-fconcept-diagnostics-depth=".toList.isPrefixOf flag.toList

def pruneFlags (flags : List String) : Json :=
  .arr ((flags.filter fun flag => !shouldPruneFlag flag).map .str)

variable [HashEnvironment]

/-- The values of the variables that are set. -/
def considered (varnames : List String) : List (String × Json) :=
  varnames.foldl (fun env varname =>
    match HashEnvironment.getenv varname with
    | some val => SortedMap.emplace varname (.str val) env
    | none => env) []

/-- The document that is hashed. -/
def hashRoot (prep : ToolchainPrep) : Json :=
  .obj
    [("c_compile", pruneFlags prep.cCompile), ("cxx_compile", pruneFlags prep.cxxCompile),
      ("env", .obj (considered prep.considerEnvs))]

def computeHash (prep : ToolchainPrep) : UInt64 :=
  Siphash64.siphash64 42 1729 (HashEnvironment.dump prep.hashRoot)

/-- `toolchain::realize` -/
def realize (prep : ToolchainPrep) : Toolchain where
  cCompile := prep.cCompile
  cxxCompile := prep.cxxCompile
  incTemplate := prep.includeTemplate
  externIncTemplate := prep.externalIncludeTemplate
  defTemplate := prep.defineTemplate
  linkArchive := prep.linkArchive
  linkExe := prep.linkExe
  warningFlags := prep.warningFlags
  archivePrefix := prep.archivePrefix
  archiveSuffix := prep.archiveSuffix
  objectPrefix := prep.objectPrefix
  objectSuffix := prep.objectSuffix
  exePrefix := prep.exePrefix
  exeSuffix := prep.exeSuffix
  depsMode := prep.depsMode
  ttyFlags := prep.ttyFlags
  cSourceTypeFlags := prep.cSourceTypeFlags
  cxxSourceTypeFlags := prep.cxxSourceTypeFlags
  syntaxOnlyFlags := prep.syntaxOnlyFlags
  hash := prep.computeHash

end ToolchainPrep

end Bpt

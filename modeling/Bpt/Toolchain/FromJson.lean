-- SUMMARY: The options of a toolchain file: reading them from JSON, and deducing what they leave open from the compiler.
import Bpt.Toolchain.Prep
import Bpt.Util.DidYouMean
import Bpt.Util.Shlex

/-!
# Toolchain files

`parse_toolchain_json_data` reads the options of a toolchain, each of which may be
left open, and then makes a toolchain of them. What is left open follows from the
compiler, or has to be spelled out when no compiler is named.
-/

namespace Bpt

/-- How the reading of a toolchain file ends early. -/
inductive ToolchainExn where
  | walk (exn : WalkExn)
  /-- The `std::runtime_error` of `fail`. -/
  | failed (what : String)
  | assertion (text : String)
  /-- `did_you_mean` does not return. -/
  | noReturn
  deriving DecidableEq

namespace Toolchain

open Build (FileDepsMode)
open Fallible Walk

instance : MonadLift (Except WalkExn) (Except ToolchainExn) :=
  ⟨Except.mapError ToolchainExn.walk⟩

/-- `replace` on strings. -/
def replaceIn (s key repl : String) : String :=
  String.ofList (replace s.toList key.toList repl.toList)

/-! ## Options -/

/-- The local variables that `parse_toolchain_json_data` reads the data into. -/
structure Options where
  compilerId : Option String
  cCompiler : Option String
  cxxCompiler : Option String
  cVersion : Option String
  cxxVersion : Option String
  compilerLauncher : Option (List String)
  commonFlags : Option (List String)
  cFlags : Option (List String)
  cxxFlags : Option (List String)
  linkFlags : Option (List String)
  warningFlags : Option (List String)
  debugBool : Option Bool
  debugStr : Option String
  doOptimize : Option Bool
  runtimeStatic : Option Bool
  runtimeDebug : Option Bool
  depsModeStr : Option String
  archivePrefix : Option String
  archiveSuffix : Option String
  objPrefix : Option String
  objSuffix : Option String
  exePrefix : Option String
  exeSuffix : Option String
  baseWarningFlags : Option (List String)
  baseFlags : Option (List String)
  baseCFlags : Option (List String)
  baseCxxFlags : Option (List String)
  includeTemplate : Option (List String)
  externalIncludeTemplate : Option (List String)
  defineTemplate : Option (List String)
  cCompileFile : Option (List String)
  cxxCompileFile : Option (List String)
  createArchive : Option (List String)
  linkExecutable : Option (List String)
  ttyFlags : Option (List String)
  langVersionFlagTemplate : Option String
  cSourceTypeFlags : Option (List String)
  cxxSourceTypeFlags : Option (List String)
  syntaxOnlyFlags : Option (List String)
  considerEnv : Option (List String)

/-- Every option left open. -/
def Options.unset : Options where
  compilerId := none
  cCompiler := none
  cxxCompiler := none
  cVersion := none
  cxxVersion := none
  compilerLauncher := none
  commonFlags := none
  cFlags := none
  cxxFlags := none
  linkFlags := none
  warningFlags := none
  debugBool := none
  debugStr := none
  doOptimize := none
  runtimeStatic := none
  runtimeDebug := none
  depsModeStr := none
  archivePrefix := none
  archiveSuffix := none
  objPrefix := none
  objSuffix := none
  exePrefix := none
  exeSuffix := none
  baseWarningFlags := none
  baseFlags := none
  baseCFlags := none
  baseCxxFlags := none
  includeTemplate := none
  externalIncludeTemplate := none
  defineTemplate := none
  cCompileFile := none
  cxxCompileFile := none
  createArchive := none
  linkExecutable := none
  ttyFlags := none
  langVersionFlagTemplate := none
  cSourceTypeFlags := none
  cxxSourceTypeFlags := none
  syntaxOnlyFlags := none
  considerEnv := none

/-! ## Reading the options -/

def fail {α : Type} (context message : String) : Except ToolchainExn α :=
  .error (.failed s!"{context} - Failed to read toolchain file: {message}")

/-- A string that is split like a command line, or an array of strings. -/
def extendFlags (key : String) (dat : Json) (flags : Option (List String)) :
    Except ToolchainExn (Option (List String)) :=
  match dat with
  | .str str => .ok (some (flags.getD [] ++ splitShellString str))
  | .arr elems => do
    let more ← Walk.forEach (requireStr s!"Elements of `{key}` array must be strings") elems
    return some (flags.getD [] ++ more)
  | _ => .error (.walk (.walkError s!"`{key}` must be an array or a shell-like string"))

def keyString (key : String) (dat : Json) : Except ToolchainExn (Option String) := do
  let str ← requireStr s!"`{key}` must be a string" dat
  return some str

def requireBool (message : String) : Json → Except ToolchainExn (Option Bool)
  | .bool b => .ok (some b)
  | _ => .error (.walk (.walkError message))

def requireObject (message : String) (dat : Json) : Except ToolchainExn (List (String × Json)) := do
  let fields ← requireMapping message dat
  return fields

/-- The error for a key that is not known. -/
def unknownKey {α : Type} (fuel : Nat) (context what key : String) (known : List String) :
    Except ToolchainExn α :=
  match didYouMean fuel key known with
  | some (some dym) => fail context s!"Unknown toolchain {what} key ‘{key}’ (Did you mean ‘{dym}’?)"
  | _ => .error .noReturn

def advancedKeys : List String :=
  ["deps_mode", "include_template", "external_include_template", "define_template",
    "base_warning_flags", "base_flags", "base_c_flags", "base_cxx_flags", "c_compile_file",
    "cxx_compile_file", "create_archive", "link_executable", "obj_prefix", "obj_suffix",
    "archive_prefix", "archive_suffix", "exe_prefix", "exe_suffix", "tty_flags",
    "lang_version_flag_template", "c_source_type_flags", "cxx_source_type_flags",
    "syntax_only_flags", "consider_env"]

/-- The keys that are suggested for the root, which are not all that are known. -/
def suggestedKeys : List String :=
  ["compiler_id", "c_compiler", "cxx_compiler", "c_version", "cxx_version", "c_flags",
    "cxx_flags", "warning_flags", "link_flags", "flags", "debug", "optimize", "runtime"]

section

variable (fuel : Nat) (context : String)

def readAdvanced (key : String) (value : Json) (o : Options) : Except ToolchainExn Options :=
  match key with
  | "deps_mode" => return { o with depsModeStr := ← keyString key value }
  | "include_template" =>
    return { o with includeTemplate := ← extendFlags key value o.includeTemplate }
  | "external_include_template" =>
    return { o with externalIncludeTemplate := ← extendFlags key value o.externalIncludeTemplate }
  | "define_template" =>
    return { o with defineTemplate := ← extendFlags key value o.defineTemplate }
  | "base_warning_flags" =>
    return { o with baseWarningFlags := ← extendFlags key value o.baseWarningFlags }
  | "base_flags" => return { o with baseFlags := ← extendFlags key value o.baseFlags }
  | "base_c_flags" => return { o with baseCFlags := ← extendFlags key value o.baseCFlags }
  | "base_cxx_flags" => return { o with baseCxxFlags := ← extendFlags key value o.baseCxxFlags }
  | "c_compile_file" => return { o with cCompileFile := ← extendFlags key value o.cCompileFile }
  | "cxx_compile_file" =>
    return { o with cxxCompileFile := ← extendFlags key value o.cxxCompileFile }
  | "create_archive" => return { o with createArchive := ← extendFlags key value o.createArchive }
  | "link_executable" =>
    return { o with linkExecutable := ← extendFlags key value o.linkExecutable }
  | "tty_flags" => return { o with ttyFlags := ← extendFlags key value o.ttyFlags }
  | "obj_prefix" => return { o with objPrefix := ← keyString key value }
  | "obj_suffix" => return { o with objSuffix := ← keyString key value }
  | "archive_prefix" => return { o with archivePrefix := ← keyString key value }
  | "archive_suffix" => return { o with archiveSuffix := ← keyString key value }
  | "exe_prefix" => return { o with exePrefix := ← keyString key value }
  | "exe_suffix" => return { o with exeSuffix := ← keyString key value }
  | "lang_version_flag_template" =>
    return { o with langVersionFlagTemplate := ← keyString key value }
  | "c_source_type_flags" =>
    return { o with cSourceTypeFlags := ← extendFlags key value o.cSourceTypeFlags }
  | "cxx_source_type_flags" =>
    return { o with cxxSourceTypeFlags := ← extendFlags key value o.cxxSourceTypeFlags }
  | "syntax_only_flags" =>
    return { o with syntaxOnlyFlags := ← extendFlags key value o.syntaxOnlyFlags }
  | "consider_env" => return { o with considerEnv := ← extendFlags key value o.considerEnv }
  | _ => unknownKey fuel context "advanced-config" key advancedKeys

/-- The walk over this object has no handler for other keys. -/
def readRuntime [Semester] (key : String) (value : Json) (o : Options) :
    Except ToolchainExn Options :=
  match key with
  | "static" =>
    return { o with runtimeStatic := ← requireBool "'/runtime/static' should be a boolean" value }
  | "debug" =>
    return { o with runtimeDebug := ← requireBool "'/runtime/debug' should be a boolean" value }
  | _ =>
    match Semester.rejectUnhandled key with
    | some exn => .error (.walk exn)
    | none => .ok o

/-- Hand each field to its handler. -/
def eachKey (handle : String → Json → Options → Except ToolchainExn Options)
    (fields : List (String × Json)) (o : Options) : Except ToolchainExn Options :=
  fields.foldlM (fun o field => handle field.1 field.2 o) o

def readField [Semester] (key : String) (value : Json) (o : Options) :
    Except ToolchainExn Options :=
  match key with
  | "$schema" => .ok o
  | "compiler_id" => return { o with compilerId := ← keyString key value }
  | "c_compiler" => return { o with cCompiler := ← keyString key value }
  | "cxx_compiler" => return { o with cxxCompiler := ← keyString key value }
  | "c_version" => return { o with cVersion := ← keyString key value }
  | "cxx_version" => return { o with cxxVersion := ← keyString key value }
  | "c_flags" => return { o with cFlags := ← extendFlags key value o.cFlags }
  | "cxx_flags" => return { o with cxxFlags := ← extendFlags key value o.cxxFlags }
  | "warning_flags" => return { o with warningFlags := ← extendFlags key value o.warningFlags }
  | "link_flags" => return { o with linkFlags := ← extendFlags key value o.linkFlags }
  | "compiler_launcher" =>
    return { o with compilerLauncher := ← extendFlags key value o.compilerLauncher }
  | "debug" =>
    match value with
    | .bool b => .ok { o with debugBool := some b }
    | .str str => .ok { o with debugStr := some str }
    | _ => .error (.walk (.walkError "'debug' must be a bool or string"))
  | "optimize" =>
    return { o with doOptimize := ← requireBool "`optimize` must be a boolean value" value }
  | "flags" => return { o with commonFlags := ← extendFlags key value o.commonFlags }
  | "runtime" => do
    let fields ← requireObject "'runtime' must be a JSON object" value
    eachKey readRuntime fields o
  | "advanced" => do
    let fields ← requireObject "`advanced` must be a mapping" value
    eachKey (readAdvanced fuel context) fields o
  | _ => unknownKey fuel context "config" key suggestedKeys

def readOptions [Semester] (dat : Json) : Except ToolchainExn Options := do
  let fields ← requireObject "Root of toolchain data must be a mapping" dat
  eachKey (readField fuel context) fields .unset

end

/-! ## Deducing the toolchain -/

inductive CompilerId where
  | noCompId
  | msvc
  | clang
  | gnu
  deriving DecidableEq

namespace CompilerId

def isGnu (id : CompilerId) : Bool := id = gnu

def isClang (id : CompilerId) : Bool := id = clang

def isMsvc (id : CompilerId) : Bool := id = msvc

def isGnuLike (id : CompilerId) : Bool := id.isGnu || id.isClang

end CompilerId

inductive Language where
  | automatic
  | c
  | cxx
  deriving DecidableEq

/-- `read_opt` -/
def readOpt {α : Type} (what : Option α) (fn : Except ToolchainExn α) : Except ToolchainExn α :=
  match what with
  | none => fn
  | some value => .ok value

def assertFailed {α : Type} (text : String) : Except ToolchainExn α := .error (.assertion text)

section

variable (context : String) (o : Options)

def checkDebug : Except ToolchainExn Unit :=
  match o.debugStr with
  | none => .ok ()
  | some str =>
    if str ≠ "embedded" ∧ str ≠ "split" ∧ str ≠ "none" then
      fail context "'debug' string must be one of 'none', 'embedded', or 'split'"
    else .ok ()

def compilerIdOf : Except ToolchainExn CompilerId :=
  match o.compilerId with
  | none => .ok .noCompId
  | some id =>
    if id = "msvc" then .ok .msvc
    else if id = "gnu" then .ok .gnu
    else if id = "clang" then .ok .clang
    else fail context s!"Invalid `compiler_id` value ‘{id}’"

def depsModeOf (id : CompilerId) : Except ToolchainExn FileDepsMode :=
  match o.depsModeStr with
  | none => .ok (if id.isGnuLike then .gnu else if id.isMsvc then .msvc else .none)
  | some str =>
    if str = "gnu" then .ok .gnu
    else if str = "msvc" then .ok .msvc
    else if str = "none" then .ok .none
    else fail context s!"Invalid `deps_mode` value ‘{str}’"

def langVersionFlagTemplateOf (id : CompilerId) : Option String :=
  if o.langVersionFlagTemplate.isSome then o.langVersionFlagTemplate
  else if id.isGnuLike then some "-std=[version]"
  else if id.isMsvc then some "/std:[version]"
  else none

def getCompilerExecutablePath (id : CompilerId) (lang : Language) : Except ToolchainExn String :=
  match lang, o.cxxCompiler, o.cCompiler with
  | .cxx, some compiler, _ => .ok compiler
  | .c, _, some compiler => .ok compiler
  | _, _, _ =>
    if o.compilerId.isNone ∧ lang = .c then
      fail context "Unable to determine the executable for a C compiler"
    else if o.compilerId.isNone ∧ lang = .cxx then
      fail context "Unable to determine the executable for a C++ compiler"
    else if id.isGnu then .ok (if lang = .cxx then "g++" else "gcc")
    else if id.isClang then .ok (if lang = .cxx then "clang++" else "clang")
    else if id.isMsvc then .ok "cl.exe"
    else assertFailed "Compiler name deduction failed"

/-- `get_c_version_flags` and `get_cxx_version_flags`, by the key of the version. -/
def getVersionFlags (id : CompilerId) (key : String) (version : Option String) :
    Except ToolchainExn (List String) :=
  match version with
  | none => .ok []
  | some version =>
    match langVersionFlagTemplateOf o id with
    | some template => .ok [replaceIn template "[version]" version]
    | none =>
      if o.compilerId.isNone then
        fail context s!"Unable to deduce flags for '{key}' without setting 'compiler_id' or 'lang_version_flag_template'"
      else
        fail context s!"Unable to determine the 'lang_version_flag_template' for the given 'compiler_id', required to generate the language version flags for '{key}'"

def getCVersionFlags (id : CompilerId) : Except ToolchainExn (List String) :=
  getVersionFlags context o id "c_version" o.cVersion

def getCxxVersionFlags (id : CompilerId) : Except ToolchainExn (List String) :=
  getVersionFlags context o id "cxx_version" o.cxxVersion

def getRuntimeFlags (id : CompilerId) : List String :=
  if id.isMsvc then
    -- The runtime is linked statically unless that is turned off.
    let rtFlag := "/M" ++ (if o.runtimeStatic.getD true then "T" else "D")
    let debug := o.runtimeDebug.getD
      (o.debugBool.getD false || o.debugStr = some "embedded" || o.debugStr = some "split")
    [if debug then rtFlag ++ "d" else rtFlag]
  else if id.isGnuLike then
    (if o.runtimeStatic.getD false then ["-static-libgcc", "-static-libstdc++"] else []) ++
      (if o.runtimeDebug.getD false then ["-D_GLIBCXX_DEBUG", "-D_LIBCPP_DEBUG=1"] else [])
  else []

def getOptimFlags (id : CompilerId) : List String :=
  if o.doOptimize ≠ some true then []
  else if id.isMsvc then ["/O2"]
  else if id.isGnuLike then ["-O2"]
  else []

def getDebugFlags (id : CompilerId) : List String :=
  if id.isMsvc then
    if o.debugBool = some true ∨ o.debugStr = some "embedded" then ["/Z7"]
    else if o.debugStr = some "split" then ["/Zi", "/FS"]
    else []
  else if id.isGnuLike then
    if o.debugBool = some true ∨ o.debugStr = some "embedded" then ["-g"]
    else if o.debugStr = some "split" then ["-g", "-gsplit-dwarf"]
    else []
  else []

def getLinkFlags (id : CompilerId) : List String :=
  getRuntimeFlags o id ++ getOptimFlags o id ++ getDebugFlags o id ++ o.linkFlags.getD []

def getDefaultCompileCommand (id : CompilerId) : List String :=
  if id.isMsvc then ["[flags]", "/c", "[in]", "/Fo[out]"]
  else if id.isGnuLike then ["[flags]", "-c", "[in]", "-o[out]"]
  else []

def getBaseFlags (id : CompilerId) (lang : Language) : List String :=
  (match o.baseFlags with
    | some flags => flags
    | none =>
      if id.isMsvc then ["/nologo", "/permissive-"]
      else if id.isGnuLike then ["-fPIC", "-pthread"]
      else []) ++
    (if lang = .c then o.baseCFlags.getD [] else []) ++
    (if lang = .cxx then o.baseCxxFlags.getD (if id.isMsvc then ["/EHsc"] else []) else [])

/-- The flags for the version of one language, when files of that language are compiled. -/
def versionFlagsFor (which lang : Language) (flags : Except ToolchainExn (List String)) :
    Except ToolchainExn (List String) :=
  if lang = which then flags else .ok []

def getFlags (id : CompilerId) (lang : Language) : Except ToolchainExn (List String) := do
  let cxxVersion ← versionFlagsFor .cxx lang (getCxxVersionFlags context o id)
  let cVersion ← versionFlagsFor .c lang (getCVersionFlags context o id)
  let cxx := if lang = .cxx then o.cxxFlags.getD [] ++ cxxVersion else []
  let c := if lang = .c then o.cFlags.getD [] ++ cVersion else []
  return getRuntimeFlags o id ++ getOptimFlags o id ++ getDebugFlags o id ++
    o.commonFlags.getD [] ++ cxx ++ c ++ getBaseFlags o id lang

/-- `c_compile` and `cxx_compile`, each with the command that replaces it. -/
def compileTemplate (id : CompilerId) (lang : Language) (compileFile : Option (List String)) :
    Except ToolchainExn (List String) := do
  let command ← readOpt compileFile do
    let compiler ← getCompilerExecutablePath context o id lang
    return o.compilerLauncher.getD [] ++ [compiler] ++ getDefaultCompileCommand id
  return command ++ (← getFlags context o id lang)

/-- A value that a compiler decides: the one for GNU-like compilers or the one for MSVC. -/
def deduced {α : Type} (id : CompilerId) (noCompiler : Except ToolchainExn α) (gnuLike msvc : α)
    (text : String) : Except ToolchainExn α :=
  if o.compilerId.isNone then noCompiler
  else if id.isGnuLike then .ok gnuLike
  else if id.isMsvc then .ok msvc
  else assertFailed text

def linkExeTemplate (id : CompilerId) : Except ToolchainExn (List String) :=
  if o.compilerId.isNone then
    fail context "Unable to deduce how to link executables without a 'compiler_id'"
  else if id.isMsvc then do
    let compiler ← getCompilerExecutablePath context o id .cxx
    return [compiler, "/nologo", "/EHsc", "[in]", "/Fe[out]"]
  else if id.isGnuLike then do
    let compiler ← getCompilerExecutablePath context o id .cxx
    return [compiler, "-fPIC", "[in]", "-pthread", "-o[out]"]
  else assertFailed "No link-exe command"

/-- The part of `parse_toolchain_json_data` after the options are read. -/
def prepare : Except ToolchainExn ToolchainPrep := do
  checkDebug context o
  let id ← compilerIdOf context o
  let depsMode ← depsModeOf context o id
  let cCompile ← compileTemplate context o id .c o.cCompileFile
  let cxxCompile ← compileTemplate context o id .cxx o.cxxCompileFile
  let considerEnvs := o.considerEnv.getD
    (if id.isMsvc then ["CL", "_CL_", "INCLUDE", "LIBPATH", "LIB"] else [])
  let includeTemplate ← readOpt o.includeTemplate <|
    deduced o id (fail context "Cannot deduce 'include_template' without 'compiler_id'")
      ["-I", "[path]"] ["/I", "[path]"] "'include_template' deduction failed"
  -- Without a compiler the template for other files is taken.
  let externalIncludeTemplate ← readOpt o.externalIncludeTemplate <|
    deduced o id (.ok includeTemplate)
      ["-isystem", "[path]"] ["/I", "[path]"] "external_include_template deduction failed"
  let defineTemplate ← readOpt o.defineTemplate <|
    deduced o id (fail context "Cannot deduce 'define_template' without 'compiler_id'")
      ["-D", "[def]"] ["/D", "[def]"] "define_template deduction failed"
  let archiveSuffix ← readOpt o.archiveSuffix <|
    deduced o id (fail context "Cannot deduce library file extension without 'compiler_id'")
      ".a" ".lib" "No archive suffix"
  let objectSuffix ← readOpt o.objSuffix <|
    deduced o id (fail context "Cannot deduce object file extension without 'compiler_id'")
      ".o" ".obj" "No object file suffix"
  let warningFlags ← readOpt o.baseWarningFlags <|
    deduced o id (.ok []) ["-Wall", "-Wextra", "-Wpedantic", "-Wconversion"] ["/W4"]
      "No warning flags"
  let linkArchive ← readOpt o.createArchive <|
    deduced o id
      (fail context "Unable to deduce archive creation rules without a 'compiler_id'")
      ["ar", "rcs", "[out]", "[in]"] ["lib", "/nologo", "/OUT:[out]", "[in]"] "No archive command"
  let linkExe ← readOpt o.linkExecutable (linkExeTemplate context o id)
  let ttyFlags ← readOpt o.ttyFlags <|
    deduced o id (.ok []) ["-fdiagnostics-color"] []
      "Impossible compiler_id while deducing `tty_flags`"
  let cSourceTypeFlags ← readOpt o.cSourceTypeFlags <|
    deduced o id (fail context "Unable to deduce C source type flags without a 'compiler_id'")
      ["-xc"] ["/TC"] "Impossible compiler_id while deducing `c_source_type_flags`"
  let cxxSourceTypeFlags ← readOpt o.cxxSourceTypeFlags <|
    deduced o id (fail context "Unable to deduce C++ source type flags without a 'compiler_id'")
      ["-xc++"] ["/TP"] "Impossible compiler_id while deducing `cxx_source_type_flags`"
  let syntaxOnlyFlags ← readOpt o.syntaxOnlyFlags <|
    deduced o id (fail context "Unable to deduce C++ syntax only flags without a 'compiler_id'")
      ["-fsyntax-only"] ["/Zs"] "Impossible compiler_id while deducing `syntax_only_flags`"
  return {
    depsMode, cCompile, cxxCompile, considerEnvs, includeTemplate, externalIncludeTemplate
    defineTemplate, archiveSuffix, objectSuffix, linkArchive, ttyFlags
    cSourceTypeFlags, cxxSourceTypeFlags, syntaxOnlyFlags
    archivePrefix := o.archivePrefix.getD "lib"
    objectPrefix := o.objPrefix.getD ""
    exePrefix := o.exePrefix.getD ""
    -- The suffix of executables where the program is not built for Windows.
    exeSuffix := o.exeSuffix.getD ""
    warningFlags := warningFlags ++ o.warningFlags.getD []
    linkExe := linkExe ++ getLinkFlags o id }

end

variable [Semester] [HashEnvironment]

def parseToolchainJsonData (fuel : Nat) (context : String) (dat : Json) :
    Except ToolchainExn Toolchain := do
  let o ← readOptions fuel context dat
  let tc ← prepare context o
  return tc.realize

end Toolchain

end Bpt

-- SUMMARY: The commands that a toolchain makes to compile, archive and link, and the files they name.
import Bpt.Toolchain.FromJson
import Bpt.Util.Proximate

/-!
# Commands

A command is made from its template: an argument that is a placeholder by itself stands
for any number of arguments, and within other arguments placeholders are replaced.
-/

namespace Bpt

open Build (FileDepsMode)

namespace Path

/-- `replace_extension` -/
def replaceExtension (p : Path) (ext : String) : Path :=
  let ext := if ext = "" ∨ ext.toList.head? = some '.' then ext else "." ++ ext
  if p.filename = "" then ⟨p.root, p.names ++ [ext], false⟩
  else ⟨p.root, p.names.dropLast ++ [filenameStem p.filename ++ ext], false⟩

/-- `operator+=`, for text without separators. -/
def concat (p : Path) (text : String) : Path :=
  if p.filename = "" then ⟨p.root, p.names ++ [text], false⟩
  else ⟨p.root, p.names.dropLast ++ [p.filename ++ text], false⟩

end Path

structure ToolchainKnobs where
  isTty : Bool
  /-- The directory of tweaks for the compilation. -/
  tweaksDir : Option Path
  cacheBuster : Option String

structure CompileFileSpec where
  sourcePath : Path
  outPath : Path
  definitions : List String
  includeDirs : List Path
  externalIncludeDirs : List Path
  lang : Toolchain.Language
  enableWarnings : Bool
  syntaxOnly : Bool

structure CompileCommandInfo where
  command : List String
  gnuDepfilePath : Option Path
  /-- The file that is written to be compiled in place of the source, with its content. -/
  syncheck : Option (Path × String)

structure ArchiveSpec where
  inputFiles : List Path
  outPath : Path

structure LinkExeSpec where
  inputs : List Path
  output : Path

namespace Toolchain

def replaceAll (strings : List String) (key repl : String) : List String :=
  strings.map fun item => replaceIn item key repl

def includeArgs (tc : Toolchain) (p : Path) : List String :=
  replaceAll tc.incTemplate "[path]" p.toGenericString

def externalIncludeArgs (tc : Toolchain) (p : Path) : List String :=
  replaceAll tc.externIncTemplate "[path]" p.toGenericString

def definitionArgs (tc : Toolchain) (s : String) : List String := replaceAll tc.defTemplate "[def]" s

/-! ## Compiling -/

/-- The language of a file, by its extension when it is left open. -/
def languageOf (spec : CompileFileSpec) : Language :=
  if spec.lang = .automatic then
    if spec.sourcePath.extension = ".c" ∨ spec.sourcePath.extension = ".C" then .c else .cxx
  else spec.lang

/-- The file that is handed to the compiler, and what is written to it if it is not the source. -/
def inFileOf (spec : CompileFileSpec) : Path × Option (Path × String) :=
  if spec.syntaxOnly then
    let inFile :=
      (spec.outPath.parentPath / Path.ofFilename spec.sourcePath.filename).concat ".syncheck"
    let source := spec.sourcePath.toGenericString
    (inFile, some (inFile, s!"#include \"{source}\""))
  else (spec.sourcePath, none)

def depfilePath (spec : CompileFileSpec) : Path :=
  spec.outPath.replaceExtension (spec.outPath.extension ++ ".d")

def depsFlags (tc : Toolchain) (spec : CompileFileSpec) : List String :=
  match tc.depsMode with
  | .gnu =>
    ["-MD", "-MF", (depfilePath spec).toGenericString, "-MQ", spec.outPath.toGenericString]
  | .msvc => ["/showIncludes"]
  | .none => []

/-- What `[flags]` stands for. -/
def compileFlags (tc : Toolchain) (spec : CompileFileSpec) (cwd : Path) (knobs : ToolchainKnobs) :
    List String :=
  let lang := languageOf spec
  (if knobs.isTty then tc.ttyFlags else []) ++
    -- A definition that no source looks at keeps caches from taking one command for another.
    (match knobs.cacheBuster with
      | some buster => tc.definitionArgs ("__bpt_cachebust=" ++ buster)
      | none => []) ++
    (if spec.syntaxOnly then
      tc.syntaxOnlyFlags ++ (if lang = .c then tc.cSourceTypeFlags else tc.cxxSourceTypeFlags)
    else []) ++
    spec.includeDirs.flatMap (fun dir => tc.includeArgs (dir.shortestPathFrom cwd)) ++
    spec.externalIncludeDirs.flatMap tc.externalIncludeArgs ++
    (match knobs.tweaksDir with
      | some dir => tc.includeArgs (dir.shortestPathFrom cwd)
      | none => []) ++
    spec.definitions.flatMap tc.definitionArgs ++
    (if spec.enableWarnings then tc.warningFlags else []) ++
    tc.depsFlags spec

def createCompileCommand (tc : Toolchain) (spec : CompileFileSpec) (cwd : Path)
    (knobs : ToolchainKnobs) : CompileCommandInfo :=
  let flags := tc.compileFlags spec cwd knobs
  let (inFile, syncheck) := inFileOf spec
  let template := if languageOf spec = .c then tc.cCompile else tc.cxxCompile
  { command := template.flatMap fun arg =>
      if arg = "[flags]" then flags
      else
        let arg := replaceIn arg "[in]" inFile.toGenericString
        [replaceIn arg "[out]" spec.outPath.toGenericString]
    gnuDepfilePath := if tc.depsMode = .gnu then some (depfilePath spec) else none
    syncheck := syncheck }

/-! ## Archiving and linking -/

/-- What the commands that take any number of files have in common: `[in]` by itself stands
for the inputs, and `[out]` is replaced by the output in every other argument. -/
def expandFiles (template : List String) (inputs : List Path) (output cwd : Path) : List String :=
  template.flatMap fun arg =>
    if arg = "[in]" then inputs.map fun file => (file.shortestPathFrom cwd).toGenericString
    else [replaceIn arg "[out]" (output.shortestPathFrom cwd).toGenericString]

def createArchiveCommand (tc : Toolchain) (spec : ArchiveSpec) (cwd : Path) : List String :=
  expandFiles tc.linkArchive spec.inputFiles spec.outPath cwd

def createLinkExecutableCommand (tc : Toolchain) (spec : LinkExeSpec) (cwd : Path) : List String :=
  expandFiles tc.linkExe spec.inputs spec.output cwd

/-- The paths are absolute, with names that a text can spell. -/
def AbsolutePaths (ps : List Path) : Prop := ∀ p ∈ ps, p.root = true ∧ p.Legible

/-- The command is its template with texts that spell the inputs and the output. -/
def Names (cwd : Path) (template : List String) (inputs : List Path) (output : Path)
    (command : List String) : Prop :=
  ∃ ins out, List.Forall₂ (Path.Spells cwd) ins inputs ∧ Path.Spells cwd out output ∧
    command = template.flatMap fun arg => if arg = "[in]" then ins else [replaceIn arg "[out]" out]

theorem names_expandFiles {cwd : Path} (hcwd : cwd.IsWorkingDir) (template : List String)
    {inputs : List Path} {output : Path} (hpaths : AbsolutePaths (output :: inputs)) :
    Names cwd template inputs output (expandFiles template inputs output cwd) := by
  obtain ⟨houtput, hinputs⟩ := List.forall_mem_cons.mp hpaths
  refine ⟨inputs.map fun file => (file.shortestPathFrom cwd).toGenericString, _, ?_,
    Path.spells_shortestPathFrom hcwd houtput.1 houtput.2, rfl⟩
  rw [List.forall₂_map_left_iff, List.forall₂_same]
  exact fun file hfile => Path.spells_shortestPathFrom hcwd (hinputs file hfile).1 (hinputs file hfile).2

/-- A toolchain with the commands of GCC. -/
def gccLike : Toolchain where
  cCompile := ["gcc", "[flags]", "-c", "[in]", "-o[out]"]
  cxxCompile := ["g++", "[flags]", "-c", "[in]", "-o[out]"]
  incTemplate := ["-I", "[path]"]
  externIncTemplate := ["-isystem", "[path]"]
  defTemplate := ["-D", "[def]"]
  linkArchive := ["ar", "rcs", "[out]", "[in]"]
  linkExe := ["g++", "[in]", "-o[out]"]
  warningFlags := ["-Wall"]
  ttyFlags := []
  cSourceTypeFlags := ["-xc"]
  cxxSourceTypeFlags := ["-xc++"]
  syntaxOnlyFlags := ["-fsyntax-only"]
  archivePrefix := "lib"
  archiveSuffix := ".a"
  objectPrefix := ""
  objectSuffix := ".o"
  exePrefix := ""
  exeSuffix := ""
  depsMode := .gnu
  hash := 0

end Toolchain

end Bpt
